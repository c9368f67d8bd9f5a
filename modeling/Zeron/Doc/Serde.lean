import Mathlib.Algebra.Ring.Int.Defs
import Zeron.Doc.Segment
import Zeron.Registry.Json

/-!
# Derived conversions

What `serde` derives for the types that the parts of an entry store as JSON, of `crates/proto` and
`crates/doc/src/parts.rs`. An object holds each key once.
-/

namespace Zeron.Doc

open Registry (JsonValue)

def member (key : String) : JsonValue → Option JsonValue
  | .object entries => (entries.find? fun entry => entry.1 = key).map Prod.snd
  | _ => none

def asStr : JsonValue → Option String
  | .string text => some text
  | _ => none

def asBool : JsonValue → Option Bool
  | .bool value => some value
  | _ => none

def asI64 : JsonValue → Option Int
  | .int value => if -2 ^ 63 ≤ value ∧ value < 2 ^ 63 then some value else none
  | _ => none

/-- No integer of a document is above `u64::MAX`. -/
def asU64 : JsonValue → Option Nat
  | .int value => if 0 ≤ value then some value.toNat else none
  | _ => none

def asArray : JsonValue → Option (List JsonValue)
  | .array items => some items
  | _ => none

/-- A unit variant is its name, or an object with the name as its only key. -/
def asVariant {α : Type} (variants : List (String × α)) : JsonValue → Option α
  | .string name => (variants.find? fun variant => variant.1 = name).map Prod.snd
  | .object [(name, .null)] => (variants.find? fun variant => variant.1 = name).map Prod.snd
  | _ => none

/-- The fields of a struct, from an object or from an array of them in order that lacks at most
those at the end that have defaults. -/
def structFields (names : List String) (needed : Nat) :
    JsonValue → Option (String → Option JsonValue)
  | .object entries => some fun name => member name (.object entries)
  | .array items =>
      if needed ≤ items.length ∧ items.length ≤ names.length then
        some fun name => items[names.idxOf name]?
      else none
  | _ => none

/-- A field of type `Option`: absent and `null` are `None`. -/
def optionField {α : Type} (decode : JsonValue → Option α) : Option JsonValue → Option (Option α)
  | none | some .null => some none
  | some value => (decode value).map some

def defaultField {α : Type} (decode : JsonValue → Option α) (value : α) :
    Option JsonValue → Option α
  | none => some value
  | some json => decode json

def decodeAll {α : Type} (decode : JsonValue → Option α) (json : JsonValue) : Option (List α) :=
  (asArray json).bind (·.mapM decode)

def someField (name : String) (value : Option String) : List (String × JsonValue) :=
  (value.map fun text => (name, JsonValue.string text)).toList

/-! ## Tool calls -/

def encodeTodoItem (item : TodoItem) : JsonValue :=
  .object [("text", .string item.text), ("done", .bool item.done)]

def decodeTodoItem (json : JsonValue) : Option TodoItem := do
  let field ← structFields ["text", "done"] 2 json
  return { text := ← (field "text").bind asStr, done := ← (field "done").bind asBool }

def encodeToolCall : ToolCall JsonValue → JsonValue
  | .exec command => .object [("kind", .string "exec"), ("command", .string command)]
  | .readFile path => .object [("kind", .string "readFile"), ("path", .string path)]
  | .writeFile path content =>
      .object ([("kind", .string "writeFile"), ("path", .string path)] ++
        someField "content" content)
  | .editFile path oldString newString =>
      .object ([("kind", .string "editFile"), ("path", .string path)] ++
        someField "old_string" oldString ++ someField "new_string" newString)
  | .applyPatch path => .object ([("kind", .string "applyPatch")] ++ someField "path" path)
  | .search pattern path =>
      .object ([("kind", .string "search"), ("pattern", .string pattern)] ++ someField "path" path)
  | .glob pattern => .object [("kind", .string "glob"), ("pattern", .string pattern)]
  | .webFetch url prompt =>
      .object ([("kind", .string "webFetch"), ("url", .string url)] ++ someField "prompt" prompt)
  | .webSearch query => .object [("kind", .string "webSearch"), ("query", .string query)]
  | .todo items =>
      .object [("kind", .string "todo"), ("items", .array (items.map encodeTodoItem))]
  | .mcp server tool input =>
      .object ([("kind", .string "mcp"), ("server", .string server), ("tool", .string tool)] ++
        (input.map fun value => ("input", value)).toList)
  | .unknown name input =>
      .object ([("kind", .string "unknown"), ("name", .string name)] ++
        (input.map fun value => ("input", value)).toList)

def splitTag : JsonValue → Option (String × JsonValue)
  | .object entries => do
      let tag ← (member "kind" (.object entries)).bind asStr
      return (tag, .object (entries.filter fun entry => entry.1 ≠ "kind"))
  | .array (tag :: items) => (asStr tag).map fun tag => (tag, .array items)
  | _ => none

def decodeVariant (tag : String) (body : JsonValue) : Option (ToolCall JsonValue) :=
  match tag with
  | "exec" => do
      let field ← structFields ["command"] 1 body
      return .exec (← (field "command").bind asStr)
  | "readFile" => do
      let field ← structFields ["path"] 1 body
      return .readFile (← (field "path").bind asStr)
  | "writeFile" => do
      let field ← structFields ["path", "content"] 2 body
      return .writeFile (← (field "path").bind asStr) (← optionField asStr (field "content"))
  | "editFile" => do
      let field ← structFields ["path", "old_string", "new_string"] 3 body
      return .editFile (← (field "path").bind asStr) (← optionField asStr (field "old_string"))
        (← optionField asStr (field "new_string"))
  | "applyPatch" => do
      let field ← structFields ["path"] 1 body
      return .applyPatch (← optionField asStr (field "path"))
  | "search" => do
      let field ← structFields ["pattern", "path"] 2 body
      return .search (← (field "pattern").bind asStr) (← optionField asStr (field "path"))
  | "glob" => do
      let field ← structFields ["pattern"] 1 body
      return .glob (← (field "pattern").bind asStr)
  | "webFetch" => do
      let field ← structFields ["url", "prompt"] 2 body
      return .webFetch (← (field "url").bind asStr) (← optionField asStr (field "prompt"))
  | "webSearch" => do
      let field ← structFields ["query"] 1 body
      return .webSearch (← (field "query").bind asStr)
  | "todo" => do
      let field ← structFields ["items"] 0 body
      return .todo (← defaultField (decodeAll decodeTodoItem) [] (field "items"))
  | "mcp" => do
      let field ← structFields ["server", "tool", "input"] 3 body
      return .mcp (← (field "server").bind asStr) (← (field "tool").bind asStr)
        (← optionField some (field "input"))
  | "unknown" => do
      let field ← structFields ["name", "input"] 2 body
      return .unknown (← (field "name").bind asStr) (← optionField some (field "input"))
  | _ => none

def decodeToolCall (json : JsonValue) : Option (ToolCall JsonValue) :=
  (splitTag json).bind fun (tag, body) => decodeVariant tag body

/-! ## Questions and diffs -/

def encodeQuestion (question : UserInputQuestion) : JsonValue :=
  .object [("id", .string question.id), ("header", .string question.header),
    ("question", .string question.question), ("options", .array (question.options.map .string)),
    ("multiSelect", .bool question.multiSelect)]

def decodeQuestion (json : JsonValue) : Option UserInputQuestion := do
  let field ← structFields ["id", "header", "question", "options", "multiSelect"] 4 json
  return {
    id := ← (field "id").bind asStr
    header := ← (field "header").bind asStr
    question := ← (field "question").bind asStr
    options := ← (field "options").bind (decodeAll asStr)
    multiSelect := ← defaultField asBool false (field "multiSelect") }

def encodeDiff (diff : ToolDiff) : JsonValue :=
  .object ([("path", .string diff.path)] ++ someField "oldText" diff.oldText ++
    [("newText", .string diff.newText)])

def decodeDiff (json : JsonValue) : Option ToolDiff := do
  let field ← structFields ["path", "oldText", "newText"] 3 json
  return {
    path := ← (field "path").bind asStr
    oldText := ← optionField asStr (field "oldText")
    newText := ← (field "newText").bind asStr }

def encodeDiffStat (stat : ToolDiffStat) : JsonValue :=
  .object [("path", .string stat.path), ("additions", .int stat.additions),
    ("deletions", .int stat.deletions)]

def decodeDiffStat (json : JsonValue) : Option ToolDiffStat := do
  let field ← structFields ["path", "additions", "deletions"] 3 json
  return {
    path := ← (field "path").bind asStr
    additions := ← (field "additions").bind asU64
    deletions := ← (field "deletions").bind asU64 }

/-! ## They give back what they were made from -/

theorem mapM_decode {α : Type} {encode : α → JsonValue} {decode : JsonValue → Option α}
    (h : ∀ item, decode (encode item) = some item) (items : List α) :
    (items.map encode).mapM decode = some items := by
  induction items with
  | nil => rfl
  | cons item items ih => simp [h, ih]

theorem decodeTodoItem_encode (item : TodoItem) :
    decodeTodoItem (encodeTodoItem item) = some item := by
  rfl

theorem decodeToolCall_encode (call : ToolCall JsonValue) :
    decodeToolCall (encodeToolCall (sanitizeToolCall call)) = some (sanitizeToolCall call) := by
  cases call with
  | todo items =>
      have hitems : decodeAll decodeTodoItem (.array (items.map encodeTodoItem)) = some items :=
        mapM_decode decodeTodoItem_encode items
      change (decodeAll decodeTodoItem (.array (items.map encodeTodoItem))).bind
        (fun items => some (ToolCall.todo items)) = _
      rw [hitems]
      rfl
  | applyPatch path | search pattern path => cases path <;> rfl
  | exec command => rfl
  | readFile path => rfl
  | writeFile _ _ | editFile _ _ _ | glob _ | webFetch _ _ | webSearch _ | mcp _ _ _ => rfl
  | unknown name input => rfl

theorem decodeDiffStat_encode (stat : ToolDiffStat) :
    decodeDiffStat (encodeDiffStat stat) = some stat := by
  have hnumber : ∀ n : Nat, asU64 (.int n) = some n := fun n => by simp [asU64]
  simp [decodeDiffStat, encodeDiffStat, structFields, member, asStr, hnumber]

def serdeCodecs : Codecs JsonValue where
  call := ⟨encodeToolCall, decodeToolCall⟩
  questions := ⟨fun questions => .array (questions.map encodeQuestion), decodeAll decodeQuestion⟩
  diff := ⟨encodeDiff, decodeDiff⟩
  diffStats := ⟨fun stats => .array (stats.map encodeDiffStat), decodeAll decodeDiffStat⟩
  call_roundtrip := decodeToolCall_encode
  diffStats_roundtrip stats := mapM_decode decodeDiffStat_encode stats

end Zeron.Doc
