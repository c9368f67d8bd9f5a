import Zeron.Doc.Salvage

/-!
# Writing an entry

`push_message` of `crates/doc/src/schema.rs`, as the JSON that its maps are read as, and what the
readers make of an entry that was read and is written again.
-/

namespace Zeron.Doc

open Registry (JsonValue)

def keyed (name : String) (value : Option JsonValue) : List (String × JsonValue) :=
  (value.map fun value => (name, value)).toList

def roleStr : MessageRole → String
  | .user => "user"
  | .assistant => "assistant"
  | .system => "system"

def statusStr : MessageStatus → String
  | .streaming => "streaming"
  | .complete => "complete"
  | .aborted => "aborted"

def levelStr : NoticeLevel → String
  | .info => "info"
  | .warning => "warning"

/-- A length; as every integer of a document it is an `i64`. -/
def lengthJson (bytes : Nat) : JsonValue := .int bytes

/-- The map that `push_part` fills. -/
def partMap (part : DocPart JsonValue) : JsonValue :=
  .object ([("id", .string part.id), ("kind", .string part.kind)] ++
    keyed "text" (part.text.map .string) ++
    keyed "call" part.call ++
    keyed "isError" (part.isError.map .bool) ++
    keyed "questions" part.questions ++
    keyed "resolved" (part.resolved.map .bool) ++
    keyed "message" (part.message.map .string) ++
    keyed "level" (part.level.map fun level => .string (levelStr level)) ++
    keyed "output" (part.output.map .string) ++
    keyed "diff" part.diff ++
    keyed "outputRef" (part.outputRef.map .string) ++
    keyed "outputBytes" (part.outputBytes.map lengthJson) ++
    keyed "diffRef" (part.diffRef.map .string) ++
    keyed "diffStats" part.diffStats)

def pushPart (part : MessagePart JsonValue) : JsonValue := partMap (toDocPart serdeCodecs part)

/-- The map that `push_message` appends. -/
def messageMap (entry : Entry (MessagePart JsonValue)) : JsonValue :=
  .object ([("id", .string entry.id), ("role", .string (roleStr entry.role)),
      ("createdAt", .int entry.createdAt), ("deviceId", .string entry.deviceId)] ++
    keyed "status" (entry.status.map fun status => .string (statusStr status)) ++
    keyed "continuationOf" (entry.continuationOf.map .string) ++
    [("parts", .array (entry.parts.map pushPart))])

/-! ## The keys of a map -/

section Keys

variable (name key : String)

@[simp]
theorem member_nil : member name (.object []) = none := rfl

@[simp]
theorem member_cons (value : JsonValue) (entries : List (String × JsonValue)) :
    member name (.object ((key, value) :: entries)) =
      if key = name then some value else member name (.object entries) := by
  by_cases h : key = name
  · simp [member, h]
  · simp [member, h]

@[simp]
theorem member_append (first second : List (String × JsonValue)) :
    member name (.object (first ++ second)) =
      (member name (.object first)).or (member name (.object second)) := by
  induction first with
  | nil => rfl
  | cons entry first ih =>
      obtain ⟨key, value⟩ := entry
      rw [List.cons_append, member_cons, member_cons, ih]
      split_ifs <;> rfl

@[simp]
theorem member_keyed (value : Option JsonValue) :
    member name (.object (keyed key value)) = if key = name then value else none := by
  cases value with
  | none | some value => simp [keyed]

end Keys

/-! ## What was written is read -/

section Fields

variable {α : Type}

theorem optionField_encode {decode : JsonValue → Option α} {encode : α → JsonValue}
    (h : ∀ value, decode (encode value) = some value) (hnull : ∀ value, encode value ≠ .null)
    (value : Option α) : optionField decode (value.map encode) = some value := by
  cases value with
  | none => rfl
  | some value =>
      have hread : optionField decode (some (encode value)) = (decode (encode value)).map some := by
        unfold optionField
        split
        · rename_i heq
          cases heq
        · rename_i heq
          exact absurd (Option.some.inj heq) (hnull value)
        · rename_i heq
          rw [Option.some.inj heq]
      rw [Option.map_some, hread, h]
      rfl

theorem optionField_string (value : Option String) :
    optionField asStr (value.map JsonValue.string) = some value := by
  have hread : ∀ text, asStr (.string text) = some text := fun _ => rfl
  exact optionField_encode hread (by simp) value

theorem optionField_bool (value : Option Bool) :
    optionField asBool (value.map JsonValue.bool) = some value := by
  have hread : ∀ flag, asBool (.bool flag) = some flag := fun _ => rfl
  exact optionField_encode hread (by simp) value

theorem optionField_length (value : Option Nat) :
    optionField asU64 (value.map lengthJson) = some value := by
  have hread : ∀ bytes, asU64 (lengthJson bytes) = some bytes := fun bytes => by
    simp [asU64, lengthJson]
  exact optionField_encode hread (by simp [lengthJson]) value

theorem optionField_json {value : Option JsonValue} (h : value ≠ some .null) :
    optionField some value = some value := by
  unfold optionField
  split
  · rfl
  · exact absurd rfl h
  · rfl

end Fields

theorem asVariant_levelStr (level : NoticeLevel) :
    asVariant noticeLevels (.string (levelStr level)) = some level := by
  cases level <;> rfl

theorem asVariant_roleStr (role : MessageRole) :
    asVariant messageRoles (.string (roleStr role)) = some role := by
  cases role <;> rfl

theorem asVariant_statusStr (status : MessageStatus) :
    asVariant messageStatuses (.string (statusStr status)) = some status := by
  cases status <;> rfl

/-- What a part stores as JSON is never `null`. -/
structure NoNulls (part : DocPart JsonValue) : Prop where
  call : part.call ≠ some .null
  questions : part.questions ≠ some .null
  diff : part.diff ≠ some .null
  diffStats : part.diffStats ≠ some .null

theorem docPartFromJson_partMap {part : DocPart JsonValue} (h : NoNulls part) :
    docPartFromJson (partMap part) = some part := by
  have hlevel := optionField_encode asVariant_levelStr (by simp) part.level
  have hnames : (member "id" (partMap part)).bind asStr = some part.id ∧
      (member "kind" (partMap part)).bind asStr = some part.kind := by
    simp [partMap, asStr]
  have hshown : optionField asStr (member "text" (partMap part)) = some part.text ∧
      optionField some (member "call" (partMap part)) = some part.call ∧
      optionField asBool (member "isError" (partMap part)) = some part.isError ∧
      optionField some (member "questions" (partMap part)) = some part.questions ∧
      optionField asBool (member "resolved" (partMap part)) = some part.resolved ∧
      optionField asStr (member "message" (partMap part)) = some part.message ∧
      optionField (asVariant noticeLevels) (member "level" (partMap part)) = some part.level := by
    simp [partMap, optionField_string, optionField_bool, optionField_json h.call,
      optionField_json h.questions, hlevel]
  have hresult : optionField asStr (member "output" (partMap part)) = some part.output ∧
      optionField some (member "diff" (partMap part)) = some part.diff ∧
      optionField asStr (member "outputRef" (partMap part)) = some part.outputRef ∧
      optionField asU64 (member "outputBytes" (partMap part)) = some part.outputBytes ∧
      optionField asStr (member "diffRef" (partMap part)) = some part.diffRef ∧
      optionField some (member "diffStats" (partMap part)) = some part.diffStats := by
    simp [partMap, optionField_string, optionField_length, optionField_json h.diff,
      optionField_json h.diffStats]
  obtain ⟨hid, hkind⟩ := hnames
  obtain ⟨htext, hcall, hisError, hquestions, hresolved, hmessage, hlevel⟩ := hshown
  obtain ⟨houtput, hdiff, houtputRef, houtputBytes, hdiffRef, hdiffStats⟩ := hresult
  have hfields : structFields docPartFields 2 (partMap part) =
      some fun name => member name (partMap part) := rfl
  unfold docPartFromJson
  rw [hfields, Option.bind_eq_bind, Option.bind_some, hid, hkind, htext, hcall, hisError,
    hquestions, hresolved, hmessage, hlevel, houtput, hdiff, houtputRef, houtputBytes, hdiffRef,
    hdiffStats]
  rfl

theorem noNulls_toDocPart (part : MessagePart JsonValue) :
    NoNulls (toDocPart serdeCodecs part) := by
  cases part with
  | tool part =>
      have hcall : encodeToolCall part.call ≠ .null := by
        cases part.call <;> simp [encodeToolCall]
      refine ⟨?_, by simp [toDocPart], ?_, ?_⟩
      · simpa [toDocPart, serdeCodecs] using hcall
      · cases part.diff <;> simp [toDocPart, serdeCodecs, encodeDiff]
      · cases part.diffStats <;> simp [toDocPart, serdeCodecs]
  | input id requestId questions resolved =>
      refine ⟨by simp [toDocPart], by simp [toDocPart, serdeCodecs], by simp [toDocPart],
        by simp [toDocPart]⟩
  | text id text | commentary id text | notice id level message | error id message =>
      exact ⟨by simp [toDocPart], by simp [toDocPart], by simp [toDocPart], by simp [toDocPart]⟩

theorem docPartFromJson_pushPart (part : MessagePart JsonValue) :
    docPartFromJson (pushPart part) = some (toDocPart serdeCodecs part) :=
  docPartFromJson_partMap (noNulls_toDocPart part)

theorem rawEntryFromJson_messageMap {entry : Entry (MessagePart JsonValue)}
    (h : asI64 (.int entry.createdAt) = some entry.createdAt) :
    rawEntryFromJson (messageMap entry) =
      some { entry with parts := entry.parts.map (toDocPart serdeCodecs) } := by
  have hstatus := optionField_encode asVariant_statusStr (by simp) entry.status
  have hparts : (entry.parts.map pushPart).mapM docPartFromJson =
      some (entry.parts.map (toDocPart serdeCodecs)) := by
    induction entry.parts with
    | nil => rfl
    | cons part parts ih => simp [docPartFromJson_pushPart, ih]
  simp only [rawEntryFromJson, messageMap, structFields, member_append, member_cons, member_keyed,
    member_nil, Option.bind_eq_bind, Option.bind_some]
  simp [asStr, asVariant_roleStr, defaultField, decodeAll, asArray, hparts, hstatus,
    optionField_string, h]

/-! ## What the readers give -/

def ToolCall.input {Value : Type} : ToolCall Value → Option Value
  | .mcp _ _ input | .unknown _ input => input
  | _ => none

/-- A part that a reader gives: an input of a call is not `null`, and a request has its id. -/
def Readable : MessagePart JsonValue → Prop
  | .tool part => part.call.input ≠ some .null
  | .input id requestId _ _ => id = requestId
  | _ => True

/-- An entry that a reader gives. -/
structure ReadableEntry (entry : Entry (MessagePart JsonValue)) : Prop where
  createdAt : asI64 (.int entry.createdAt) = some entry.createdAt
  parts : ∀ part ∈ entry.parts, Readable part

/-- A part after it is written: the error of a call without a result is not. -/
def rewritten : MessagePart JsonValue → MessagePart JsonValue
  | .tool part => .tool { part with isError := part.resolved && part.isError }
  | part => part

theorem optionField_ne_null {field : Option JsonValue} {value : Option JsonValue}
    (h : optionField some field = some value) : value ≠ some .null := by
  unfold optionField at h
  split at h
  · cases h
    simp
  · cases h
    simp
  · rename_i json hjson
    cases h
    simpa using hjson

theorem decodeVariant_input {tag : String} {body : JsonValue} {call : ToolCall JsonValue}
    (h : decodeVariant tag body = some call) : call.input ≠ some .null := by
  unfold decodeVariant at h
  split at h <;> simp only [Option.bind_eq_bind, Option.bind_eq_some_iff, Option.pure_def,
    Option.some.injEq, reduceCtorEq] at h
  case h_11 =>
    obtain ⟨field, -, server, -, tool, -, input, hinput, rfl⟩ := h
    exact optionField_ne_null hinput
  case h_12 =>
    obtain ⟨field, -, name, -, input, hinput, rfl⟩ := h
    exact optionField_ne_null hinput
  all_goals
    cases call with
    | mcp _ _ _ | unknown _ _ => simp at h
    | _ => simp [ToolCall.input]

theorem decodeToolCall_input {json : JsonValue} {call : ToolCall JsonValue}
    (h : decodeToolCall json = some call) : call.input ≠ some .null := by
  obtain ⟨⟨tag, body⟩, -, hbody⟩ := Option.bind_eq_some_iff.mp h
  exact decodeVariant_input hbody

/-- A call keeps the inputs that it was read with. -/
theorem decodeToolCall_encode_of_input {call : ToolCall JsonValue}
    (h : call.input ≠ some .null) : decodeToolCall (encodeToolCall call) = some call := by
  cases call with
  | writeFile path content => cases content <;> rfl
  | editFile path oldString newString => cases oldString <;> cases newString <;> rfl
  | webFetch url prompt => cases prompt <;> rfl
  | mcp server tool input =>
      cases input with
      | none => rfl
      | some value =>
          have hread : optionField some (some value) = some (some value) := optionField_json h
          change (optionField some (some value)).bind
            (fun input => some (ToolCall.mcp server tool input)) = _
          rw [hread]
          rfl
  | unknown name input =>
      cases input with
      | none => rfl
      | some value =>
          have hread : optionField some (some value) = some (some value) := optionField_json h
          change (optionField some (some value)).bind
            (fun input => some (ToolCall.unknown name input)) = _
          rw [hread]
          rfl
  | exec command => exact decodeToolCall_encode (.exec command)
  | readFile path => exact decodeToolCall_encode (.readFile path)
  | applyPatch path => exact decodeToolCall_encode (.applyPatch path)
  | search pattern path => exact decodeToolCall_encode (.search pattern path)
  | glob pattern => exact decodeToolCall_encode (.glob pattern)
  | webSearch query => exact decodeToolCall_encode (.webSearch query)
  | todo items => exact decodeToolCall_encode (.todo items)

theorem readable_fromDocPart (part : DocPart JsonValue) :
    Readable (fromDocPart serdeCodecs part) := by
  unfold fromDocPart
  split_ifs with htool
  · split
    · rename_i call hcall
      obtain ⟨json, -, hdecode⟩ := Option.bind_eq_some_iff.mp hcall
      exact decodeToolCall_input hdecode
    · trivial
  · rfl
  all_goals trivial

theorem readable_salvagePart {element : JsonValue} {entryId : String} {ix : Nat}
    {part : MessagePart JsonValue} (h : salvagePart element entryId ix = some part) :
    Readable part := by
  cases element with
  | object entries =>
      simp only [salvagePart] at h
      split at h
      · cases h
        split_ifs <;> trivial
      · split at h
        · rename_i call hcall
          cases h
          obtain ⟨json, -, hdecode⟩ := Option.bind_eq_some_iff.mp hcall
          exact decodeToolCall_input hdecode
        · obtain ⟨message, -, rfl⟩ := Option.map_eq_some_iff.mp h
          split_ifs <;> trivial
  | _ => cases h

theorem asI64_bound {json : JsonValue} {value : Int} (h : asI64 json = some value) :
    asI64 (.int value) = some value := by
  cases json with
  | int number =>
      have hkept : number = value := by
        dsimp only [asI64] at h
        split_ifs at h
        exact Option.some.inj h
      rw [hkept] at h
      exact h
  | _ => cases h

theorem readableEntry_of_entryFromJson {stableHash : JsonValue → Nat} {json : JsonValue}
    {entry : Entry (MessagePart JsonValue)} (h : entryFromJson stableHash json = some entry) :
    ReadableEntry entry := by
  unfold entryFromJson at h
  split at h
  · rename_i raw hraw
    cases h
    refine ⟨?_, ?_⟩
    · simp only [rawEntryFromJson, Option.bind_eq_bind, Option.bind_eq_some_iff, Option.pure_def,
        Option.some.injEq] at hraw
      obtain ⟨field, -, id, -, role, -, parts, -, createdAt, ⟨json', -, hcreatedAt⟩, deviceId, -,
        status, -, continuationOf, -, rfl⟩ := hraw
      exact asI64_bound hcreatedAt
    · intro part hpart
      obtain ⟨docPart, -, rfl⟩ := List.mem_map.mp hpart
      exact readable_fromDocPart docPart
  · cases json with
    | object entries =>
        cases h
        refine ⟨?_, ?_⟩
        · dsimp only
          cases hcreatedAt : (member "createdAt" (.object entries)).bind asI64 with
          | none => rfl
          | some createdAt =>
              obtain ⟨json', -, hdecode⟩ := Option.bind_eq_some_iff.mp hcreatedAt
              exact asI64_bound hdecode
        · intro part hpart
          obtain ⟨⟨element, ix⟩, -, hdecode⟩ := List.mem_filterMap.mp hpart
          dsimp only [decodePart] at hdecode
          split at hdecode
          · cases hdecode
            exact readable_fromDocPart _
          · exact readable_salvagePart hdecode
    | _ => cases h

/-! ## Reading what was written -/

theorem decodeQuestion_encode (question : UserInputQuestion) :
    decodeQuestion (encodeQuestion question) = some question := by
  have hoptions : decodeAll asStr (.array (question.options.map .string)) =
      some question.options := by
    have hread : ∀ text, asStr (JsonValue.string text) = some text := fun _ => rfl
    exact mapM_decode hread question.options
  change (decodeAll asStr (.array (question.options.map .string))).bind
    (fun options => some { question with options }) = _
  rw [hoptions]
  rfl

theorem decodeDiff_encode (diff : ToolDiff) : decodeDiff (encodeDiff diff) = some diff := by
  obtain ⟨path, oldText, newText⟩ := diff
  cases oldText <;> rfl

theorem fromDocPart_toDocPart {part : MessagePart JsonValue} (h : Readable part) :
    fromDocPart serdeCodecs (toDocPart serdeCodecs part) = rewritten part := by
  cases part with
  | tool part =>
      have hcall : decodeToolCall (encodeToolCall part.call) = some part.call :=
        decodeToolCall_encode_of_input h
      have hdiff : (part.diff.map encodeDiff).bind decodeDiff = part.diff := by
        cases part.diff with
        | none => rfl
        | some diff => exact decodeDiff_encode diff
      have hstats : (part.diffStats.map serdeCodecs.diffStats.toValue).bind
          serdeCodecs.diffStats.fromValue = part.diffStats := by
        cases part.diffStats with
        | none => rfl
        | some stats => exact serdeCodecs.diffStats_roundtrip stats
      have herror : (if part.resolved then some part.isError else none).getD false =
            (part.resolved && part.isError) ∧
          (if part.resolved then some part.isError else none).isSome = part.resolved := by
        cases part.resolved <;> simp
      have hcodecs : serdeCodecs.call.toValue = encodeToolCall ∧
          serdeCodecs.call.fromValue = decodeToolCall ∧ serdeCodecs.diff.toValue = encodeDiff ∧
          serdeCodecs.diff.fromValue = decodeDiff := ⟨rfl, rfl, rfl, rfl⟩
      simp only [fromDocPart, toDocPart, hcodecs, Option.bind_some, hcall, hdiff, hstats, herror,
        if_true, rewritten]
  | input id requestId questions resolved =>
      have hquestions : decodeAll decodeQuestion (.array (questions.map encodeQuestion)) =
          some questions := mapM_decode decodeQuestion_encode questions
      have hid : id = requestId := h
      rw [hid]
      change MessagePart.input requestId requestId
        ((decodeAll decodeQuestion (.array (questions.map encodeQuestion))).getD []) resolved = _
      rw [hquestions]
      rfl
  | text id text | commentary id text | notice id level message | error id message => rfl

/-- **An entry that was read and is written again** is read as it was, but for errors of calls
without a result. -/
theorem entryFromJson_messageMap {entry : Entry (MessagePart JsonValue)} (h : ReadableEntry entry)
    (stableHash : JsonValue → Nat) :
    entryFromJson stableHash (messageMap entry) =
      some { entry with parts := entry.parts.map rewritten } := by
  have hparts : (entry.parts.map (toDocPart serdeCodecs)).map (fromDocPart serdeCodecs) =
      entry.parts.map rewritten := by
    rw [List.map_map]
    exact List.map_congr_left fun part hpart => fromDocPart_toDocPart (h.parts part hpart)
  simp only [entryFromJson, rawEntryFromJson_messageMap h.createdAt, readEntry, hparts]

end Zeron.Doc
