import Zeron.Doc.Rebuild
import Zeron.Lib.CharBoundary
import Zeron.Registry.Raw

/-!
# Updates of an agent as events

`map_update` of `crates/harness/src/acp/normalize.rs`, up to `parse_commands`, whose events no
transcript shows. Each update of a tool call is typed on its own, and the fold of message parts puts
what it is typed as in the place of the call that is stored.
-/

namespace Zeron.Registry.JsonValue

/-- `Value::get` -/
def get? (key : String) : JsonValue → Option JsonValue
  | .object entries => entries.lookup key
  | _ => none

def array? : JsonValue → Option (List JsonValue)
  | .array items => some items
  | _ => none

end Zeron.Registry.JsonValue

namespace Zeron.Harness.Normalize

open Zeron.Doc
open Zeron.Lib.Utf8
open Zeron.Registry (JsonValue)
open Zeron.Registry.JsonValue

def outputCap : Nat := 16 * 1024

def diffTextCap : Nat := 64 * 1024

def livePlanToolId : String := "acp-plan"

section Fields

def text? (value : JsonValue) (key : String) : Option String := (value.get? key).bind str?

def strField (value : JsonValue) (key : String) : String := (text? value key).getD ""

def filled (text : String) : Option String := if text = "" then none else some text

def trimmed (text : String) : String := String.ofList (trim text.toList)

/-- Cut on a character boundary, with a mark. -/
def capText (text : String) (cap : Nat) : String :=
  let bytes := encode text
  if bytes.length ≤ cap then text
  else (sliceText bytes 0 (backToBoundary bytes cap)).getD "" ++ "\n… [truncated]"

def contentBlockText (block : JsonValue) : Option String :=
  if text? block "type" = some "text" then text? block "text" else none

def chunkText (update : JsonValue) : Option String :=
  ((update.get? "content").bind contentBlockText).bind filled

/-- The entries of a tool call's `content` that have the type. -/
def contentOf (update : JsonValue) (type : String) : List JsonValue :=
  (((update.get? "content").bind array?).getD []).filter fun entry =>
    text? entry "type" = some type

def toolOutput (update : JsonValue) : Option String :=
  match (contentOf update "content").filterMap fun entry =>
      ((entry.get? "content").bind contentBlockText).bind filled with
  | [] => none
  | parts => some (capText ("\n".intercalate parts) outputCap)

def toolDiff (update : JsonValue) : Option ToolDiff :=
  (contentOf update "diff").head?.bind fun diff =>
    (filled (strField diff "path")).map fun path => {
      path
      oldText := (text? diff "oldText").map (capText · diffTextCap)
      newText := capText (strField diff "newText") diffTextCap }

def firstLocation (update : JsonValue) : Option String :=
  (((update.get? "locations").bind array?).bind List.head?).bind fun location =>
    (text? location "path").bind filled

end Fields

/-! ## Titles -/

section Titles

/-- What agents put in `title` before the arguments arrive. -/
def placeholderTitles : List String :=
  ["grep", "Find", "Terminal", "Read File", "Edit File", "Delete File", "Web Search", "Web Fetch",
    "Codebase Search", "Read TODOs", "Update TODOs", "Read Lints", "Task: Subagent task",
    "Subagent task", "List MCP Resources", "Fetch MCP Resource"]

def isPlaceholderTitle (title : String) : Bool := trimmed title ∈ placeholderTitles

def unescapeTicks : List Char → List Char
  | '\\' :: '`' :: rest => '`' :: unescapeTicks rest
  | c :: rest => c :: unescapeTicks rest
  | [] => []

def argFromTitle (title : String) : Option String :=
  let title := trimmed title
  if title = "" || isPlaceholderTitle title then none else some title

/-- A title that is one markdown code span. -/
def unwrapCommandTitle (title : String) : Option String :=
  match trim title.toList with
  | '`' :: rest =>
      if rest.getLast? = some '`' then argFromTitle (String.ofList (unescapeTicks rest.dropLast))
      else none
  | _ => none

end Titles

/-! ## Calls -/

section Calls

variable (update : JsonValue)

def rawInput : Option JsonValue := (update.get? "rawInput").filter fun raw => !raw.isNull

def rawStr (key : String) : Option String := ((rawInput update).bind (text? · key)).bind filled

def title : String := strField update "title"

def argPath : Option String :=
  rawStr update "path" <|> rawStr update "file_path" <|> rawStr update "filePath" <|>
    firstLocation update

def diffCall (diff : ToolDiff) : ToolCall JsonValue :=
  if diff.oldText.isNone then .writeFile diff.path none else .editFile diff.path none none

def unknownCall (kind : String) : ToolCall JsonValue :=
  if rawStr update "_toolName" = some "task" then
    .unknown
      (((rawStr update "description").filter (· ≠ "Subagent task")).map ("Task: " ++ ·) <|>
        argFromTitle (title update) |>.getD (if title update = "" then "Task" else title update))
      (rawInput update)
  else .unknown (if title update = "" then kind else title update) (rawInput update)

def typedCall : ToolCall JsonValue :=
  let kind := (text? update "kind").getD "other"
  let titleArg := argFromTitle (title update)
  match kind with
  | "execute" =>
      .exec ((rawStr update "command" <|> unwrapCommandTitle (title update) <|> titleArg).getD "")
  | "read" => .readFile ((argPath update <|> titleArg).getD "")
  | "edit" | "delete" | "move" =>
      match toolDiff update with
      | some diff => diffCall diff
      | none =>
          match argPath update with
          | some path => if kind = "edit" then .editFile path none none else .applyPatch (some path)
          | none => .applyPatch none
  | "search" =>
      match rawStr update "searchTerm" with
      | some query => .webSearch query
      | none =>
          .search
            ((rawStr update "pattern" <|> rawStr update "globPattern" <|> rawStr update "query" <|>
              titleArg).getD "")
            (rawStr update "path")
  | "fetch" =>
      match rawStr update "url" with
      | some url => .webFetch url none
      | none =>
          .webSearch
            ((rawStr update "searchTerm" <|> rawStr update "query" <|> titleArg).getD "")
  | kind =>
      match toolDiff update with
      | some diff => diffCall diff
      | none => unknownCall update kind

end Calls

/-! ## Updates -/

section Updates

variable (update : JsonValue)

def terminal? : Option Bool :=
  match text? update "status" with
  | some "completed" => some false
  | some "failed" => some true
  | _ => none

def resolvedResult (id : String) : Option (Doc.AgentEvent JsonValue) :=
  (terminal? update).map fun isError => .toolResult id isError (toolOutput update) (toolDiff update)

def toolCallId : String := strField update "toolCallId"

/-- The update carries a new shape. -/
def Refreshes : Bool :=
  (update.get? "kind").isSome || (update.get? "title").isSome || (update.get? "rawInput").isSome ||
    (toolDiff update).isSome

def toolCallEvents : List (Doc.AgentEvent JsonValue) :=
  .toolCall (toolCallId update) (typedCall update) ::
    (resolvedResult update (toolCallId update)).toList

def toolCallUpdateEvents : List (Doc.AgentEvent JsonValue) :=
  (if Refreshes update then [.toolCall (toolCallId update) (typedCall update)] else []) ++
    (resolvedResult update (toolCallId update)).toList

def todoItem (entry : JsonValue) : TodoItem where
  text := strField entry "content"
  done := text? entry "status" = some "completed"

/-- The plan has no id of its own, so every update refreshes one chip. -/
def planEvents : List (Doc.AgentEvent JsonValue) :=
  [.toolCall livePlanToolId (.todo ((((update.get? "entries").bind array?).getD []).map todoItem)),
   .toolResult livePlanToolId false none none]

/-- The message of a warning that an adapter sends as text. -/
def warning? (text : String) : Option String :=
  (text.toList.dropPrefix? "Warning:".toList <|>
    text.toList.dropPrefix? "Config warning:".toList).bind fun rest =>
      filled (String.ofList (trim rest))

def messageEvent (text : String) : Doc.AgentEvent JsonValue :=
  if ((update.get? "_meta").bind (·.get? "codex")).bind (text? · "phase") = some "commentary" then
    .commentaryDelta text
  else
    match if (update.get? "messageId").isNone then warning? text else none with
    | some message => .notice .warning message
    | none => .textDelta text

def mapUpdate : List (Doc.AgentEvent JsonValue) :=
  match strField update "sessionUpdate" with
  | "agent_message_chunk" => (chunkText update).toList.map (messageEvent update)
  | "agent_thought_chunk" => (chunkText update).toList.map .reasoningDelta
  | "tool_call" => toolCallEvents update
  | "tool_call_update" => toolCallUpdateEvents update
  | "plan" => planEvents update
  | "available_commands_update" => [.availableCommands]
  | _ => []

end Updates

/-! ## The stored call -/

section Stored

variable (lineChanges : String → String → List ChangeTag) (id : String)

def transcript (parts : List (MessagePart JsonValue)) (updates : List JsonValue) :
    List (MessagePart JsonValue) :=
  (updates.flatMap mapUpdate).foldl (foldEvent lineChanges) parts

def storedCall : List (MessagePart JsonValue) → Option (ToolCall JsonValue)
  | [] => none
  | .tool part :: rest => if part.id = id then some part.call else storedCall rest
  | _ :: rest => storedCall rest

variable {lineChanges id} {parts parts' : List (MessagePart JsonValue)} {call : ToolCall JsonValue}

theorem storedCall_refreshCall (h : refreshCall id call parts = some parts') :
    storedCall id parts' = some call := by
  induction parts generalizing parts' with
  | nil => cases h
  | cons part rest ih =>
      cases part with
      | tool part =>
          rw [refreshCall] at h
          split_ifs at h with hid
          · cases h
            exact if_pos hid
          · obtain ⟨rest', hrest, rfl⟩ := Option.map_eq_some_iff.mp h
            rw [storedCall, if_neg hid]
            exact ih hrest
      | text _ _ | commentary _ _ | notice _ _ _ | input _ _ _ _ | error _ _ =>
          obtain ⟨rest', hrest, rfl⟩ := Option.map_eq_some_iff.mp h
          have hstored := ih hrest
          exact hstored

theorem storedCall_append (h : refreshCall id call parts = none) {part : ToolPart JsonValue}
    (hid : part.id = id) : storedCall id (parts ++ [MessagePart.tool part]) = some part.call := by
  induction parts with
  | nil => exact if_pos hid
  | cons other rest ih =>
      cases other with
      | tool other =>
          rw [refreshCall] at h
          split_ifs at h with hother
          rw [List.cons_append, storedCall, if_neg hother]
          exact ih (Option.map_eq_none_iff.mp h)
      | text _ _ | commentary _ _ | notice _ _ _ | input _ _ _ _ | error _ _ =>
          exact ih (Option.map_eq_none_iff.mp h)

theorem storedCall_toolCall (call : ToolCall JsonValue) :
    storedCall id (foldEvent lineChanges parts (.toolCall id call)) = some call := by
  rw [foldEvent]
  cases hrefresh : refreshCall id call parts with
  | none => exact storedCall_append hrefresh rfl
  | some parts' => exact storedCall_refreshCall hrefresh

theorem storedCall_toolResult (isError : Bool) (output : Option String) (diff : Option ToolDiff) :
    storedCall id (foldEvent lineChanges parts (.toolResult id isError output diff)) =
      storedCall id parts := by
  rw [foldEvent]
  induction parts with
  | nil => rfl
  | cons part rest ih =>
      cases part with
      | tool part =>
          rw [List.map_cons, MessagePart.settle]
          by_cases hid : part.id = id
          · rw [if_pos hid, storedCall, storedCall, if_pos hid, if_pos hid]
          · rw [if_neg hid, storedCall, storedCall, if_neg hid, if_neg hid]
            exact ih
      | text _ _ | commentary _ _ | notice _ _ _ | input _ _ _ _ | error _ _ => exact ih

theorem storedCall_resolvedResult (update : JsonValue) :
    storedCall id ((resolvedResult update id).toList.foldl (foldEvent lineChanges) parts) =
      storedCall id parts := by
  unfold resolvedResult
  cases terminal? update with
  | none => rfl
  | some isError => exact storedCall_toolResult isError (toolOutput update) (toolDiff update)

end Stored

/-! ## One tool call -/

section Chip

variable (lineChanges : String → String → List ChangeTag)

def knownKinds : List String := ["execute", "read", "edit", "delete", "move", "search", "fetch"]

def editKinds : List String := ["edit", "delete", "move"]

/-- The opening update of a call, which states a known kind. -/
def Opens (id kind : String) (update : JsonValue) : Prop :=
  strField update "sessionUpdate" = "tool_call" ∧ toolCallId update = id ∧
    text? update "kind" = some kind ∧ kind ∈ knownKinds

/-- A later update of the call, which states no kind. -/
def Continues (id : String) (update : JsonValue) : Prop :=
  strField update "sessionUpdate" = "tool_call_update" ∧ toolCallId update = id ∧
    text? update "kind" = none

/-- The variants that a kind determines; an edit is a patch, a write or an edit. -/
def OfKind (kind : String) : ToolCall JsonValue → Prop
  | .exec _ => kind = "execute"
  | .readFile _ => kind = "read"
  | .writeFile _ _ | .editFile _ _ _ | .applyPatch _ => kind ∈ editKinds
  | .search _ _ => kind = "search"
  | .webSearch _ => kind = "search" ∨ kind = "fetch"
  | .webFetch _ _ => kind = "fetch"
  | _ => False

def shown : ToolCall JsonValue → String
  | .exec command => command
  | .readFile path | .writeFile path _ | .editFile path _ _ => path
  | .applyPatch path => path.getD ""
  | .search pattern _ | .glob pattern => pattern
  | .webFetch url _ => url
  | .webSearch query => query
  | _ => ""

/-- The stored call after each update has a variant of the kind, and what it showed before it still
shows. -/
def KeepsChip (parts : List (MessagePart JsonValue)) (id kind : String) (opening : JsonValue)
    (updates : List JsonValue) : Prop :=
  ∀ before after, updates = before ++ after → ∃ call,
    storedCall id (transcript lineChanges parts (opening :: before)) = some call ∧
      OfKind kind call ∧
        ∀ update rest, after = update :: rest → ∃ call',
          storedCall id (transcript lineChanges parts (opening :: (before ++ [update]))) = some call' ∧
            (shown call ≠ "" → shown call' ≠ "")

/-- The update leaves the call alone, or it is a diff of an edit. -/
def Harmless (kind : String) (update : JsonValue) : Prop :=
  Refreshes update = true → kind ∈ editKinds ∧ (toolDiff update).isSome = true

def chipAfter (call : ToolCall JsonValue) (update : JsonValue) : ToolCall JsonValue :=
  if Refreshes update then typedCall update else call

variable {lineChanges} {parts : List (MessagePart JsonValue)} {id kind : String}
variable {opening update : JsonValue} {updates : List JsonValue} {call : ToolCall JsonValue}

theorem mapUpdate_of_opens (h : Opens id kind update) : mapUpdate update = toolCallEvents update := by
  unfold mapUpdate
  rw [h.1]
  rfl

theorem mapUpdate_of_continues (h : Continues id update) :
    mapUpdate update = toolCallUpdateEvents update := by
  unfold mapUpdate
  rw [h.1]
  rfl

theorem storedCall_opens (h : Opens id kind opening) :
    storedCall id (transcript lineChanges parts [opening]) = some (typedCall opening) := by
  unfold transcript
  rw [List.flatMap_singleton, mapUpdate_of_opens h, toolCallEvents, h.2.1, List.foldl_cons,
    storedCall_resolvedResult, storedCall_toolCall]

theorem storedCall_continues (h : Continues id update)
    (hcall : storedCall id parts = some call) :
    storedCall id (transcript lineChanges parts [update]) = some (chipAfter call update) := by
  unfold transcript chipAfter
  rw [List.flatMap_singleton, mapUpdate_of_continues h, toolCallUpdateEvents, h.2.1,
    List.foldl_append, storedCall_resolvedResult]
  split_ifs
  · rw [List.foldl_cons, List.foldl_nil, storedCall_toolCall]
  · exact hcall

theorem transcript_append (front back : List JsonValue) :
    transcript lineChanges parts (front ++ back) =
      transcript lineChanges (transcript lineChanges parts front) back := by
  unfold transcript
  rw [List.flatMap_append, List.foldl_append]

theorem storedCall_transcript (hopening : Opens id kind opening)
    (hupdates : ∀ update ∈ updates, Continues id update) :
    storedCall id (transcript lineChanges parts (opening :: updates)) =
      some (updates.foldl chipAfter (typedCall opening)) := by
  induction updates using List.reverseRecOn with
  | nil => exact storedCall_opens hopening
  | append_singleton updates update ih =>
      rw [← List.cons_append, transcript_append, List.foldl_concat]
      apply storedCall_continues (hupdates update (by simp))
      exact ih fun update hupdate => hupdates update (List.mem_append_left _ hupdate)

theorem ofKind_diffCall (hkind : kind ∈ editKinds) (diff : ToolDiff) : OfKind kind (diffCall diff) := by
  unfold diffCall
  split_ifs
  · exact hkind
  · exact hkind

/-- A call is typed as its stated kind determines. -/
theorem ofKind_typedCall (h : text? update "kind" = some kind) (hkind : kind ∈ knownKinds) :
    OfKind kind (typedCall update) := by
  have hedit : kind ∈ editKinds → OfKind kind (match toolDiff update with
      | some diff => diffCall diff
      | none =>
          match argPath update with
          | some path => if kind = "edit" then .editFile path none none else .applyPatch (some path)
          | none => .applyPatch none) := by
    intro hkind
    cases toolDiff update with
    | some diff => exact ofKind_diffCall hkind diff
    | none =>
        cases argPath update with
        | none => exact hkind
        | some path =>
            dsimp only
            split_ifs
            · exact hkind
            · exact hkind
  unfold typedCall
  rw [h]
  simp only [knownKinds, List.mem_cons, List.not_mem_nil, or_false] at hkind
  obtain rfl | rfl | rfl | rfl | rfl | rfl | rfl := hkind
  · rfl
  · rfl
  · exact hedit (by decide)
  · exact hedit (by decide)
  · exact hedit (by decide)
  · dsimp only [Option.getD_some]
    cases rawStr update "searchTerm" with
    | some query => exact .inl rfl
    | none => rfl
  · dsimp only [Option.getD_some]
    cases rawStr update "url" with
    | some url => rfl
    | none => exact .inr rfl

theorem typedCall_of_continues (h : Continues id update) : typedCall update =
    match toolDiff update with
    | some diff => diffCall diff
    | none => unknownCall update "other" := by
  unfold typedCall
  rw [h.2.2]
  rfl

theorem not_ofKind_unknownCall (update : JsonValue) (name : String) :
    ¬ OfKind kind (unknownCall update name) := by
  unfold unknownCall
  by_cases htask : rawStr update "_toolName" = some "task"
  · rw [if_pos htask]
    exact fun hkind => hkind
  · rw [if_neg htask]
    exact fun hkind => hkind

theorem shown_diffCall {diff : ToolDiff} (h : toolDiff update = some diff) :
    shown (diffCall diff) ≠ "" := by
  obtain ⟨entry, -, hdiff⟩ := Option.bind_eq_some_iff.mp h
  obtain ⟨path, hpath, rfl⟩ := Option.map_eq_some_iff.mp hdiff
  unfold filled at hpath
  split_ifs at hpath with hempty
  cases hpath
  unfold diffCall
  split_ifs
  · exact hempty
  · exact hempty

theorem chipAfter_harmless (h : Continues id update) (hharmless : Harmless kind update)
    (hcall : OfKind kind call) :
    OfKind kind (chipAfter call update) ∧ (shown call ≠ "" → shown (chipAfter call update) ≠ "") := by
  unfold chipAfter
  split_ifs with hrefreshes
  · obtain ⟨hedit, hdiff⟩ := hharmless hrefreshes
    obtain ⟨diff, hdiff⟩ := Option.isSome_iff_exists.mp hdiff
    rw [typedCall_of_continues h, hdiff]
    exact ⟨ofKind_diffCall hedit diff, fun _ => shown_diffCall hdiff⟩
  · exact ⟨hcall, fun hshown => hshown⟩

theorem chipAfter_harmful (h : Continues id update) (hkind : OfKind kind (chipAfter call update)) :
    Harmless kind update := by
  intro hrefreshes
  rw [chipAfter, if_pos hrefreshes, typedCall_of_continues h] at hkind
  cases hdiff : toolDiff update with
  | none =>
      rw [hdiff] at hkind
      exact absurd hkind (not_ofKind_unknownCall update "other")
  | some diff =>
      rw [hdiff] at hkind
      refine ⟨?_, rfl⟩
      dsimp only [diffCall] at hkind
      split_ifs at hkind
      · exact hkind
      · exact hkind

theorem ofKind_foldl (hopening : Opens id kind opening)
    (hupdates : ∀ update ∈ updates, Continues id update ∧ Harmless kind update) :
    OfKind kind (updates.foldl chipAfter (typedCall opening)) := by
  induction updates using List.reverseRecOn with
  | nil => exact ofKind_typedCall hopening.2.2.1 hopening.2.2.2
  | append_singleton updates update ih =>
      rw [List.foldl_concat]
      obtain ⟨hcontinues, hharmless⟩ := hupdates update (by simp)
      refine (chipAfter_harmless hcontinues hharmless (ih fun update hupdate => ?_)).1
      exact hupdates update (List.mem_append_left _ hupdate)

/-- **Chips.** A chip keeps its variant and what it shows through later updates without a kind exactly
when each of them leaves the call alone or is a diff of an edit. -/
theorem keepsChip_iff (lineChanges : String → String → List ChangeTag)
    (parts : List (MessagePart JsonValue)) (hopening : Opens id kind opening)
    (hupdates : ∀ update ∈ updates, Continues id update) :
    KeepsChip lineChanges parts id kind opening updates ↔
      ∀ update ∈ updates, Harmless kind update := by
  have hstored : ∀ before after, updates = before ++ after →
      storedCall id (transcript lineChanges parts (opening :: before)) =
        some (before.foldl chipAfter (typedCall opening)) := by
    rintro before after rfl
    exact storedCall_transcript hopening fun update hupdate =>
      hupdates update (List.mem_append_left _ hupdate)
  constructor
  · intro hkeeps update hupdate
    obtain ⟨before, after, rfl⟩ := List.append_of_mem hupdate
    have heq : before ++ update :: after = (before ++ [update]) ++ after := by simp
    obtain ⟨call, hcall, hkind, -⟩ := hkeeps (before ++ [update]) after heq
    rw [hstored _ _ heq, List.foldl_concat] at hcall
    cases hcall
    exact chipAfter_harmful (hupdates update hupdate) hkind
  · rintro hharmless before after rfl
    have hkind : OfKind kind (before.foldl chipAfter (typedCall opening)) := by
      apply ofKind_foldl hopening
      intro update hupdate
      have hmem := List.mem_append_left after hupdate
      exact ⟨hupdates update hmem, hharmless update hmem⟩
    refine ⟨_, hstored before after rfl, hkind, ?_⟩
    rintro update rest rfl
    have hmem : update ∈ before ++ update :: rest := by simp
    refine ⟨_, hstored (before ++ [update]) rest (by simp), ?_⟩
    rw [List.foldl_concat]
    exact (chipAfter_harmless (hupdates update hmem) (hharmless update hmem) hkind).2

end Chip

section Runs

def update (fields : List (String × String)) : JsonValue :=
  .object (fields.map fun field => (field.1, .string field.2))

/-- `ls -la` runs. -/
def runsCommand : JsonValue :=
  update [("sessionUpdate", "tool_call"), ("toolCallId", "t1"), ("kind", "execute"), ("title", "`ls -la`")]

def completes : JsonValue :=
  update [("sessionUpdate", "tool_call_update"), ("toolCallId", "t1"), ("status", "completed")]

/-- An update with a new title only. -/
def retitles : JsonValue :=
  update [("sessionUpdate", "tool_call_update"), ("toolCallId", "t1"), ("title", "Listing files")]

theorem opens_runsCommand : Opens "t1" "execute" runsCommand :=
  ⟨by decide +kernel, by decide +kernel, by decide +kernel, by decide +kernel⟩

theorem keepsChip_completes :
    KeepsChip (fun _ _ => []) [] "t1" "execute" runsCommand [completes] := by
  refine (keepsChip_iff _ [] opens_runsCommand fun update hupdate => ?_).mpr fun update hupdate => ?_
  · rw [List.mem_singleton.mp hupdate]
    exact ⟨by decide +kernel, by decide +kernel, by decide +kernel⟩
  · rw [List.mem_singleton.mp hupdate]
    exact fun hrefreshes => absurd hrefreshes (by decide +kernel)

/-- A title of its own makes a command unknown. -/
theorem title_degrades_chip :
    ¬ ∀ updates, (∀ update ∈ updates, Continues "t1" update) →
      KeepsChip (fun _ _ => []) [] "t1" "execute" runsCommand updates := by
  intro h
  have hcontinues : ∀ update ∈ [retitles], Continues "t1" update := by
    intro update hupdate
    rw [List.mem_singleton.mp hupdate]
    exact ⟨by decide +kernel, by decide +kernel, by decide +kernel⟩
  obtain ⟨call, hcall, hkind, -⟩ := h [retitles] hcontinues [retitles] [] rfl
  rw [storedCall_transcript opens_runsCommand hcontinues] at hcall
  cases hcall
  have hkind : OfKind "execute" (chipAfter (typedCall runsCommand) retitles) := hkind
  have hharmless := chipAfter_harmful (hcontinues retitles List.mem_cons_self) hkind
  exact absurd (hharmless (by decide +kernel)).1 (by decide +kernel)

end Runs

end Zeron.Harness.Normalize
