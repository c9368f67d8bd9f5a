import Zeron.Doc.Serde

/-!
# Reading a stored entry

`entry_from_json` of `crates/doc/src/schema.rs`: the derived decoders of `RawEntry` and
`DocPartJson`, and what is salvaged of an entry that they reject.
-/

namespace Zeron.Doc

open Registry (JsonValue)

def noticeLevels : List (String × NoticeLevel) := [("info", .info), ("warning", .warning)]

def messageRoles : List (String × MessageRole) :=
  [("user", .user), ("assistant", .assistant), ("system", .system)]

def messageStatuses : List (String × MessageStatus) :=
  [("streaming", .streaming), ("complete", .complete), ("aborted", .aborted)]

def docPartFields : List String :=
  ["id", "kind", "text", "call", "isError", "questions", "resolved", "message", "level", "output",
    "diff", "outputRef", "outputBytes", "diffRef", "diffStats"]

def docPartFromJson (json : JsonValue) : Option (DocPart JsonValue) := do
  let field ← structFields docPartFields 2 json
  return {
    id := ← (field "id").bind asStr
    kind := ← (field "kind").bind asStr
    text := ← optionField asStr (field "text")
    call := ← optionField some (field "call")
    isError := ← optionField asBool (field "isError")
    questions := ← optionField some (field "questions")
    resolved := ← optionField asBool (field "resolved")
    message := ← optionField asStr (field "message")
    level := ← optionField (asVariant noticeLevels) (field "level")
    output := ← optionField asStr (field "output")
    diff := ← optionField some (field "diff")
    outputRef := ← optionField asStr (field "outputRef")
    outputBytes := ← optionField asU64 (field "outputBytes")
    diffRef := ← optionField asStr (field "diffRef")
    diffStats := ← optionField some (field "diffStats") }

def rawEntryFields : List String :=
  ["id", "role", "parts", "createdAt", "deviceId", "status", "continuationOf"]

def rawEntryFromJson (json : JsonValue) : Option (Entry (DocPart JsonValue)) := do
  let field ← structFields rawEntryFields 5 json
  return {
    id := ← (field "id").bind asStr
    role := ← (field "role").bind (asVariant messageRoles)
    parts := ← defaultField (decodeAll docPartFromJson) [] (field "parts")
    createdAt := ← (field "createdAt").bind asI64
    deviceId := ← (field "deviceId").bind asStr
    status := ← optionField (asVariant messageStatuses) (field "status")
    continuationOf := ← optionField asStr (field "continuationOf") }

/-! ## Salvage -/

section Salvage

variable (stableHash : JsonValue → Nat)

/-- The text part, tool part or message part that an element still makes. -/
def salvagePart (part : JsonValue) (entryId : String) (ix : Nat) :
    Option (MessagePart JsonValue) :=
  match part with
  | .object _ =>
      let id := ((member "id" part).bind asStr).getD (entryId ++ "#recovered-" ++ toString ix)
      let kind := (member "kind" part).bind asStr
      match (member "text" part).bind asStr with
      | some text => some (if kind = some "commentary" then .commentary id text else .text id text)
      | none =>
          match (member "call" part).bind decodeToolCall with
          | some call =>
              some (.tool {
                id
                call
                isError := ((member "isError" part).bind asBool).getD false
                resolved := ((member "resolved" part).bind asBool).getD true
                output := (member "output" part).bind asStr
                diff := none
                outputRef := none
                outputBytes := none
                diffRef := none
                diffStats := none })
          | none =>
              ((member "message" part).bind asStr).map fun message =>
                if kind = some "notice" then
                  .notice id (((member "level" part).bind (asVariant noticeLevels)).getD .warning)
                    message
                else .error id message
  | _ => none

/-- What becomes of one element of `parts`. -/
def decodePart (entryId : String) (part : JsonValue) (ix : Nat) : Option (MessagePart JsonValue) :=
  match docPartFromJson part with
  | some docPart => some (fromDocPart serdeCodecs docPart)
  | none => salvagePart part entryId ix

/-- `{stable_hash:016x}`. -/
def hex16 (n : Nat) : String := String.ofList (List.leftpad 16 '0' (Nat.toDigits 16 n))

def rawParts (json : JsonValue) : List JsonValue := ((member "parts" json).bind asArray).getD []

def salvageEntry (json : JsonValue) : Option (Entry (MessagePart JsonValue)) :=
  match json with
  | .object _ =>
      let id := ((member "id" json).bind asStr).getD ("recovered-" ++ hex16 (stableHash json))
      some {
        id
        role := ((member "role" json).bind (asVariant messageRoles)).getD .assistant
        parts := (rawParts json).zipIdx.filterMap fun (part, ix) => decodePart id part ix
        createdAt := ((member "createdAt" json).bind asI64).getD 0
        deviceId := ((member "deviceId" json).bind asStr).getD ""
        status := (member "status" json).bind (asVariant messageStatuses)
        continuationOf := (member "continuationOf" json).bind asStr }
  | _ => none

/-- `None` is the strict decoder's error. -/
def entryFromJson (json : JsonValue) : Option (Entry (MessagePart JsonValue)) :=
  match rawEntryFromJson json with
  | some raw => some (readEntry serdeCodecs raw)
  | none => salvageEntry stableHash json

end Salvage

/-! ## What an element has to show -/

inductive Content where
  | text (text : String)
  | call (call : ToolCall JsonValue)
  | questions (questions : List UserInputQuestion)

/-- What a part shows of a text, a tool call or an input request. -/
def MessagePart.content : MessagePart JsonValue → Option Content
  | .text _ body | .commentary _ body => some (.text body)
  | .tool part => some (.call part.call)
  | .input _ _ questions _ => some (.questions questions)
  | .notice _ _ _ | .error _ _ => none

section Carried

variable (stableHash : JsonValue → Nat)

def textOf (element : JsonValue) : Option String := (member "text" element).bind asStr

def callOf (element : JsonValue) : Option (ToolCall JsonValue) :=
  (member "call" element).bind decodeToolCall

def questionsOf (element : JsonValue) : Option (List UserInputQuestion) :=
  (member "questions" element).bind (decodeAll decodeQuestion)

/-- The element holds it and it can be read on its own. -/
def Carries (element : JsonValue) : Content → Prop
  | .text text => textOf element = some text
  | .call call => callOf element = some call
  | .questions questions => questionsOf element = some questions

/-- One of the things that the element carries is shown by the part that it has become. -/
def Survives (element : JsonValue) (part : Option (MessagePart JsonValue)) : Prop :=
  ∃ content, Carries element content ∧ part.bind MessagePart.content = some content

/-- The strict decoder's entry where there is one; of a rejected object an entry with its id and its
order key, in which every element of its parts that carries something survives at its place. -/
def Salvages (json : JsonValue) : Prop :=
  (∀ raw, rawEntryFromJson json = some raw →
      entryFromJson stableHash json = some (readEntry serdeCodecs raw)) ∧
    (rawEntryFromJson json = none → ∀ entries, json = .object entries →
      ∃ entry, entryFromJson stableHash json = some entry ∧
        (∀ id, (member "id" json).bind asStr = some id → entry.id = id) ∧
        (∀ createdAt, (member "createdAt" json).bind asI64 = some createdAt →
          entry.createdAt = createdAt) ∧
        entry.parts = (rawParts json).zipIdx.filterMap
          (fun (element, ix) => decodePart entry.id element ix) ∧
        ∀ element ix, (element, ix) ∈ (rawParts json).zipIdx →
          (∃ content, Carries element content) →
          Survives element (decodePart entry.id element ix))

/-- The element is a well-formed part that shows what it carries, or else holds a text or a tool
call. -/
def showsOwn (element : JsonValue) : Bool :=
  match docPartFromJson element with
  | some part =>
      if part.kind = "tool" then (callOf element).isSome || textOf element == some ""
      else if part.kind = "input" then (questionsOf element).isSome
      else if part.kind = "notice" ∨ part.kind = "error" then false
      else (textOf element).isSome
  | none => (textOf element).isSome || (callOf element).isSome

end Carried

section Shown

variable {element : JsonValue} {part : DocPart JsonValue}

theorem optionField_bind {α β : Type} {decode : JsonValue → Option α} (read : α → Option β)
    {field : Option JsonValue} {value : Option α} (hnull : (decode .null).bind read = none)
    (h : optionField decode field = some value) :
    value.bind read = (field.bind decode).bind read := by
  unfold optionField at h
  split at h
  · cases h
    rfl
  · cases h
    exact hnull.symm
  · obtain ⟨decoded, hdecoded, rfl⟩ := Option.map_eq_some_iff.mp h
    simp [hdecoded]

theorem docPartFromJson_object {entries : List (String × JsonValue)}
    (h : docPartFromJson (.object entries) = some part) :
    part.text = textOf (.object entries) ∧
      part.call.bind decodeToolCall = callOf (.object entries) ∧
      part.questions.bind (decodeAll decodeQuestion) = questionsOf (.object entries) := by
  have hfields : structFields docPartFields 2 (.object entries) =
      some fun name => member name (.object entries) := rfl
  unfold docPartFromJson at h
  rw [hfields, Option.bind_eq_bind, Option.bind_some] at h
  obtain ⟨id, -, h⟩ := Option.bind_eq_some_iff.mp h
  obtain ⟨kind, -, h⟩ := Option.bind_eq_some_iff.mp h
  obtain ⟨text, htext, h⟩ := Option.bind_eq_some_iff.mp h
  obtain ⟨call, hcall, h⟩ := Option.bind_eq_some_iff.mp h
  obtain ⟨isError, -, h⟩ := Option.bind_eq_some_iff.mp h
  obtain ⟨questions, hquestions, h⟩ := Option.bind_eq_some_iff.mp h
  obtain ⟨resolved, -, h⟩ := Option.bind_eq_some_iff.mp h
  obtain ⟨message, -, h⟩ := Option.bind_eq_some_iff.mp h
  obtain ⟨level, -, h⟩ := Option.bind_eq_some_iff.mp h
  obtain ⟨output, -, h⟩ := Option.bind_eq_some_iff.mp h
  obtain ⟨diff, -, h⟩ := Option.bind_eq_some_iff.mp h
  obtain ⟨outputRef, -, h⟩ := Option.bind_eq_some_iff.mp h
  obtain ⟨outputBytes, -, h⟩ := Option.bind_eq_some_iff.mp h
  obtain ⟨diffRef, -, h⟩ := Option.bind_eq_some_iff.mp h
  obtain ⟨diffStats, -, h⟩ := Option.bind_eq_some_iff.mp h
  cases h
  refine ⟨?_, ?_, ?_⟩
  · simpa [textOf] using optionField_bind some rfl htext
  · simpa [callOf] using optionField_bind decodeToolCall rfl hcall
  · simpa [questionsOf] using optionField_bind (decodeAll decodeQuestion) rfl hquestions

theorem exists_object_of_carries (h : ∃ content, Carries element content) :
    ∃ entries, element = .object entries := by
  obtain ⟨content, hcontent⟩ := h
  cases element with
  | object entries => exact ⟨entries, rfl⟩
  | _ => cases content <;> cases hcontent

theorem survives_some_iff {shown : MessagePart JsonValue} (content : Content)
    (h : shown.content = some content) :
    Survives element (some shown) ↔ Carries element content := by
  unfold Survives
  rw [Option.bind_some, h]
  constructor
  · rintro ⟨other, hother, heq⟩
    exact Option.some.inj heq ▸ hother
  · exact fun hcarries => ⟨content, hcarries, rfl⟩

theorem not_survives_of_content {shown : Option (MessagePart JsonValue)}
    (h : shown.bind MessagePart.content = none) : ¬Survives element shown := by
  rintro ⟨content, -, hcontent⟩
  rw [h] at hcontent
  cases hcontent

theorem eq_some_getD_iff {α : Type} {value : Option α} {default : α} :
    value = some (value.getD default) ↔ value.isSome = true := by
  cases value <;> simp

/-- A well-formed part survives iff it is of the kind of something that it carries. -/
theorem survives_of_docPart (h : docPartFromJson element = some part)
    (hcarries : ∃ content, Carries element content) :
    Survives element (some (fromDocPart serdeCodecs part)) ↔ showsOwn element = true := by
  obtain ⟨entries, rfl⟩ := exists_object_of_carries hcarries
  obtain ⟨htext, hcall, hquestions⟩ := docPartFromJson_object h
  have hcodecs : serdeCodecs.call.fromValue = decodeToolCall ∧
      serdeCodecs.questions.fromValue = decodeAll decodeQuestion := ⟨rfl, rfl⟩
  simp only [fromDocPart, showsOwn, h, hcodecs, hcall, hquestions, htext]
  by_cases htool : part.kind = "tool"
  · rw [if_pos htool, if_pos htool]
    cases hread : callOf (.object entries) with
    | some call =>
        rw [survives_some_iff (.call call) rfl]
        simp [Carries, hread]
    | none =>
        rw [survives_some_iff (.text "") rfl]
        simp [Carries]
  rw [if_neg htool, if_neg htool]
  by_cases hinput : part.kind = "input"
  · rw [if_pos hinput, if_pos hinput,
      survives_some_iff (.questions ((questionsOf (.object entries)).getD [])) rfl]
    exact eq_some_getD_iff
  rw [if_neg hinput, if_neg hinput]
  have htextual : Carries (.object entries) (.text ((textOf (.object entries)).getD "")) ↔
      (textOf (.object entries)).isSome = true := eq_some_getD_iff
  by_cases hcommentary : part.kind = "commentary"
  · rw [if_pos hcommentary, if_neg (by simp [hcommentary]), ← htextual]
    exact survives_some_iff _ rfl
  rw [if_neg hcommentary]
  by_cases hmessage : part.kind = "notice" ∨ part.kind = "error"
  · rw [if_pos hmessage]
    have hnone : ¬Survives (.object entries) (some
        (if part.kind = "notice" then
          .notice part.id (part.level.getD .warning) (part.message.getD "")
        else if part.kind = "error" then .error part.id (part.message.getD "")
        else .text part.id ((textOf (.object entries)).getD ""))) := by
      refine not_survives_of_content ?_
      rcases hmessage with hkind | hkind
      · rw [if_pos hkind]
        rfl
      · rw [if_neg (by simp [hkind]), if_pos hkind]
        rfl
    simpa using hnone
  · obtain ⟨hnotice, herror⟩ := not_or.mp hmessage
    rw [if_neg hmessage, if_neg hnotice, if_neg herror, ← htextual]
    exact survives_some_iff _ rfl

/-- A part that the strict decoder rejects survives iff it has a text or a tool call. -/
theorem survives_of_rejected (h : docPartFromJson element = none) (entryId : String) (ix : Nat)
    (hcarries : ∃ content, Carries element content) :
    Survives element (salvagePart element entryId ix) ↔ showsOwn element = true := by
  obtain ⟨entries, rfl⟩ := exists_object_of_carries hcarries
  simp only [showsOwn, h]
  have hfields : (member "text" (.object entries)).bind asStr = textOf (.object entries) ∧
      (member "call" (.object entries)).bind decodeToolCall = callOf (.object entries) :=
    ⟨rfl, rfl⟩
  simp only [salvagePart, hfields]
  cases htext : textOf (.object entries) with
  | some text =>
      have hcarried : Carries (.object entries) (.text text) := htext
      have hsurvives : Survives (.object entries) (some
          (if (member "kind" (.object entries)).bind asStr = some "commentary" then
            .commentary (((member "id" (.object entries)).bind asStr).getD
              (entryId ++ "#recovered-" ++ toString ix)) text
          else .text (((member "id" (.object entries)).bind asStr).getD
              (entryId ++ "#recovered-" ++ toString ix)) text)) := by
        split_ifs
        · exact (survives_some_iff _ rfl).mpr hcarried
        · exact (survives_some_iff _ rfl).mpr hcarried
      simpa using hsurvives
  | none =>
      cases hcall : callOf (.object entries) with
      | some call =>
          have hcarried : Carries (.object entries) (.call call) := hcall
          simpa using (survives_some_iff _ rfl).mpr hcarried
      | none =>
          simp only [Option.isSome_none, Bool.or_self, Bool.false_eq_true, iff_false]
          refine not_survives_of_content ?_
          cases (member "message" (.object entries)).bind asStr with
          | none => rfl
          | some message =>
              rw [Option.map_some, Option.bind_some]
              split_ifs <;> rfl

theorem survives_iff (hcarries : ∃ content, Carries element content) (entryId : String) (ix : Nat) :
    Survives element (decodePart entryId element ix) ↔ showsOwn element = true := by
  unfold decodePart
  cases h : docPartFromJson element with
  | none => exact survives_of_rejected h entryId ix hcarries
  | some part => exact survives_of_docPart h hcarries

end Shown

/-- **Salvage.** A value is salvaged iff in a rejected object every element of the parts that carries
something is a well-formed part that shows it, or is none and has a text or a tool call. -/
theorem salvages_iff (stableHash : JsonValue → Nat) (json : JsonValue) :
    Salvages stableHash json ↔
      (rawEntryFromJson json = none → ∀ element ∈ rawParts json,
        (∃ content, Carries element content) → showsOwn element = true) := by
  have hdecode : rawEntryFromJson json = none →
      entryFromJson stableHash json = salvageEntry stableHash json := by
    intro hrejected
    simp only [entryFromJson, hrejected]
  constructor
  · rintro ⟨-, hsalvage⟩ hrejected element hmem hcarries
    cases json with
    | object entries =>
        obtain ⟨entry, -, -, -, -, hsurvive⟩ := hsalvage hrejected entries rfl
        obtain ⟨ix, hix⟩ := List.mem_iff_getElem?.mp hmem
        have hplace : (element, ix) ∈ (rawParts (.object entries)).zipIdx :=
          List.mem_zipIdx_iff_getElem?.mpr hix
        exact (survives_iff hcarries entry.id ix).mp (hsurvive element ix hplace hcarries)
    | _ => simp [rawParts, member] at hmem
  · intro hshown
    refine ⟨fun raw hraw => by simp only [entryFromJson, hraw], ?_⟩
    rintro hrejected entries rfl
    refine ⟨_, hdecode hrejected, ?_, ?_, rfl, ?_⟩
    · intro id hid
      simp [hid]
    · intro createdAt hcreatedAt
      simp [hcreatedAt]
    · intro element ix hplace hcarries
      have hmem : element ∈ rawParts (.object entries) := List.fst_mem_of_mem_zipIdx hplace
      exact (survives_iff hcarries _ ix).mpr (hshown hrejected element hmem hcarries)

def whichColour : UserInputQuestion where
  id := "q"
  header := "Colour"
  question := "Which colour?"
  options := ["red", "blue"]
  multiSelect := false

/-- An entry without an id, whose only part is an input request without its kind. -/
def untypedRequest : JsonValue :=
  .object [("role", .string "assistant"), ("createdAt", .int 1), ("parts", .array
    [.object [("id", .string "q1"), ("questions", .array [encodeQuestion whichColour])]])]

/-- The questions can be read, and the part is dropped. -/
theorem untyped_request_dropped :
    ¬∀ (stableHash : JsonValue → Nat) (json : JsonValue), Salvages stableHash json := by
  intro h
  have hquestions : questionsOf (.object [("id", .string "q1"),
      ("questions", .array [encodeQuestion whichColour])]) = some [whichColour] := by rfl
  have hrejected : rawEntryFromJson untypedRequest = none := by rfl
  obtain ⟨entry, -, -, -, -, hsurvive⟩ := (h (fun _ => 0) untypedRequest).2 hrejected _ rfl
  obtain ⟨content, -, hcontent⟩ := hsurvive _ 0 List.mem_cons_self
    ⟨.questions [whichColour], hquestions⟩
  cases hcontent

end Zeron.Doc
