import Zeron.Doc.Stored
import Zeron.Engine.Commands

/-!
# The stored command ledger

The entries of `commands` with all that they store, of `crates/doc/src/commands.rs`, and
`queue_command` of `crates/doc/src/schema.rs` as the JSON that its map is read as.
-/

namespace Zeron.Doc

open Registry (JsonValue)
open Engine (SessionCommandKind SessionCommandStatus)

inductive HarnessId where
  | claudeCode
  | codex
  | cursor
  | grok
  | hermes
  | pi
  | mock
deriving DecidableEq

inductive ReasoningLevel where
  | minimal
  | low
  | medium
  | high
  | xHigh
  | max
  | ultra
  | ultracode
  | ultrathink
deriving DecidableEq

inductive SandboxLevel where
  | readOnly
  | workspaceWrite
  | dangerFullAccess
deriving DecidableEq

structure RunRequest where
  prompt : String
  harness : Option HarnessId
  model : Option String
  reasoning : Option ReasoningLevel
  modelOptions : List (String × JsonValue)
  cwd : String
  sandbox : SandboxLevel
  autoApprove : Bool
  resume : Option String
  attachments : List String
deriving DecidableEq

structure UserInputAnswer where
  questionId : String
  labels : List String
deriving DecidableEq

inductive SessionCommandPayload where
  | run (request : RunRequest) (messageId : String)
  | steer (prompt : String) (messageId : Option String)
  | interrupt
  | respondInput (requestId : String) (answers : List UserInputAnswer)
deriving DecidableEq

def SessionCommandPayload.kind : SessionCommandPayload → SessionCommandKind
  | .run _ _ => .run
  | .steer _ _ => .steer
  | .interrupt => .interrupt
  | .respondInput _ _ => .respondInput

structure CommandBasedOn where
  turnId : Option String
  frontier : Option String
deriving DecidableEq

structure SessionCommandEntry where
  id : String
  payload : SessionCommandPayload
  issuedBy : String
  issuedAt : Int
  basedOn : Option CommandBasedOn
  expiresAt : Option Int
  status : SessionCommandStatus
  resolution : Option String
deriving DecidableEq

/-! ## Derived conversions -/

def harnessIds : List (String × HarnessId) :=
  [("claude-code", .claudeCode), ("codex", .codex), ("cursor", .cursor), ("grok", .grok),
    ("hermes", .hermes), ("pi", .pi), ("mock", .mock)]

def reasoningLevels : List (String × ReasoningLevel) :=
  [("minimal", .minimal), ("low", .low), ("medium", .medium), ("high", .high), ("xhigh", .xHigh),
    ("max", .max), ("ultra", .ultra), ("ultracode", .ultracode), ("ultrathink", .ultrathink)]

def sandboxLevels : List (String × SandboxLevel) :=
  [("read-only", .readOnly), ("workspace-write", .workspaceWrite),
    ("danger-full-access", .dangerFullAccess)]

def commandStatuses : List (String × SessionCommandStatus) :=
  [("pending", .pending), ("applied", .applied), ("rejected", .rejected), ("expired", .expired),
    ("superseded", .superseded), ("cancelled", .cancelled)]

def kindStr : SessionCommandKind → String
  | .run => "run"
  | .steer => "steer"
  | .interrupt => "interrupt"
  | .respondInput => "respondInput"

def variantJson {α : Type} [DecidableEq α] (variants : List (String × α)) (value : α) : JsonValue :=
  .string (((variants.find? fun variant => variant.2 = value).map Prod.fst).getD "")

def asObject : JsonValue → Option (List (String × JsonValue))
  | .object entries => some entries
  | _ => none

/-- A field that is written as `null` if there is nothing. -/
def nullable (value : Option JsonValue) : JsonValue := value.getD .null

def filled (items : List JsonValue) : Option JsonValue :=
  if items.isEmpty then none else some (.array items)

def encodeRunRequest (request : RunRequest) : JsonValue :=
  .object ([("prompt", .string request.prompt)] ++
    keyed "harness" (request.harness.map (variantJson harnessIds)) ++
    [("model", nullable (request.model.map .string)),
      ("reasoning", nullable (request.reasoning.map (variantJson reasoningLevels))),
      ("modelOptions", .object request.modelOptions), ("cwd", .string request.cwd),
      ("sandbox", variantJson sandboxLevels request.sandbox),
      ("autoApprove", .bool request.autoApprove),
      ("resume", nullable (request.resume.map .string))] ++
    keyed "attachments" (filled (request.attachments.map .string)))

def decodeRunRequest (json : JsonValue) : Option RunRequest := do
  let field ← structFields ["prompt", "harness", "model", "reasoning", "modelOptions", "cwd",
    "sandbox", "autoApprove", "resume", "attachments"] 9 json
  return {
    prompt := ← (field "prompt").bind asStr
    harness := ← optionField (asVariant harnessIds) (field "harness")
    model := ← optionField asStr (field "model")
    reasoning := ← optionField (asVariant reasoningLevels) (field "reasoning")
    modelOptions := ← defaultField asObject [] (field "modelOptions")
    cwd := ← (field "cwd").bind asStr
    sandbox := ← (field "sandbox").bind (asVariant sandboxLevels)
    autoApprove := ← defaultField asBool false (field "autoApprove")
    resume := ← optionField asStr (field "resume")
    attachments := ← defaultField (decodeAll asStr) [] (field "attachments") }

def encodeAnswer (answer : UserInputAnswer) : JsonValue :=
  .object [("questionId", .string answer.questionId),
    ("labels", .array (answer.labels.map .string))]

def decodeAnswer (json : JsonValue) : Option UserInputAnswer := do
  let field ← structFields ["questionId", "labels"] 2 json
  return {
    questionId := ← (field "questionId").bind asStr
    labels := ← (field "labels").bind (decodeAll asStr) }

def encodePayload : SessionCommandPayload → JsonValue
  | .run request messageId =>
      .object [("kind", .string "run"), ("request", encodeRunRequest request),
        ("messageId", .string messageId)]
  | .steer prompt messageId =>
      .object [("kind", .string "steer"), ("prompt", .string prompt),
        ("messageId", nullable (messageId.map .string))]
  | .interrupt => .object [("kind", .string "interrupt")]
  | .respondInput requestId answers =>
      .object [("kind", .string "respondInput"), ("requestId", .string requestId),
        ("answers", .array (answers.map encodeAnswer))]

def decodePayloadVariant (tag : String) (body : JsonValue) : Option SessionCommandPayload :=
  match tag with
  | "run" => do
      let field ← structFields ["request", "messageId"] 2 body
      return .run (← (field "request").bind decodeRunRequest) (← (field "messageId").bind asStr)
  | "steer" => do
      let field ← structFields ["prompt", "messageId"] 2 body
      return .steer (← (field "prompt").bind asStr) (← optionField asStr (field "messageId"))
  | "interrupt" => (structFields [] 0 body).map fun _ => .interrupt
  | "respondInput" => do
      let field ← structFields ["requestId", "answers"] 2 body
      return .respondInput (← (field "requestId").bind asStr)
        (← (field "answers").bind (decodeAll decodeAnswer))
  | _ => none

def decodePayload (json : JsonValue) : Option SessionCommandPayload :=
  (splitTag json).bind fun (tag, body) => decodePayloadVariant tag body

def encodeBasedOn (basedOn : CommandBasedOn) : JsonValue :=
  .object [("turnId", nullable (basedOn.turnId.map .string)),
    ("frontier", nullable (basedOn.frontier.map .string))]

def decodeBasedOn (json : JsonValue) : Option CommandBasedOn := do
  let field ← structFields ["turnId", "frontier"] 2 json
  return {
    turnId := ← optionField asStr (field "turnId")
    frontier := ← optionField asStr (field "frontier") }

def commandFromJson (json : JsonValue) : Option SessionCommandEntry := do
  let field ← structFields ["id", "payload", "issuedBy", "issuedAt", "basedOn", "expiresAt",
    "status", "resolution"] 7 json
  return {
    id := ← (field "id").bind asStr
    payload := ← (field "payload").bind decodePayload
    issuedBy := ← (field "issuedBy").bind asStr
    issuedAt := ← (field "issuedAt").bind asI64
    basedOn := ← optionField decodeBasedOn (field "basedOn")
    expiresAt := ← optionField asI64 (field "expiresAt")
    status := ← (field "status").bind (asVariant commandStatuses)
    resolution := ← optionField asStr (field "resolution") }

/-- The map that `queue_command` appends; a command that is queued has no outcome. -/
def commandMap (entry : SessionCommandEntry) : JsonValue :=
  .object ([("id", .string entry.id), ("kind", .string (kindStr entry.payload.kind)),
      ("payload", encodePayload entry.payload), ("issuedBy", .string entry.issuedBy),
      ("issuedAt", .int entry.issuedAt)] ++
    keyed "basedOn" (entry.basedOn.map encodeBasedOn) ++
    keyed "expiresAt" (entry.expiresAt.map .int) ++
    [("status", variantJson commandStatuses entry.status)])

/-! ## They give back what they were made from -/

theorem optionField_nullable {α : Type} {decode : JsonValue → Option α} {encode : α → JsonValue}
    (h : ∀ value, decode (encode value) = some value) (hnull : ∀ value, encode value ≠ .null)
    (value : Option α) : optionField decode (some (nullable (value.map encode))) = some value := by
  cases value with
  | none => rfl
  | some value => exact optionField_encode h hnull (some value)

theorem optionField_nullable_string (value : Option String) :
    optionField asStr (some (nullable (value.map JsonValue.string))) = some value := by
  have hread : ∀ text, asStr (.string text) = some text := fun _ => rfl
  exact optionField_nullable hread (by simp) value

theorem decodeAll_strings (texts : List String) :
    decodeAll asStr (.array (texts.map JsonValue.string)) = some texts := by
  have hread : ∀ text, asStr (.string text) = some text := fun _ => rfl
  exact mapM_decode hread texts

theorem decodeRunRequest_encode (request : RunRequest) :
    decodeRunRequest (encodeRunRequest request) = some request := by
  have hharness : optionField (asVariant harnessIds)
      (request.harness.map (variantJson harnessIds)) = some request.harness :=
    optionField_encode (fun harness => by cases harness <;> rfl) (by simp [variantJson]) _
  have hreasoning : optionField (asVariant reasoningLevels)
      (some (nullable (request.reasoning.map (variantJson reasoningLevels)))) =
        some request.reasoning :=
    optionField_nullable (fun level => by cases level <;> rfl) (by simp [variantJson]) _
  have hsandbox : asVariant sandboxLevels (variantJson sandboxLevels request.sandbox) =
      some request.sandbox := by
    cases request.sandbox <;> rfl
  have hattachments : defaultField (decodeAll asStr) []
      (filled (request.attachments.map JsonValue.string)) = some request.attachments := by
    cases hlist : request.attachments with
    | nil => rfl
    | cons attachment attachments => exact decodeAll_strings (attachment :: attachments)
  obtain ⟨field, hfields, hread, hread'⟩ : ∃ field, structFields ["prompt", "harness", "model",
        "reasoning", "modelOptions", "cwd", "sandbox", "autoApprove", "resume", "attachments"] 9
        (encodeRunRequest request) = some field ∧
      ((field "prompt").bind asStr = some request.prompt ∧
        optionField (asVariant harnessIds) (field "harness") = some request.harness ∧
        optionField asStr (field "model") = some request.model ∧
        optionField (asVariant reasoningLevels) (field "reasoning") = some request.reasoning ∧
        defaultField asObject [] (field "modelOptions") = some request.modelOptions) ∧
      (field "cwd").bind asStr = some request.cwd ∧
        (field "sandbox").bind (asVariant sandboxLevels) = some request.sandbox ∧
        defaultField asBool false (field "autoApprove") = some request.autoApprove ∧
        optionField asStr (field "resume") = some request.resume ∧
        defaultField (decodeAll asStr) [] (field "attachments") = some request.attachments := by
    have hoptions : defaultField asObject [] (some (.object request.modelOptions)) =
        some request.modelOptions := rfl
    have hautoApprove : defaultField asBool false (some (.bool request.autoApprove)) =
        some request.autoApprove := rfl
    refine ⟨_, rfl, ?_, ?_⟩
    · simp [asStr, hharness, hreasoning, hoptions, optionField_nullable_string]
    · simp [asStr, hsandbox, hautoApprove, hattachments, optionField_nullable_string]
  obtain ⟨hprompt, hharness, hmodel, hreasoning, hoptions⟩ := hread
  obtain ⟨hcwd, hsandbox, hautoApprove, hresume, hattachments⟩ := hread'
  unfold decodeRunRequest
  rw [hfields, Option.bind_eq_bind, Option.bind_some, hprompt, hharness, hmodel, hreasoning,
    hoptions, hcwd, hsandbox, hautoApprove, hresume, hattachments]
  rfl

theorem decodeAnswer_encode (answer : UserInputAnswer) :
    decodeAnswer (encodeAnswer answer) = some answer := by
  change (decodeAll asStr (.array (answer.labels.map .string))).bind
    (fun labels => some { answer with labels }) = _
  rw [decodeAll_strings]
  rfl

theorem decodePayload_encode (payload : SessionCommandPayload) :
    decodePayload (encodePayload payload) = some payload := by
  cases payload with
  | run request messageId =>
      change (decodeRunRequest (encodeRunRequest request)).bind
        (fun request => some (SessionCommandPayload.run request messageId)) = _
      rw [decodeRunRequest_encode]
      rfl
  | steer prompt messageId => cases messageId <;> rfl
  | interrupt => rfl
  | respondInput requestId answers =>
      have hanswers : decodeAll decodeAnswer (.array (answers.map encodeAnswer)) = some answers :=
        mapM_decode decodeAnswer_encode answers
      change (decodeAll decodeAnswer (.array (answers.map encodeAnswer))).bind
        (fun answers => some (SessionCommandPayload.respondInput requestId answers)) = _
      rw [hanswers]
      rfl

theorem decodeBasedOn_encode (basedOn : CommandBasedOn) :
    decodeBasedOn (encodeBasedOn basedOn) = some basedOn := by
  obtain ⟨turnId, frontier⟩ := basedOn
  cases turnId <;> cases frontier <;> rfl

/-- A command entry that a reader gives. -/
structure ReadableCommand (entry : SessionCommandEntry) : Prop where
  issuedAt : asI64 (.int entry.issuedAt) = some entry.issuedAt
  expiresAt : ∀ expiresAt ∈ entry.expiresAt, asI64 (.int expiresAt) = some expiresAt

theorem readableCommand_of_commandFromJson {json : JsonValue} {entry : SessionCommandEntry}
    (h : commandFromJson json = some entry) : ReadableCommand entry := by
  simp only [commandFromJson, Option.bind_eq_bind, Option.bind_eq_some_iff, Option.pure_def,
    Option.some.injEq] at h
  obtain ⟨field, -, id, -, payload, -, issuedBy, -, issuedAt, ⟨json', -, hissuedAt⟩, basedOn, -,
    expiresAt, hexpiresAt, status, -, resolution, -, rfl⟩ := h
  refine ⟨asI64_bound hissuedAt, ?_⟩
  intro found hfound
  unfold optionField at hexpiresAt
  split at hexpiresAt
  · cases hexpiresAt
    cases hfound
  · cases hexpiresAt
    cases hfound
  · obtain ⟨decoded, hdecode, rfl⟩ := Option.map_eq_some_iff.mp hexpiresAt
    cases hfound
    exact asI64_bound hdecode

/-- **A command that was read and is queued again** is read as it was, but for its resolution. -/
theorem commandFromJson_commandMap {entry : SessionCommandEntry} (h : ReadableCommand entry) :
    commandFromJson (commandMap entry) = some { entry with resolution := none } := by
  have hbasedOn : optionField decodeBasedOn (entry.basedOn.map encodeBasedOn) =
      some entry.basedOn :=
    optionField_encode decodeBasedOn_encode (by simp [encodeBasedOn]) entry.basedOn
  have hexpiresAt : optionField asI64 (entry.expiresAt.map .int) = some entry.expiresAt := by
    cases hfound : entry.expiresAt with
    | none => rfl
    | some expiresAt =>
        change (asI64 (.int expiresAt)).map some = _
        rw [h.expiresAt expiresAt hfound]
        rfl
  have hstatus : asVariant commandStatuses (variantJson commandStatuses entry.status) =
      some entry.status := by
    cases entry.status <;> rfl
  simp only [commandFromJson, commandMap, structFields, member_append, member_cons, member_keyed,
    member_nil, Option.bind_eq_bind, Option.bind_some]
  have hresolution : optionField asStr none = some none := rfl
  simp [asStr, h.issuedAt, decodePayload_encode, hbasedOn, hexpiresAt, hstatus, hresolution]

end Zeron.Doc
