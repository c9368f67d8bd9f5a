import Mathlib.Data.List.Basic

/-!
# The durable command ledger

The entries of a chat's command list and `evaluate_command` of `crates/doc/src/commands.rs`, and
what `DocHost::execute` of `crates/engine/src/doc_host.rs` asks of the session engine for each kind
of payload. The engine's and the workspace's answers are data (`Replies`).
-/

namespace Zeron.Engine

/-- `COMMAND_DEFAULT_TTL_MS`: one day. -/
def commandDefaultTtlMs : Int := 24 * 60 * 60 * 1000

inductive SessionCommandKind where
  | run
  | steer
  | interrupt
  | respondInput
  deriving DecidableEq

inductive SessionCommandStatus where
  | pending
  | applied
  | rejected
  | expired
  | superseded
  | cancelled
  deriving DecidableEq

structure RunRequest where
  prompt : String
  harness : Option String
  cwd : String
  attachments : List String
  resume : Option String
  deriving DecidableEq

inductive SessionCommandPayload where
  | run (request : RunRequest) (messageId : String)
  | steer (prompt : String) (messageId : Option String)
  | interrupt
  | respondInput (requestId : String) (answers : List String)
  deriving DecidableEq

def SessionCommandPayload.kind : SessionCommandPayload → SessionCommandKind
  | .run _ _ => .run
  | .steer _ _ => .steer
  | .interrupt => .interrupt
  | .respondInput _ _ => .respondInput

structure SessionCommandEntry where
  id : String
  payload : SessionCommandPayload
  issuedAt : Int
  /-- The turn of `based_on`, if any. -/
  basedOnTurn : Option String
  expiresAt : Option Int
  status : SessionCommandStatus
  resolution : Option String
  deriving DecidableEq

namespace SessionCommandEntry

def kind (entry : SessionCommandEntry) : SessionCommandKind := entry.payload.kind

def effectiveExpiry (entry : SessionCommandEntry) : Int :=
  entry.expiresAt.getD (entry.issuedAt + commandDefaultTtlMs)

end SessionCommandEntry

inductive CommandDisposition where
  | skip
  | expired
  | superseded
  | execute
  deriving DecidableEq

structure EvaluationContext where
  isProcessed : String → Bool
  nowMs : Int
  entries : List SessionCommandEntry
  currentTurnId : Option String
  turnIsPast : String → Bool

def SessionCommandEntry.hasNewerSameKind (entry : SessionCommandEntry)
    (entries : List SessionCommandEntry) : Bool :=
  entries.any fun other =>
    other.id != entry.id && other.kind == entry.kind && other.status == .pending &&
      entry.issuedAt < other.issuedAt

/-- An interrupt whose turn already finished. -/
def SessionCommandEntry.turnIsOver (entry : SessionCommandEntry) (cx : EvaluationContext) : Bool :=
  entry.kind == .interrupt &&
    match entry.basedOnTurn with
    | some turnId => cx.currentTurnId != some turnId && cx.turnIsPast turnId
    | none => false

def evaluateCommand (entry : SessionCommandEntry) (cx : EvaluationContext) : CommandDisposition :=
  if cx.isProcessed entry.id then .skip
  else if entry.effectiveExpiry ≤ cx.nowMs then .expired
  else if (entry.kind = .steer ∨ entry.kind = .interrupt) ∧ entry.hasNewerSameKind cx.entries then
    .superseded
  else if entry.turnIsOver cx then .superseded
  else .execute

theorem evaluateCommand_eq_execute_iff {entry : SessionCommandEntry} {cx : EvaluationContext} :
    evaluateCommand entry cx = .execute ↔
      cx.isProcessed entry.id = false ∧ cx.nowMs < entry.effectiveExpiry ∧
        ¬((entry.kind = .steer ∨ entry.kind = .interrupt) ∧
          entry.hasNewerSameKind cx.entries) ∧ entry.turnIsOver cx = false := by
  unfold evaluateCommand
  split_ifs with hprocessed hexpired hnewer hover
  · simp [hprocessed]
  · simp only [false_iff]
    rintro ⟨-, hlive, -⟩
    omega
  · simp [hnewer]
  · simp [hover]
  · simp only [true_iff]
    refine ⟨by simpa using hprocessed, by omega, hnewer, by simpa using hover⟩

/-! ## What a command asks of the session engine -/

inductive SteerOutcome where
  | accepted
  | notSteerable
  deriving DecidableEq

inductive EngineCall where
  | dispatch (harness : String) (request : RunRequest) (messageId : Option String)
  | steer (prompt : String) (messageId : Option String)
  | interrupt
  | respondInput (requestId : String) (answers : List String)
  deriving DecidableEq

/-- What the engine, the workspace and the transcript answer while a command executes. -/
structure Replies where
  claimChat : Except String Unit
  defaultHarness : String
  dispatch : Except String Unit
  steer : Except String SteerOutcome
  interrupt : Except String Unit
  respondInput : Except String Bool
  lastRequest : Option RunRequest
  requestFromChatRow : Option RunRequest
  /-- The prompt made of the answers, if a settled entry still shows the question open. -/
  openQuestion : Option String

abbrev Outcome : Type := SessionCommandStatus × Option String

namespace Replies

def harnessForRequest (replies : Replies) (request : RunRequest) : String :=
  request.harness.getD replies.defaultHarness

/-- One `dispatch`, and the outcome if it succeeds. -/
def dispatching (replies : Replies) (request : RunRequest) (messageId : Option String)
    (resolution : Option String) : EngineCall × Except String Outcome :=
  (.dispatch (replies.harnessForRequest request) request messageId,
    replies.dispatch.map fun _ => (.applied, resolution))

/-- The request a dead run's successor is dispatched with. -/
def nextTurn (replies : Replies) (prompt : String) : Option RunRequest :=
  (replies.lastRequest <|> replies.requestFromChatRow).map fun request =>
    { request with prompt, resume := none, attachments := [] }

end Replies

/-- `execute`: the calls it makes, in order, and its result. -/
def execute (payload : SessionCommandPayload) (replies : Replies) :
    List EngineCall × Except String Outcome :=
  match payload with
  | .run request messageId =>
      match replies.claimChat with
      | .error err => ([], .error err)
      | .ok () =>
          let (call, outcome) := replies.dispatching request (some messageId) none
          ([call], outcome)
  | .steer prompt messageId =>
      match replies.steer with
      | .error err => ([.steer prompt messageId], .error err)
      | .ok .accepted => ([.steer prompt messageId], .ok (.applied, none))
      | .ok .notSteerable =>
          match replies.nextTurn prompt with
          | none =>
              ([.steer prompt messageId],
                .ok (.rejected, some "no live run and no prior run config"))
          | some request =>
              let (call, outcome) :=
                replies.dispatching request messageId (some "queued as new turn")
              ([.steer prompt messageId, call], outcome)
  | .interrupt => ([.interrupt], replies.interrupt.map fun _ => (.applied, none))
  | .respondInput requestId answers =>
      match replies.respondInput with
      | .error err => ([.respondInput requestId answers], .error err)
      | .ok true => ([.respondInput requestId answers], .ok (.applied, none))
      | .ok false =>
          match replies.openQuestion with
          | none =>
              ([.respondInput requestId answers],
                .ok (.rejected, some "no pending input request"))
          | some prompt =>
              match replies.nextTurn prompt with
              | none =>
                  ([.respondInput requestId answers],
                    .ok (.rejected, some "no pending input request and no prior run config"))
              | some request =>
                  let (call, outcome) :=
                    replies.dispatching request none (some "answered as new turn")
                  ([.respondInput requestId answers, call], outcome)

/-- What the drain writes: an error rejects the command with the error's text. -/
def settledAs : Except String Outcome → Outcome
  | .ok outcome => outcome
  | .error err => (.rejected, some err)

/-! ## The document's side -/

/-- What a pass reads of a chat document. -/
structure ChatDoc where
  commands : List SessionCommandEntry
  /-- The ids of the transcript's entries, in order. -/
  entryIds : List String

namespace ChatDoc

/-- The first entry with the id is written; an unknown id is an error that changes nothing. -/
def setStatusIn (id : String) (status : SessionCommandStatus) (resolution : Option String) :
    List SessionCommandEntry → List SessionCommandEntry
  | [] => []
  | entry :: rest =>
      if entry.id = id then
        { entry with status, resolution := resolution <|> entry.resolution } :: rest
      else entry :: setStatusIn id status resolution rest

def setCommandStatus (doc : ChatDoc) (id : String) (status : SessionCommandStatus)
    (resolution : Option String) : ChatDoc :=
  { doc with commands := setStatusIn id status resolution doc.commands }

end ChatDoc

end Zeron.Engine
