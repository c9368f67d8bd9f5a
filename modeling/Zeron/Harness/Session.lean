import Mathlib.Data.List.Basic
import Zeron.Lib.Machine

/-!
# The session loop of an ACP agent

The main loop of `run_session` in `harness/src/acp/mod.rs`. One action is one branch of the loop's
`select!`, with what the branch is given: the agent's responses and notifications, the mailbox, the
interrupt. Times are milliseconds, and a timer fires at any time from its deadline on.

The log holds the events the consumer gets, and the prompts sent to the agent between them.
-/

namespace Zeron.Harness

open Zeron.Lib (Machine)

inductive DoneStatus where
  | completed
  | interrupted
  | errored
  deriving DecidableEq

/-- The events that notifications and server requests of the agent turn into. -/
inductive StreamEvent where
  | textDelta (text : String)
  | toolCall (id : String)
  | toolResult (id : String)
  | other
  deriving DecidableEq

inductive AgentEvent where
  | sessionStarted (assistantMessageId : Nat)
  | stream (event : StreamEvent)
  | usage
  | assistantMessageCompleted (assistantMessageId : Nat)
  | steered (assistantMessageId nextAssistantMessageId : Nat)
  | done (status : DoneStatus)
  deriving DecidableEq

inductive Record where
  | event (event : AgentEvent)
  | prompt (text : String)
  deriving DecidableEq

/-- The result of a `session/prompt` request. -/
inductive PromptResult where
  | ok (stopReason : Option String) (usage : Bool)
  | error
  deriving DecidableEq

/-- The result of a `_session/steering` request. -/
inductive SteeringResult where
  | ok (outcome reason : Option String)
  | error
  deriving DecidableEq

inductive Incoming where
  /-- A `session/update` of this session. -/
  | update (turnEndCost : Bool) (events : List StreamEvent)
  /-- `_session/turn_ended`, with whether it names this session. -/
  | turnEnded (mine : Bool)
  | notification (events : List StreamEvent)
  /-- A server request; `asks` when it waits for the user. -/
  | request (asks : Bool) (events : List StreamEvent)
  deriving DecidableEq

/-- Why the loop was left. -/
inductive Exit where
  | turnOver
  | eof
  | mailboxClosed
  | interrupted
  | consumerGone
  deriving DecidableEq

structure Spec where
  promptTransform : String → String
  steerExt : Bool
  /-- The harness is Claude Code. -/
  costHintEnabled : Bool
  /-- `ZERON_ACP_QUIET_SETTLE_MS`, when it is set. -/
  quietSettleMs : Option Nat

def starveGrace : Nat := 2000
def costHintGrace : Nat := 1000
def busyRecent : Nat := 3000
def cancelFlush : Nat := 2000

def Spec.quietSettle (spec : Spec) : Option Nat :=
  if spec.costHintEnabled then none
  else
    match spec.quietSettleMs with
    | some 0 => none
    | some ms => some ms
    | none => some 30000

structure Session where
  now : Nat
  assistantMessageId : Nat
  /-- The prompt whose response is awaited. -/
  turn : Option String
  queuedSteers : List String
  steeringCall : Option String
  steerBacklog : List String
  steeringOpen : Bool
  interrupted : Bool
  interruptSent : Bool
  doneCurrent : Bool
  doneAfterInterrupt : Bool
  starveDeadline : Option Nat
  lastUpdateAt : Nat
  turnContentSeen : Bool
  steeredThisTurn : Bool
  openTools : List String
  openQuestions : Nat
  cancelFlushDeadline : Option Nat
  log : List Record
  /-- The steers taken from the mailbox, and those the agent got. -/
  taken : List String
  delivered : List String
  exit : Option Exit

def stopOutcome (res : PromptResult) (interrupted : Bool) : DoneStatus :=
  if interrupted then .interrupted
  else
    match res with
    | .ok (some "cancelled") _ => .interrupted
    | .ok (some "refusal") _ => .errored
    | .ok _ _ => .completed
    | .error => .errored

def SteeringResult.outcome : SteeringResult → String
  | .ok outcome _ => outcome.getD "injected"
  | .error => "promptRequired"

def SteeringResult.reason : SteeringResult → Option String
  | .ok _ reason => reason
  | .error => none

/-- The outcome at a turn's end; a call that does not answer in time is redelivered. -/
def settledOutcome : Option SteeringResult → String
  | some res => res.outcome
  | none => "promptRequired"

namespace Session

/-- The session as the loop is entered, its first prompt sent. -/
def start (prompt : String) : Session where
  now := 0
  assistantMessageId := 0
  turn := some prompt
  queuedSteers := []
  steeringCall := none
  steerBacklog := []
  steeringOpen := true
  interrupted := false
  interruptSent := false
  doneCurrent := false
  doneAfterInterrupt := false
  starveDeadline := none
  lastUpdateAt := 0
  turnContentSeen := false
  steeredThisTurn := false
  openTools := []
  openQuestions := 0
  cancelFlushDeadline := none
  log := [.event (.sessionStarted 0), .prompt prompt]
  taken := []
  delivered := []
  exit := none

variable (s : Session)

def send (event : AgentEvent) : Session := { s with log := s.log ++ [.event event] }

/-- A `Steered` boundary, with a rotated message id. -/
def sendSteered : Session :=
  { s with
    log := s.log ++ [.event (.steered s.assistantMessageId (s.assistantMessageId + 1))]
    assistantMessageId := s.assistantMessageId + 1 }

def completeMessage : Session :=
  { s with
    log := s.log ++ [.event (.assistantMessageCompleted s.assistantMessageId)]
    assistantMessageId := s.assistantMessageId + 1 }

/-- `usage_from_response`. -/
def sendUsage : PromptResult → Session
  | .ok _ true => s.send .usage
  | _ => s

def promptSteer (text : String) : Session :=
  let s := s.sendSteered
  { s with
    doneCurrent := false
    turnContentSeen := false
    steeredThisTurn := false
    openTools := []
    lastUpdateAt := s.now
    turn := some text
    log := s.log ++ [.prompt text]
    delivered := s.delivered ++ [text] }

def leave (exit : Exit) : Session :=
  let s := { s with exit := some exit }
  if exit = .consumerGone then s
  else if s.interrupted && !s.doneAfterInterrupt then s.send (.done .interrupted)
  else if !s.interrupted && !s.doneCurrent then s.send (.done .errored)
  else s

def trackTurnSignals : StreamEvent → Session
  | .textDelta text => if text.isEmpty then s else { s with turnContentSeen := true }
  | .toolCall id =>
      { s with turnContentSeen := true, openTools := if id ∈ s.openTools then s.openTools
          else id :: s.openTools }
  | .toolResult id => { s with openTools := s.openTools.filter fun tool => tool ≠ id }
  | .other => s

/-- The events of a notification, in a turn or between two. -/
def stream : Session → List StreamEvent → Session
  | s, [] => s
  | s, event :: events => ((s.trackTurnSignals event).send (.stream event)).stream events

def sendAll (events : List StreamEvent) : Session :=
  { s with log := s.log ++ events.map fun event => .event (.stream event) }

def ask (asks : Bool) : Session :=
  if asks then { s with openQuestions := s.openQuestions + 1 } else s

/-- `incoming.try_recv()` until it is empty. -/
def drain : Session → List Incoming → Session
  | s, [] => s
  | s, .update _ events :: rest | s, .notification events :: rest => (s.sendAll events).drain rest
  | s, .turnEnded _ :: rest => s.drain rest
  | s, .request asks events :: rest => ((s.ask asks).sendAll events).drain rest

/-- The next queued steer is sent, or the loop is left when no more can come. -/
def promptQueued : Session :=
  match s.queuedSteers with
  | text :: rest => { s with queuedSteers := rest }.promptSteer text
  | [] => if s.steeringOpen then s else s.leave .mailboxClosed

/-- The steering call in flight when its turn ends, with its followers. -/
def settleCall (answer : Option SteeringResult) : Session :=
  match s.steeringCall with
  | none => s
  | some text =>
      let s := { s with steeringCall := none }
      let s :=
        if s.interrupted then s
        else if settledOutcome answer ≠ "promptRequired" then
          { s.sendSteered with delivered := s.delivered ++ [text] }
        else { s with queuedSteers := s.queuedSteers ++ [text] }
      { s with queuedSteers := s.queuedSteers ++ s.steerBacklog, steerBacklog := [] }

/-- The `Done` of a turn whose prompt has been answered. -/
def endTurn (res : PromptResult) : Session :=
  { s with
    doneCurrent := true
    doneAfterInterrupt := s.doneAfterInterrupt || s.interrupted
    log := s.log ++ [.event (.done (stopOutcome res s.interrupted))] }

/-- The end of a turn up to its `Done`. -/
def closeTurn (res : PromptResult) (answer : Option SteeringResult) (drained : List Incoming) :
    Session :=
  let s := { s with turn := none, starveDeadline := none }
  ((((s.settleCall answer).drain drained).completeMessage).sendUsage res).endTurn res

def settleTurn (res : PromptResult) (answer : Option SteeringResult) (drained : List Incoming) :
    Session :=
  let s := s.closeTurn res answer drained
  if s.interrupted || res = .error then s.leave .turnOver else s.promptQueued

def receive (spec : Spec) : Incoming → Session
  | .update turnEndCost events =>
      let s := { s with lastUpdateAt := s.now }
      let s :=
        if spec.costHintEnabled && s.turn.isSome && !s.interrupted && !s.steeredThisTurn
            && s.steeringCall.isNone && s.starveDeadline.isNone && turnEndCost then
          { s with starveDeadline := some (s.now + costHintGrace) }
        else s
      s.stream events
  | .turnEnded mine =>
      let s := { s with lastUpdateAt := s.now }
      if s.turn.isNone && !s.interrupted && mine then s.send (.done .completed) else s
  | .notification events => { s with lastUpdateAt := s.now }.stream events
  | .request asks events => (s.ask asks).sendAll events

/-- The end of the agent's output, with the prompt's response when it is already there. -/
def eof (response : Option PromptResult) : Session :=
  match s.turn, response with
  | some _, some (.ok stopReason usage) =>
      let s := { s with turn := none }
      let res := PromptResult.ok stopReason usage
      ((s.completeMessage.sendUsage res).endTurn res).leave .eof
  | _, _ => { s with turn := none }.leave .eof

/-- The followers of a steering call that has answered: the first goes into a live turn. -/
def nextFollower : Session :=
  match s.steerBacklog with
  | [] => s
  | text :: rest =>
      if s.turn.isSome && !s.interrupted then
        { s with steeringCall := some text, steerBacklog := rest }
      else { s with queuedSteers := s.queuedSteers ++ text :: rest, steerBacklog := [] }

/-- The answer to the steering call `text`, before its followers. -/
def answerCall (text : String) (res : SteeringResult) (drained : List Incoming) : Session :=
  let s := { s with steeringCall := none }
  if s.interrupted then s
  else if res.outcome ≠ "promptRequired" then
    let s := { s with delivered := s.delivered ++ [text] }
    if s.turn.isSome then
      ({ s with steeredThisTurn := true, starveDeadline := none }.drain drained).sendSteered
    -- The turn that took it is over, and its `Done` is out.
    else s
  else if s.turn.isSome then
    { s with
      starveDeadline :=
        if res.reason = some "noRunningTurn" then some (s.now + starveGrace) else s.starveDeadline
      queuedSteers := s.queuedSteers ++ [text] }
  else s.promptSteer text

def steeringAnswered (text : String) (res : SteeringResult) (drained : List Incoming) : Session :=
  (s.answerCall text res drained).nextFollower

def flush : Session :=
  let s := { s with cancelFlushDeadline := none }
  if s.turn.isNone then s.promptQueued else s

def recover : Session :=
  let s := { s with starveDeadline := none, turn := none }
  let s := { s.completeMessage with doneCurrent := true }
  (s.send (.done .completed)).promptQueued

def steer (spec : Spec) (prompt : String) : Session :=
  let text := spec.promptTransform prompt
  let s := { s with taken := s.taken ++ [text] }
  if s.turn.isNone && s.cancelFlushDeadline.isSome then
    { s with queuedSteers := s.queuedSteers ++ [text] }
  else if s.turn.isNone && !spec.costHintEnabled
      && (!s.openTools.isEmpty || s.now - s.lastUpdateAt < busyRecent) then
    { s with
      queuedSteers := s.queuedSteers ++ [text]
      cancelFlushDeadline := some (s.now + cancelFlush) }
  else if s.turn.isNone then s.promptSteer text
  else if spec.steerExt then
    if s.steeringCall.isSome then { s with steerBacklog := s.steerBacklog ++ [text] }
    else { s with steeringCall := some text }
  else { s with queuedSteers := s.queuedSteers ++ [text] }

def closeMailbox : Session :=
  let s := { s with steeringOpen := false }
  if s.turn.isNone && s.queuedSteers.isEmpty then s.leave .mailboxClosed else s

def interrupt : Session :=
  let s := { s with interruptSent := true, interrupted := true }
  if s.turn.isSome then s else s.leave .interrupted

end Session

inductive Action where
  | tick (ms : Nat)
  /-- The user answers a question of the agent. -/
  | answer
  | promptResponse (res : PromptResult) (steering : Option SteeringResult)
      (drained : List Incoming)
  | incoming (inc : Incoming)
  | eof (response : Option PromptResult)
  | steeringResponse (res : SteeringResult) (drained : List Incoming)
  | cancelFlush
  | quietSettle
  | recovery
  | steer (prompt : String)
  | mailboxClosed
  | interrupt
  | hangUp
  deriving DecidableEq

def due (deadline : Option Nat) (now : Nat) : Bool := deadline.any fun time => time ≤ now

/-- The quiet window has passed over a turn that looks finished. -/
def Session.quietDue (s : Session) (spec : Spec) : Bool :=
  (spec.quietSettle.any fun window => s.lastUpdateAt + window ≤ s.now)
    && s.starveDeadline.isNone && s.turn.isSome && !s.interrupted && s.turnContentSeen
    && s.openTools.isEmpty && s.openQuestions = 0

/-- One branch of the `select!`, with its precondition. -/
def Session.branch (spec : Spec) (s : Session) : Action → Option Session
  | .tick ms => some { s with now := s.now + ms }
  | .answer =>
      if 0 < s.openQuestions then some { s with openQuestions := s.openQuestions - 1 } else none
  | .promptResponse res answer drained =>
      if s.turn.isSome then some (s.settleTurn res answer drained) else none
  | .incoming inc => some (s.receive spec inc)
  | .eof response => some (s.eof response)
  | .steeringResponse res drained =>
      s.steeringCall.map fun text => s.steeringAnswered text res drained
  | .cancelFlush =>
      if due s.cancelFlushDeadline s.now && !s.interrupted then some s.flush else none
  | .quietSettle =>
      if s.quietDue spec then some { s with starveDeadline := some s.now } else none
  | .recovery =>
      if due s.starveDeadline s.now && s.turn.isSome && !s.interrupted then some s.recover
      else none
  | .steer prompt =>
      if s.steeringOpen && !s.interrupted then some (s.steer spec prompt) else none
  | .mailboxClosed => if s.steeringOpen && !s.interrupted then some s.closeMailbox else none
  | .interrupt => if s.interruptSent then none else some s.interrupt
  | .hangUp => some (s.leave .consumerGone)

def machine (spec : Spec) : Machine Session Action where
  init := fun s => ∃ prompt, s = .start prompt
  step := fun s a => if s.exit.isSome then none else s.branch spec a

end Zeron.Harness
