import Zeron.Lib.Machine
import Zeron.Lib.Gapless
import Zeron.Chat.Room

/-!
# A client of a chat's room

`ChatClient` with the sink that the engine gives it, on one side of its socket, and the room with
all other devices on the other. The client's document is the list of the updates in it. Frames of a
socket arrive in their order or not at all.
-/

namespace Zeron.Chat

open Zeron.Lib

inductive CatchUpPlan where
  | rowsOnly (after : Nat)
  | checkpointThenRows (after : Nat)

def planCatchUp {U : Type*} (cursor : Nat) (state : StateHeader U) (frontierContained : Bool) :
    CatchUpPlan :=
  -- A cursor ahead of the head means that the room was reset.
  let cursor := if state.headSeq < cursor then 0 else cursor
  if state.frontier.isNone then .rowsOnly cursor
  else if frontierContained then .rowsOnly (max cursor state.checkpointSeq)
  else .checkpointThenRows state.checkpointSeq

structure PendingPush (U : Type*) where
  batchId : BatchId
  update : U
deriving DecidableEq

inductive ClientFrame (U : Type*) where
  | hello (cursor : Nat)
  | rowsReq (after : Nat) (excludeOwn : Bool)
  | push (batch : PendingPush U)

/-- `contents` of the end of a backfill are the updates in the checkpoint and the rows when the room
sent it, for the statements. -/
inductive RoomFrame (U : Type*) where
  | state (header : StateHeader U)
  | row (row : LogRow U)
  | rowsDone (headSeq : Nat) (contents : List U)
  | ack (batchId : BatchId) (seq : Nat) (dup : Bool)
deriving DecidableEq

/-- The number to which a frame moves the cursor, and the row in it. -/
def RoomFrame.item {U : Type*} : RoomFrame U → Item (LogRow U)
  | .state _ | .rowsDone _ _ => ⟨none, none⟩
  | .row logged => ⟨some logged.seq, some logged⟩
  | .ack _ seq _ => ⟨some seq, none⟩

inductive Phase where
  | offline
  | hello
  | fetching (after : Nat)
  | backfill (after : Nat)
  | steady
deriving DecidableEq

/-- The stored snapshot with its cursor. For the statements a cursor comes with the number that the
checkpoints in the document cover and the epoch of the room that both numbers belong to. -/
structure Saved (U : Type*) where
  doc : List U
  cursor : Nat
  covered : Nat
  epoch : Nat

structure Session (U : Type*) where
  log : ChatLog U
  /-- The room lists the client's socket, has its hello, and has answered its request for rows. -/
  listed : Bool
  ready : Bool
  served : Bool
  toRoom : List (ClientFrame U)
  toClient : List (RoomFrame U)
  phase : Phase
  doc : List U
  cursor : Nat
  covered : Nat
  epoch : Nat
  /-- The room's epoch when the client dialed. -/
  dialed : Nat
  pending : List (PendingPush U)
  nextBatch : Nat
  resumed : Bool
  saved : Saved U
  /-- Checkpoints on their way to the room. -/
  posts : List (Nat × List U)

namespace Session

variable {U : Type*}

def start : Session U :=
  { log := .empty, listed := false, ready := false, served := false, toRoom := [], toClient := []
    phase := .offline, doc := [], cursor := 0, covered := 0, epoch := 0, dialed := 0, pending := []
    nextBatch := 0, resumed := false, saved := ⟨[], 0, 0, 0⟩, posts := [] }

variable (me : String) (s : Session U)

/-! ## The client -/

def persistWithCursor (cursor : Nat) : Session U :=
  { s with saved := { doc := s.doc, cursor, covered := s.covered, epoch := s.epoch } }

def enqueueUpdate (update : U) : Session U :=
  { s with
    pending := s.pending ++ [⟨⟨me, s.nextBatch⟩, update⟩]
    nextBatch := s.nextBatch + 1 }

def pushPending : Session U := { s with toRoom := s.toRoom ++ s.pending.map .push }

def requestRows (after : Nat) : Session U :=
  { s with phase := .backfill after, toRoom := s.toRoom ++ [.rowsReq after s.resumed] }

def dial : Session U :=
  { s with
    listed := true, ready := false, served := false, phase := .hello, dialed := s.log.epoch
    toRoom := [.hello s.cursor], toClient := [] }

def disconnect : Session U :=
  { s with listed := false, phase := .offline, toRoom := [], toClient := [] }

/-- The import may fail, or set the update aside for want of an earlier one. -/
def applyRow (imports : Bool) (update : U) : List U :=
  if imports then s.doc ++ [update] else s.doc

def handleRow (imports : Bool) (row : LogRow U) : Session U :=
  let s := { s with doc := s.applyRow imports row.update }.persistWithCursor row.seq
  { s with cursor := max s.cursor row.seq }

def handleAck (batchId : BatchId) (seq : Nat) : Session U :=
  let s := { s with
    pending := s.pending.filter (·.batchId != batchId)
    cursor := max s.cursor seq }
  s.persistWithCursor s.cursor

section

variable [DecidableEq U]

/-- `contains_frontier`, or no checkpoint. -/
def contains (frontier : Option (List U)) : Bool :=
  frontier.all fun updates => updates.all (· ∈ s.doc)

def handleState (header : StateHeader U) : Session U :=
  match planCatchUp s.cursor header (s.contains header.frontier) with
  | .rowsOnly after =>
      { s with
        cursor := if after < s.cursor then after else s.cursor
        covered := if s.epoch = s.dialed then max s.covered header.checkpointSeq
          else header.checkpointSeq
        epoch := s.dialed }.requestRows after
  | .checkpointThenRows after => { s with phase := .fetching after }

end

/-- The checkpoint has been fetched, whichever the room has by then. -/
def applyCheckpoint (after : Nat) (snapshot : List U) : Session U :=
  let s := { s with
    doc := s.doc ++ snapshot
    covered := s.log.seqFloor
    epoch := s.dialed }.persistWithCursor after
  let cursor := max s.cursor after
  { s with cursor := if after < s.cursor then after else cursor }.requestRows after

def finishBackfill : Session U := { s with resumed := true, phase := .steady }.pushPending

def receive [DecidableEq U] (imports : Bool) : Option (Session U) :=
  match s.phase, s.toClient with
  | .hello, .state header :: rest => some ({ s with toClient := rest }.handleState header)
  | .hello, _ :: rest => some { s with toClient := rest }
  | .backfill _, .rowsDone _ _ :: rest => some { s with toClient := rest }.finishBackfill
  | .backfill _, frame :: rest | .steady, frame :: rest =>
      let s := { s with toClient := rest }
      match frame with
      | .row row => some (s.handleRow imports row)
      | .ack batchId seq _ => some (s.handleAck batchId seq)
      | .state _ | .rowsDone _ _ => some s
  | _, _ => none

/-- A new process, or a handle that is opened again. -/
def restart : Session U :=
  { s.disconnect with
    doc := s.saved.doc, cursor := s.saved.cursor, covered := s.saved.covered
    epoch := s.saved.epoch, pending := [], resumed := false }

/-! ## The room -/

def contents : List U := s.log.checkpoint.getD [] ++ s.log.rows.map LogRow.update

def relay (row : LogRow U) : Session U :=
  if s.listed && s.ready then { s with toClient := s.toClient ++ [.row row] } else s

def handleHello : Session U :=
  { s with ready := true, toClient := s.toClient ++ [.state s.log.state] }

def handleRowsReq (after : Nat) (excludeOwn : Bool) : Session U :=
  let rows := s.log.rowsAfter after (if excludeOwn then some me else none)
  { s with
    served := true
    toClient := s.toClient ++ rows.map .row ++ [.rowsDone s.log.headSeq s.contents] }

def handlePush (batch : PendingPush U) : Session U :=
  let (log, seq, dup) := s.log.appendRow me batch.batchId batch.update
  { s with log, toClient := s.toClient ++ [.ack batch.batchId seq dup] }

/-- A push of another device, with the relay to the client. -/
def otherPush (device : String) (batchId : BatchId) (update : U) : Session U :=
  match s.log.appendRow device batchId update with
  | (log, seq, false) => { s with log }.relay ⟨seq, device, batchId, update⟩
  | (_, _, true) => s

def postCheckpoint (seqCovered : Nat) (snapshot : List U) : Session U :=
  match s.log.commitCheckpoint seqCovered snapshot with
  | some log => { s with log }
  | none => s

def reset : Session U := { s with log := s.log.reset, listed := false, toRoom := [] }

def roomReceives : Option (Session U) :=
  match s.listed, s.toRoom with
  | true, .hello _ :: rest => some { s with toRoom := rest }.handleHello
  | true, .rowsReq after excludeOwn :: rest =>
      some ({ s with toRoom := rest }.handleRowsReq me after excludeOwn)
  | true, .push batch :: rest => some ({ s with toRoom := rest }.handlePush me batch)
  | _, _ => none

inductive Action (U : Type*) where
  /-- A new update of the client's own; one over the cap is not queued. -/
  | localCommit (update : U) (fits : Bool)
  | nudge
  | save
  | dial
  | disconnect
  | restart
  /-- `imports` says whether the document takes up the update of a row. -/
  | receive (imports : Bool)
  /-- The fetch of the checkpoint is answered. -/
  | fetched
  | roomReceives
  | otherPush (device : String) (number : Nat) (update : U)
  | otherCheckpoint (seqCovered : Nat) (snapshot : List U)
  /-- The client takes its cursor and exports a snapshot; later the room commits it, or it is lost. -/
  | capture
  | post (i : Nat)
  | losePost (i : Nat)
  | reset
deriving DecidableEq

variable [DecidableEq U]

/-- No checkpoint that the client could be told of has the update. -/
def isNew (update : U) : Bool :=
  s.log.checkpoint.all (update ∉ ·) && s.toClient.all fun
    | .state header => header.frontier.all (update ∉ ·)
    | _ => true

def step (s : Session U) : Action U → Option (Session U)
  | .localCommit update fits =>
      if s.isNew update then
        let s := { s with doc := s.doc ++ [update] }
        some (if fits then s.enqueueUpdate me update else s)
      else none
  | .nudge => if s.phase = .steady then some s.pushPending else none
  | .save => some { s with saved := { s.saved with doc := s.doc } }
  | .dial => if s.phase = .offline then some s.dial else none
  | .disconnect => some s.disconnect
  | .restart => some s.restart
  | .receive imports => s.receive imports
  | .fetched =>
      match s.phase with
      | .fetching after =>
          match s.log.checkpoint with
          | some snapshot => some (s.applyCheckpoint after snapshot)
          | none => some s.disconnect
      | _ => none
  | .roomReceives => s.roomReceives me
  | .otherPush device number update =>
      if device = me then none else some (s.otherPush device ⟨device, number⟩ update)
  | .otherCheckpoint seqCovered snapshot => some (s.postCheckpoint seqCovered snapshot)
  | .capture => some { s with posts := s.posts ++ [(s.cursor, s.doc)] }
  | .post i =>
      match s.posts[i]? with
      | some (seqCovered, snapshot) =>
          some ({ s with posts := s.posts.eraseIdx i }.postCheckpoint seqCovered snapshot)
      | none => none
  | .losePost i => some { s with posts := s.posts.eraseIdx i }
  | .reset => some s.reset

def machine : Machine (Session U) (Action U) :=
  { init := fun s => s = start, step := step me }

end Session

end Zeron.Chat
