import Zeron.Chat.Client

/-!
# The phone in a chat's room

`ChatRoomClient.swift` with the delegate that `SessionStore` gives it, on one side of its socket, and
the room with all other devices on the other. The room and its frames are those of the engine's
client. Frames of a socket arrive in their order or not at all.
-/

namespace Zeron.Ios

open Zeron.Lib
open Zeron.Chat

/-- The document and the cursor. The rest is kept for the statements: the updates whose import failed,
the number that the checkpoints in the document cover with the epoch of the room that it belongs to,
and the epoch that the cursor belongs to. -/
structure Mirror (U : Type*) where
  doc : List U
  cursor : Nat
  skipped : List U
  covered : Nat
  epoch : Nat
  cursorEpoch : Nat

namespace Mirror

variable {U : Type*} (mirror : Mirror U)

def fresh : Mirror U :=
  { doc := [], cursor := 0, skipped := [], covered := 0, epoch := 0, cursorEpoch := 0 }

def advanceCursor (seq : Nat) : Mirror U :=
  { mirror with
    cursor := max mirror.cursor seq
    cursorEpoch := if mirror.cursor ≤ seq then mirror.epoch else mirror.cursorEpoch }

/-- A row whose import fails moves the cursor all the same. -/
def applyRow (update : U) (seq : Nat) (imports : Bool) : Mirror U :=
  advanceCursor (if imports then { mirror with doc := mirror.doc ++ [update] }
    else { mirror with skipped := mirror.skipped ++ [update] }) seq

/-- `containsFrontier`, or no checkpoint. -/
def containsFrontier [DecidableEq U] (frontier : Option (List U)) : Bool :=
  frontier.all fun updates => updates.all (· ∈ mirror.doc)

end Mirror

/-- The Swift port of `plan_catch_up`. -/
def chatPlanCatchUp {U : Type*} (cursor : Nat) (state : StateHeader U) (frontierContained : Bool) :
    CatchUpPlan :=
  planCatchUp cursor state frontierContained

/-- For the statements: the epoch of the room when the phone dialed, and the updates in the
checkpoint and the rows when the room answered the hello. -/
structure Phone (U : Type*) where
  log : ChatLog U
  /-- The room lists the phone's socket, has its hello, and has answered its request for rows. -/
  listed : Bool
  ready : Bool
  served : Bool
  toRoom : List (ClientFrame U)
  toClient : List (RoomFrame U)
  phase : Phase
  mirror : Mirror U
  pending : List (PendingPush U)
  nextBatch : Nat
  resumed : Bool
  /-- The file. -/
  saved : Mirror U
  dialed : Nat
  greeting : List U

namespace Phone

variable {U : Type*}

def start : Phone U :=
  { log := .empty, listed := false, ready := false, served := false, toRoom := [], toClient := []
    phase := .offline, mirror := .fresh, pending := [], nextBatch := 0, resumed := false
    saved := .fresh, dialed := 0, greeting := [] }

variable (me : String) (phone : Phone U)

/-! ### The client -/

/-- A commit, or the whole log at the first contact: bytes that the document has. -/
def enqueue (update : U) : Phone U :=
  { phone with
    pending := phone.pending ++ [⟨⟨me, phone.nextBatch⟩, update⟩]
    nextBatch := phone.nextBatch + 1 }

def pushPending : Phone U := { phone with toRoom := phone.toRoom ++ phone.pending.map .push }

def requestRows (after : Nat) : Phone U :=
  { phone with phase := .backfill after, toRoom := phone.toRoom ++ [.rowsReq after phone.resumed] }

def connect : Phone U :=
  { phone with
    listed := true, ready := false, served := false, phase := .hello, dialed := phone.log.epoch
    toRoom := [.hello phone.mirror.cursor], toClient := [], greeting := [] }

def disconnect : Phone U :=
  { phone with listed := false, phase := .offline, toRoom := [], toClient := [] }

def handleState [DecidableEq U] (header : StateHeader U) : Phone U :=
  match chatPlanCatchUp phone.mirror.cursor header (phone.mirror.containsFrontier header.frontier) with
  | .rowsOnly after =>
      { phone with mirror := { phone.mirror with
          covered := if phone.mirror.epoch = phone.dialed then
            max phone.mirror.covered header.checkpointSeq else header.checkpointSeq
          epoch := phone.dialed } }.requestRows after
  | .checkpointThenRows after => { phone with phase := .fetching after }

/-- The checkpoint has been fetched, whichever the room has by then. -/
def applyCheckpoint (bytes : List U) (seq : Nat) : Phone U :=
  { phone with mirror := Mirror.advanceCursor { phone.mirror with
      doc := phone.mirror.doc ++ bytes
      covered := phone.log.seqFloor
      epoch := phone.dialed } seq }.requestRows seq

def handleRow (row : LogRow U) (imports : Bool) : Phone U :=
  { phone with mirror := phone.mirror.applyRow row.update row.seq imports }

def handleAck (batchId : BatchId) (seq : Nat) : Phone U :=
  { phone with
    pending := phone.pending.filter (·.batchId != batchId)
    mirror := phone.mirror.advanceCursor seq }

def handleRowsDone : Phone U := { phone with resumed := true, phase := .steady }.pushPending

def handleFrame [DecidableEq U] (imports : Bool) (frame : RoomFrame U) : Phone U :=
  match frame, phone.phase with
  | .state header, .hello => phone.handleState header
  | .rowsDone _ _, .backfill _ => phone.handleRowsDone
  | .row row, _ => phone.handleRow row imports
  | .ack batchId seq _, _ => phone.handleAck batchId seq
  | .state _, _ | .rowsDone _ _, _ => phone

/-- The client takes the next frame from its socket, unless it is still at one. -/
def handleInbound [DecidableEq U] (imports : Bool) : Option (Phone U) :=
  match phone.phase, phone.toClient with
  | .hello, frame :: rest | .backfill _, frame :: rest | .steady, frame :: rest =>
      some ({ phone with toClient := rest }.handleFrame imports frame)
  | _, _ => none

def kill : Phone U :=
  { phone.disconnect with mirror := phone.saved, pending := [], resumed := false }

/-! ### The room -/

def contents : List U := phone.log.checkpoint.getD [] ++ phone.log.rows.map LogRow.update

def relay (row : LogRow U) : Phone U :=
  if phone.listed && phone.ready then { phone with toClient := phone.toClient ++ [.row row] }
  else phone

def handleHello : Phone U :=
  { phone with
    ready := true, toClient := phone.toClient ++ [.state phone.log.state]
    greeting := phone.contents }

def handleRowsReq (after : Nat) (excludeOwn : Bool) : Phone U :=
  let rows := phone.log.rowsAfter after (if excludeOwn then some me else none)
  { phone with
    served := true
    toClient := phone.toClient ++ rows.map .row ++ [.rowsDone phone.log.headSeq phone.contents] }

def handlePush (batch : PendingPush U) : Phone U :=
  let (log, seq, dup) := phone.log.appendRow me batch.batchId batch.update
  { phone with log, toClient := phone.toClient ++ [.ack batch.batchId seq dup] }

def roomReceives : Option (Phone U) :=
  match phone.listed, phone.toRoom with
  | true, .hello _ :: rest => some { phone with toRoom := rest }.handleHello
  | true, .rowsReq after excludeOwn :: rest =>
      some ({ phone with toRoom := rest }.handleRowsReq me after excludeOwn)
  | true, .push batch :: rest => some ({ phone with toRoom := rest }.handlePush me batch)
  | _, _ => none

/-- The error frame retires the batch, or leaves it in the queue. -/
def roomRefuses (permanent : Bool) : Option (Phone U) :=
  match phone.listed, phone.toRoom with
  | true, .push batch :: rest =>
      some { phone with
        toRoom := rest
        pending := if permanent then phone.pending.filter (·.batchId != batch.batchId)
          else phone.pending }
  | _, _ => none

/-- A push of another device, with the relay to the phone. -/
def otherPush (device : String) (batchId : BatchId) (update : U) : Phone U :=
  match phone.log.appendRow device batchId update with
  | (log, seq, false) => { phone with log }.relay ⟨seq, device, batchId, update⟩
  | (_, _, true) => phone

def postCheckpoint (seqCovered : Nat) (snapshot : List U) : Phone U :=
  match phone.log.commitCheckpoint seqCovered snapshot with
  | some log => { phone with log }
  | none => phone

def reset : Phone U := { phone with log := phone.log.reset, listed := false, toRoom := [] }

inductive Action (U : Type*) where
  /-- A new update of the phone's own; one over the cap is not queued. -/
  | localCommit (update : U) (fits : Bool)
  | pushPending
  | save
  | connect
  | disconnect
  | kill
  | receive (imports : Bool)
  /-- The fetch of the checkpoint is answered, and the import succeeds or fails. -/
  | fetched (imports : Bool)
  | roomReceives
  /-- A push is refused, for good or only for now. -/
  | roomRefuses (permanent : Bool)
  | otherPush (device : String) (number : Nat) (update : U)
  | checkpoint (seqCovered : Nat) (snapshot : List U)
  | reset
deriving DecidableEq

variable [DecidableEq U]

/-- No checkpoint that the phone could be told of has the update. -/
def isNew (update : U) : Bool :=
  phone.log.checkpoint.all (update ∉ ·) && phone.toClient.all fun
    | .state header => header.frontier.all (update ∉ ·)
    | _ => true

def step (phone : Phone U) : Action U → Option (Phone U)
  | .localCommit update fits =>
      if phone.isNew update then
        let phone := { phone with
          mirror := { phone.mirror with doc := phone.mirror.doc ++ [update] } }
        some (if fits then phone.enqueue me update else phone)
      else none
  | .pushPending => if phone.phase = .steady then some phone.pushPending else none
  | .save => some { phone with saved := phone.mirror }
  | .connect => if phone.phase = .offline then some phone.connect else none
  | .disconnect => some phone.disconnect
  | .kill => some phone.kill
  | .receive imports => phone.handleInbound imports
  | .fetched imports =>
      match phone.phase with
      | .fetching seq =>
          match phone.log.checkpoint, imports with
          | some bytes, true => some (phone.applyCheckpoint bytes seq)
          | _, _ => some phone.disconnect
      | _ => none
  | .roomReceives => phone.roomReceives me
  | .roomRefuses permanent => phone.roomRefuses permanent
  | .otherPush device number update =>
      if device = me then none else some (phone.otherPush device ⟨device, number⟩ update)
  | .checkpoint seqCovered snapshot => some (phone.postCheckpoint seqCovered snapshot)
  | .reset => some phone.reset

def machine : Machine (Phone U) (Action U) :=
  { init := fun phone => phone = start, step := step me }

end Phone

end Zeron.Ios
