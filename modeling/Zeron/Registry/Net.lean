import Mathlib.Data.Fintype.Basic
import Zeron.Lib.Machine
import Zeron.Registry.Room

/-!
# Clients and room

Any number of clients, each on its own FIFO socket to one room, as in `run_session` of
`crates/sync/src/registry.rs` and the message handlers of `edge/src/registry-room.ts`. A socket has
two ends that close on their own: what a client sent before it went away may still reach the room,
and what the room sent before it closed may still reach the client.
-/

namespace Zeron.Registry

open Zeron.Lib (Machine)

structure Socket (ι : Type) where
  owner : ι
  /-- The client holds its end. -/
  attached : Bool
  /-- The room holds its end. -/
  opened : Bool
  /-- Set once a hello established the session. -/
  ready : Bool
  toRoom : List ClientFrame
  toPeer : List ServerFrame
  /-- How often the storage had been wiped when the room accepted the socket. No step reads it. -/
  era : Nat

namespace Socket

variable {ι : Type}

def sendToRoom (socket : Socket ι) (frames : List ClientFrame) : Socket ι :=
  if socket.opened then { socket with toRoom := socket.toRoom ++ frames } else socket

def sendToPeer (socket : Socket ι) (frame : ServerFrame) : Socket ι :=
  if socket.attached then { socket with toPeer := socket.toPeer ++ [frame] } else socket

/-- A broadcast goes to the sockets with an established session. -/
def broadcast (socket : Socket ι) (frame : ServerFrame) : Socket ι :=
  if socket.opened ∧ socket.ready then socket.sendToPeer frame else socket

/-- The room's end is closed; what it had not read is gone. -/
def close (socket : Socket ι) : Socket ι := { socket with opened := false, toRoom := [] }

/-- The client's end is closed; what it had not read is gone. -/
def detach (socket : Socket ι) : Socket ι := { socket with attached := false, toPeer := [] }

end Socket

inductive Link where
  | offline
  /-- Hello sent, no state yet. -/
  | awaiting (sid : Nat)
  | joined (sid : Nat)
  deriving DecidableEq

structure Peer where
  doc : RegistryDoc
  link : Link
  /-- How often the storage had been wiped when the room sent the state the cursor stems from. No
  step reads it. -/
  era : Nat

structure Net (ι : Type) where
  room : Room
  peers : ι → Peer
  sockets : Nat → Option (Socket ι)
  nextSocket : Nat
  wipes : Nat

inductive Action (ι : Type) where
  /-- A writing method of the client: clock readings, then the ops it enqueues. -/
  | write (i : ι) (readings : List Int) (wall : Nat → Int) (ops : List RowOp)
  | connect (i : ι)
  | roomRecv (sid : Nat)
  | peerRecv (i : ι) (order : HashOrder) (wall : Nat → Int)
  | push (i : ι)
  | disconnect (i : ι)
  /-- The room loses a connection. -/
  | close (sid : Nat)
  /-- The operator's reset: storage emptied, every socket closed. -/
  | wipe
  /-- The tombstone collection. -/
  | collect (horizonMs : Nat)

/-- The cursor of a hello: none from a replica that never held anything. -/
def RegistryDoc.helloCursor (doc : RegistryDoc) : Option Nat :=
  if doc.serverSeq = 0 ∧ doc.pending.length = 0 ∧ doc.generation = 0 then none
  else some doc.serverSeq

def RegistryDoc.handleFrame (doc : RegistryDoc) (order : HashOrder) (wall : Nat → Int) :
    ServerFrame → RegistryDoc
  | .state seq full gcFloor rows => (doc.applyState order wall seq full gcFloor rows).1
  | .rows seq rows => doc.applyRows seq rows
  | .ack batch seq _ => (doc.ackBatch batch seq).1
  | .error _ _ => doc

namespace Net

variable {ι : Type} [DecidableEq ι]

def init (device : ι → String) : Net ι :=
  { room := .empty
    peers := fun i => { doc := .new (device i), link := .offline, era := 0 }
    sockets := fun _ => none
    nextSocket := 0
    wipes := 0 }

def setPeer (net : Net ι) (i : ι) (peer : Peer) : Net ι :=
  { net with peers := Function.update net.peers i peer }

omit [DecidableEq ι] in
def setSocket (net : Net ι) (sid : Nat) (socket : Socket ι) : Net ι :=
  { net with sockets := Function.update net.sockets sid (some socket) }

def setDoc (net : Net ι) (i : ι) (doc : RegistryDoc) : Net ι :=
  net.setPeer i { net.peers i with doc }

/-- `handlePush`. `refuses` is the validation of the room: the code and the message of its error. -/
def handlePush (refuses : List RowOp → Option (String × String)) (net : Net ι) (sid : Nat)
    (socket : Socket ι) (batch : String) (ops : List RowOp) : Net ι :=
  if socket.ready = false ∨ batch = "" then
    net.setSocket sid (socket.sendToPeer (.error "bad_push" "hello first / malformed push"))
  else
    match refuses ops with
    | some (code, message) => net.setSocket sid (socket.sendToPeer (.error code message))
    | none =>
        let applied := (net.room.touched ops).2
        let room := net.room.applyBatch ops
        let ack := ServerFrame.ack batch room.seq applied
        if 0 < applied then
          -- The rows go out before the ack.
          let rows := ServerFrame.rows room.seq (net.room.touched ops).1.rows
          { net with
            room
            sockets := Function.update (fun sid => (net.sockets sid).map (·.broadcast rows)) sid
              (some ((socket.broadcast rows).sendToPeer ack)) }
        else
          net.setSocket sid (socket.sendToPeer ack)

def roomFrame (refuses : List RowOp → Option (String × String)) (net : Net ι) (sid : Nat)
    (socket : Socket ι) : ClientFrame → Net ι
  | .hello cursor _ =>
      net.setSocket sid ({ socket with ready := true }.sendToPeer (net.room.handleHello cursor))
  | .push batch ops => net.handlePush refuses sid socket batch ops

/-- What the client does with the next frame of its socket. -/
def peerFrame (net : Net ι) (i : ι) (sid : Nat) (socket : Socket ι) (order : HashOrder)
    (wall : Nat → Int) (frame : ServerFrame) : Net ι :=
  match (net.peers i).link, frame with
  | .awaiting _, .state seq full gcFloor rows =>
      net.setPeer i
        { doc := ((net.peers i).doc.applyState order wall seq full gcFloor rows).1
          link := .joined sid
          era := socket.era }
  | .joined _, frame => net.setDoc i ((net.peers i).doc.handleFrame order wall frame)
  | _, _ => net

def linkSocket : Link → Option Nat
  | .offline => none
  | .awaiting sid | .joined sid => some sid

def step (refuses : List RowOp → Option (String × String)) (net : Net ι) :
    Action ι → Option (Net ι)
  | .write i readings wall ops =>
      some (net.setDoc i ((net.peers i).doc.commit readings wall ops))
  | .connect i =>
      if (net.peers i).link = .offline then
        let doc := (net.peers i).doc
        some
          { (net.setPeer i { net.peers i with link := .awaiting net.nextSocket }).setSocket
              net.nextSocket
              { owner := i, attached := true, opened := true, ready := false
                toRoom := [.hello doc.helloCursor doc.deviceId], toPeer := [], era := net.wipes } with
            nextSocket := net.nextSocket + 1 }
      else
        none
  | .roomRecv sid => do
      let socket ← net.sockets sid
      match socket.toRoom with
      | frame :: rest =>
          if socket.opened then
            some (net.roomFrame refuses sid { socket with toRoom := rest } frame)
          else none
      | [] => none
  | .peerRecv i order wall => do
      let sid ← linkSocket (net.peers i).link
      let socket ← net.sockets sid
      match socket.toPeer with
      | frame :: rest =>
          some ((net.setSocket sid { socket with toPeer := rest }).peerFrame i sid socket order wall
            frame)
      | [] => none
  | .push i =>
      match (net.peers i).link with
      | .joined sid => do
          let socket ← net.sockets sid
          let (batches, doc) := (net.peers i).doc.takePushable
          some ((net.setDoc i doc).setSocket sid
            (socket.sendToRoom (batches.map fun b => .push b.batch b.ops)))
      | _ => none
  | .disconnect i => do
      let sid ← linkSocket (net.peers i).link
      let socket ← net.sockets sid
      some ((net.setPeer i
        { net.peers i with doc := (net.peers i).doc.markDisconnected, link := .offline }).setSocket
          sid socket.detach)
  | .close sid => do
      let socket ← net.sockets sid
      some (net.setSocket sid socket.close)
  | .wipe =>
      some { net with
        room := .empty
        sockets := fun sid => (net.sockets sid).map Socket.close
        wipes := net.wipes + 1 }
  | .collect horizonMs => some { net with room := net.room.collect horizonMs }

def machine (device : ι → String) (refuses : List RowOp → Option (String × String)) :
    Machine (Net ι) (Action ι) where
  init net := net = init device
  step := step refuses

def joinedSocket : Link → Option Nat
  | .joined sid => some sid
  | _ => none

/-- The session is established and both ends of its socket are held. -/
def Connected (net : Net ι) (i : ι) : Prop :=
  ∃ sid ∈ joinedSocket (net.peers i).link, ∃ socket ∈ net.sockets sid, socket.opened = true

/-- No client has a pending batch and nothing is in flight. -/
def Quiescent (net : Net ι) : Prop :=
  (∀ i, (net.peers i).doc.pending = []) ∧
    ∀ sid < net.nextSocket, ∀ socket ∈ net.sockets sid, socket.toRoom = [] ∧ socket.toPeer = []

/-- The client holds the room's rows and shows the live ones. -/
def Agrees (net : Net ι) (i : ι) : Prop :=
  (net.peers i).doc.authoritative = net.room.rows ∧
    ∀ key, (net.peers i).doc.overlayRow key = net.room.rows[key]?.filter (! ·.deleted)

/-- Steps without a wipe and without a collection. -/
def Ordinary (_ : Net ι) : Action ι → Prop
  | .wipe | .collect _ => False
  | _ => True

section Wipes

omit [DecidableEq ι] in
@[simp]
theorem setSocket_wipes (net : Net ι) (sid : Nat) (socket : Socket ι) :
    (net.setSocket sid socket).wipes = net.wipes := rfl

@[simp]
theorem setPeer_wipes (net : Net ι) (i : ι) (peer : Peer) :
    (net.setPeer i peer).wipes = net.wipes := rfl

@[simp]
theorem setDoc_wipes (net : Net ι) (i : ι) (doc : RegistryDoc) :
    (net.setDoc i doc).wipes = net.wipes := rfl

omit [DecidableEq ι] in
@[simp]
theorem roomFrame_wipes (refuses : List RowOp → Option (String × String)) (net : Net ι) (sid : Nat)
    (socket : Socket ι) (frame : ClientFrame) :
    (net.roomFrame refuses sid socket frame).wipes = net.wipes := by
  cases frame with
  | hello => rfl
  | push batch ops =>
      change (net.handlePush refuses sid socket batch ops).wipes = net.wipes
      unfold handlePush
      split
      · rfl
      · split
        · rfl
        · simp only
          split <;> rfl

@[simp]
theorem peerFrame_wipes (net : Net ι) (i : ι) (sid : Nat) (socket : Socket ι) (order : HashOrder)
    (wall : Nat → Int) (frame : ServerFrame) :
    (net.peerFrame i sid socket order wall frame).wipes = net.wipes := by
  unfold peerFrame
  split <;> rfl

/-- Only a wipe counts as one. -/
theorem wipes_of_ordinary {refuses : List RowOp → Option (String × String)} {net net' : Net ι}
    {action : Action ι} (hordinary : net.Ordinary action)
    (hstep : net.step refuses action = some net') : net'.wipes = net.wipes := by
  cases action with
  | write i readings wall ops =>
      cases hstep
      rfl
  | connect i =>
      simp only [step] at hstep
      split at hstep
      · cases hstep
        rfl
      · cases hstep
  | roomRecv sid =>
      obtain ⟨socket, hsocket, hstep⟩ := Option.bind_eq_some_iff.mp hstep
      split at hstep
      · split at hstep
        · cases hstep
          simp
        · cases hstep
      · cases hstep
  | peerRecv i order wall =>
      obtain ⟨sid, hsid, hstep⟩ := Option.bind_eq_some_iff.mp hstep
      obtain ⟨socket, hsocket, hstep⟩ := Option.bind_eq_some_iff.mp hstep
      split at hstep
      · cases hstep
        simp
      · cases hstep
  | push i =>
      simp only [step] at hstep
      split at hstep
      · obtain ⟨socket, hsocket, hstep⟩ := Option.bind_eq_some_iff.mp hstep
        cases hstep
        rfl
      · cases hstep
  | disconnect i =>
      obtain ⟨sid, hsid, hstep⟩ := Option.bind_eq_some_iff.mp hstep
      obtain ⟨socket, hsocket, hstep⟩ := Option.bind_eq_some_iff.mp hstep
      cases hstep
      rfl
  | close sid =>
      obtain ⟨socket, hsocket, hstep⟩ := Option.bind_eq_some_iff.mp hstep
      cases hstep
      rfl
  | wipe | collect => exact hordinary.elim

end Wipes

section Decide

instance (net : Net ι) (i : ι) : Decidable (net.Connected i) :=
  inferInstanceAs (Decidable (∃ sid ∈ joinedSocket _, _))

instance [Fintype ι] (net : Net ι) : Decidable net.Quiescent :=
  inferInstanceAs (Decidable (_ ∧ _))

instance (net : Net ι) : (action : Action ι) → Decidable (net.Ordinary action)
  | .wipe | .collect _ => isFalse id
  | .write _ _ _ _ | .connect _ | .roomRecv _ | .peerRecv _ _ _ | .push _ | .disconnect _
  | .close _ => isTrue trivial

end Decide

end Net

end Zeron.Registry
