import Mathlib.Logic.Function.Basic
import Zeron.Lib.Machine

/-!
# A chat on the phone

`SessionStore` with its file, the clients that it made, and the room as far as it answers pushes.
A document, the bytes of an export and the bytes of a row are the lists of the updates in them. Tasks
run in any order, and frames arrive in any order or not at all. `U` are the updates.
-/

namespace Zeron.Ios

open Zeron.Lib

structure PendingPush (U : Type*) where
  batchId : Nat
  bytes : List U
  inFlight : Bool
deriving DecidableEq

structure ChatRoomClient (U : Type*) where
  pending : List (PendingPush U)
  joined : Bool
  closed : Bool

inductive ErrorCode where
  | tooLarge
  | empty
  | badPush
  | quota
deriving DecidableEq

def ErrorCode.permanent : ErrorCode → Bool
  | .tooLarge | .empty | .badPush => true
  | .quota => false

inductive Answer where
  | ack (seq : Nat)
  | error (code : ErrorCode)
deriving DecidableEq

/-- A push on its way to the room. -/
structure Push (U : Type*) where
  client : Nat
  batchId : Nat
  bytes : List U
deriving DecidableEq

structure Reply where
  client : Nat
  batchId : Nat
  answer : Answer
deriving DecidableEq

inductive Task (U : Type*) where
  /-- What the subscription left for the main actor. -/
  | localUpdate (update : U)
  | enqueue (client : Nat) (bytes : List U)
  | start (client : Nat)
  | stop (client : Nat)
deriving DecidableEq

namespace ChatRoomClient

variable {U : Type*} (client : ChatRoomClient U)

def new : ChatRoomClient U := { pending := [], joined := false, closed := false }

/-- No client, or one of an earlier process. -/
def gone : ChatRoomClient U := { pending := [], joined := false, closed := true }

/-- One MiB less the room for a frame's header. -/
def maxPushBytes : Nat := 1024 * 1024 - 4096

def enqueue (size : List U → Nat) (batchId : Nat) (bytes : List U) : ChatRoomClient U :=
  if maxPushBytes < size bytes then client
  else { client with
    pending := client.pending ++ [{ batchId, bytes, inFlight := false }] }

def connect : ChatRoomClient U :=
  { client with
    joined := false
    pending := client.pending.map fun push => { push with inFlight := false } }

def start : ChatRoomClient U := { client with closed := false }.connect

def stop : ChatRoomClient U := { client with closed := true, joined := false }

def pushPending : ChatRoomClient U :=
  { client with pending := client.pending.map fun push => { push with inFlight := true } }

def pushHead : ChatRoomClient U :=
  match client.pending with
  | [] => client
  | head :: rest => { client with pending := { head with inFlight := true } :: rest }

def retire (batchId : Nat) : ChatRoomClient U :=
  { client with pending := client.pending.filter (·.batchId ≠ batchId) }

def handleErrorFrame (batchId : Nat) : ErrorCode → ChatRoomClient U
  | .tooLarge | .empty | .badPush => client.retire batchId
  | .quota =>
      { client with pending := client.pending.map fun push => { push with inFlight := false } }

end ChatRoomClient

/-- For the statements: `own` are the updates made here, `minted` the bytes of all batches by the
number that stands for the batch's UUID, `acked` and `refused` what the room took and what it refused
for good. -/
structure SessionStore (U : Type*) where
  doc : List U
  cursor : Nat
  started : Bool
  roomGen : Nat
  subscribed : Bool
  /-- The saver has something to write. -/
  dirty : Bool
  chatRoom : Option Nat
  clients : Nat → ChatRoomClient U
  nextClient : Nat
  tasks : List (Task U)
  toRoom : List (Push U)
  toClient : List Reply
  /-- The snapshot on disk with its cursor. -/
  saved : Option (List U × Nat)
  own : List U
  minted : List (List U)
  acked : List U
  refused : List U

namespace SessionStore

variable {U : Type*}

def fresh : SessionStore U :=
  { doc := [], cursor := 0, started := false, roomGen := 1, subscribed := false, dirty := false
    chatRoom := none, clients := fun _ => .gone, nextClient := 0, tasks := [], toRoom := []
    toClient := [], saved := none, own := [], minted := [], acked := [], refused := [] }

variable (store : SessionStore U)

def setClient (id : Nat) (client : ChatRoomClient U) : SessionStore U :=
  { store with clients := Function.update store.clients id client }

def canConnect : Bool := store.started && store.chatRoom.isNone && 2 ≤ store.roomGen

def connectIfReady : SessionStore U :=
  if store.canConnect then
    let id := store.nextClient
    -- The first contact: all that the document has.
    let log := if store.cursor = 0 ∧ ¬ store.doc.isEmpty then [Task.enqueue id store.doc] else []
    { store.setClient id .new with
      chatRoom := some id, nextClient := id + 1, tasks := store.tasks ++ log ++ [.start id] }
  else store

def commit (update : U) : SessionStore U :=
  { store with
    doc := store.doc ++ [update], own := store.own ++ [update]
    tasks := if store.subscribed then store.tasks ++ [.localUpdate update] else store.tasks }

/-- `start` up to the first connect. `adopted` are the commands of the retired snapshot, in one
commit. -/
def load (readable : Bool) (adopted : Option U) : SessionStore U :=
  let store := match store.saved.filter fun _ => readable, adopted with
    | some (snapshot, cursor), _ => { store with doc := store.doc ++ snapshot, cursor }
    | none, some update => store.commit update
    | none, none => store
  { store with started := true, subscribed := true }

def start (readable : Bool) (adopted : Option U) : SessionStore U :=
  if store.started then store else (store.load readable adopted).connectIfReady

def updateRoomGen (gen : Nat) : SessionStore U :=
  { store with roomGen := max store.roomGen gen }.connectIfReady

def flush (written : Bool) : SessionStore U :=
  { store with
    dirty := false
    saved := if store.dirty && written then some (store.doc, store.cursor) else store.saved }

def stop (written : Bool) : SessionStore U :=
  { store.flush written with
    subscribed := false, chatRoom := none
    tasks := store.tasks ++ (store.chatRoom.map Task.stop).toList }

/-- The process is gone, and a new one has made its store. -/
def kill : SessionStore U :=
  { fresh with
    nextClient := store.nextClient, toRoom := store.toRoom, saved := store.saved
    own := store.own, minted := store.minted, acked := store.acked, refused := store.refused }

def localUpdate (update : U) : SessionStore U :=
  { store with
    tasks := store.tasks ++ (store.chatRoom.map fun id => Task.enqueue id [update]).toList
    dirty := true }

def enqueue (size : List U → Nat) (id : Nat) (bytes : List U) : SessionStore U :=
  { store.setClient id ((store.clients id).enqueue size store.minted.length bytes) with
    minted := store.minted ++ [bytes] }

def runTask (size : List U → Nat) : Task U → SessionStore U
  | .localUpdate update => store.localUpdate update
  | .enqueue id bytes => store.enqueue size id bytes
  | .start id => store.setClient id (store.clients id).start
  | .stop id => store.setClient id (store.clients id).stop

/-- A row or a checkpoint, whose import leaves the document as it is if it fails. -/
def apply (bytes : List U) (seq : Nat) : SessionStore U :=
  { store with doc := store.doc ++ bytes, cursor := max store.cursor seq, dirty := true }

def send (id : Nat) (pushes : List (PendingPush U)) : SessionStore U :=
  { store with
    toRoom := store.toRoom ++ pushes.map fun push =>
      { client := id, batchId := push.batchId, bytes := push.bytes } }

def pushPending (id : Nat) : SessionStore U :=
  let client := store.clients id
  (store.setClient id client.pushPending).send id (client.pending.filter fun push => !push.inFlight)

def pushHead (id : Nat) : SessionStore U :=
  let client := store.clients id
  (store.setClient id client.pushHead).send id client.pending.head?.toList

def roomAnswers (push : Push U) (answer : Answer) : SessionStore U :=
  let store := match answer with
    | .ack _ => { store with acked := store.acked ++ push.bytes }
    | .error code =>
        if code.permanent then { store with refused := store.refused ++ push.bytes } else store
  { store with
    toClient := store.toClient ++ [{ client := push.client, batchId := push.batchId, answer }] }

def receive (reply : Reply) : SessionStore U :=
  let client := store.clients reply.client
  if client.closed then store
  else match reply.answer with
    | .ack seq =>
        { store.setClient reply.client (client.retire reply.batchId) with
          cursor := max store.cursor seq, dirty := true }
    | .error code => store.setClient reply.client (client.handleErrorFrame reply.batchId code)

inductive Action (U : Type*) where
  | start (readable : Bool) (adopted : Option U)
  | updateRoomGen (gen : Nat)
  | kickRoom
  | queueCommand (update : U)
  | stop (written : Bool)
  | save (written : Bool)
  /-- The file is pruned. -/
  | prune
  | kill
  | runTask (i : Nat)
  /-- A first dial, a redial or a kick of a client. -/
  | connect (id : Nat)
  | disconnect (id : Nat)
  | rowsDone (id : Nat)
  | apply (id : Nat) (bytes : List U) (seq : Nat)
  | pushPending (id : Nat)
  | pushHead (id : Nat)
  | roomReceives (i : Nat) (answer : Answer)
  | receive (i : Nat)
deriving DecidableEq

/-- An update is made once. What comes from the room holds no update of this phone that the room has
not taken. -/
def step [DecidableEq U] (size : List U → Nat) : Action U → Option (SessionStore U)
  | .start readable adopted =>
      if adopted.any (· ∈ store.own) then none else some (store.start readable adopted)
  | .updateRoomGen gen => some (store.updateRoomGen gen)
  | .kickRoom => some store.connectIfReady
  | .queueCommand update => if update ∈ store.own then none else some (store.commit update)
  | .stop written => some (store.stop written)
  | .save written => some (store.flush written)
  | .prune => some { store with saved := none }
  | .kill => some store.kill
  | .runTask i =>
      (store.tasks[i]?).map fun task =>
        { store with tasks := store.tasks.eraseIdx i }.runTask size task
  | .connect id =>
      if (store.clients id).closed then none
      else some (store.setClient id (store.clients id).connect)
  | .disconnect id => some (store.setClient id { store.clients id with joined := false })
  | .rowsDone id =>
      if (store.clients id).closed then none
      else some (store.setClient id { store.clients id with joined := true })
  | .apply id bytes seq =>
      if (store.clients id).closed ∨ ∃ update ∈ bytes, update ∈ store.own ∧ update ∉ store.acked then
        none
      else some (store.apply bytes seq)
  | .pushPending id => if (store.clients id).joined then some (store.pushPending id) else none
  | .pushHead id => if (store.clients id).joined then some (store.pushHead id) else none
  | .roomReceives i answer =>
      (store.toRoom[i]?).map fun push =>
        { store with toRoom := store.toRoom.eraseIdx i }.roomAnswers push answer
  | .receive i =>
      (store.toClient[i]?).map fun reply =>
        { store with toClient := store.toClient.eraseIdx i }.receive reply

def machine [DecidableEq U] (size : List U → Nat) : Machine (SessionStore U) (Action U) :=
  { init := fun store => store = fresh, step := fun store => store.step size }

end SessionStore

end Zeron.Ios
