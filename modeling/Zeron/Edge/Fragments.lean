import Mathlib.Algebra.Ring.Nat
import Mathlib.Logic.Function.Basic
import Zeron.Edge.Blobs
import Zeron.Lib.Machine
import Zeron.Lib.Numbered

/-!
# Fragmented updates

How `edge/src/session-room.ts` cuts a large update into fragments and puts the fragments that a socket
sends together again. Handlers run one at a time up to where `applyUpdates` awaits the document; what
the imports do there is part of the action.
-/

namespace Zeron.Edge.Fragments

open Zeron.Lib (Machine)
open Zeron.Lib.Numbered

def fragmentBytes : Nat := 200_000

def maxReassembledBytes : Nat := 32 * 1024 * 1024

def maxFragmentCount : Nat := 4096

def importPenaltyStrikes : Nat := 3

def importPenaltyMs : Nat := 10 * 60 * 1000

def penaltyProbeMaxBytes : Nat := 4096

def wasmPoisonAbortAfter : Nat := 3

/-- `MAX_MESSAGE_SIZE` of `loro-protocol`. -/
def maxMessageSize : Nat := 256 * 1024

/-- An index from here on is a plain property of a JavaScript array. -/
def maxArrayLength : Nat := 2 ^ 32 - 1

inductive CrdtType where
  | loro
  | loroEphemeralStore
  | other (magic : String)
deriving DecidableEq

inductive UpdateStatusCode where
  | ok
  | unknown
  | permissionDenied
  | invalidUpdate
  | payloadTooLarge
  | fragmentTimeout
deriving DecidableEq

structure Ack where
  crdt : CrdtType
  roomId : String
  refId : String
  status : UpdateStatusCode
deriving DecidableEq

structure DocUpdate where
  crdt : CrdtType
  roomId : String
  batchId : String
  updates : List Bytes
deriving DecidableEq

structure DocUpdateFragmentHeader where
  crdt : CrdtType
  roomId : String
  batchId : String
  fragmentCount : Nat
  totalSizeBytes : Nat
deriving DecidableEq

structure DocUpdateFragment where
  crdt : CrdtType
  roomId : String
  batchId : String
  index : Nat
  fragment : Bytes
deriving DecidableEq

inductive Message where
  | update (message : DocUpdate)
  | header (message : DocUpdateFragmentHeader)
  | fragment (message : DocUpdateFragment)
  | leave (crdt : CrdtType)
deriving DecidableEq

def Message.batchId : Message → Option String
  | .update message => some message.batchId
  | .header message => some message.batchId
  | .fragment message => some message.batchId
  | .leave _ => none

def Message.fragment? : Message → Option DocUpdateFragment
  | .fragment message => some message
  | _ => none

def DocUpdateFragment.part (message : DocUpdateFragment) : Nat × Bytes :=
  (message.index, message.fragment)

/-! ## Sending -/

def smallBatches : List Bytes → (batch : List Bytes) → (batchBytes : Nat) → List (List Bytes)
  | [], batch, _ => if batch = [] then [] else [batch]
  | update :: updates, batch, batchBytes =>
      if fragmentBytes < update.length then smallBatches updates batch batchBytes
      else if fragmentBytes < batchBytes + update.length then
        (if batch = [] then [] else [batch]) ++ smallBatches updates [update] update.length
      else smallBatches updates (batch ++ [update]) (batchBytes + update.length)

def piece (update : Bytes) (i : Nat) : Bytes := (update.drop (i * fragmentBytes)).take fragmentBytes

def fragmentCount (update : Bytes) : Nat := (update.length + fragmentBytes - 1) / fragmentBytes

def fragmentMessages (crdt : CrdtType) (roomId batchId : String) (update : Bytes) : List Message :=
  .header ⟨crdt, roomId, batchId, fragmentCount update, update.length⟩ ::
    (List.range (fragmentCount update)).map fun i =>
      .fragment ⟨crdt, roomId, batchId, i, piece update i⟩

/-- The messages, where `newBatchId n` is the `n`-th id that is drawn. -/
def sendUpdates (newBatchId : Nat → String) (crdt : CrdtType) (roomId : String)
    (updates : List Bytes) : List Message :=
  let small := smallBatches updates [] 0
  let large := updates.filter fun update => fragmentBytes < update.length
  (small.zipIdx.map fun (batch, n) => .update ⟨crdt, roomId, newBatchId n, batch⟩) ++
    large.zipIdx.flatMap fun (update, n) =>
      fragmentMessages crdt roomId (newBatchId (small.length + n)) update

/-! ## Receiving -/

structure SocketState where
  rooms : List CrdtType
  /-- `none` also for an empty one. -/
  deviceId : Option String

/-- `frames` are the fragments since the header, for the statements. -/
structure FragmentBatch where
  parts : List (Option Bytes)
  received : Nat
  totalSize : Nat
  header : DocUpdateFragmentHeader
  frames : List (Nat × Bytes)
deriving DecidableEq

inductive Thrown where
  | rangeError
  | runtimeError
  | useAfterFree
  | other
deriving DecidableEq

/-- `parts[index] = fragment`; the slots up to a new one are holes. -/
def setPart (parts : List (Option Bytes)) (index : Nat) (fragment : Bytes) : List (Option Bytes) :=
  if index < parts.length then parts.set index (some fragment)
  else if index < maxArrayLength then
    parts ++ .replicate (index - parts.length) none ++ [some fragment]
  else parts

/-- The copy loop, from the offset; `total.set` of a hole is a type error. -/
def copyParts : List (Option Bytes) → (total : Bytes) → (off : Nat) → Except Thrown Bytes
  | [], total, _ => .ok total
  | none :: _, _, _ => .error .other
  | some part :: parts, total, off =>
      if total.length < off + part.length then .error .rangeError
      else
        copyParts parts (total.take off ++ part ++ total.drop (off + part.length))
          (off + part.length)

def FragmentBatch.opened (message : DocUpdateFragmentHeader) : FragmentBatch :=
  ⟨.replicate message.fragmentCount (some []), 0, message.totalSizeBytes, message, []⟩

def FragmentBatch.add (batch : FragmentBatch) (message : DocUpdateFragment) : FragmentBatch :=
  { batch with
    parts := setPart batch.parts message.index message.fragment
    received := batch.received + 1
    frames := batch.frames ++ [(message.index, message.fragment)] }

structure Penalty where
  strikes : Nat
  until' : Nat

structure PushOutcome where
  ok : Nat
  rejected : Nat
  lastOkAt : Nat
  lastRejectAt : Nat

/-- A call of `applyUpdates`, with the batch that was put together. -/
structure Call where
  ws : Nat
  deviceId : Option String
  now : Nat
  crdt : CrdtType
  roomId : String
  batchId : String
  updates : List Bytes
  batch : Option FragmentBatch
deriving DecidableEq

/-- What becomes of a call that awaited the document. -/
inductive Outcome where
  | imported
  /-- An import failed; the updates are those that were imported one by one. -/
  | rejected (salvaged : List Bytes)
  | threw (error : Thrown)

structure Room where
  now : Nat
  states : Nat → SocketState
  fragments : Nat → String → Option FragmentBatch
  importPenalty : String → Option Penalty
  pushOutcomes : String → Option PushOutcome
  pending : List Bytes
  waiting : List Call
  wasmPoisonStrikes : Nat
  aborted : Bool
  acks : List (Nat × Ack)
  calls : List Call

inductive Action where
  /-- `accepted`: the ephemeral store takes the updates. -/
  | receive (ws : Nat) (message : Message) (accepted : Bool)
  | apply (i : Nat) (outcome : Outcome)
  | join (ws : Nat) (state : SocketState)
  | close (ws : Nat)
  | hibernate
  | advance (now : Nat)

namespace Room

variable (room : Room)

def new : Room where
  now := 0
  states := fun _ => ⟨[], none⟩
  fragments := fun _ _ => none
  importPenalty := fun _ => none
  pushOutcomes := fun _ => none
  pending := []
  waiting := []
  wasmPoisonStrikes := 0
  aborted := false
  acks := []
  calls := []

def ack (ws : Nat) (crdt : CrdtType) (roomId : String) (status : UpdateStatusCode)
    (refId : String) : Room :=
  { room with acks := room.acks ++ [(ws, ⟨crdt, roomId, refId, status⟩)] }

def importPenalized (deviceId : Option String) (now : Nat) : Bool :=
  (deviceId.bind room.importPenalty).any fun entry =>
    importPenaltyStrikes ≤ entry.strikes && now < entry.until'

def notePush (deviceId : Option String) (ok : Bool) (now : Nat) : Room :=
  match deviceId with
  | none => room
  | some deviceId =>
      let entry := (room.pushOutcomes deviceId).getD ⟨0, 0, 0, 0⟩
      let entry :=
        if ok then { entry with ok := entry.ok + 1, lastOkAt := now }
        else { entry with rejected := entry.rejected + 1, lastRejectAt := now }
      { room with pushOutcomes := Function.update room.pushOutcomes deviceId (some entry) }

def strike (deviceId : Option String) (now : Nat) : Room :=
  match deviceId with
  | none => room
  | some deviceId =>
      let entry := (room.importPenalty deviceId).getD ⟨0, 0⟩
      { room with
        importPenalty := Function.update room.importPenalty deviceId
          (some ⟨entry.strikes + 1, now + importPenaltyMs⟩) }

def forgive (deviceId : Option String) : Room :=
  match deviceId with
  | none => room
  | some deviceId =>
      { room with importPenalty := Function.update room.importPenalty deviceId none }

def recordLoroUpdates (updates : List Bytes) : Room :=
  { room with pending := room.pending ++ updates.filter fun update => update ≠ [] }

/-- `escalateWasmPoisoning` -/
def escalate (error : Thrown) : Room :=
  if error = .other then room
  else
    { room with
      wasmPoisonStrikes := room.wasmPoisonStrikes + 1
      aborted := wasmPoisonAbortAfter ≤ room.wasmPoisonStrikes + 1 }

/-- `applyUpdates`, up to where it awaits the document. -/
def applyUpdates (call : Call) (accepted : Bool) : Room :=
  let room := { room with calls := room.calls ++ [call] }
  match call.crdt with
  | .loro =>
      if room.importPenalized call.deviceId call.now ∧
          penaltyProbeMaxBytes < (call.updates.map List.length).sum then
        (room.notePush call.deviceId false call.now).ack call.ws call.crdt call.roomId
          .invalidUpdate call.batchId
      else { room with waiting := room.waiting ++ [call] }
  | .loroEphemeralStore =>
      room.ack call.ws call.crdt call.roomId (if accepted then .ok else .invalidUpdate) call.batchId
  | .other _ => room.ack call.ws call.crdt call.roomId .unknown call.batchId

/-- The rest of `applyUpdates`. -/
def finish (call : Call) : Outcome → Room
  | .imported =>
      (((room.forgive call.deviceId).notePush call.deviceId true call.now).recordLoroUpdates
        call.updates).ack call.ws call.crdt call.roomId .ok call.batchId
  | .rejected salvaged =>
      (((room.strike call.deviceId call.now).notePush call.deviceId false
        call.now).recordLoroUpdates salvaged).ack call.ws call.crdt call.roomId .invalidUpdate
          call.batchId
  | .threw error => room.escalate error

def call (ws : Nat) (crdt : CrdtType) (roomId batchId : String) (updates : List Bytes)
    (batch : Option FragmentBatch) : Call :=
  ⟨ws, (room.states ws).deviceId, room.now, crdt, roomId, batchId, updates, batch⟩

def handleDocUpdate (ws : Nat) (message : DocUpdate) (accepted : Bool) : Room :=
  if message.updates.any fun update => maxMessageSize < update.length then
    room.ack ws message.crdt message.roomId .payloadTooLarge message.batchId
  else if message.crdt ∈ (room.states ws).rooms then
    room.applyUpdates
      (room.call ws message.crdt message.roomId message.batchId message.updates none) accepted
  else room.ack ws message.crdt message.roomId .permissionDenied message.batchId

def setBatch (ws : Nat) (batchId : String) (batch : Option FragmentBatch) : Room :=
  { room with
    fragments := Function.update room.fragments ws
      (Function.update (room.fragments ws) batchId batch) }

def refusal (ws : Nat) (message : DocUpdateFragmentHeader) : Option UpdateStatusCode :=
  if message.crdt ∉ (room.states ws).rooms then some .permissionDenied
  else if maxReassembledBytes < message.totalSizeBytes ∨
      maxFragmentCount < message.fragmentCount then
    some .payloadTooLarge
  else if message.crdt = .loro ∧ penaltyProbeMaxBytes < message.totalSizeBytes ∧
      room.importPenalized (room.states ws).deviceId room.now = true then
    some .invalidUpdate
  else none

def handleFragmentHeader (ws : Nat) (message : DocUpdateFragmentHeader) : Room :=
  match room.refusal ws message with
  | none => room.setBatch ws message.batchId (some (.opened message))
  | some status =>
      let room :=
        if status = .invalidUpdate then
          room.notePush (room.states ws).deviceId false room.now
        else room
      room.ack ws message.crdt message.roomId status message.batchId

def handleFragment (ws : Nat) (message : DocUpdateFragment) (accepted : Bool) : Room :=
  match room.fragments ws message.batchId with
  | none =>
      if message.crdt = .loro ∧ room.importPenalized (room.states ws).deviceId room.now = true then
        room
      else room.ack ws message.crdt message.roomId .fragmentTimeout message.batchId
  | some batch =>
      let batch := batch.add message
      if batch.received < batch.parts.length then room.setBatch ws message.batchId (some batch)
      else
        let room := room.setBatch ws message.batchId none
        match copyParts batch.parts (.replicate batch.totalSize 0) 0 with
        | .ok total =>
            room.applyUpdates
              (room.call ws message.crdt message.roomId message.batchId [total] (some batch))
              accepted
        | .error error => room.escalate error

def handle (ws : Nat) (accepted : Bool) : Message → Room
  | .update message => room.handleDocUpdate ws message accepted
  | .header message => room.handleFragmentHeader ws message
  | .fragment message => room.handleFragment ws message accepted
  | .leave crdt =>
      let state := room.states ws
      { room with
        states := Function.update room.states ws
          { state with rooms := state.rooms.filter fun other => other ≠ crdt } }

def turn : Action → Option Room
  | .receive ws message accepted => some (room.handle ws accepted message)
  | .apply i outcome =>
      (room.waiting[i]?).map fun call =>
        { room with waiting := room.waiting.eraseIdx i }.finish call outcome
  | .join ws state => some { room with states := Function.update room.states ws state }
  | .close ws => some { room with fragments := Function.update room.fragments ws fun _ => none }
  | .hibernate =>
      if room.waiting = [] then
        some { room with
          fragments := fun _ _ => none, importPenalty := fun _ => none
          pushOutcomes := fun _ => none }
      else none
  | .advance now => some { room with now := max room.now now }

/-- Nothing more happens in an isolate that was aborted. -/
def step (action : Action) : Option Room := if room.aborted then none else room.turn action

end Room

def sessionRoom : Machine Room Action where
  init := (· = .new)
  step := Room.step

/-! ## What the handlers leave alone -/

namespace Room

variable {room room' : Room}

section Frame

variable (ws : Nat) (crdt : CrdtType) (roomId refId : String) (status : UpdateStatusCode)
variable (deviceId : Option String) (ok : Bool) (now : Nat) (updates : List Bytes)

@[simp]
theorem fragments_ack : (room.ack ws crdt roomId status refId).fragments = room.fragments := rfl

@[simp]
theorem calls_ack : (room.ack ws crdt roomId status refId).calls = room.calls := rfl

@[simp]
theorem strikes_ack :
    (room.ack ws crdt roomId status refId).wasmPoisonStrikes = room.wasmPoisonStrikes := rfl

@[simp]
theorem fragments_notePush : (room.notePush deviceId ok now).fragments = room.fragments := by
  cases deviceId <;> rfl

@[simp]
theorem calls_notePush : (room.notePush deviceId ok now).calls = room.calls := by
  cases deviceId <;> rfl

@[simp]
theorem acks_notePush : (room.notePush deviceId ok now).acks = room.acks := by
  cases deviceId <;> rfl

@[simp]
theorem strikes_notePush :
    (room.notePush deviceId ok now).wasmPoisonStrikes = room.wasmPoisonStrikes := by
  cases deviceId <;> rfl

@[simp]
theorem fragments_strike : (room.strike deviceId now).fragments = room.fragments := by
  cases deviceId <;> rfl

@[simp]
theorem calls_strike : (room.strike deviceId now).calls = room.calls := by
  cases deviceId <;> rfl

@[simp]
theorem fragments_forgive : (room.forgive deviceId).fragments = room.fragments := by
  cases deviceId <;> rfl

@[simp]
theorem calls_forgive : (room.forgive deviceId).calls = room.calls := by
  cases deviceId <;> rfl

@[simp]
theorem fragments_record : (room.recordLoroUpdates updates).fragments = room.fragments := rfl

@[simp]
theorem calls_record : (room.recordLoroUpdates updates).calls = room.calls := rfl

@[simp]
theorem fragments_escalate (error : Thrown) : (room.escalate error).fragments = room.fragments := by
  unfold escalate
  split_ifs <;> rfl

@[simp]
theorem calls_escalate (error : Thrown) : (room.escalate error).calls = room.calls := by
  unfold escalate
  split_ifs <;> rfl

variable (call : Call) (accepted : Bool)

@[simp]
theorem fragments_applyUpdates : (room.applyUpdates call accepted).fragments = room.fragments := by
  unfold applyUpdates
  cases call.crdt with
  | loro =>
      dsimp only
      split_ifs
      · simp
      · rfl
  | loroEphemeralStore | other magic => rfl

@[simp]
theorem calls_applyUpdates : (room.applyUpdates call accepted).calls = room.calls ++ [call] := by
  unfold applyUpdates
  cases call.crdt with
  | loro =>
      dsimp only
      split_ifs
      · simp
      · rfl
  | loroEphemeralStore | other magic => rfl

@[simp]
theorem strikes_applyUpdates :
    (room.applyUpdates call accepted).wasmPoisonStrikes = room.wasmPoisonStrikes := by
  unfold applyUpdates
  cases call.crdt with
  | loro =>
      dsimp only
      split_ifs
      · simp
      · rfl
  | loroEphemeralStore | other magic => rfl

@[simp]
theorem fragments_finish (outcome : Outcome) :
    (room.finish call outcome).fragments = room.fragments := by
  cases outcome <;> simp [finish]

@[simp]
theorem calls_finish (outcome : Outcome) : (room.finish call outcome).calls = room.calls := by
  cases outcome <;> simp [finish]

end Frame

theorem fragments_setBatch (ws ws' : Nat) (batchId batchId' : String)
    (batch : Option FragmentBatch) :
    (room.setBatch ws batchId batch).fragments ws' batchId' =
      if ws' = ws ∧ batchId' = batchId then batch else room.fragments ws' batchId' := by
  unfold setBatch
  by_cases hws : ws' = ws
  · subst hws
    by_cases hid : batchId' = batchId
    · simp [hid]
    · simp [hid]
  · simp [hws]

@[simp]
theorem fragments_handleDocUpdate (ws : Nat) (message : DocUpdate) (accepted : Bool) :
    (room.handleDocUpdate ws message accepted).fragments = room.fragments := by
  unfold handleDocUpdate
  split_ifs <;> simp

/-! ## The copy -/

theorem copyParts_map (parts : List Bytes) (front back : Bytes) :
    copyParts (parts.map some) (front ++ back) front.length =
      if parts.flatten.length ≤ back.length then
        .ok (front ++ parts.flatten ++ back.drop parts.flatten.length)
      else .error .rangeError := by
  induction parts generalizing front back with
  | nil => simp [copyParts]
  | cons part parts ih =>
      have hflatten : (part ++ parts.flatten).length = part.length + parts.flatten.length :=
        List.length_append
      have htotal : (front ++ back).length = front.length + back.length := List.length_append
      rw [List.map_cons, copyParts, List.flatten_cons, hflatten, htotal]
      by_cases hfits : part.length ≤ back.length
      · have hsplit : (front ++ back).take front.length ++ part ++
            (front ++ back).drop (front.length + part.length) =
              (front ++ part) ++ back.drop part.length := by
          simp
        rw [if_neg (by omega), hsplit, ← List.length_append, ih, List.length_drop, List.drop_drop]
        by_cases hrest : part.length + parts.flatten.length ≤ back.length
        · rw [if_pos (by omega), if_pos hrest]
          simp
        · rw [if_neg (by omega), if_neg hrest]
      · rw [if_pos (by omega), if_neg (by omega)]

theorem copyParts_exact {parts : List Bytes} {totalSize : Nat}
    (h : parts.flatten.length = totalSize) :
    copyParts (parts.map some) (.replicate totalSize 0) 0 = .ok parts.flatten := by
  have hcopy := copyParts_map parts [] (.replicate totalSize 0)
  rw [List.length_replicate, if_pos (Nat.le_of_eq h), h] at hcopy
  simpa using hcopy

theorem setPart_map {parts : List Bytes} {index : Nat} (fragment : Bytes)
    (h : index < parts.length) :
    setPart (parts.map some) index fragment = (parts.set index fragment).map some := by
  rw [setPart, if_pos (by rwa [List.length_map]), List.map_set]

end Room

/-! ## Batches -/

namespace FragmentBatch

/-- The slots hold what came, where the numbers are in order. -/
structure Sound (batch : FragmentBatch) : Prop where
  received : batch.received = batch.frames.length
  totalSize : batch.totalSize = batch.header.totalSizeBytes
  parts : WellNumbered batch.header.fragmentCount batch.frames →
    batch.parts = (assemble [] batch.header.fragmentCount batch.frames).map some

def contents (batch : FragmentBatch) : Bytes :=
  (inOrder [] batch.header.fragmentCount batch.frames).flatten

variable {batch : FragmentBatch}

theorem sound_opened (message : DocUpdateFragmentHeader) : (opened message).Sound where
  received := rfl
  totalSize := rfl
  parts := fun _ => by simp [opened, assemble]

theorem Sound.add (h : batch.Sound) (message : DocUpdateFragment) :
    (batch.add message).Sound where
  received := by simp [FragmentBatch.add, h.received]
  totalSize := h.totalSize
  parts := by
    intro hnumbered
    obtain ⟨hbefore, hlt, -⟩ := hnumbered.of_concat
    change setPart batch.parts message.index message.fragment = _
    rw [h.parts hbefore, Room.setPart_map _ (by rw [length_assemble]; exact hlt)]
    exact congrArg (List.map some) (assemble_concat (message.index, message.fragment)).symm

theorem Sound.length_parts (h : batch.Sound)
    (hnumbered : WellNumbered batch.header.fragmentCount batch.frames) :
    batch.parts.length = batch.header.fragmentCount := by
  rw [h.parts hnumbered, List.length_map, length_assemble]

theorem Sound.copy (h : batch.Sound)
    (hnumbered : WellNumbered batch.header.fragmentCount batch.frames)
    (hsize : batch.contents.length = batch.header.totalSizeBytes) :
    copyParts batch.parts (.replicate batch.totalSize 0) 0 = .ok batch.contents := by
  rw [h.parts hnumbered, assemble_eq_inOrder hnumbered, h.totalSize]
  exact Room.copyParts_exact hsize

theorem Sound.complete (h : batch.Sound)
    (hnumbered : WellNumbered batch.header.fragmentCount batch.frames) :
    Complete batch.header.fragmentCount batch.frames ↔ ¬ batch.received < batch.parts.length := by
  have hle := hnumbered.length_le
  rw [hnumbered.complete_iff, h.length_parts hnumbered, h.received]
  omega

end FragmentBatch

/-- The batch that was put together, and what `copyParts` made of it. -/
structure Call.Assembled (call : Call) (batch : FragmentBatch) : Prop where
  sound : batch.Sound
  done : ¬ batch.received < batch.parts.length
  updates : ∃ total, call.updates = [total] ∧
    copyParts batch.parts (.replicate batch.totalSize 0) 0 = .ok total

variable {update : Bytes}

namespace Room

variable {room room' : Room}

structure Sound (room : Room) : Prop where
  batches : ∀ ws batchId batch, room.fragments ws batchId = some batch →
    batch.Sound ∧ (batch.frames = [] ∨ batch.received < batch.parts.length)
  calls : ∀ call ∈ room.calls, ∀ batch, call.batch = some batch → call.Assembled batch

theorem Sound.congr (h : room.Sound) (hfragments : room'.fragments = room.fragments)
    (hcalls : room'.calls = room.calls) : room'.Sound where
  batches := by
    rw [hfragments]
    exact h.batches
  calls := by
    rw [hcalls]
    exact h.calls

theorem Sound.setBatch (h : room.Sound) (ws : Nat) (batchId : String)
    {batch : Option FragmentBatch}
    (hbatch : ∀ open', batch = some open' →
      open'.Sound ∧ (open'.frames = [] ∨ open'.received < open'.parts.length)) :
    (room.setBatch ws batchId batch).Sound where
  batches := by
    intro ws' batchId' open' hopen
    rw [fragments_setBatch] at hopen
    split_ifs at hopen
    · exact hbatch open' hopen
    · exact h.batches ws' batchId' open' hopen
  calls := h.calls

theorem Sound.applyUpdates (h : room.Sound) {call : Call} (accepted : Bool)
    (hcall : ∀ batch, call.batch = some batch → call.Assembled batch) :
    (room.applyUpdates call accepted).Sound where
  batches := by
    rw [fragments_applyUpdates]
    exact h.batches
  calls := by
    intro other hmem
    rw [calls_applyUpdates, List.mem_append, List.mem_singleton] at hmem
    obtain hmem | rfl := hmem
    · exact h.calls other hmem
    · exact hcall

theorem Sound.handleDocUpdate (h : room.Sound) (ws : Nat) (message : DocUpdate)
    (accepted : Bool) : (room.handleDocUpdate ws message accepted).Sound := by
  unfold Room.handleDocUpdate
  split_ifs
  · exact h.congr rfl rfl
  · exact h.applyUpdates accepted nofun
  · exact h.congr rfl rfl

theorem Sound.handleFragmentHeader (h : room.Sound) (ws : Nat)
    (message : DocUpdateFragmentHeader) : (room.handleFragmentHeader ws message).Sound := by
  unfold Room.handleFragmentHeader
  split
  · refine h.setBatch ws message.batchId ?_
    rintro _ ⟨⟩
    exact ⟨FragmentBatch.sound_opened message, .inl rfl⟩
  · dsimp only
    split_ifs
    · exact h.congr (by simp) (by simp)
    · exact h.congr rfl rfl

theorem Sound.handleFragment (h : room.Sound) (ws : Nat) (message : DocUpdateFragment)
    (accepted : Bool) : (room.handleFragment ws message accepted).Sound := by
  unfold Room.handleFragment
  split
  · split_ifs
    · exact h
    · exact h.congr rfl rfl
  · rename_i batch hbatch
    have hadd := (h.batches ws message.batchId batch hbatch).1.add message
    have hclosed : (room.setBatch ws message.batchId none).Sound :=
      h.setBatch ws message.batchId nofun
    dsimp only
    split_ifs with hmore
    · refine h.setBatch ws message.batchId ?_
      rintro _ ⟨⟩
      exact ⟨hadd, .inr hmore⟩
    · split
      · rename_i total hcopy
        refine hclosed.applyUpdates accepted ?_
        rintro _ ⟨⟩
        exact ⟨hadd, hmore, total, rfl, hcopy⟩
      · exact hclosed.congr (by simp) (by simp)

theorem turn_of_step {action : Action} (hstep : room.step action = some room') :
    room.turn action = some room' := by
  unfold step at hstep
  split_ifs at hstep
  exact hstep

theorem sound_step (h : room.Sound) {action : Action} (hstep : room.step action = some room') :
    room'.Sound := by
  replace hstep := turn_of_step hstep
  cases action with
  | receive ws message accepted =>
      cases hstep
      cases message with
      | update message => exact h.handleDocUpdate ws message accepted
      | header message => exact h.handleFragmentHeader ws message
      | fragment message => exact h.handleFragment ws message accepted
      | leave crdt => exact h.congr rfl rfl
  | apply i outcome =>
      obtain ⟨call, -, rfl⟩ := Option.map_eq_some_iff.mp hstep
      exact h.congr (fragments_finish ..) (calls_finish ..)
  | join ws state | advance now =>
      cases hstep
      exact h.congr rfl rfl
  | close ws =>
      cases hstep
      refine ⟨?_, h.calls⟩
      intro ws' batchId batch hbatch
      by_cases heq : ws' = ws
      · subst heq
        simp at hbatch
      · simp only [Function.update_of_ne heq] at hbatch
        exact h.batches ws' batchId batch hbatch
  | hibernate =>
      simp only [turn] at hstep
      split_ifs at hstep
      cases hstep
      exact ⟨nofun, h.calls⟩

theorem sound_of_reachable (h : sessionRoom.Reachable room) : room.Sound := by
  apply h.invariant
  · rintro _ rfl
    exact ⟨nofun, nofun⟩
  · intro room action room' hsound _ hstep
    exact sound_step hsound hstep

/-! ## One batch along a run -/

def messageOf (ws : Nat) (batchId : String) : Action → Option Message
  | .receive ws' message _ =>
      if ws' = ws ∧ message.batchId = some batchId then some message else none
  | _ => none

def forgets (ws : Nat) : Action → Bool
  | .close ws' => ws' = ws
  | .hibernate => true
  | _ => false

def callsOf (room : Room) (ws : Nat) (batchId : String) : List Call :=
  room.calls.filter fun call => call.ws = ws ∧ call.batchId = batchId

variable {ws : Nat} {batchId : String}

def Same (ws : Nat) (batchId : String) (room room' : Room) : Prop :=
  room'.fragments ws batchId = room.fragments ws batchId ∧
    room'.callsOf ws batchId = room.callsOf ws batchId

theorem Same.of_eq (hfragments : room'.fragments = room.fragments)
    (hcalls : room'.calls = room.calls) : Same ws batchId room room' := by
  constructor
  · rw [hfragments]
  · rw [callsOf, callsOf, hcalls]

theorem Same.trans {room'' : Room} (h : Same ws batchId room room')
    (h' : Same ws batchId room' room'') : Same ws batchId room room'' :=
  ⟨h'.1.trans h.1, h'.2.trans h.2⟩

theorem same_applyUpdates {call : Call} (accepted : Bool)
    (hother : ¬ (call.ws = ws ∧ call.batchId = batchId)) :
    Same ws batchId room (room.applyUpdates call accepted) := by
  constructor
  · rw [fragments_applyUpdates]
  · simp [callsOf, List.filter_append, hother]

theorem same_setBatch {ws' : Nat} {batchId' : String} (batch : Option FragmentBatch)
    (hother : ¬ (ws' = ws ∧ batchId' = batchId)) :
    Same ws batchId room (room.setBatch ws' batchId' batch) := by
  constructor
  · rw [fragments_setBatch, if_neg fun heq => hother ⟨heq.1.symm, heq.2.symm⟩]
  · rfl

theorem same_handleDocUpdate {ws' : Nat} {message : DocUpdate} (accepted : Bool)
    (hother : ¬ (ws' = ws ∧ message.batchId = batchId)) :
    Same ws batchId room (room.handleDocUpdate ws' message accepted) := by
  unfold Room.handleDocUpdate
  split_ifs
  · exact Same.of_eq rfl rfl
  · exact same_applyUpdates accepted hother
  · exact Same.of_eq rfl rfl

theorem same_handleFragmentHeader {ws' : Nat} {message : DocUpdateFragmentHeader}
    (hother : ¬ (ws' = ws ∧ message.batchId = batchId)) :
    Same ws batchId room (room.handleFragmentHeader ws' message) := by
  unfold Room.handleFragmentHeader
  split
  · exact same_setBatch _ hother
  · dsimp only
    split_ifs
    · exact Same.of_eq (by simp) (by simp)
    · exact Same.of_eq rfl rfl

theorem same_handleFragment {ws' : Nat} {message : DocUpdateFragment} (accepted : Bool)
    (hother : ¬ (ws' = ws ∧ message.batchId = batchId)) :
    Same ws batchId room (room.handleFragment ws' message accepted) := by
  have hclosed : Same ws batchId room (room.setBatch ws' message.batchId none) :=
    same_setBatch none hother
  unfold Room.handleFragment
  split
  · split_ifs
    · exact Same.of_eq rfl rfl
    · exact Same.of_eq rfl rfl
  · dsimp only
    split_ifs
    · exact same_setBatch _ hother
    · split
      · exact hclosed.trans (same_applyUpdates accepted hother)
      · exact hclosed.trans (Same.of_eq (by simp) (by simp))

theorem same_of_step {action : Action} (hmessage : messageOf ws batchId action = none)
    (hforgets : forgets ws action = false) (hstep : room.step action = some room') :
    Same ws batchId room room' := by
  replace hstep := turn_of_step hstep
  cases action with
  | receive ws' message accepted =>
      cases hstep
      have hother : ¬ (ws' = ws ∧ message.batchId = some batchId) := by
        simpa [messageOf] using hmessage
      cases message with
      | update message =>
          exact same_handleDocUpdate accepted fun heq => hother ⟨heq.1, congrArg some heq.2⟩
      | header message =>
          exact same_handleFragmentHeader fun heq => hother ⟨heq.1, congrArg some heq.2⟩
      | fragment message =>
          exact same_handleFragment accepted fun heq => hother ⟨heq.1, congrArg some heq.2⟩
      | leave crdt => exact Same.of_eq rfl rfl
  | apply i outcome =>
      obtain ⟨call, -, rfl⟩ := Option.map_eq_some_iff.mp hstep
      exact Same.of_eq (fragments_finish ..) (calls_finish ..)
  | close ws' =>
      cases hstep
      have hne : ws ≠ ws' := fun heq => by simp [forgets, heq] at hforgets
      exact ⟨by simp [hne], rfl⟩
  | hibernate => cases hforgets
  | join _ _ | advance _ =>
      cases hstep
      exact Same.of_eq rfl rfl

theorem same_of_run {actions : List Action}
    (hmessages : actions.filterMap (messageOf ws batchId) = [])
    (hforgets : ∀ action ∈ actions, forgets ws action = false)
    (hrun : sessionRoom.run room actions = some room') : Same ws batchId room room' := by
  induction actions generalizing room with
  | nil =>
      cases hrun
      exact Same.of_eq rfl rfl
  | cons action actions ih =>
      obtain ⟨next, hnext, hrest⟩ := Option.bind_eq_some_iff.mp hrun
      rw [List.filterMap_eq_nil_iff] at hmessages
      have hstep := same_of_step (hmessages action List.mem_cons_self)
        (hforgets action List.mem_cons_self) hnext
      refine hstep.trans (ih ?_ (fun a ha => hforgets a (List.mem_cons_of_mem _ ha)) hrest)
      exact List.filterMap_eq_nil_iff.mpr fun a ha => hmessages a (List.mem_cons_of_mem _ ha)

theorem eq_receive_of_messageOf {action : Action} {message : Message}
    (h : messageOf ws batchId action = some message) :
    ∃ accepted, action = .receive ws message accepted ∧ message.batchId = some batchId := by
  unfold messageOf at h
  split at h
  · split_ifs at h with heq
    cases h
    obtain ⟨rfl, hid⟩ := heq
    exact ⟨_, rfl, hid⟩
  · cases h

theorem add_of_step {batch : FragmentBatch} {message : DocUpdateFragment} {accepted : Bool}
    (hbatch : room.fragments ws message.batchId = some batch)
    (hmore : (batch.add message).received < (batch.add message).parts.length)
    (hstep : room.step (.receive ws (.fragment message) accepted) = some room') :
    room'.fragments ws message.batchId = some (batch.add message) ∧
      room'.callsOf ws message.batchId = room.callsOf ws message.batchId := by
  replace hstep := turn_of_step hstep
  cases hstep
  simp only [handle, handleFragment, hbatch, if_pos hmore]
  exact ⟨by rw [fragments_setBatch, if_pos ⟨rfl, rfl⟩], rfl⟩

theorem call_of_step {batch : FragmentBatch} {message : DocUpdateFragment} {accepted : Bool}
    {total : Bytes} (hbatch : room.fragments ws message.batchId = some batch)
    (hdone : ¬ (batch.add message).received < (batch.add message).parts.length)
    (hcopy : copyParts (batch.add message).parts
      (.replicate (batch.add message).totalSize 0) 0 = .ok total)
    (hstep : room.step (.receive ws (.fragment message) accepted) = some room') :
    ∃ call, room'.callsOf ws message.batchId = room.callsOf ws message.batchId ++ [call] ∧
      call.crdt = message.crdt ∧ call.roomId = message.roomId ∧ call.updates = [total] := by
  replace hstep := turn_of_step hstep
  cases hstep
  simp only [handle, handleFragment, hbatch, if_neg hdone, hcopy]
  refine ⟨(room.setBatch ws message.batchId none).call ws message.crdt message.roomId
    message.batchId [total] (some (batch.add message)), ?_, rfl, rfl, rfl⟩
  rw [callsOf, calls_applyUpdates, List.filter_append]
  congr 1
  simp [call]

/-- **One batch.** The last of the awaited fragments hands on the whole. -/
theorem call_of_run {crdt : CrdtType} {roomId : String} {batch : FragmentBatch}
    {messages : List DocUpdateFragment} {actions : List Action}
    (hsound : batch.Sound) (hbatch : room.fragments ws batchId = some batch)
    (hmessages : actions.filterMap (messageOf ws batchId) = messages.map .fragment)
    (hsame : ∀ message ∈ messages, message.crdt = crdt ∧ message.roomId = roomId)
    (hnumbered : WellNumbered batch.header.fragmentCount
      (batch.frames ++ messages.map DocUpdateFragment.part))
    (hcount : batch.frames.length + messages.length = batch.header.fragmentCount)
    (hpos : messages ≠ [])
    (hsize : (inOrder [] batch.header.fragmentCount
      (batch.frames ++ messages.map DocUpdateFragment.part)).flatten.length =
        batch.header.totalSizeBytes)
    (hforgets : ∀ action ∈ actions, forgets ws action = false)
    (hrun : sessionRoom.run room actions = some room') :
    ∃ call, room'.callsOf ws batchId = room.callsOf ws batchId ++ [call] ∧
      call.crdt = crdt ∧ call.roomId = roomId ∧
        call.updates = [(inOrder [] batch.header.fragmentCount
          (batch.frames ++ messages.map DocUpdateFragment.part)).flatten] := by
  induction actions generalizing room batch messages with
  | nil => simp [hpos] at hmessages
  | cons action actions ih =>
      obtain ⟨next, hnext, hrest⟩ := Option.bind_eq_some_iff.mp hrun
      have hkeeps := fun a ha => hforgets a (List.mem_cons_of_mem action ha)
      cases hmessage : messageOf ws batchId action with
      | none =>
          have hstep := same_of_step hmessage (hforgets action List.mem_cons_self) hnext
          rw [List.filterMap_cons_none hmessage] at hmessages
          have hcall := ih hsound (hstep.1.trans hbatch) hmessages hsame hnumbered hcount hpos hsize
            hkeeps hrest
          rwa [hstep.2] at hcall
      | some received =>
          rw [List.filterMap_cons_some hmessage] at hmessages
          cases messages with
          | nil => exact absurd rfl hpos
          | cons message messages =>
              obtain ⟨rfl, hawaited⟩ := List.cons.inj hmessages
              obtain ⟨accepted, rfl, hid⟩ := eq_receive_of_messageOf hmessage
              obtain rfl : message.batchId = batchId := by simpa [Message.batchId] using hid
              have hadd := hsound.add message
              have hframes : (batch.add message).frames ++ messages.map DocUpdateFragment.part =
                  batch.frames ++ (message :: messages).map DocUpdateFragment.part := by
                simp [FragmentBatch.add, DocUpdateFragment.part]
              have hheader : (batch.add message).header = batch.header := rfl
              rw [← hframes] at hnumbered hsize ⊢
              have hlength : (batch.add message).received = batch.frames.length + 1 := by
                simp [FragmentBatch.add, hsound.received]
              have hparts := hadd.length_parts hnumbered.of_append
              rw [hheader] at hparts
              rw [List.length_cons] at hcount
              by_cases hmore : messages = []
              · -- The last one.
                subst hmore
                rw [List.map_nil, List.append_nil] at hnumbered hsize ⊢
                have hcopy := hadd.copy hnumbered hsize
                obtain ⟨call, hcalls, hcrdt, hroom, hupdates⟩ :=
                  call_of_step hbatch (by rw [hlength, hparts, ← hcount]; simp) hcopy hnext
                have hlast := hsame message List.mem_cons_self
                have hafter := same_of_run hawaited hkeeps hrest
                exact ⟨call, hafter.2.trans hcalls, hcrdt.trans hlast.1, hroom.trans hlast.2, hupdates⟩
              · have hfew : 0 < messages.length := List.length_pos_iff.mpr hmore
                obtain ⟨hopen, hcalls⟩ :=
                  add_of_step hbatch (by rw [hlength, hparts]; omega) hnext
                have hcall := ih hadd hopen hawaited
                  (fun m hm => hsame m (List.mem_cons_of_mem message hm)) hnumbered
                  (by rw [hheader, ← hcount]; simp [FragmentBatch.add]; omega) hmore hsize hkeeps hrest
                rwa [hcalls] at hcall

/-! ## What is sent arrives -/

theorem sendUpdates_small (newBatchId : Nat → String) (crdt : CrdtType) (roomId : String)
    (h : update.length ≤ fragmentBytes) :
    sendUpdates newBatchId crdt roomId [update] =
      [.update ⟨crdt, roomId, newBatchId 0, [update]⟩] := by
  have hnot : ¬ fragmentBytes < update.length := by omega
  simp [sendUpdates, smallBatches, hnot]

theorem sendUpdates_large (newBatchId : Nat → String) (crdt : CrdtType) (roomId : String)
    (h : fragmentBytes < update.length) :
    sendUpdates newBatchId crdt roomId [update] =
      fragmentMessages crdt roomId (newBatchId 0) update := by
  simp [sendUpdates, smallBatches, h]

theorem pieces_flatten (update : Bytes) :
    ((List.range (fragmentCount update)).map (piece update)).flatten = update := by
  unfold piece
  rw [flatten_chunks]
  apply List.take_of_length_le
  unfold fragmentCount fragmentBytes
  omega

theorem map_fragment_of_perm {messages : List Message} {fragments : List DocUpdateFragment}
    (h : messages.Perm (fragments.map .fragment)) :
    ∃ fragments' : List DocUpdateFragment, messages = fragments'.map .fragment ∧ fragments'.Perm fragments := by
  refine ⟨messages.filterMap Message.fragment?, ?_, ?_⟩
  · have hall : ∀ message ∈ messages, ∃ fragment, message = .fragment fragment := by
      intro message hmem
      obtain ⟨fragment, -, rfl⟩ := List.mem_map.mp (h.mem_iff.mp hmem)
      exact ⟨fragment, rfl⟩
    clear h
    induction messages with
    | nil => rfl
    | cons message messages ih =>
        obtain ⟨fragment, rfl⟩ := hall message List.mem_cons_self
        have hrest := ih fun m hm => hall m (List.mem_cons_of_mem _ hm)
        rw [List.filterMap_cons_some (rfl : (Message.fragment fragment).fragment? = some fragment),
          List.map_cons, ← hrest]
  · have hperm := h.filterMap Message.fragment?
    have hback : (fragments.map Message.fragment).filterMap Message.fragment? = fragments := by
      rw [List.filterMap_map]
      exact List.filterMap_some
    rwa [hback] at hperm

theorem fragmentCount_le (h : update.length ≤ maxReassembledBytes) :
    fragmentCount update ≤ maxFragmentCount := by
  unfold fragmentCount fragmentBytes maxFragmentCount
  unfold maxReassembledBytes at h
  omega

theorem fragmentCount_pos (h : fragmentBytes < update.length) :
    0 < fragmentCount update := by
  unfold fragmentCount
  unfold fragmentBytes at h ⊢
  omega

theorem refusal_eq_none {message : DocUpdateFragmentHeader}
    (hmember : message.crdt ∈ (room.states ws).rooms)
    (hsize : message.totalSizeBytes ≤ maxReassembledBytes)
    (hcount : message.fragmentCount ≤ maxFragmentCount)
    (hfree : message.crdt = .loro →
      room.importPenalized (room.states ws).deviceId room.now = false) :
    room.refusal ws message = none := by
  unfold refusal
  rw [if_neg (not_not.mpr hmember), if_neg (by omega), if_neg]
  rintro ⟨hloro, -, hpenalized⟩
  rw [hfree hloro] at hpenalized
  cases hpenalized

theorem opened_of_step {message : DocUpdateFragmentHeader} {accepted : Bool}
    (hrefusal : room.refusal ws message = none)
    (hstep : room.step (.receive ws (.header message) accepted) = some room') :
    room' = room.setBatch ws message.batchId (some (.opened message)) := by
  replace hstep := turn_of_step hstep
  cases hstep
  simp only [handle, handleFragmentHeader, hrefusal]

/-- A header that is let in, and the pieces in any order, hand on the whole. -/
theorem call_of_header {message : DocUpdateFragmentHeader} {accepted : Bool}
    {messages : List DocUpdateFragment} {actions : List Action} {pieces : Nat → Bytes}
    (hrefusal : room.refusal ws message = none)
    (hmessages : actions.filterMap (messageOf ws message.batchId) = messages.map .fragment)
    (hsame : ∀ m ∈ messages, m.crdt = message.crdt ∧ m.roomId = message.roomId)
    (hparts : (messages.map DocUpdateFragment.part).Perm (number message.fragmentCount pieces))
    (hpos : 0 < message.fragmentCount)
    (hsize : ((List.range message.fragmentCount).map pieces).flatten.length =
      message.totalSizeBytes)
    (hforgets : ∀ action ∈ actions, forgets ws action = false)
    (hrun : sessionRoom.run room (.receive ws (.header message) accepted :: actions) =
      some room') :
    ∃ call, room'.callsOf ws message.batchId = room.callsOf ws message.batchId ++ [call] ∧
      call.crdt = message.crdt ∧ call.roomId = message.roomId ∧
        call.updates = [((List.range message.fragmentCount).map pieces).flatten] := by
  obtain ⟨next, hnext, hrest⟩ := Option.bind_eq_some_iff.mp hrun
  obtain rfl := opened_of_step hrefusal hnext
  have hnumbered := (wellNumbered_number message.fragmentCount pieces).perm hparts.symm
  have horder : inOrder [] message.fragmentCount (messages.map DocUpdateFragment.part) =
      (List.range message.fragmentCount).map pieces := by
    rw [inOrder_perm hnumbered hparts, inOrder_number]
  have hlength : messages.length = message.fragmentCount := by
    have hle := hparts.length_eq
    simpa [number] using hle
  have hsome : messages ≠ [] := by
    rw [ne_eq, ← List.length_eq_zero_iff, hlength]
    omega
  have hwhole : (inOrder [] message.fragmentCount
      (messages.map DocUpdateFragment.part)).flatten.length = message.totalSizeBytes := by
    rw [horder, hsize]
  have hcall := call_of_run (FragmentBatch.sound_opened message)
    (by rw [fragments_setBatch, if_pos ⟨rfl, rfl⟩]) hmessages hsame hnumbered
    ((Nat.zero_add _).trans hlength) hsome hwhole hforgets hrest
  rw [← horder]
  exact hcall

/-- **Out of order.** The header of an update first, and then its fragments in any order, hand on the
update. -/
theorem fragments_arrive {crdt : CrdtType} {roomId : String}
    (hlarge : fragmentBytes < update.length) (hcap : update.length ≤ maxReassembledBytes)
    (hmember : crdt ∈ (room.states ws).rooms)
    (hfree : crdt = .loro → room.importPenalized (room.states ws).deviceId room.now = false)
    {accepted : Bool} {actions : List Action}
    (hperm : (actions.filterMap (messageOf ws batchId)).Perm
      ((List.range (fragmentCount update)).map fun i =>
        .fragment ⟨crdt, roomId, batchId, i, piece update i⟩))
    (hforgets : ∀ action ∈ actions, forgets ws action = false)
    (hrun : sessionRoom.run room (.receive ws
      (.header ⟨crdt, roomId, batchId, fragmentCount update, update.length⟩) accepted :: actions) =
        some room') :
    ∃ call, room'.callsOf ws batchId = room.callsOf ws batchId ++ [call] ∧
      call.crdt = crdt ∧ call.roomId = roomId ∧ call.updates = [update] := by
  let sent : List DocUpdateFragment := (List.range (fragmentCount update)).map fun i =>
    ⟨crdt, roomId, batchId, i, piece update i⟩
  have hlist : ((List.range (fragmentCount update)).map fun i =>
      Message.fragment ⟨crdt, roomId, batchId, i, piece update i⟩) = sent.map .fragment := by
    rw [List.map_map]
    rfl
  rw [hlist] at hperm
  obtain ⟨messages, hmessages, hsent⟩ := map_fragment_of_perm hperm
  have hparts : sent.map DocUpdateFragment.part =
      number (fragmentCount update) (piece update) := by
    rw [number, List.map_map]
    rfl
  have hsame : ∀ message ∈ messages, message.crdt = crdt ∧ message.roomId = roomId := by
    intro message hmem
    obtain ⟨i, -, rfl⟩ := List.mem_map.mp (hsent.mem_iff.mp hmem)
    exact ⟨rfl, rfl⟩
  have hrefusal : room.refusal ws ⟨crdt, roomId, batchId, fragmentCount update, update.length⟩ =
      none := refusal_eq_none hmember hcap (fragmentCount_le hcap) hfree
  have hcall := call_of_header hrefusal hmessages hsame (hparts ▸ hsent.map DocUpdateFragment.part)
    (fragmentCount_pos hlarge) (congrArg List.length (pieces_flatten update)) hforgets hrun
  rwa [pieces_flatten] at hcall

/-! ## Exact or refused -/

/-- Of every batch none of whose fragments repeats an index or goes beyond the count: it is handed on
when each index has come, and then as announced, if the lengths add up. What is refused leaves the
batches as they were. -/
structure Exact (room : Room) : Prop where
  calls : ∀ call ∈ room.calls, ∀ batch, call.batch = some batch →
    WellNumbered batch.header.fragmentCount batch.frames →
      Complete batch.header.fragmentCount batch.frames ∧
        (batch.contents.length = batch.header.totalSizeBytes → call.updates = [batch.contents])
  batches : ∀ ws batchId batch, room.fragments ws batchId = some batch →
    0 < batch.header.fragmentCount → WellNumbered batch.header.fragmentCount batch.frames →
      ¬ Complete batch.header.fragmentCount batch.frames
  strikes : ∀ ws message accepted room',
    room.step (.receive ws (.fragment message) accepted) = some room' →
      (∀ batch, room.fragments ws message.batchId = some batch →
        WellNumbered batch.header.fragmentCount (batch.add message).frames ∧
          (Complete batch.header.fragmentCount (batch.add message).frames →
            (batch.add message).contents.length = batch.header.totalSizeBytes)) →
        room'.wasmPoisonStrikes = room.wasmPoisonStrikes
  headers : ∀ ws message accepted room' status,
    room.step (.receive ws (.header message) accepted) = some room' →
      room.refusal ws message = some status →
        Same ws message.batchId room room' ∧ room'.wasmPoisonStrikes = room.wasmPoisonStrikes ∧
          room'.acks = room.acks ++ [(ws, ⟨message.crdt, message.roomId, message.batchId, status⟩)]
  unknown : ∀ ws message accepted room',
    room.step (.receive ws (.fragment message) accepted) = some room' →
      room.fragments ws message.batchId = none →
        Same ws message.batchId room room' ∧ room'.wasmPoisonStrikes = room.wasmPoisonStrikes ∧
          (room'.acks = room.acks ++
              [(ws, ⟨message.crdt, message.roomId, message.batchId, .fragmentTimeout⟩)] ∨
            room' = room ∧ message.crdt = .loro ∧
              room.importPenalized (room.states ws).deviceId room.now = true)

theorem strikes_handleFragment {message : DocUpdateFragment} {accepted : Bool}
    (h : room.Sound) (hfits : ∀ batch, room.fragments ws message.batchId = some batch →
      WellNumbered batch.header.fragmentCount (batch.add message).frames ∧
        (Complete batch.header.fragmentCount (batch.add message).frames →
          (batch.add message).contents.length = batch.header.totalSizeBytes)) :
    (room.handleFragment ws message accepted).wasmPoisonStrikes = room.wasmPoisonStrikes := by
  unfold Room.handleFragment
  split
  · split_ifs <;> rfl
  · rename_i batch hbatch
    obtain ⟨hnumbered, hsize⟩ := hfits batch hbatch
    have hadd := (h.batches ws message.batchId batch hbatch).1.add message
    dsimp only
    split_ifs with hmore
    · rfl
    · have hcomplete := (hadd.complete hnumbered).mpr hmore
      rw [hadd.copy hnumbered (hsize hcomplete)]
      simp [setBatch]

theorem Sound.exact (h : room.Sound) : room.Exact where
  calls := by
    intro call hmem batch hbatch hnumbered
    obtain ⟨hsound, hdone, total, hupdates, hcopy⟩ := h.calls call hmem batch hbatch
    refine ⟨(hsound.complete hnumbered).mpr hdone, ?_⟩
    intro hsize
    rw [hsound.copy hnumbered hsize] at hcopy
    cases hcopy
    exact hupdates
  batches := by
    intro ws batchId batch hbatch hpos hnumbered hcomplete
    obtain ⟨hsound, hempty | hmore⟩ := h.batches ws batchId batch hbatch
    · rw [hnumbered.complete_iff, hempty] at hcomplete
      simp at hcomplete
      omega
    · exact (hsound.complete hnumbered).mp hcomplete hmore
  strikes := by
    intro ws message accepted room' hstep hfits
    replace hstep := turn_of_step hstep
    cases hstep
    exact strikes_handleFragment h hfits
  headers := by
    intro ws message accepted room' status hstep hrefusal
    replace hstep := turn_of_step hstep
    cases hstep
    simp only [handle, Room.handleFragmentHeader, hrefusal]
    split_ifs
    · exact ⟨Same.of_eq (by simp) (by simp), by simp, by simp [ack]⟩
    · exact ⟨Same.of_eq rfl rfl, rfl, rfl⟩
  unknown := by
    intro ws message accepted room' hstep hnone
    replace hstep := turn_of_step hstep
    cases hstep
    simp only [handle, Room.handleFragment, hnone]
    split_ifs with hpenalized
    · exact ⟨Same.of_eq rfl rfl, rfl, .inr ⟨rfl, hpenalized⟩⟩
    · exact ⟨Same.of_eq rfl rfl, rfl, .inl rfl⟩

theorem call_of_handleDocUpdate {message : DocUpdate} {accepted : Bool}
    (hsmall : ∀ update ∈ message.updates, update.length ≤ maxMessageSize)
    (hmember : message.crdt ∈ (room.states ws).rooms) :
    ∃ call, (room.handleDocUpdate ws message accepted).callsOf ws message.batchId =
      room.callsOf ws message.batchId ++ [call] ∧
        call.crdt = message.crdt ∧ call.roomId = message.roomId ∧
          call.updates = message.updates := by
  have hany : ¬ (message.updates.any fun update => maxMessageSize < update.length) = true := by
    simpa using hsmall
  refine ⟨room.call ws message.crdt message.roomId message.batchId message.updates none, ?_, rfl,
    rfl, rfl⟩
  unfold handleDocUpdate
  rw [if_neg hany, if_pos hmember, callsOf, calls_applyUpdates, List.filter_append]
  congr 1
  simp [call]

end Room

/-- **Exact or refused.** In every reachable room a batch whose fragments are numbered in order is
handed on whole or not at all, and what `sendUpdates` makes of an update hands on that update, in any
order after its first message and among any other messages. -/
theorem reassembly_exact {room : Room} (h : sessionRoom.Reachable room) :
    room.Exact ∧ ∀ ws newBatchId crdt roomId update first rest accepted actions room',
      update.length ≤ maxReassembledBytes →
        sendUpdates newBatchId crdt roomId [update] = first :: rest →
          crdt ∈ (room.states ws).rooms →
            (crdt = .loro → room.importPenalized (room.states ws).deviceId room.now = false) →
              (actions.filterMap (Room.messageOf ws (newBatchId 0))).Perm rest →
                (∀ action ∈ actions, Room.forgets ws action = false) →
                  sessionRoom.run room (.receive ws first accepted :: actions) = some room' →
                    ∃ call, room'.callsOf ws (newBatchId 0) =
                      room.callsOf ws (newBatchId 0) ++ [call] ∧
                        call.crdt = crdt ∧ call.roomId = roomId ∧ call.updates = [update] := by
  refine ⟨(Room.sound_of_reachable h).exact, ?_⟩
  intro ws newBatchId crdt roomId update first rest accepted actions room' hcap hsent hmember hfree
    hperm hforgets hrun
  by_cases hlarge : fragmentBytes < update.length
  · rw [Room.sendUpdates_large newBatchId crdt roomId hlarge, fragmentMessages] at hsent
    obtain ⟨rfl, rfl⟩ := List.cons.inj hsent
    exact Room.fragments_arrive hlarge hcap hmember hfree hperm hforgets hrun
  · rw [Room.sendUpdates_small newBatchId crdt roomId (by omega)] at hsent
    obtain ⟨rfl, rfl⟩ := List.cons.inj hsent
    obtain ⟨next, hnext, hrest⟩ := Option.bind_eq_some_iff.mp hrun
    replace hnext := Room.turn_of_step hnext
    cases hnext
    have hsmall : update.length ≤ maxMessageSize := by
      unfold fragmentBytes at hlarge
      unfold maxMessageSize
      omega
    obtain ⟨call, hcalls, hcall⟩ := @Room.call_of_handleDocUpdate room ws
      ⟨crdt, roomId, newBatchId 0, [update]⟩ accepted (by simpa using hsmall) hmember
    have hafter := Room.same_of_run (List.perm_nil.mp hperm) hforgets hrest
    exact ⟨call, hafter.2.trans hcalls, hcall⟩

/-! ## Two fragments -/

theorem sendUpdates_twoPieces (hlength : update.length = 200_001) (newBatchId : Nat → String)
    (roomId : String) :
    sendUpdates newBatchId .loro roomId [update] =
      [.header ⟨.loro, roomId, newBatchId 0, 2, 200_001⟩,
        .fragment ⟨.loro, roomId, newBatchId 0, 0, piece update 0⟩,
        .fragment ⟨.loro, roomId, newBatchId 0, 1, piece update 1⟩] := by
  have hlarge : fragmentBytes < update.length := by
    rw [hlength]
    decide
  have hcount : fragmentCount update = 2 := by
    rw [fragmentCount, hlength]
    rfl
  rw [Room.sendUpdates_large newBatchId .loro roomId hlarge, fragmentMessages, hcount, hlength]
  rfl

def twoPieces : Bytes := .replicate 200_001 0

def joined : Room :=
  { Room.new with states := Function.update Room.new.states 0 ⟨[.loro], none⟩ }

/-- The second fragment comes before the first. -/
theorem swapped_fragments_arrive :
    ∃ room, sessionRoom.run joined
      [.receive 0 (.header ⟨.loro, "r", "a", 2, 200_001⟩) true,
        .receive 0 (.fragment ⟨.loro, "r", "a", 1, piece twoPieces 1⟩) true,
        .receive 0 (.fragment ⟨.loro, "r", "a", 0, piece twoPieces 0⟩) true] = some room ∧
      ∃ call, room.callsOf 0 "a" = [call] ∧ call.updates = [twoPieces] := by
  have hreachable : sessionRoom.Reachable joined :=
    @Machine.reachable_of_run _ _ _ Room.new _ [.join 0 ⟨[.loro], none⟩] rfl rfl
  have harrives : ∀ update : Bytes, update.length = 200_001 → ∃ room, sessionRoom.run joined
      [.receive 0 (.header ⟨.loro, "r", "a", 2, 200_001⟩) true,
        .receive 0 (.fragment ⟨.loro, "r", "a", 1, piece update 1⟩) true,
        .receive 0 (.fragment ⟨.loro, "r", "a", 0, piece update 0⟩) true] = some room ∧
      ∃ call, room.callsOf 0 "a" = [call] ∧ call.updates = [update] := by
    intro update hlength
    refine ⟨_, rfl, ?_⟩
    obtain ⟨call, hcalls, -, -, hupdates⟩ := (reassembly_exact hreachable).2 0 (fun _ => "a") .loro
      "r" update _ _ true
      [.receive 0 (.fragment ⟨.loro, "r", "a", 1, piece update 1⟩) true,
        .receive 0 (.fragment ⟨.loro, "r", "a", 0, piece update 0⟩) true] _
      (by rw [hlength]; decide) (sendUpdates_twoPieces hlength (fun _ => "a") "r") (by decide)
      (fun _ => rfl) (List.Perm.swap ..) (by simp [Room.forgets]) rfl
    exact ⟨call, hcalls, hupdates⟩
  exact harrives twoPieces List.length_replicate

/-- A fragment that comes before its header is refused, and the update does not arrive. -/
theorem late_header_refused :
    ¬ ∀ (update : Bytes) (order : List Message) (room : Room),
      update.length ≤ maxReassembledBytes →
        order.Perm (sendUpdates (fun _ => "a") .loro "r" [update]) →
          sessionRoom.run joined (order.map fun message => .receive 0 message true) = some room →
            ∃ call ∈ room.calls, call.updates = [update] := by
  intro hall
  obtain ⟨update, hlength⟩ : ∃ update : Bytes, update.length = 200_001 :=
    ⟨twoPieces, List.length_replicate⟩
  have hsent := sendUpdates_twoPieces hlength (fun _ => "a") "r"
  have hlate := hall update [.fragment ⟨.loro, "r", "a", 0, piece update 0⟩,
    .header ⟨.loro, "r", "a", 2, 200_001⟩, .fragment ⟨.loro, "r", "a", 1, piece update 1⟩] _
    (by rw [hlength]; decide) (by rw [hsent]; exact List.Perm.swap ..) rfl
  obtain ⟨call, hmem, -⟩ := hlate
  cases hmem

end Zeron.Edge.Fragments
