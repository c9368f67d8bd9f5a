import Mathlib.Data.Finset.Basic
import Zeron.Rpc.Connection

/-!
# How a request settles

The client of `rpc/src/client.rs` over a transport that closes. Registering a request, sending its
frame and the reader's final drain are separate steps on the map of pending requests; the transport
drops its two channel ends one after the other. The frames that arrive are any.
-/

namespace Zeron.Rpc

open Zeron.Lib (Machine)

variable {J : Type}

/-- What took the sender of a request out of the map. -/
inductive Cause (J : Type) where
  | frame (received : ServerFrame J)
  | close
deriving DecidableEq

/-- What the oneshot of a call then holds. A dropped sender reads as `Closed`. -/
def Cause.answer : Cause J → Except RpcError J
  | .close => .error .closed
  | .frame received =>
      match received.err, received.ok with
      | some err, _ => .error (.failed err)
      | none, some value => .ok value
      | none, none => .error .closed

inductive Phase where
  /-- In `out.send`. -/
  | sending
  /-- In `rx.await`, or with the receiver of the stream. -/
  | waiting
  | returned
  | dropped
deriving DecidableEq

/-- One `call` or `subscribe`. -/
structure Caller (J : Type) where
  kind : Kind
  frame : ClientFrame J
  phase : Phase
  /-- The items of the stream that are not received yet. -/
  queue : List J
  fills : List (Cause J)
  returns : List (Except RpcError J)

inductive Reader (J : Type) where
  | reading
  /-- In `tx.send(item)`, with a clone of the stream's sender. -/
  | delivering (frame : ServerFrame J) (item : J)
  /-- In `out.send` of the cancel frame. -/
  | cancelling (id : Nat)
  /-- After the drain, with the senders that were in the map. -/
  | failing (drained : Finset Nat)
  | ended

def Reader.drained : Reader J → Finset Nat
  | .failing drained => drained
  | _ => ∅

/-- The reader has seen the close and emptied the map. -/
def Reader.hasDrained : Reader J → Bool
  | .failing _ | .ended => true
  | _ => false

structure RpcClient (J : Type) where
  nextId : Nat
  callers : Nat → Option (Caller J)
  /-- The keys of the map; the variant of an entry is the kind of its caller. -/
  pending : Finset Nat
  out : List (ClientFrame J)
  outOpen : Bool
  inbound : List (ServerFrame J)
  inboundOpen : Bool
  reader : Reader J
  closed : Bool

inductive ClientAction (J : Type) where
  | register (kind : Kind) (method : String) (params : J)
  | submit (id : Nat)
  /-- `out.send` fails. -/
  | refuse (id : Nat)
  | resume (id : Nat)
  | recv (id : Nat)
  | drop (id : Nat)
  | transmit
  | closeOut
  | arrive (frame : ServerFrame J)
  | closeIn
  | route
  | deliver
  | cancel
  | drain
  | fail (id : Nat)
  | finish

namespace RpcClient

def new : RpcClient J where
  nextId := 1
  callers := fun _ => none
  pending := ∅
  out := []
  outOpen := true
  inbound := []
  inboundOpen := true
  reader := .reading
  closed := false

variable (lib : JsonLine J) (s : RpcClient J)

def modify (id : Nat) (f : Caller J → Caller J) : RpcClient J :=
  { s with callers := Function.update s.callers id ((s.callers id).map f) }

/-- `shared.lock().remove(&id)`, with what becomes of the sender. -/
def settle (id : Nat) (cause : Cause J) : RpcClient J :=
  if id ∈ s.pending then
    { s.modify id fun caller => { caller with fills := cause :: caller.fills } with
      pending := s.pending.erase id }
  else s

/-- `route_frame`, up to the send of an item. -/
def routeFrame (frame : ServerFrame J) : RpcClient J :=
  match frame.err, frame.ok, frame.item with
  | some _, _, _ | none, some _, _ => s.settle frame.id (.frame frame)
  | none, none, some item =>
      if frame.id ∈ s.pending ∧ (s.callers frame.id).map (·.kind) = some .stream then
        { s with reader := .delivering frame item }
      else s
  | none, none, none => if frame.done then s.settle frame.id (.frame frame) else s

/-- The end of `tx.send(item)`; `none` while the queue is full. -/
def deliver (frame : ServerFrame J) (item : J) : Option (RpcClient J) :=
  (s.callers frame.id).bind fun caller =>
    if caller.phase = .sending ∨ caller.phase = .waiting then
      if caller.queue.length < streamQueueCap then
        some { s.modify frame.id fun caller => { caller with queue := caller.queue ++ [item] } with
          reader := .reading }
      else none
    -- The receiver is gone.
    else some { s.settle frame.id (.frame frame) with reader := .cancelling frame.id }

/-- `call` and `subscribe`, up to the insertion into the map. -/
def register (kind : Kind) (method : String) (params : J) : RpcClient J :=
  { s with
    nextId := s.nextId + 1
    callers := Function.update s.callers s.nextId
      (some ⟨kind, ⟨s.nextId, some method, params, false⟩, .sending, [], [], []⟩)
    pending := insert s.nextId s.pending }

def step : ClientAction J → Option (RpcClient J)
  | .register kind method params => some (s.register kind method params)
  | .submit id =>
      (s.callers id).bind fun caller =>
        if caller.phase = .sending ∧ s.outOpen = true ∧ s.out.length < channelCap then
          some { s.modify id fun caller => { caller with phase := .waiting } with
            out := s.out ++ [caller.frame] }
        else none
  | .refuse id =>
      (s.callers id).bind fun caller =>
        if caller.phase = .sending ∧ s.outOpen = false then
          some { s.modify id fun caller =>
              { caller with phase := .returned, returns := .error .closed :: caller.returns } with
            pending := s.pending.erase id }
        else none
  | .resume id =>
      (s.callers id).bind fun caller =>
        match caller.phase, caller.kind, caller.fills with
        | .waiting, .call, cause :: _ =>
            some (s.modify id fun caller =>
              { caller with phase := .returned, returns := cause.answer :: caller.returns })
        | _, _, _ => none
  | .recv id =>
      (s.callers id).bind fun caller =>
        match caller.phase, caller.queue with
        | .waiting, _ :: queue => some (s.modify id fun caller => { caller with queue := queue })
        | _, _ => none
  | .drop id =>
      (s.callers id).bind fun caller =>
        if caller.phase = .sending ∨ caller.phase = .waiting then
          some (s.modify id fun caller => { caller with phase := .dropped })
        else none
  | .transmit => if s.outOpen then some { s with out := s.out.tail } else none
  | .closeOut => some { s with outOpen := false, out := [] }
  | .arrive frame =>
      if s.inboundOpen = true ∧ s.inbound.length < channelCap then
        some { s with inbound := s.inbound ++ [frame] }
      else none
  | .closeIn => some { s with inboundOpen := false }
  | .route =>
      match s.reader, s.inbound with
      | .reading, frame :: rest => some ({ s with inbound := rest }.routeFrame frame)
      | _, _ => none
  | .deliver =>
      match s.reader with
      | .delivering frame item => s.deliver frame item
      | _ => none
  | .cancel =>
      match s.reader with
      | .cancelling id =>
          if s.outOpen then
            if s.out.length < channelCap then
              some { s with out := s.out ++ [cancelFrame lib id], reader := .reading }
            else none
          else some { s with reader := .reading }
      | _ => none
  | .drain =>
      match s.reader, s.inbound with
      | .reading, [] =>
          if s.inboundOpen then none
          else some { s with pending := ∅, reader := .failing s.pending }
      | _, _ => none
  | .fail id =>
      match s.reader with
      | .failing drained =>
          if id ∈ drained then
            some { s.modify id fun caller => { caller with fills := .close :: caller.fills } with
              reader := .failing (drained.erase id) }
          else none
      | _ => none
  | .finish =>
      match s.reader with
      | .failing drained =>
          if drained = ∅ then some { s with reader := .ended, closed := true } else none
      | _ => none

end RpcClient

def client (lib : JsonLine J) : Machine (RpcClient J) (ClientAction J) where
  init := (· = .new)
  step := fun s a => s.step lib a

/-! ## One request -/

/-- The frame is of the request, or the transport has closed. -/
def Cause.Settles (id : Nat) (inboundOpen : Bool) : Cause J → Prop
  | .frame received => received.id = id
  | .close => inboundOpen = false

/-- What holds of a request whose sender is `registered` in the map, or among the `drained`. -/
structure Caller.Sound (registered drained : Prop) (outOpen inboundOpen : Bool) (id : Nat)
    (caller : Caller J) : Prop where
  fills_le : caller.fills.length ≤ 1
  returns_le : caller.returns.length ≤ 1
  unreturned : caller.phase ≠ .returned → caller.returns = []
  unfilled : registered ∨ drained → caller.fills = []
  owned : caller.phase ≠ .returned → caller.fills = [] → registered ∨ drained
  returned : caller.phase = .returned → ¬ registered
  disjoint : registered → ¬ drained
  causes : ∀ cause ∈ caller.fills, cause.Settles id inboundOpen
  answers : ∀ answer ∈ caller.returns,
    (∃ cause ∈ caller.fills, answer = cause.answer) ∨ answer = .error .closed ∧ outOpen = false

variable {id : Nat}

theorem Cause.Settles.mono {inboundOpen inboundOpen' : Bool} {cause : Cause J}
    (h : cause.Settles id inboundOpen) (hin : inboundOpen = false → inboundOpen' = false) :
    cause.Settles id inboundOpen' := by
  cases cause with
  | frame received => exact h
  | close => exact hin h

variable {caller : Caller J}

theorem Caller.Sound.mono {registered drained registered' drained' : Prop}
    {outOpen inboundOpen outOpen' inboundOpen' : Bool}
    (h : caller.Sound registered drained outOpen inboundOpen id)
    (hregistered : registered' ↔ registered) (hdrained : drained' ↔ drained)
    (hout : outOpen = false → outOpen' = false)
    (hin : inboundOpen = false → inboundOpen' = false) :
    caller.Sound registered' drained' outOpen' inboundOpen' id := by
  rw [propext hregistered, propext hdrained]
  exact { h with
    causes := fun cause hmem => (h.causes cause hmem).mono hin
    answers := fun answer hmem => (h.answers answer hmem).imp_right fun ⟨heq, hopen⟩ =>
      ⟨heq, hout hopen⟩ }

theorem Caller.Sound.fill {registered drained : Prop} {outOpen inboundOpen : Bool} {cause : Cause J}
    (h : caller.Sound registered drained outOpen inboundOpen id) (hheld : registered ∨ drained)
    (hcause : cause.Settles id inboundOpen) :
    ({ caller with fills := cause :: caller.fills }).Sound False False outOpen inboundOpen id := by
  have hfills := h.unfilled hheld
  refine { fills_le := by simp [hfills], returns_le := h.returns_le, unreturned := h.unreturned
           unfilled := by simp, owned := by simp, returned := by simp, disjoint := by simp
           causes := by simpa [hfills] using hcause, answers := ?_ }
  intro answer hmem
  obtain ⟨other, hother, -⟩ | hclosed := h.answers answer hmem
  · rw [hfills] at hother
    cases hother
  · exact .inr hclosed

theorem Caller.Sound.resume {registered drained : Prop} {outOpen inboundOpen : Bool}
    {cause : Cause J} {causes : List (Cause J)}
    (h : caller.Sound registered drained outOpen inboundOpen id)
    (hphase : caller.phase = .waiting) (hfills : caller.fills = cause :: causes) :
    ({ caller with phase := .returned, returns := cause.answer :: caller.returns }).Sound registered
      drained outOpen inboundOpen id := by
  have hreturns := h.unreturned (by rw [hphase]; decide)
  have hgone : ¬ (registered ∨ drained) := by
    intro hheld
    rw [h.unfilled hheld] at hfills
    cases hfills
  refine { h with
    returns_le := by simp [hreturns], unreturned := by simp, owned := by simp
    returned := fun _ hregistered => hgone (.inl hregistered), answers := ?_ }
  intro answer hmem
  rw [hreturns, List.mem_singleton] at hmem
  exact .inl ⟨cause, by simp [hfills], hmem⟩

theorem Caller.Sound.refuse {registered drained : Prop} {inboundOpen : Bool}
    (h : caller.Sound registered drained false inboundOpen id)
    (hphase : caller.phase = .sending) :
    ({ caller with phase := .returned, returns := .error .closed :: caller.returns }).Sound False
      drained false inboundOpen id := by
  have hreturns := h.unreturned (by rw [hphase]; decide)
  refine { h with
    returns_le := by simp [hreturns], unreturned := by simp, owned := by simp
    unfilled := fun hheld => hheld.elim False.elim fun hdrained => h.unfilled (.inr hdrained)
    returned := by simp, disjoint := by simp, answers := ?_ }
  intro answer hmem
  rw [hreturns, List.mem_singleton] at hmem
  exact .inr ⟨hmem, rfl⟩

theorem Caller.Sound.turn {registered drained : Prop} {outOpen inboundOpen : Bool}
    (h : caller.Sound registered drained outOpen inboundOpen id)
    (hphase : caller.phase ≠ .returned) {phase : Phase} (hturn : phase ≠ .returned)
    (queue : List J) :
    ({ caller with phase := phase, queue := queue }).Sound registered drained outOpen inboundOpen
      id :=
  { h with
    unreturned := fun _ => h.unreturned hphase
    owned := fun _ => h.owned hphase
    returned := fun heq => absurd heq hturn }

namespace RpcClient

variable {lib : JsonLine J} {s s' : RpcClient J}

/-- The id is of no request yet, or its request is sound. -/
def SoundAt (s : RpcClient J) (id : Nat) : Prop :=
  (s.callers id = none → id ∉ s.pending ∧ id ∉ s.reader.drained) ∧
    ∀ caller, s.callers id = some caller →
      caller.Sound (id ∈ s.pending) (id ∈ s.reader.drained) s.outOpen s.inboundOpen id

structure Sound (s : RpcClient J) : Prop where
  fresh : ∀ id, s.nextId ≤ id → s.callers id = none
  request : ∀ id, s.SoundAt id
  drained : s.reader.hasDrained = true → s.inboundOpen = false
  closed : s.closed = true → s.reader = .ended

/-- A step that leaves every other request alone. -/
structure Local (s s' : RpcClient J) (id : Nat) : Prop where
  callers : ∀ other, other ≠ id → s'.callers other = s.callers other
  pending : ∀ other, other ≠ id → (other ∈ s'.pending ↔ other ∈ s.pending)
  drained : ∀ other, other ≠ id → (other ∈ s'.reader.drained ↔ other ∈ s.reader.drained)
  nextId : s.nextId ≤ s'.nextId
  outOpen : s.outOpen = false → s'.outOpen = false
  inboundOpen : s.inboundOpen = false → s'.inboundOpen = false

theorem Sound.step_local (h : s.Sound) (hlocal : Local s s' id) (hat : s'.SoundAt id)
    (hfresh : s'.nextId ≤ id → s'.callers id = none)
    (hdrained : s'.reader.hasDrained = true → s'.inboundOpen = false)
    (hclosed : s'.closed = true → s'.reader = .ended) : s'.Sound where
  fresh := by
    intro other hle
    by_cases heq : other = id
    · exact heq ▸ hfresh (heq ▸ hle)
    · rw [hlocal.callers other heq]
      exact h.fresh other (hlocal.nextId.trans hle)
  request := by
    intro other
    by_cases heq : other = id
    · exact heq ▸ hat
    · obtain ⟨habsent, hsound⟩ := h.request other
      unfold SoundAt
      rw [hlocal.callers other heq, hlocal.pending other heq, hlocal.drained other heq]
      refine ⟨habsent, fun caller hcaller => ?_⟩
      exact (hsound caller hcaller).mono Iff.rfl Iff.rfl hlocal.outOpen hlocal.inboundOpen
  drained := hdrained
  closed := hclosed

@[simp]
theorem modify_callers_self (id : Nat) (f : Caller J → Caller J) :
    (s.modify id f).callers id = (s.callers id).map f := by
  simp [modify]

theorem modify_callers_of_ne {id other : Nat} (f : Caller J → Caller J) (hne : other ≠ id) :
    (s.modify id f).callers other = s.callers other :=
  Function.update_of_ne hne ..

/-- The request of an id changes, and whether its sender is in the map. -/
theorem Sound.modify {f : Caller J → Caller J} (h : s.Sound) (hcaller : s.callers id = some caller)
    (hcallers : s'.callers = (s.modify id f).callers)
    (hpending : ∀ other, other ≠ id → (other ∈ s'.pending ↔ other ∈ s.pending))
    (hdrained : ∀ other, other ≠ id → (other ∈ s'.reader.drained ↔ other ∈ s.reader.drained))
    (hnext : s'.nextId = s.nextId) (hout : s'.outOpen = s.outOpen)
    (hin : s'.inboundOpen = s.inboundOpen)
    (hreader : s'.reader.hasDrained = true → s.reader.hasDrained = true)
    (hclosed : s'.closed = true → s'.reader = .ended)
    (hown : caller.Sound (id ∈ s.pending) (id ∈ s.reader.drained) s.outOpen s.inboundOpen id →
      (f caller).Sound (id ∈ s'.pending) (id ∈ s'.reader.drained) s.outOpen s.inboundOpen id) :
    s'.Sound := by
  have hlocal : Local s s' id :=
    { callers := fun other hne => by rw [hcallers, modify_callers_of_ne f hne]
      pending := hpending
      drained := hdrained
      nextId := hnext.ge
      outOpen := fun hopen => hout.trans hopen
      inboundOpen := fun hopen => hin.trans hopen }
  have hself : s'.callers id = some (f caller) := by
    rw [hcallers, modify_callers_self, hcaller, Option.map_some]
  apply h.step_local hlocal
  · constructor
    · intro hnone
      rw [hself] at hnone
      cases hnone
    · intro caller' hcaller'
      rw [hself] at hcaller'
      cases hcaller'
      rw [hout, hin]
      exact hown ((h.request id).2 caller hcaller)
  · intro hle
    have hnone := h.fresh id (hnext ▸ hle)
    rw [hcaller] at hnone
    cases hnone
  · intro hhas
    exact hin.trans (h.drained (hreader hhas))
  · exact hclosed

theorem Sound.alter {f : Caller J → Caller J} (h : s.Sound) (hcaller : s.callers id = some caller)
    {out : List (ClientFrame J)}
    (hown : caller.Sound (id ∈ s.pending) (id ∈ s.reader.drained) s.outOpen s.inboundOpen id →
      (f caller).Sound (id ∈ s.pending) (id ∈ s.reader.drained) s.outOpen s.inboundOpen id) :
    ({ s.modify id f with out := out }).Sound :=
  h.modify hcaller rfl (fun _ _ => Iff.rfl) (fun _ _ => Iff.rfl) rfl rfl rfl (fun hhas => hhas)
    h.closed hown

theorem hasDrained_of_ended (h : s.reader = .ended) : s.reader.hasDrained = true := by
  rw [h]
  rfl

theorem Sound.congr (h : s.Sound) (hcallers : s'.callers = s.callers)
    (hpending : s'.pending = s.pending) (hdrained : s'.reader.drained = s.reader.drained)
    (hnext : s'.nextId = s.nextId) (hout : s.outOpen = false → s'.outOpen = false)
    (hin : s.inboundOpen = false → s'.inboundOpen = false)
    (hreader : s'.reader.hasDrained = true → s.reader.hasDrained = true)
    (hclosed : s'.closed = true → s'.reader = .ended) : s'.Sound where
  fresh := by
    rw [hcallers, hnext]
    exact h.fresh
  request := by
    intro id
    obtain ⟨habsent, hsound⟩ := h.request id
    unfold SoundAt
    rw [hcallers, hpending, hdrained]
    exact ⟨habsent, fun caller hcaller => (hsound caller hcaller).mono Iff.rfl Iff.rfl hout hin⟩
  drained := fun hhas => hin (h.drained (hreader hhas))
  closed := hclosed

theorem mem_erase_iff_of_ne {ids : Finset Nat} {id other : Nat} (hne : other ≠ id) :
    other ∈ ids.erase id ↔ other ∈ ids := by
  simp [hne]

theorem Sound.settle {cause : Cause J} (h : s.Sound) (hcause : cause.Settles id s.inboundOpen) :
    (s.settle id cause).Sound := by
  unfold RpcClient.settle
  split_ifs with hmem
  · cases hcaller : s.callers id with
    | none => exact absurd hmem ((h.request id).1 hcaller).1
    | some caller =>
        refine h.modify hcaller rfl (fun other hne => mem_erase_iff_of_ne hne) (fun _ _ => Iff.rfl)
          rfl rfl rfl (fun hhas => hhas) h.closed ?_
        intro hsound
        have hfilled := hsound.fill (.inl hmem) hcause
        apply hfilled.mono _ _ (fun hopen => hopen) (fun hopen => hopen)
        · simp
        · exact iff_false_intro (hsound.disjoint hmem)
  · exact h

theorem reader_settle (id : Nat) (cause : Cause J) : (s.settle id cause).reader = s.reader := by
  unfold RpcClient.settle
  split_ifs <;> rfl

theorem Sound.busy (h : s.Sound) {reader : Reader J} (hbefore : s.reader.hasDrained = false)
    (hafter : reader.hasDrained = false) : ({ s with reader := reader }).Sound := by
  have hnone : ∀ reader : Reader J, reader.hasDrained = false → reader.drained = ∅ := by
    intro reader hreader
    cases reader <;> first | rfl | cases hreader
  refine h.congr rfl rfl ((hnone reader hafter).trans (hnone s.reader hbefore).symm) rfl
    (fun hopen => hopen) (fun hopen => hopen) ?_ ?_
  · intro hhas
    rw [hafter] at hhas
    cases hhas
  · intro hclosed
    rw [hasDrained_of_ended (h.closed hclosed)] at hbefore
    cases hbefore

theorem Sound.routeFrame (h : s.Sound) (frame : ServerFrame J) (hreader : s.reader = .reading) :
    (s.routeFrame frame).Sound := by
  have hbefore : s.reader.hasDrained = false := by
    rw [hreader]
    rfl
  have hsettle : (s.settle frame.id (.frame frame)).Sound := h.settle rfl
  unfold RpcClient.routeFrame
  split
  · exact hsettle
  · exact hsettle
  · split_ifs
    · exact h.busy hbefore rfl
    · exact h
  · split_ifs
    · exact hsettle
    · exact h

theorem Sound.deliver (h : s.Sound) {frame : ServerFrame J} {item : J}
    (hreader : s.reader = .delivering frame item)
    (hdeliver : s.deliver frame item = some s') : s'.Sound := by
  have hbefore : s.reader.hasDrained = false := by
    rw [hreader]
    rfl
  obtain ⟨caller, hcaller, hdeliver⟩ := Option.bind_eq_some_iff.mp hdeliver
  split_ifs at hdeliver with hphase hroom
  · cases hdeliver
    have hqueued : (s.modify frame.id fun caller =>
        { caller with queue := caller.queue ++ [item] }).Sound := by
      refine h.alter hcaller fun hsound => ?_
      have hturned : caller.phase ≠ .returned := by
        intro heq
        simp [heq] at hphase
      exact hsound.turn hturned hturned _
    exact hqueued.busy hbefore rfl
  · cases hdeliver
    have hsettled : (s.settle frame.id (.frame frame)).Sound := h.settle rfl
    apply hsettled.busy
    · rw [reader_settle]
      exact hbefore
    · rfl

theorem register_callers_self (kind : Kind) (method : String) (params : J) :
    (s.register kind method params).callers s.nextId =
      some ⟨kind, ⟨s.nextId, some method, params, false⟩, .sending, [], [], []⟩ :=
  Function.update_self ..

theorem register_callers_of_ne (kind : Kind) (method : String) (params : J) (hne : id ≠ s.nextId) :
    (s.register kind method params).callers id = s.callers id :=
  Function.update_of_ne hne ..

theorem Sound.register (h : s.Sound) (kind : Kind) (method : String) (params : J) :
    (s.register kind method params).Sound := by
  obtain ⟨hpending, hdrained⟩ := (h.request s.nextId).1 (h.fresh s.nextId le_rfl)
  have hlocal : Local s (s.register kind method params) s.nextId :=
    { callers := fun other hne => register_callers_of_ne kind method params hne
      pending := fun other hne => by simp [RpcClient.register, hne]
      drained := fun _ _ => Iff.rfl
      nextId := Nat.le_succ _
      outOpen := fun hopen => hopen
      inboundOpen := fun hopen => hopen }
  apply h.step_local hlocal
  · constructor
    · intro hnone
      rw [register_callers_self] at hnone
      cases hnone
    · intro caller hcaller
      rw [register_callers_self] at hcaller
      cases hcaller
      exact { fills_le := by simp, returns_le := by simp, unreturned := by simp, unfilled := by simp
              owned := by simp [RpcClient.register], returned := by simp
              disjoint := fun _ => hdrained, causes := by simp, answers := by simp }
  · intro hle
    exact absurd hle (Nat.not_succ_le_self _)
  · exact h.drained
  · exact h.closed

theorem Sound.drain (h : s.Sound) (hreader : s.reader = .reading) (hopen : s.inboundOpen = false) :
    ({ s with pending := ∅, reader := .failing s.pending }).Sound where
  fresh := h.fresh
  request := by
    intro id
    obtain ⟨habsent, hsound⟩ := h.request id
    rw [hreader] at habsent hsound
    constructor
    · intro hnone
      exact ⟨Finset.notMem_empty id, (habsent hnone).1⟩
    · intro caller hcaller
      have hbefore := hsound caller hcaller
      exact { hbefore with
        unfilled := fun hheld => hbefore.unfilled (.inl (hheld.resolve_left (Finset.notMem_empty id)))
        owned := fun hphase hfills =>
          .inr ((hbefore.owned hphase hfills).resolve_right (Finset.notMem_empty id))
        returned := fun _ => Finset.notMem_empty id
        disjoint := fun hmem => absurd hmem (Finset.notMem_empty id) }
  drained := fun _ => hopen
  closed := by
    intro hclosed
    rw [h.closed hclosed] at hreader
    cases hreader

theorem Sound.fail {drained : Finset Nat} (h : s.Sound) (hreader : s.reader = .failing drained)
    (hmem : id ∈ drained) :
    ({ s.modify id fun caller => { caller with fills := .close :: caller.fills } with
      reader := .failing (drained.erase id) }).Sound := by
  have hdrained : id ∈ s.reader.drained := by
    rw [hreader]
    exact hmem
  have hhas : s.reader.hasDrained = true := by
    rw [hreader]
    rfl
  cases hcaller : s.callers id with
  | none => exact absurd hdrained ((h.request id).1 hcaller).2
  | some caller =>
      refine h.modify hcaller rfl (fun _ _ => Iff.rfl) ?_ rfl rfl rfl (fun _ => hhas) ?_ ?_
      · intro other hne
        rw [hreader]
        exact mem_erase_iff_of_ne hne
      · intro hclosed
        rw [h.closed hclosed] at hreader
        cases hreader
      · intro hsound
        have hclose : Cause.Settles id s.inboundOpen (.close : Cause J) := h.drained hhas
        have hfilled := hsound.fill (.inr hdrained) hclose
        apply hfilled.mono _ _ (fun hopen => hopen) (fun hopen => hopen)
        · exact iff_false_intro fun hpending => hsound.disjoint hpending hdrained
        · exact iff_false_intro (Finset.notMem_erase id drained)

theorem sound_step (h : s.Sound) {action : ClientAction J} (hstep : s.step lib action = some s') :
    s'.Sound := by
  cases action with
  | register kind method params =>
      cases hstep
      exact h.register kind method params
  | submit id =>
      obtain ⟨caller, hcaller, hstep⟩ := Option.bind_eq_some_iff.mp hstep
      split_ifs at hstep with hsend
      cases hstep
      refine h.alter hcaller fun hsound => ?_
      exact hsound.turn (by simp [hsend.1]) (by decide) _
  | refuse id =>
      obtain ⟨caller, hcaller, hstep⟩ := Option.bind_eq_some_iff.mp hstep
      split_ifs at hstep with hsend
      cases hstep
      refine h.modify hcaller rfl (fun _ hne => mem_erase_iff_of_ne hne) (fun _ _ => Iff.rfl)
        rfl rfl rfl (fun hhas => hhas) h.closed ?_
      rw [hsend.2]
      intro hsound
      exact (hsound.refuse hsend.1).mono (by simp) Iff.rfl (fun hopen => hopen)
        (fun hopen => hopen)
  | resume id =>
      obtain ⟨caller, hcaller, hstep⟩ := Option.bind_eq_some_iff.mp hstep
      split at hstep
      · rename_i hphase _ hfills
        cases hstep
        refine h.alter hcaller fun hsound => ?_
        exact hsound.resume hphase hfills
      · cases hstep
  | recv id =>
      obtain ⟨caller, hcaller, hstep⟩ := Option.bind_eq_some_iff.mp hstep
      split at hstep
      · rename_i hphase _
        cases hstep
        refine h.alter hcaller fun hsound => ?_
        have hturned : caller.phase ≠ .returned := by simp [hphase]
        exact hsound.turn hturned hturned _
      · cases hstep
  | drop id =>
      obtain ⟨caller, hcaller, hstep⟩ := Option.bind_eq_some_iff.mp hstep
      split_ifs at hstep with hphase
      cases hstep
      refine h.alter hcaller fun hsound => ?_
      apply hsound.turn _ (by decide)
      intro heq
      simp [heq] at hphase
  | transmit | arrive _ =>
      simp only [step] at hstep
      split_ifs at hstep
      cases hstep
      exact h.congr rfl rfl rfl rfl (fun hopen => hopen) (fun hopen => hopen) (fun hhas => hhas)
        h.closed
  | closeOut =>
      cases hstep
      exact h.congr rfl rfl rfl rfl (fun _ => rfl) (fun hopen => hopen) (fun hhas => hhas) h.closed
  | closeIn =>
      cases hstep
      exact h.congr rfl rfl rfl rfl (fun hopen => hopen) (fun _ => rfl) (fun hhas => hhas) h.closed
  | route =>
      simp only [step] at hstep
      split at hstep
      · rename_i frame rest hreader _
        cases hstep
        have hrest : ({ s with inbound := rest }).Sound :=
          h.congr rfl rfl rfl rfl (fun hopen => hopen) (fun hopen => hopen) (fun hhas => hhas)
            h.closed
        exact hrest.routeFrame frame hreader
      · cases hstep
  | deliver =>
      simp only [step] at hstep
      split at hstep
      · rename_i frame item hreader
        exact h.deliver hreader hstep
      · cases hstep
  | cancel =>
      simp only [step] at hstep
      split at hstep
      · rename_i id hreader
        have hbefore : s.reader.hasDrained = false := by
          rw [hreader]
          rfl
        have hreading : ({ s with reader := .reading }).Sound := h.busy hbefore rfl
        split_ifs at hstep
        · cases hstep
          exact hreading.congr rfl rfl rfl rfl (fun hopen => hopen) (fun hopen => hopen)
            (fun hhas => hhas) hreading.closed
        · cases hstep
          exact hreading
      · cases hstep
  | drain =>
      simp only [step] at hstep
      split at hstep
      · rename_i hreader _
        split_ifs at hstep with hopen
        cases hstep
        exact h.drain hreader (Bool.eq_false_iff.mpr hopen)
      · cases hstep
  | fail id =>
      simp only [step] at hstep
      split at hstep
      · rename_i drained hreader
        split_ifs at hstep with hmem
        cases hstep
        exact h.fail hreader hmem
      · cases hstep
  | finish =>
      simp only [step] at hstep
      split at hstep
      · rename_i drained hreader
        split_ifs at hstep with hempty
        cases hstep
        refine h.congr rfl rfl ?_ rfl (fun hopen => hopen) (fun hopen => hopen) ?_ (fun _ => rfl)
        · rw [hreader, hempty]
          rfl
        · intro _
          rw [hreader]
          rfl
      · cases hstep

theorem sound_new : (new : RpcClient J).Sound where
  fresh := fun _ _ => rfl
  request := fun id => ⟨fun _ => ⟨Finset.notMem_empty id, Finset.notMem_empty id⟩, by
    intro caller hcaller
    cases hcaller⟩
  drained := by
    intro hhas
    cases hhas
  closed := by
    intro hclosed
    cases hclosed

theorem sound_of_reachable {guard : RpcClient J → ClientAction J → Prop}
    (h : (client lib).ReachableWhen guard s) : s.Sound := by
  apply h.invariant
  · rintro _ rfl
    exact sound_new
  · intro s action s' hsound _ hstep
    exact sound_step hsound hstep

/-! ## After the drain -/

/-- What is registered after the drain is not sent. -/
def InTime (s : RpcClient J) : ClientAction J → Prop
  | .submit id => ¬ (s.reader.hasDrained = true ∧ id ∈ s.pending)
  | _ => True

instance (s : RpcClient J) (action : ClientAction J) : Decidable (s.InTime action) := by
  unfold InTime
  split <;> infer_instance

/-- The request is still in `out.send`, or its caller has given it up. -/
def Unsent (caller : Caller J) : Prop := caller.phase = .sending ∨ caller.phase = .dropped

/-- After the drain, the map holds only requests that were not sent. -/
def Late (s : RpcClient J) : Prop :=
  s.reader.hasDrained = true → ∀ id ∈ s.pending, ∀ caller, s.callers id = some caller →
    Unsent caller

theorem Late.modify {f : Caller J → Caller J} (h : s.Late) (hcaller : s.callers id = some caller)
    (hcallers : s'.callers = (s.modify id f).callers)
    (hpending : s'.pending ⊆ s.pending)
    (hreader : s'.reader.hasDrained = true → s.reader.hasDrained = true)
    (hown : s'.reader.hasDrained = true → id ∈ s'.pending → Unsent caller → Unsent (f caller)) :
    s'.Late := by
  intro hhas other hmem caller' hcaller'
  have hbefore := h (hreader hhas) other (hpending hmem)
  rw [hcallers] at hcaller'
  by_cases heq : other = id
  · subst heq
    rw [modify_callers_self, hcaller] at hcaller'
    cases hcaller'
    exact hown hhas hmem (hbefore caller hcaller)
  · rw [modify_callers_of_ne f heq] at hcaller'
    exact hbefore caller' hcaller'

theorem Late.of_not_drained (h : s'.reader.hasDrained = false) : s'.Late := by
  intro hhas
  rw [h] at hhas
  cases hhas

theorem hasDrained_routeFrame (frame : ServerFrame J) (hreader : s.reader = .reading) :
    (s.routeFrame frame).reader.hasDrained = false := by
  unfold RpcClient.routeFrame
  split
  · rw [reader_settle, hreader]
    rfl
  · rw [reader_settle, hreader]
    rfl
  · split_ifs
    · rfl
    · rw [hreader]
      rfl
  · split_ifs
    · rw [reader_settle, hreader]
      rfl
    · rw [hreader]
      rfl

theorem hasDrained_deliver {frame : ServerFrame J} {item : J}
    (hdeliver : s.deliver frame item = some s') : s'.reader.hasDrained = false := by
  obtain ⟨caller, -, hdeliver⟩ := Option.bind_eq_some_iff.mp hdeliver
  split_ifs at hdeliver
  · cases hdeliver
    rfl
  · cases hdeliver
    rfl

theorem late_step (hsound : s.Sound) (h : s.Late) {action : ClientAction J}
    (hguard : s.InTime action) (hstep : s.step lib action = some s') : s'.Late := by
  cases action with
  | register kind method params =>
      cases hstep
      intro hhas id hmem caller hcaller
      by_cases heq : id = s.nextId
      · subst heq
        rw [register_callers_self] at hcaller
        cases hcaller
        exact .inl rfl
      · rw [register_callers_of_ne kind method params heq] at hcaller
        exact h hhas id (Finset.mem_of_mem_insert_of_ne hmem heq) caller hcaller
  | submit id =>
      obtain ⟨caller, hcaller, hstep⟩ := Option.bind_eq_some_iff.mp hstep
      split_ifs at hstep
      cases hstep
      refine h.modify hcaller rfl (Finset.Subset.refl _) (fun hhas => hhas) ?_
      intro hhas hmem
      exact absurd ⟨hhas, hmem⟩ hguard
  | refuse id =>
      obtain ⟨caller, hcaller, hstep⟩ := Option.bind_eq_some_iff.mp hstep
      split_ifs at hstep
      cases hstep
      refine h.modify hcaller rfl (Finset.erase_subset ..) (fun hhas => hhas) ?_
      intro _ hmem
      exact absurd hmem (Finset.notMem_erase id s.pending)
  | resume id =>
      obtain ⟨caller, hcaller, hstep⟩ := Option.bind_eq_some_iff.mp hstep
      split at hstep
      · rename_i hphase _ hfills
        cases hstep
        refine h.modify hcaller rfl (Finset.Subset.refl _) (fun hhas => hhas) ?_
        -- A filled oneshot is not in the map.
        intro _ hmem _
        have hempty := ((hsound.request id).2 caller hcaller).unfilled (.inl hmem)
        rw [hfills] at hempty
        cases hempty
      · cases hstep
  | recv id =>
      obtain ⟨caller, hcaller, hstep⟩ := Option.bind_eq_some_iff.mp hstep
      split at hstep
      · cases hstep
        exact h.modify hcaller rfl (Finset.Subset.refl _) (fun hhas => hhas)
          fun _ _ hunsent => hunsent
      · cases hstep
  | drop id =>
      obtain ⟨caller, hcaller, hstep⟩ := Option.bind_eq_some_iff.mp hstep
      split_ifs at hstep
      cases hstep
      exact h.modify hcaller rfl (Finset.Subset.refl _) (fun hhas => hhas) fun _ _ _ => .inr rfl
  | transmit | arrive _ =>
      simp only [step] at hstep
      split_ifs at hstep
      cases hstep
      exact h
  | closeOut | closeIn =>
      cases hstep
      exact h
  | route =>
      simp only [step] at hstep
      split at hstep
      · rename_i frame rest hreader _
        cases hstep
        exact Late.of_not_drained (hasDrained_routeFrame frame hreader)
      · cases hstep
  | deliver =>
      simp only [step] at hstep
      split at hstep
      · exact Late.of_not_drained (hasDrained_deliver hstep)
      · cases hstep
  | cancel =>
      simp only [step] at hstep
      split at hstep
      · split_ifs at hstep
        · cases hstep
          exact Late.of_not_drained rfl
        · cases hstep
          exact Late.of_not_drained rfl
      · cases hstep
  | drain =>
      simp only [step] at hstep
      split at hstep
      · split_ifs at hstep
        cases hstep
        intro _ id hmem
        exact absurd hmem (Finset.notMem_empty id)
      · cases hstep
  | fail id =>
      simp only [step] at hstep
      split at hstep
      · rename_i drained hreader
        split_ifs at hstep with hmem
        cases hstep
        have hdrained : id ∈ s.reader.drained := by
          rw [hreader]
          exact hmem
        cases hcaller : s.callers id with
        | none => exact absurd hdrained ((hsound.request id).1 hcaller).2
        | some caller =>
            refine h.modify hcaller rfl (Finset.Subset.refl _) ?_ fun _ _ hunsent => hunsent
            intro _
            rw [hreader]
            rfl
      · cases hstep
  | finish =>
      simp only [step] at hstep
      split at hstep
      · rename_i drained hreader
        split_ifs at hstep
        cases hstep
        intro _
        apply h
        rw [hreader]
        rfl
      · cases hstep

/-! ## What is sent too late -/

/-- The request is in the map after the drain, and its frame is sent. -/
def Stuck (s : RpcClient J) (id : Nat) : Prop :=
  s.reader.hasDrained = true ∧ id ∈ s.pending ∧
    ∃ caller, s.callers id = some caller ∧ (caller.phase = .waiting ∨ caller.phase = .dropped)

theorem Stuck.modify {id other : Nat} {f : Caller J → Caller J} (h : s.Stuck id)
    (hcaller : s.callers other = some caller)
    (hcallers : s'.callers = (s.modify other f).callers) (hpending : id ∈ s'.pending)
    (hhas : s'.reader.hasDrained = true)
    (hown : other = id → caller.phase = .waiting ∨ caller.phase = .dropped →
      (f caller).phase = .waiting ∨ (f caller).phase = .dropped) : s'.Stuck id := by
  obtain ⟨-, -, stuck, hstuck, hphase⟩ := h
  refine ⟨hhas, hpending, ?_⟩
  rw [hcallers]
  by_cases heq : other = id
  · subst heq
    rw [hcaller] at hstuck
    cases hstuck
    exact ⟨f caller, by rw [modify_callers_self, hcaller, Option.map_some], hown rfl hphase⟩
  · exact ⟨stuck, by rw [modify_callers_of_ne f (Ne.symm heq), hstuck], hphase⟩

theorem Stuck.not_reading (h : s.Stuck id) (hreader : s.reader.hasDrained = false) :
    False := by
  rw [h.1] at hreader
  cases hreader

theorem stuck_step (hsound : s.Sound) (h : s.Stuck id) {action : ClientAction J}
    (hstep : s.step lib action = some s') : s'.Stuck id := by
  have hhas := h.1
  have hmem := h.2.1
  cases action with
  | register kind method params =>
      cases hstep
      obtain ⟨-, -, caller, hcaller, hphase⟩ := h
      have hne : id ≠ s.nextId := by
        rintro rfl
        rw [hsound.fresh s.nextId le_rfl] at hcaller
        cases hcaller
      refine ⟨hhas, Finset.mem_insert_of_mem hmem, caller, ?_, hphase⟩
      rw [register_callers_of_ne kind method params hne, hcaller]
  | submit other =>
      obtain ⟨caller, hcaller, hstep⟩ := Option.bind_eq_some_iff.mp hstep
      split_ifs at hstep
      cases hstep
      exact h.modify hcaller rfl hmem hhas fun _ _ => .inl rfl
  | refuse other =>
      obtain ⟨caller, hcaller, hstep⟩ := Option.bind_eq_some_iff.mp hstep
      split_ifs at hstep with hsend
      cases hstep
      have hne : id ≠ other := by
        rintro rfl
        obtain ⟨-, -, stuck, hstuck, hphase⟩ := h
        rw [hcaller] at hstuck
        cases hstuck
        simp [hsend.1] at hphase
      exact h.modify hcaller rfl (Finset.mem_erase_of_ne_of_mem hne hmem) hhas
        fun heq => absurd heq.symm hne
  | resume other =>
      obtain ⟨caller, hcaller, hstep⟩ := Option.bind_eq_some_iff.mp hstep
      split at hstep
      · rename_i hfills
        cases hstep
        refine h.modify hcaller rfl hmem hhas ?_
        rintro rfl
        have hempty := ((hsound.request other).2 caller hcaller).unfilled (.inl hmem)
        rw [hfills] at hempty
        cases hempty
      · cases hstep
  | recv other =>
      obtain ⟨caller, hcaller, hstep⟩ := Option.bind_eq_some_iff.mp hstep
      split at hstep
      · cases hstep
        exact h.modify hcaller rfl hmem hhas fun _ hphase => hphase
      · cases hstep
  | drop other =>
      obtain ⟨caller, hcaller, hstep⟩ := Option.bind_eq_some_iff.mp hstep
      split_ifs at hstep
      cases hstep
      exact h.modify hcaller rfl hmem hhas fun _ _ => .inr rfl
  | transmit | arrive _ =>
      simp only [step] at hstep
      split_ifs at hstep
      cases hstep
      exact h
  | closeOut | closeIn =>
      cases hstep
      exact h
  | route | drain =>
      simp only [step] at hstep
      split at hstep
      · rename_i hreader _
        exact (h.not_reading (by rw [hreader]; rfl)).elim
      · cases hstep
  | deliver | cancel =>
      simp only [step] at hstep
      split at hstep
      · rename_i hreader
        exact (h.not_reading (by rw [hreader]; rfl)).elim
      · cases hstep
  | fail other =>
      simp only [step] at hstep
      split at hstep
      · rename_i drained hreader
        split_ifs at hstep with hother
        cases hstep
        have hdrained : other ∈ s.reader.drained := by
          rw [hreader]
          exact hother
        cases hcaller : s.callers other with
        | none => exact absurd hdrained ((hsound.request other).1 hcaller).2
        | some caller => exact h.modify hcaller rfl hmem rfl fun _ hphase => hphase
      · cases hstep
  | finish =>
      simp only [step] at hstep
      split at hstep
      · split_ifs at hstep
        cases hstep
        exact ⟨rfl, h.2⟩
      · cases hstep

theorem stuck_of_submit (hhas : s.reader.hasDrained = true) (hmem : id ∈ s.pending)
    (hstep : s.step lib (.submit id) = some s') : s'.Stuck id := by
  obtain ⟨caller, hcaller, hstep⟩ := Option.bind_eq_some_iff.mp hstep
  split_ifs at hstep
  cases hstep
  refine ⟨hhas, hmem, { caller with phase := .waiting }, ?_, .inl rfl⟩
  exact (modify_callers_self ..).trans (by rw [hcaller, Option.map_some])

/-! ## Every request settles once -/

/-- A request gets at most one answer, of a frame with its id or of the close. When the client has
closed, whoever waits has its answer (a stream: its sender is gone), and the map holds only requests
whose frame is not sent. -/
structure Settled (s : RpcClient J) : Prop where
  once : ∀ id caller, s.callers id = some caller →
    caller.fills.length ≤ 1 ∧ caller.returns.length ≤ 1 ∧
      (∀ cause ∈ caller.fills, cause.Settles id s.inboundOpen) ∧
      ∀ answer ∈ caller.returns, (∃ cause ∈ caller.fills, answer = cause.answer) ∨
        answer = .error .closed ∧ s.outOpen = false
  none_waits : s.closed = true → ∀ id caller, s.callers id = some caller →
    caller.phase = .waiting → caller.fills ≠ [] ∧ id ∉ s.pending
  registered : s.closed = true → ∀ id ∈ s.pending, ∃ caller, s.callers id = some caller ∧
    Unsent caller

theorem settled_of_late (hsound : s.Sound) (hlate : s.Late) : s.Settled where
  once := by
    intro id caller hcaller
    have h := (hsound.request id).2 caller hcaller
    exact ⟨h.fills_le, h.returns_le, h.causes, h.answers⟩
  none_waits := by
    intro hclosed id caller hcaller hphase
    have hended := hsound.closed hclosed
    have hpending : id ∉ s.pending := by
      intro hmem
      have hunsent := hlate (hasDrained_of_ended hended) id hmem caller hcaller
      simp [Unsent, hphase] at hunsent
    refine ⟨?_, hpending⟩
    intro hfills
    have h := (hsound.request id).2 caller hcaller
    rw [hended] at h
    obtain hmem | hmem := h.owned (by rw [hphase]; decide) hfills
    · exact hpending hmem
    · exact Finset.notMem_empty id hmem
  registered := by
    intro hclosed id hmem
    cases hcaller : s.callers id with
    | none => exact absurd hmem ((hsound.request id).1 hcaller).1
    | some caller =>
        exact ⟨caller, rfl, hlate (hasDrained_of_ended (hsound.closed hclosed)) id hmem caller
          hcaller⟩

end RpcClient

/-- **Every request settles once.** Where no request that was registered after the reader's drain
gets its frame into the channel, a request is answered at most once, and none waits when the client
has closed. One that does is never answered: it waits in every state from then on. -/
theorem requests_settle (lib : JsonLine J) {s : RpcClient J}
    (h : (client lib).ReachableWhen RpcClient.InTime s) :
    s.Settled ∧
      ∀ id s', ¬ s.InTime (.submit id) → s.step lib (.submit id) = some s' →
        ∀ later, (client lib).Steps Machine.anyStep s' later →
          ∃ caller, later.callers id = some caller ∧
            (caller.phase = .waiting ∨ caller.phase = .dropped) ∧ caller.fills = [] ∧
              caller.returns = [] := by
  have hsound := RpcClient.sound_of_reachable h
  constructor
  · have hlate : s.Sound ∧ s.Late := by
      apply h.invariant
      · rintro _ rfl
        refine ⟨RpcClient.sound_new, ?_⟩
        intro hhas
        cases hhas
      · rintro s action s' ⟨hsound, hlate⟩ hguard hstep
        exact ⟨RpcClient.sound_step hsound hstep, RpcClient.late_step hsound hlate hguard hstep⟩
    exact RpcClient.settled_of_late hsound hlate.2
  · intro id s' hguard hstep later hsteps
    obtain ⟨hhas, hmem⟩ := not_not.mp hguard
    have hlater : later.Sound ∧ later.Stuck id := by
      apply hsteps.invariant
      · rintro s action s' ⟨hsound, hstuck⟩ _ hstep
        exact ⟨RpcClient.sound_step hsound hstep, RpcClient.stuck_step hsound hstuck hstep⟩
      · exact ⟨RpcClient.sound_step hsound hstep, RpcClient.stuck_of_submit hhas hmem hstep⟩
    obtain ⟨hsound, -, hmem, caller, hcaller, hphase⟩ := hlater
    have h := (hsound.request id).2 caller hcaller
    refine ⟨caller, hcaller, hphase, h.unfilled (.inl hmem), h.unreturned ?_⟩
    obtain heq | heq := hphase
    · simp [heq]
    · simp [heq]

def unitLine : JsonLine Unit := ⟨(), some, rfl⟩

/-- A call that is answered, and one that the close fails. -/
def answeredAndFailed : List (ClientAction Unit) :=
  [.register .call "a" (), .submit 1, .register .call "b" (), .submit 2, .arrive (okFrame 1 ()),
    .route, .resume 1, .closeIn, .drain, .fail 2, .resume 2, .finish]

/-- Both calls return, each with its own answer. -/
theorem answered_and_failed :
    ∃ s : RpcClient Unit, s.Settled ∧ s.closed = true ∧
      (s.callers 1).map (·.returns) = some [.ok ()] ∧
      (s.callers 2).map (·.returns) = some [.error .closed] := by
  obtain ⟨s, hsteps, hs⟩ := Machine.exists_steps_of_runWhen (client unitLine) RpcClient.InTime
    answeredAndFailed (s := .new) (p := fun s => s.closed &&
      decide ((s.callers 1).map (·.returns) = some [.ok ()] ∧
        (s.callers 2).map (·.returns) = some [.error .closed])) (by decide)
  rw [Bool.and_eq_true, decide_eq_true_eq] at hs
  exact ⟨s, (requests_settle unitLine ⟨.new, rfl, hsteps⟩).1, hs⟩

/-- The transport drops its sending end first. -/
def calledAfterDrain : List (ClientAction Unit) :=
  [.closeIn, .drain, .finish, .register .call "a" (), .submit 1]

/-- A call that is registered and sent after the drain waits for ever. -/
theorem called_after_drain_waits :
    ¬ ∀ (lib : JsonLine Unit) (s : RpcClient Unit), (client lib).Reachable s → s.Settled := by
  intro hall
  obtain ⟨s, hsteps, hs⟩ := Machine.exists_steps_of_runWhen (client unitLine) Machine.anyStep
    calledAfterDrain (s := .new) (p := fun s => s.closed && decide (1 ∈ s.pending) &&
      decide ((s.callers 1).map (·.phase) = some .waiting)) (by decide)
  simp only [Bool.and_eq_true, decide_eq_true_eq] at hs
  obtain ⟨⟨hclosed, hmem⟩, hphase⟩ := hs
  obtain ⟨caller, hcaller, hphase⟩ := Option.map_eq_some_iff.mp hphase
  have hsettled := hall unitLine s ⟨.new, rfl, hsteps⟩
  exact (hsettled.none_waits hclosed 1 caller hcaller hphase).2 hmem

end Zeron.Rpc
