import Zeron.Chat.Client

/-!
# The push queue of a client

The queue of `ChatClient` with its retry clock, and how the room answers a push. The cursor is that of
`Session`; here a batch is its bytes, which decide whether it is queued.
-/

namespace Zeron.Chat

open Zeron.Lib

def maxPushBytes : Nat := 1024 * 1024 - 4096

/-- In milliseconds. -/
def quotaRetry : Nat := 5000

/-- How the room answers a push. -/
inductive Verdict where
  | ack
  | quota
  | tooLarge
  | empty
  | badPush
deriving DecidableEq

/-- The client retires the batch. -/
def Verdict.Permanent : Verdict → Prop
  | .ack | .quota => False
  | .tooLarge | .empty | .badPush => True

inductive Link where
  | offline
  /-- From the hello to the end of the backfill. -/
  | catchingUp
  | connected
deriving DecidableEq

inductive PushEvent where
  | enqueueUpdate (bytes : List UInt8)
  | dial
  /-- The backfill is complete. -/
  | caughtUp
  | disconnect
  | nudge
  /-- The retry time has come. -/
  | retry (now : Nat)
  /-- The room's answer to a push arrives. -/
  | answer (batchId : BatchId) (verdict : Verdict) (now : Nat)
  /-- A row, a presence, the answer to a probe or an error that names no push. -/
  | otherFrame

/-- `inFlight` has the pushes on this socket that the room has not answered. -/
structure PushQueue where
  pending : List (PendingPush (List UInt8))
  nextBatch : Nat
  retryAt : Option Nat
  quotaBlocked : Bool
  nudged : Bool
  link : Link
  inFlight : List BatchId

namespace PushQueue

def start : PushQueue :=
  { pending := [], nextBatch := 0, retryAt := none, quotaBlocked := false, nudged := false
    link := .offline, inFlight := [] }

section Steps

variable (me : String) (queue : PushQueue)

def enqueueUpdate (bytes : List UInt8) : PushQueue :=
  if maxPushBytes < bytes.length then queue
  else
    { queue with
      pending := queue.pending ++ [⟨⟨me, queue.nextBatch⟩, bytes⟩]
      nextBatch := queue.nextBatch + 1
      nudged := true }

def pushPending : PushQueue :=
  { queue with inFlight := queue.inFlight ++ queue.pending.map (·.batchId) }

def pushHead : PushQueue :=
  { queue with inFlight := queue.inFlight ++ (queue.pending.head?.map (·.batchId)).toList }

def retain (batchId : BatchId) : PushQueue :=
  { queue with pending := queue.pending.filter (·.batchId ≠ batchId) }

def handleAck (batchId : BatchId) (now : Nat) : PushQueue :=
  let queue := queue.retain batchId
  if queue.quotaBlocked then
    if queue.pending.isEmpty then { queue with quotaBlocked := false }
    else { queue with retryAt := some now }
  else queue

/-- `handle_frame` on an ack or on an error. -/
def handleAnswer (batchId : BatchId) (now : Nat) : Verdict → PushQueue
  | .ack => queue.handleAck batchId now
  | .tooLarge | .empty | .badPush => queue.retain batchId
  | .quota => { queue with quotaBlocked := true, retryAt := some (now + quotaRetry) }

def step (queue : PushQueue) : PushEvent → Option PushQueue
  | .enqueueUpdate bytes => some (queue.enqueueUpdate me bytes)
  | .dial => if queue.link = .offline then some { queue with link := .catchingUp } else none
  | .caughtUp =>
      if queue.link = .catchingUp then some { queue with link := .connected }.pushPending else none
  | .disconnect => some { queue with link := .offline, inFlight := [] }
  | .nudge =>
      if queue.link = .connected ∧ queue.nudged then some { queue with nudged := false }.pushPending
      else none
  | .retry now =>
      if queue.link = .connected ∧ queue.retryAt.any (· ≤ now) then
        some { queue with retryAt := none }.pushHead
      else none
  | .answer batchId verdict now =>
      if queue.link = .connected ∧ batchId ∈ queue.inFlight then
        some ({ queue with inFlight := queue.inFlight.erase batchId }.handleAnswer batchId now verdict)
      else none
  | .otherFrame => if queue.link = .offline then none else some queue

def machine : Machine PushQueue PushEvent := { init := fun queue => queue = start, step := step me }

end Steps

section Statements

variable (me : String) (queue : PushQueue) (events : List PushEvent)

def accepted : PushEvent → Option (List UInt8)
  | .enqueueUpdate bytes => if maxPushBytes < bytes.length then none else some bytes
  | _ => none

/-- Every batch that was enqueued, in order, with the id it was given. -/
def enqueued : List (PendingPush (List UInt8)) :=
  (events.filterMap accepted).mapIdx fun i bytes => ⟨⟨me, i⟩, bytes⟩

/-- An acknowledgement, or a permanent rejection. -/
def settles : PushEvent → Option BatchId
  | .answer batchId verdict _ => if verdict = .quota then none else some batchId
  | _ => none

def Keeps : Prop :=
  queue.pending = (enqueued me events).filter (·.batchId ∉ events.filterMap settles)

/-- A push is in flight, one will be sent at once, or a retry time is set. -/
def Armed : Prop := queue.inFlight ≠ [] ∨ queue.nudged ∨ queue.retryAt.isSome

def Goes : Prop := queue.link = .connected → queue.pending ≠ [] → queue.Armed

/-- While the client drains a queue that met the quota, a permanent rejection leaves nothing queued or
something else armed. -/
def Sound : PushEvent → Prop
  | .answer batchId verdict _ =>
      verdict.Permanent → queue.quotaBlocked → (∃ push ∈ queue.pending, push.batchId ≠ batchId) →
        queue.inFlight.erase batchId ≠ [] ∨ queue.nudged ∨ queue.retryAt.isSome
  | _ => True

end Statements

section Kept

variable {me : String} {queue queue' : PushQueue} {events : List PushEvent} {event : PushEvent}

theorem handleAck_cases (queue : PushQueue) (batchId : BatchId) (now : Nat) :
    (queue.quotaBlocked = false ∧ queue.handleAck batchId now = queue.retain batchId) ∨
    (queue.quotaBlocked = true ∧ (queue.retain batchId).pending = [] ∧
      queue.handleAck batchId now = { queue.retain batchId with quotaBlocked := false }) ∨
    (queue.quotaBlocked = true ∧
      queue.handleAck batchId now = { queue.retain batchId with retryAt := some now }) := by
  unfold handleAck
  dsimp only
  split
  · rename_i hblocked
    split
    · rename_i hempty
      exact .inr (.inl ⟨hblocked, List.isEmpty_iff.mp hempty, rfl⟩)
    · exact .inr (.inr ⟨hblocked, rfl⟩)
  · rename_i hblocked
    exact .inl ⟨Bool.not_eq_true _ ▸ hblocked, rfl⟩

/-- The queue against the events so far, with the numbers that keep ids apart. -/
structure Kept (me : String) (events : List PushEvent) (queue : PushQueue) : Prop where
  keeps : queue.Keeps me events
  count : queue.nextBatch = (events.filterMap accepted).length
  settled : ∀ batchId ∈ events.filterMap settles, batchId.number < queue.nextBatch
  flying : ∀ batchId ∈ queue.inFlight, batchId.number < queue.nextBatch

theorem kept_start : Kept me [] start :=
  ⟨rfl, rfl, fun _ hid => absurd hid List.not_mem_nil, fun _ hid => absurd hid List.not_mem_nil⟩

theorem Kept.pending_lt (h : Kept me events queue) {push : PendingPush (List UInt8)}
    (hpush : push ∈ queue.pending) : push.batchId.number < queue.nextBatch := by
  rw [h.keeps] at hpush
  obtain ⟨i, hi, rfl⟩ := List.mem_mapIdx.mp (List.mem_of_mem_filter hpush)
  rw [h.count]
  exact hi

theorem Kept.frame (h : Kept me events queue) (haccepted : accepted event = none)
    (hsettles : settles event = none) (hpending : queue'.pending = queue.pending)
    (hnext : queue'.nextBatch = queue.nextBatch)
    (hflying : ∀ batchId ∈ queue'.inFlight,
      batchId ∈ queue.inFlight ∨ batchId ∈ queue.pending.map (·.batchId)) :
    Kept me (events ++ [event]) queue' := by
  have hsame : (events ++ [event]).filterMap accepted = events.filterMap accepted := by
    simp [haccepted]
  have hsame' : (events ++ [event]).filterMap settles = events.filterMap settles := by
    simp [hsettles]
  refine ⟨?_, ?_, ?_, fun batchId hid => ?_⟩
  · unfold Keeps enqueued
    rw [hsame, hsame', hpending]
    exact h.keeps
  · rw [hsame, hnext]
    exact h.count
  · rw [hsame', hnext]
    exact h.settled
  · rw [hnext]
    obtain hid | hid := hflying batchId hid
    · exact h.flying batchId hid
    · obtain ⟨push, hpush, rfl⟩ := List.mem_map.mp hid
      exact h.pending_lt hpush

theorem Kept.settle (h : Kept me events queue) {batchId : BatchId} (haccepted : accepted event = none)
    (hsettles : settles event = some batchId) (hid : batchId ∈ queue.inFlight)
    (hpending : queue'.pending = queue.pending.filter (·.batchId ≠ batchId))
    (hnext : queue'.nextBatch = queue.nextBatch)
    (hflying : ∀ batchId ∈ queue'.inFlight, batchId ∈ queue.inFlight) :
    Kept me (events ++ [event]) queue' := by
  have hsame : (events ++ [event]).filterMap accepted = events.filterMap accepted := by
    simp [haccepted]
  have hmore : (events ++ [event]).filterMap settles = events.filterMap settles ++ [batchId] := by
    simp [hsettles]
  refine ⟨?_, ?_, fun other hother => ?_, fun other hother => ?_⟩
  · unfold Keeps enqueued
    rw [hsame, hmore, hpending, h.keeps, List.filter_filter]
    refine List.filter_congr fun push _ => ?_
    simp only [List.mem_append, List.mem_singleton, not_or, Bool.decide_and]
    exact Bool.and_comm _ _
  · rw [hsame, hnext]
    exact h.count
  · rw [hnext]
    rw [hmore] at hother
    obtain hother | hother := List.mem_append.mp hother
    · exact h.settled other hother
    · rw [List.mem_singleton.mp hother]
      exact h.flying batchId hid
  · rw [hnext]
    exact h.flying other (hflying other hother)

theorem Kept.enqueueUpdate (h : Kept me events queue) (bytes : List UInt8) :
    Kept me (events ++ [PushEvent.enqueueUpdate bytes]) (queue.enqueueUpdate me bytes) := by
  unfold PushQueue.enqueueUpdate
  by_cases hlong : maxPushBytes < bytes.length
  · rw [if_pos hlong]
    exact h.frame (if_pos hlong) rfl rfl rfl fun _ hid => .inl hid
  · rw [if_neg hlong]
    have hmore : (events ++ [PushEvent.enqueueUpdate bytes]).filterMap accepted =
        events.filterMap accepted ++ [bytes] := by
      simp [accepted, hlong]
    have hsame : (events ++ [PushEvent.enqueueUpdate bytes]).filterMap settles =
        events.filterMap settles := by
      simp [settles]
    refine ⟨?_, ?_, fun batchId hid => ?_, fun batchId hid => ?_⟩
    · unfold Keeps enqueued
      rw [hmore, hsame, List.mapIdx_concat, List.filter_append, ← h.count]
      change queue.pending ++ _ = _
      rw [h.keeps]
      refine congrArg _ (List.filter_eq_self.mpr fun push hpush => ?_).symm
      rw [List.mem_singleton.mp hpush]
      exact decide_eq_true fun hsettled => absurd (h.settled _ hsettled) (Nat.lt_irrefl _)
    · rw [hmore, List.length_append, ← h.count]
      rfl
    · rw [hsame] at hid
      exact Nat.lt_succ_of_lt (h.settled batchId hid)
    · exact Nat.lt_succ_of_lt (h.flying batchId hid)

theorem Kept.answer (h : Kept me events queue) {batchId : BatchId} (hid : batchId ∈ queue.inFlight)
    (verdict : Verdict) (now : Nat) :
    Kept me (events ++ [PushEvent.answer batchId verdict now])
      ({ queue with inFlight := queue.inFlight.erase batchId }.handleAnswer batchId now verdict) := by
  have hrest : ∀ other ∈ queue.inFlight.erase batchId, other ∈ queue.inFlight :=
    fun _ hother => List.mem_of_mem_erase hother
  have hretain : ∀ verdict, verdict ≠ Verdict.quota →
      Kept me (events ++ [PushEvent.answer batchId verdict now])
      ({ queue with inFlight := queue.inFlight.erase batchId }.retain batchId) :=
    fun verdict hquota => h.settle rfl (if_neg hquota) hid rfl rfl hrest
  cases verdict with
  | ack =>
      have hkept := hretain .ack (by decide)
      obtain ⟨-, hack⟩ | ⟨-, -, hack⟩ | ⟨-, hack⟩ :=
        handleAck_cases { queue with inFlight := queue.inFlight.erase batchId } batchId now
      · rw [handleAnswer, hack]
        exact hkept
      · rw [handleAnswer, hack]
        exact ⟨hkept.keeps, hkept.count, hkept.settled, hkept.flying⟩
      · rw [handleAnswer, hack]
        exact ⟨hkept.keeps, hkept.count, hkept.settled, hkept.flying⟩
  | quota => exact h.frame rfl rfl rfl rfl fun other hother => .inl (hrest other hother)
  | tooLarge => exact hretain .tooLarge (by decide)
  | empty => exact hretain .empty (by decide)
  | badPush => exact hretain .badPush (by decide)

theorem Kept.step (h : Kept me events queue) (hstep : queue.step me event = some queue') :
    Kept me (events ++ [event]) queue' := by
  cases event with
  | enqueueUpdate bytes =>
      cases hstep
      exact h.enqueueUpdate bytes
  | dial =>
      obtain ⟨-, hstep⟩ := Option.ite_none_right_eq_some.mp hstep
      cases hstep
      exact h.frame rfl rfl rfl rfl fun _ hid => .inl hid
  | caughtUp | nudge =>
      obtain ⟨-, hstep⟩ := Option.ite_none_right_eq_some.mp hstep
      cases hstep
      exact h.frame rfl rfl rfl rfl fun _ hid => List.mem_append.mp hid
  | disconnect =>
      cases hstep
      exact h.frame rfl rfl rfl rfl fun _ hid => absurd hid List.not_mem_nil
  | retry now =>
      obtain ⟨-, hstep⟩ := Option.ite_none_right_eq_some.mp hstep
      cases hstep
      refine h.frame rfl rfl rfl rfl fun batchId hid => ?_
      obtain hid | hid := List.mem_append.mp hid
      · exact .inl hid
      · obtain ⟨push, hhead, rfl⟩ := Option.map_eq_some_iff.mp (Option.mem_toList.mp hid)
        exact .inr (List.mem_map_of_mem (List.mem_of_head? hhead))
  | answer batchId verdict now =>
      obtain ⟨⟨-, hid⟩, hstep⟩ := Option.ite_none_right_eq_some.mp hstep
      cases hstep
      exact h.answer hid verdict now
  | otherFrame =>
      obtain ⟨-, hstep⟩ := Option.ite_none_left_eq_some.mp hstep
      cases hstep
      exact h.frame rfl rfl rfl rfl fun _ hid => .inl hid

theorem kept_of_run (hrun : (machine me).run start events = some queue) : Kept me events queue := by
  induction events using List.reverseRecOn generalizing queue with
  | nil =>
      cases hrun
      exact kept_start
  | append_singleton events event ih =>
      rw [Machine.run_concat] at hrun
      obtain ⟨before, hbefore, hstep⟩ := Option.bind_eq_some_iff.mp hrun
      exact (ih hbefore).step hstep

end Kept

section Going

variable {me : String} {queue queue' : PushQueue} {event : PushEvent}

/-- A batch that is queued has its push in flight or waits for the nudge, or else the queue has met the
quota. -/
structure Going (queue : PushQueue) : Prop where
  covered : queue.link = .connected → ∀ push ∈ queue.pending,
    push.batchId ∈ queue.inFlight ∨ queue.nudged = true ∨ queue.quotaBlocked = true
  goes : queue.Goes

theorem going_start : Going start :=
  ⟨fun hlink => (by cases hlink), fun hlink => (by cases hlink)⟩

theorem Going.of_not_connected (hlink : queue.link ≠ .connected) : Going queue :=
  ⟨fun h => absurd h hlink, fun h => absurd h hlink⟩

theorem Going.enqueueUpdate (h : Going queue) (bytes : List UInt8) :
    Going (queue.enqueueUpdate me bytes) := by
  unfold PushQueue.enqueueUpdate
  split
  · exact h
  · exact ⟨fun _ _ _ => .inr (.inl rfl), fun _ _ => .inr (.inl rfl)⟩

theorem going_pushPending (queue : PushQueue) : Going queue.pushPending := by
  have hall : ∀ push ∈ queue.pending, push.batchId ∈ queue.pushPending.inFlight := fun push hpush =>
    List.mem_append_right _ (List.mem_map_of_mem hpush)
  refine ⟨fun _ push hpush => .inl (hall push hpush), fun _ hpending => ?_⟩
  obtain ⟨push, hpush⟩ := List.exists_mem_of_ne_nil _ hpending
  exact .inl (List.ne_nil_of_mem (hall push hpush))

theorem Going.pushHead (h : Going queue) : Going { queue with retryAt := none }.pushHead := by
  refine ⟨fun hlink push hpush => ?_, fun _ hne => .inl ?_⟩
  · obtain hflying | hother := h.covered hlink push hpush
    · exact .inl (List.mem_append_left _ hflying)
    · exact .inr hother
  · obtain ⟨push, rest, hpending⟩ := List.exists_cons_of_ne_nil hne
    have hpending : queue.pending = push :: rest := hpending
    simp [PushQueue.pushHead, hpending]

theorem Going.retained (h : Going queue) (batchId : BatchId) (hlink : queue.link = .connected) :
    ∀ push ∈ queue.pending.filter (·.batchId ≠ batchId),
      push.batchId ∈ queue.inFlight.erase batchId ∨ queue.nudged = true ∨
        queue.quotaBlocked = true := by
  intro push hpush
  obtain ⟨hpush, hne⟩ := List.mem_filter.mp hpush
  obtain hflying | hother := h.covered hlink push hpush
  · exact .inl ((List.mem_erase_of_ne (of_decide_eq_true hne)).mpr hflying)
  · exact .inr hother

theorem Going.answer (h : Going queue) {batchId : BatchId} {verdict : Verdict} {now : Nat}
    (hlink : queue.link = .connected) (hsound : queue.Sound (.answer batchId verdict now)) :
    Going
      ({ queue with inFlight := queue.inFlight.erase batchId }.handleAnswer batchId now verdict) := by
  have hretained := h.retained batchId hlink
  -- Unless the queue has met the quota, what is left is in flight or waits for the nudge.
  have hopen : queue.quotaBlocked = false → queue.pending.filter (·.batchId ≠ batchId) ≠ [] →
      queue.inFlight.erase batchId ≠ [] ∨ queue.nudged ∨ queue.retryAt.isSome := by
    intro hblocked hne
    obtain ⟨push, hpush⟩ := List.exists_mem_of_ne_nil _ hne
    obtain hflying | hnudged | hquota := hretained push hpush
    · exact .inl (List.ne_nil_of_mem hflying)
    · exact .inr (.inl hnudged)
    · rw [hblocked] at hquota
      cases hquota
  have hretire : verdict.Permanent →
      Going ({ queue with inFlight := queue.inFlight.erase batchId }.retain batchId) := by
    intro hpermanent
    refine ⟨fun _ => hretained, fun _ hne => ?_⟩
    cases hblocked : queue.quotaBlocked with
    | false => exact hopen hblocked hne
    | true =>
        obtain ⟨push, hpush⟩ := List.exists_mem_of_ne_nil _ hne
        obtain ⟨hpush, hother⟩ := List.mem_filter.mp hpush
        exact hsound hpermanent hblocked ⟨push, hpush, of_decide_eq_true hother⟩
  cases verdict with
  | ack =>
      obtain ⟨hblocked, hack⟩ | ⟨-, hempty, hack⟩ | ⟨hblocked, hack⟩ :=
        handleAck_cases { queue with inFlight := queue.inFlight.erase batchId } batchId now
      · rw [handleAnswer, hack]
        exact ⟨fun _ => hretained, fun _ => hopen hblocked⟩
      · rw [handleAnswer, hack]
        exact ⟨fun _ push hpush => absurd hpush (hempty ▸ List.not_mem_nil),
          fun _ hne => absurd hempty hne⟩
      · rw [handleAnswer, hack]
        exact ⟨fun _ _ _ => .inr (.inr hblocked), fun _ _ => .inr (.inr rfl)⟩
  | quota => exact ⟨fun _ _ _ => .inr (.inr rfl), fun _ _ => .inr (.inr rfl)⟩
  | tooLarge | empty | badPush => exact hretire trivial

theorem Going.step (h : Going queue) (hsound : queue.Sound event)
    (hstep : queue.step me event = some queue') : Going queue' := by
  cases event with
  | enqueueUpdate bytes =>
      cases hstep
      exact h.enqueueUpdate bytes
  | dial =>
      obtain ⟨-, hstep⟩ := Option.ite_none_right_eq_some.mp hstep
      cases hstep
      exact .of_not_connected (by simp)
  | caughtUp | nudge =>
      obtain ⟨-, hstep⟩ := Option.ite_none_right_eq_some.mp hstep
      cases hstep
      exact going_pushPending _
  | disconnect =>
      cases hstep
      exact .of_not_connected (by simp)
  | retry now =>
      obtain ⟨-, hstep⟩ := Option.ite_none_right_eq_some.mp hstep
      cases hstep
      exact h.pushHead
  | answer batchId verdict now =>
      obtain ⟨⟨hlink, -⟩, hstep⟩ := Option.ite_none_right_eq_some.mp hstep
      cases hstep
      exact h.answer hlink hsound
  | otherFrame =>
      obtain ⟨-, hstep⟩ := Option.ite_none_left_eq_some.mp hstep
      cases hstep
      exact h

theorem sound_of_goes (hstep : queue.step me event = some queue') (hgoes : queue'.Goes) :
    queue.Sound event := by
  cases event with
  | answer batchId verdict now =>
      obtain ⟨⟨hlink, -⟩, hstep⟩ := Option.ite_none_right_eq_some.mp hstep
      intro hpermanent _ hleft
      obtain ⟨push, hpush, hne⟩ := hleft
      have hretire : queue' =
          { queue with inFlight := queue.inFlight.erase batchId }.retain batchId := by
        cases verdict with
        | ack | quota => cases hpermanent
        | tooLarge | empty | badPush => exact (Option.some.inj hstep).symm
      subst hretire
      exact hgoes hlink (List.ne_nil_of_mem (List.mem_filter.mpr ⟨hpush, decide_eq_true hne⟩))
  | _ => trivial

end Going

section Delivery

variable {me : String}

def SoundRun (me : String) (events : List PushEvent) : Prop :=
  ∀ before event after queue queue', events = before ++ event :: after →
    (machine me).run start before = some queue → queue.step me event = some queue' →
      queue.Sound event

theorem SoundRun.going {events before after : List PushEvent} {queue : PushQueue}
    (h : SoundRun me events) (heq : events = before ++ after)
    (hrun : (machine me).run start before = some queue) : Going queue := by
  induction before using List.reverseRecOn generalizing after queue with
  | nil =>
      cases hrun
      exact going_start
  | append_singleton before event ih =>
      rw [List.append_assoc] at heq
      rw [Machine.run_concat] at hrun
      obtain ⟨previous, hbefore, hstep⟩ := Option.bind_eq_some_iff.mp hrun
      exact (ih heq hbefore).step (h before event after previous queue heq hbefore hstep) hstep

/-- **Push delivery.** A run keeps every batch queued until it is settled, and its queue going in each
state, exactly when its steps are sound. -/
theorem pushes_delivered_iff (events : List PushEvent) :
    (∀ before after queue, events = before ++ after → (machine me).run start before = some queue →
      queue.Keeps me before ∧ queue.Goes) ↔ SoundRun me events := by
  constructor
  · intro h before event after queue queue' heq hrun hstep
    refine sound_of_goes hstep (h (before ++ [event]) after queue' ?_ ?_).2
    · rw [heq, List.append_assoc, List.singleton_append]
    · rw [Machine.run_concat, hrun]
      exact hstep
  · intro h before after queue heq hrun
    exact ⟨(kept_of_run hrun).keeps, (h.going heq hrun).goes⟩

/-- Both batches meet the quota; when the first is tried again it is refused for good. -/
def retiredHead : List PushEvent :=
  [.enqueueUpdate [], .enqueueUpdate [1], .dial, .caughtUp, .nudge,
    .answer ⟨"desk", 0⟩ .quota 0, .answer ⟨"desk", 1⟩ .quota 0,
    .answer ⟨"desk", 0⟩ .quota 0, .answer ⟨"desk", 1⟩ .quota 0,
    .retry 5000, .answer ⟨"desk", 0⟩ .empty 5001]

theorem retiredHead_stalls : ∃ queue, (machine "desk").run start retiredHead = some queue ∧
    queue.link = .connected ∧ queue.pending = [⟨⟨"desk", 1⟩, [1]⟩] ∧ ¬ queue.Armed := by
  refine ⟨_, rfl, rfl, by decide, ?_⟩
  unfold Armed
  decide

end Delivery

end PushQueue

end Zeron.Chat
