import Zeron.Engine.RunJournal

/-!
# Subscriptions to a run

`SessionsEngine::subscribe` and `publish` of `crates/engine/src/sessions.rs`. A subscriber attaches to
the broadcast of a chat, reads the journal, and then takes what is broadcast; the running session
appends an event to the journal and then broadcasts it. By the numbers the subscriber drops what it
was sent twice or has from before. An append that fails is taken to leave the journal as it was; its
event is broadcast under number 0.
-/

namespace Zeron.Engine

open Zeron.Lib (Machine)
open RunJournal (lastSeq)

variable {E : Type}

/-- `RunJournal::replay` of a journal with these lines. -/
def replayAfter (all : List (Nat × E)) (afterSeq : Nat) : List (Nat × E) :=
  let start := if lastSeq all < afterSeq then 0 else afterSeq
  all.filter fun entry => start < entry.1

/-- The capacity of `broadcast::channel`. -/
def hubCapacity : Nat := 1024

structure Receiver (E : Type) where
  unread : List (Nat × E)
  /-- The next `recv` reports that events were dropped. -/
  lagged : Bool

/-- A receiver that is too far behind loses the oldest events. -/
def Receiver.push (receiver : Receiver E) (event : Nat × E) : Receiver E :=
  let unread := receiver.unread ++ [event]
  if hubCapacity < unread.length then
    { unread := unread.drop (unread.length - hubCapacity), lagged := true }
  else { receiver with unread }

theorem Receiver.mem_push {receiver : Receiver E} {event other : Nat × E}
    (h : other ∈ (receiver.push event).unread) : other ∈ receiver.unread ++ [event] := by
  by_cases hfull : hubCapacity < (receiver.unread ++ [event]).length
  · simp only [Receiver.push, if_pos hfull] at h
    exact List.mem_of_mem_drop h
  · simpa only [Receiver.push, if_neg hfull] using h

theorem Receiver.push_of_unlagged {receiver : Receiver E} {event : Nat × E}
    (h : (receiver.push event).lagged = false) :
    receiver.lagged = false ∧ (receiver.push event).unread = receiver.unread ++ [event] := by
  unfold Receiver.push at h ⊢
  dsimp only at h ⊢
  split at h
  · cases h
  · rename_i hroom
    rw [if_neg hroom]
    exact ⟨h, rfl⟩

structure Subscriber (E : Type) where
  cursor : Nat
  received : List (Nat × E)

def Subscriber.take (subscriber : Subscriber E) (event : Nat × E) : Subscriber E :=
  if subscriber.cursor < event.1 then
    { cursor := event.1, received := subscriber.received ++ [event] }
  else subscriber

/-- One chat and one subscriber. -/
structure Hub (E : Type) where
  journal : List (Nat × E)
  /-- The event that `publish` has appended and not yet sent. -/
  publishing : Option (Nat × E)
  receiver : Option (Receiver E)
  /-- There is one once `subscribe` has returned. -/
  subscriber : Option (Subscriber E)

inductive HubAction (E : Type) where
  | append (event : E) (fails : Bool)
  | send
  | attach
  | replay (fails : Bool)
  | receive

namespace Hub

def publish (s : Hub E) (event : E) (fails : Bool) : Hub E :=
  if fails then { s with publishing := some (0, event) }
  else
    let seq := lastSeq s.journal + 1
    { s with journal := s.journal ++ [(seq, event)], publishing := some (seq, event) }

def step (afterSeq : Nat) (s : Hub E) : HubAction E → Option (Hub E)
  | .append event fails => if s.publishing.isSome then none else some (s.publish event fails)
  | .send => s.publishing.map fun event =>
      { s with publishing := none, receiver := s.receiver.map (·.push event) }
  | .attach =>
      if s.receiver.isSome then none
      else some { s with receiver := some { unread := [], lagged := false } }
  | .replay fails =>
      if s.receiver.isNone || s.subscriber.isSome then none
      else if fails then some { s with receiver := none }
      else
        let subscriber := (replayAfter s.journal afterSeq).foldl Subscriber.take
          { cursor := afterSeq, received := [] }
        some { s with subscriber := some subscriber }
  | .receive =>
      match s.receiver, s.subscriber with
      | some { unread := event :: rest, lagged }, some subscriber =>
          some { s with
            receiver := some { unread := rest, lagged }
            subscriber := some (subscriber.take event) }
      | _, _ => none

def Rising (journal : List (Nat × E)) : Prop := (0 :: journal.map Prod.fst).Pairwise (· < ·)

end Hub

def hubs (afterSeq : Nat) : Machine (Hub E) (HubAction E) where
  init s := Hub.Rising s.journal ∧ s.publishing = none ∧ s.receiver = none ∧ s.subscriber = none
  step := Hub.step afterSeq

/-! ## The journal's side -/

theorem Hub.Rising.append {journal : List (Nat × E)} (h : Rising journal) (event : E) :
    Rising (journal ++ [(lastSeq journal + 1, event)]) := by
  unfold Rising
  rw [List.map_append, ← List.cons_append, List.pairwise_append]
  refine ⟨h, by simp, fun seq hmem seq' hmem' => ?_⟩
  have hle := RunJournal.le_lastSeq h seq hmem
  have heq : seq' = lastSeq journal + 1 := by simpa using hmem'
  omega

theorem lastSeq_concat (journal : List (Nat × E)) (entry : Nat × E) :
    lastSeq (journal ++ [entry]) = entry.1 := by
  simp [lastSeq]

/-! ## The subscriber's side -/

/-- Of events with rising numbers the filter takes those above the cursor. -/
theorem foldl_take {events : List (Nat × E)} (hrising : (events.map Prod.fst).Pairwise (· < ·))
    (subscriber : Subscriber E) :
    (events.foldl Subscriber.take subscriber).received =
        subscriber.received ++ events.filter (subscriber.cursor < ·.1) ∧
      subscriber.cursor ≤ (events.foldl Subscriber.take subscriber).cursor ∧
      (∀ event ∈ events, event.1 ≤ (events.foldl Subscriber.take subscriber).cursor) ∧
      ((events.foldl Subscriber.take subscriber).cursor = subscriber.cursor ∨
        ∃ event ∈ events, (events.foldl Subscriber.take subscriber).cursor = event.1) := by
  induction events generalizing subscriber with
  | nil => simp
  | cons event events ih =>
      rw [List.map_cons, List.pairwise_cons] at hrising
      obtain ⟨hfirst, hrest⟩ := hrising
      obtain ⟨hreceived, hle, hall, hcursor⟩ := ih hrest (subscriber.take event)
      rw [List.foldl_cons]
      by_cases hnew : subscriber.cursor < event.1
      · have htake : subscriber.take event =
            { cursor := event.1, received := subscriber.received ++ [event] } := if_pos hnew
        rw [htake] at hreceived hle hall hcursor ⊢
        have hlater : ∀ later ∈ events, event.1 < later.1 := fun later hmem =>
          hfirst later.1 (List.mem_map_of_mem hmem)
        have hkept : events.filter (event.1 < ·.1) = events.filter (subscriber.cursor < ·.1) := by
          refine List.filter_congr fun later hmem => ?_
          have hlt := hlater later hmem
          simp only [hlt, decide_true, true_eq_decide_iff]
          omega
        refine ⟨?_, Nat.le_trans (Nat.le_of_lt hnew) hle, ?_, ?_⟩
        · rw [hreceived, List.filter_cons_of_pos (by simpa using hnew), hkept]
          simp
        · rintro later (_ | ⟨_, hmem⟩)
          · exact hle
          · exact hall later hmem
        · right
          rcases hcursor with heq | ⟨later, hmem, heq⟩
          · exact ⟨event, List.mem_cons_self, heq⟩
          · exact ⟨later, List.mem_cons_of_mem _ hmem, heq⟩
      · have htake : subscriber.take event = subscriber := if_neg hnew
        rw [htake] at hreceived hle hall hcursor ⊢
        refine ⟨?_, hle, ?_, ?_⟩
        · rw [hreceived, List.filter_cons_of_neg (by simpa using hnew)]
        · rintro later (_ | ⟨_, hmem⟩)
          · exact Nat.le_trans (Nat.le_of_not_lt hnew) hle
          · exact hall later hmem
        · exact hcursor.imp_right fun ⟨later, hmem, heq⟩ =>
            ⟨later, List.mem_cons_of_mem _ hmem, heq⟩

/-- A subscriber that has everything up to its cursor, with all that is above it on the way. -/
structure InStep (afterSeq : Nat) (journal coming : List (Nat × E)) (subscriber : Subscriber E) :
    Prop where
  bounded : afterSeq ≤ subscriber.cursor ∧ subscriber.cursor ≤ max afterSeq (lastSeq journal)
  split : ∃ front, journal = front ++ coming.filter (subscriber.cursor < ·.1) ∧
    (∀ event ∈ front, event.1 ≤ subscriber.cursor) ∧
    subscriber.received = front.filter (afterSeq < ·.1)

namespace InStep

variable {afterSeq : Nat} {journal coming : List (Nat × E)} {subscriber : Subscriber E}

theorem lastSeq_le {bound : Nat} (h : ∀ event ∈ journal, event.1 ≤ bound) :
    lastSeq journal ≤ bound := by
  unfold lastSeq
  cases hlast : journal.getLast? with
  | none => simp
  | some last => simpa using h last (List.mem_of_getLast? hlast)

/-- The replay overlaps with what was broadcast since the receiver was attached. -/
theorem replay (hrising : Hub.Rising journal)
    (hcoming : ∀ event ∈ coming, event.1 ≤ lastSeq journal) :
    InStep afterSeq journal coming
      ((replayAfter journal afterSeq).foldl Subscriber.take
        { cursor := afterSeq, received := [] }) := by
  have hpairwise := (List.pairwise_cons.mp hrising).2
  obtain ⟨start, hstart, hreplay⟩ : ∃ start ≤ afterSeq,
      replayAfter journal afterSeq = journal.filter fun entry => start < entry.1 := by
    refine ⟨_, ?_, rfl⟩
    split <;> omega
  have hsub : ((replayAfter journal afterSeq).map Prod.fst).Pairwise (· < ·) := by
    rw [hreplay]
    exact hpairwise.sublist (List.filter_sublist.map _)
  obtain ⟨hreceived, hle, hall, hcursor⟩ := foldl_take hsub { cursor := afterSeq, received := [] }
  have hread : ∀ event ∈ journal, event.1 ≤
      ((replayAfter journal afterSeq).foldl Subscriber.take
        { cursor := afterSeq, received := [] }).cursor := by
    intro event hmem
    by_cases hskipped : start < event.1
    · exact hall event (by simpa [hreplay] using ⟨hmem, hskipped⟩)
    · exact Nat.le_trans (Nat.le_trans (Nat.le_of_not_lt hskipped) hstart) hle
  have hlast := lastSeq_le hread
  refine ⟨⟨hle, ?_⟩, journal, ?_, hread, ?_⟩
  · rcases hcursor with heq | ⟨event, hmem, heq⟩
    · exact heq ▸ Nat.le_max_left _ _
    · have hmem' : event ∈ journal := by
        rw [hreplay] at hmem
        exact List.mem_of_mem_filter hmem
      have hbound := RunJournal.le_lastSeq hrising event.1
        (List.mem_cons_of_mem _ (List.mem_map_of_mem hmem'))
      omega
  · rw [List.filter_eq_nil_iff.mpr, List.append_nil]
    intro event hmem
    have hbound := hcoming event hmem
    simp only [decide_eq_true_eq]
    omega
  · rw [hreceived, List.nil_append, hreplay, List.filter_filter]
    refine List.filter_congr fun event _ => ?_
    rw [Bool.and_eq_left_iff_imp]
    simp only [decide_eq_true_eq]
    omega

theorem append (h : InStep afterSeq journal coming subscriber) (hrising : Hub.Rising journal)
    (event : E) :
    InStep afterSeq (journal ++ [(lastSeq journal + 1, event)])
      (coming ++ [(lastSeq journal + 1, event)]) subscriber := by
  obtain ⟨⟨hle, hbound⟩, front, hsplit, hfront, hreceived⟩ := h
  refine ⟨⟨hle, ?_⟩, ?_⟩
  · rw [lastSeq_concat]
    omega
  by_cases hnew : subscriber.cursor < lastSeq journal + 1
  · refine ⟨front, ?_, hfront, hreceived⟩
    rw [List.filter_append, ← List.append_assoc, ← hsplit]
    simp [hnew]
  · -- The subscriber asked for later events: nothing is on the way, and this one is not for it.
    have hnone : coming.filter (subscriber.cursor < ·.1) = [] := by
      rw [List.filter_eq_nil_iff]
      intro later hmem
      by_contra hlater
      have hmem' : later ∈ journal := by
        rw [hsplit]
        exact List.mem_append_right _ (List.mem_filter.mpr ⟨hmem, by simpa using hlater⟩)
      have hbound' := RunJournal.le_lastSeq hrising later.1
        (List.mem_cons_of_mem _ (List.mem_map_of_mem hmem'))
      simp only [decide_eq_true_eq] at hlater
      omega
    rw [hnone, List.append_nil] at hsplit
    refine ⟨front ++ [(lastSeq journal + 1, event)], ?_, ?_, ?_⟩
    · have hold : lastSeq journal + 1 ≤ subscriber.cursor := Nat.le_of_not_lt hnew
      rw [List.filter_append, hnone, ← hsplit]
      simp [hold]
    · intro later hmem
      rcases List.mem_append.mp hmem with hmem | hmem
      · exact hfront later hmem
      · rw [List.mem_singleton.mp hmem]
        omega
    · have hbelow : ¬afterSeq < lastSeq journal + 1 := by omega
      rw [List.filter_append, ← hreceived]
      simp [hbelow]

theorem unnumbered (h : InStep afterSeq journal coming subscriber) (event : E) :
    InStep afterSeq journal (coming ++ [(0, event)]) subscriber := by
  obtain ⟨hbounded, front, hsplit, hfront, hreceived⟩ := h
  refine ⟨hbounded, front, ?_, hfront, hreceived⟩
  rw [List.filter_append, ← List.append_assoc, ← hsplit]
  simp

theorem receive {event : Nat × E} (hrising : Hub.Rising journal)
    (h : InStep afterSeq journal (event :: coming) subscriber) :
    InStep afterSeq journal coming (subscriber.take event) := by
  obtain ⟨⟨hle, hbound⟩, front, hsplit, hfront, hreceived⟩ := h
  by_cases hnew : subscriber.cursor < event.1
  · have htake : subscriber.take event =
        { cursor := event.1, received := subscriber.received ++ [event] } := if_pos hnew
    rw [List.filter_cons_of_pos (by simpa using hnew)] at hsplit
    have hpairwise := (List.pairwise_cons.mp hrising).2
    rw [hsplit, List.map_append, List.map_cons, List.pairwise_append, List.pairwise_cons]
      at hpairwise
    have hlater : ∀ later ∈ coming, subscriber.cursor < later.1 → event.1 < later.1 := by
      intro later hmem hcursor
      refine hpairwise.2.1.1 later.1 (List.mem_map_of_mem ?_)
      exact List.mem_filter.mpr ⟨hmem, by simpa using hcursor⟩
    have hkept : coming.filter (event.1 < ·.1) = coming.filter (subscriber.cursor < ·.1) := by
      refine List.filter_congr fun later hmem => ?_
      rw [decide_eq_decide]
      exact ⟨fun h => Nat.lt_trans hnew h, hlater later hmem⟩
    rw [htake]
    refine ⟨⟨by dsimp only; omega, ?_⟩, front ++ [event], ?_, ?_, ?_⟩
    · have hmem : event ∈ journal := by
        rw [hsplit]
        exact List.mem_append_right _ List.mem_cons_self
      have hlast := RunJournal.le_lastSeq hrising event.1
        (List.mem_cons_of_mem _ (List.mem_map_of_mem hmem))
      dsimp only
      omega
    · rw [hkept, hsplit]
      simp
    · intro other hmem
      rcases List.mem_append.mp hmem with hmem | hmem
      · exact Nat.le_trans (hfront other hmem) (Nat.le_of_lt hnew)
      · exact Nat.le_of_eq (congrArg Prod.fst (List.mem_singleton.mp hmem))
    · have habove : afterSeq < event.1 := by omega
      rw [hreceived, List.filter_append]
      simp [habove]
  · have htake : subscriber.take event = subscriber := if_neg hnew
    rw [List.filter_cons_of_neg (by simpa using hnew)] at hsplit
    rw [htake]
    exact ⟨⟨hle, hbound⟩, front, hsplit, hfront, hreceived⟩

theorem received_append (h : InStep afterSeq journal coming subscriber) :
    subscriber.received ++ coming.filter (subscriber.cursor < ·.1) =
      journal.filter (afterSeq < ·.1) := by
  obtain ⟨⟨hle, -⟩, front, hsplit, -, hreceived⟩ := h
  have hback : (coming.filter (subscriber.cursor < ·.1)).filter (afterSeq < ·.1) =
      coming.filter (subscriber.cursor < ·.1) := by
    rw [List.filter_eq_self]
    intro event hmem
    have hnew : subscriber.cursor < event.1 := by simpa using (List.mem_filter.mp hmem).2
    simp only [decide_eq_true_eq]
    omega
  conv_rhs => rw [hsplit, List.filter_append, hback, ← hreceived]

end InStep

/-! ## Every interleaving -/

namespace Hub

def coming (s : Hub E) : List (Nat × E) :=
  (s.receiver.map Receiver.unread).getD [] ++ s.publishing.toList

structure Inv (afterSeq : Nat) (s : Hub E) : Prop where
  rising : Rising s.journal
  known : ∀ event ∈ s.coming, event.1 ≤ lastSeq s.journal
  attached : s.receiver = none → s.subscriber = none
  inStep : ∀ receiver subscriber, s.receiver = some receiver → s.subscriber = some subscriber →
    receiver.lagged = false → InStep afterSeq s.journal s.coming subscriber

variable {afterSeq : Nat} {s s' : Hub E}

theorem Inv.publish (h : Inv afterSeq s) (hidle : s.publishing = none) (event : E) (fails : Bool) :
    Inv afterSeq (s.publish event fails) := by
  have hcoming : s.coming = (s.receiver.map Receiver.unread).getD [] := by
    simp [coming, hidle]
  unfold Hub.publish
  split_ifs
  · have hnext : coming { s with publishing := some (0, event) } = s.coming ++ [(0, event)] := by
      rw [hcoming]
      rfl
    refine ⟨h.rising, ?_, h.attached, ?_⟩
    · intro other hmem
      rw [hnext, List.mem_append, List.mem_singleton] at hmem
      rcases hmem with hmem | rfl
      · exact h.known other hmem
      · exact Nat.zero_le _
    · intro receiver subscriber hreceiver hsubscriber hlagged
      rw [hnext]
      exact (h.inStep receiver subscriber hreceiver hsubscriber hlagged).unnumbered event
  · have hnext : coming { s with
        journal := s.journal ++ [(lastSeq s.journal + 1, event)]
        publishing := some (lastSeq s.journal + 1, event) } =
          s.coming ++ [(lastSeq s.journal + 1, event)] := by
      rw [hcoming]
      rfl
    refine ⟨h.rising.append event, ?_, h.attached, ?_⟩
    · intro other hmem
      rw [hnext, List.mem_append, List.mem_singleton] at hmem
      dsimp only
      rw [lastSeq_concat]
      rcases hmem with hmem | rfl
      · exact Nat.le_succ_of_le (h.known other hmem)
      · exact Nat.le_refl _
    · intro receiver subscriber hreceiver hsubscriber hlagged
      dsimp only
      rw [hnext]
      exact (h.inStep receiver subscriber hreceiver hsubscriber hlagged).append h.rising event

theorem Inv.send {event : Nat × E} (h : Inv afterSeq s) (hevent : s.publishing = some event) :
    Inv afterSeq
      { s with publishing := none, receiver := s.receiver.map (·.push event) } := by
  cases hreceiver : s.receiver with
  | none =>
      refine ⟨h.rising, by simp [coming], fun _ => h.attached hreceiver, ?_⟩
      intro receiver subscriber hnone
      simp at hnone
  | some receiver =>
      have hcoming : s.coming = receiver.unread ++ [event] := by simp [coming, hevent, hreceiver]
      have hnext : coming { s with publishing := none, receiver := some (receiver.push event) } =
          (receiver.push event).unread := by simp [coming]
      rw [Option.map_some]
      refine ⟨h.rising, ?_, by simp, ?_⟩
      · intro other hmem
        rw [hnext] at hmem
        refine h.known other ?_
        rw [hcoming]
        exact Receiver.mem_push hmem
      · intro receiver' subscriber hreceiver' hsubscriber hlagged
        obtain rfl := Option.some.inj hreceiver'
        obtain ⟨hunlagged, hunread⟩ := Receiver.push_of_unlagged hlagged
        have hstep := h.inStep receiver subscriber hreceiver hsubscriber hunlagged
        rw [hnext, hunread, ← hcoming]
        exact hstep

theorem Inv.attach (h : Inv afterSeq s) (hnone : s.receiver = none) :
    Inv afterSeq { s with receiver := some { unread := [], lagged := false } } := by
  have hcoming : s.coming = s.publishing.toList := by simp [coming, hnone]
  refine ⟨h.rising, ?_, by simp, ?_⟩
  · intro event hmem
    exact h.known event (by rw [hcoming]; simpa [coming] using hmem)
  · intro receiver subscriber _ hsubscriber
    rw [h.attached hnone] at hsubscriber
    cases hsubscriber

theorem Inv.replay {receiver : Receiver E} (h : Inv afterSeq s)
    (hreceiver : s.receiver = some receiver) :
    Inv afterSeq { s with
      subscriber := some ((replayAfter s.journal afterSeq).foldl Subscriber.take
        { cursor := afterSeq, received := [] }) } := by
  refine ⟨h.rising, h.known, by simp [hreceiver], ?_⟩
  intro receiver' subscriber _ hsubscriber _
  obtain rfl := Option.some.inj hsubscriber
  exact InStep.replay h.rising h.known

theorem Inv.receive {event : Nat × E} {rest : List (Nat × E)} {lagged : Bool}
    {subscriber : Subscriber E} (h : Inv afterSeq s)
    (hreceiver : s.receiver = some { unread := event :: rest, lagged })
    (hsubscriber : s.subscriber = some subscriber) :
    Inv afterSeq { s with
      receiver := some { unread := rest, lagged }
      subscriber := some (subscriber.take event) } := by
  have hcoming : s.coming = event :: (rest ++ s.publishing.toList) := by simp [coming, hreceiver]
  refine ⟨h.rising, ?_, by simp, ?_⟩
  · intro other hmem
    refine h.known other ?_
    rw [hcoming]
    exact List.mem_cons_of_mem _ hmem
  · intro receiver' subscriber' hreceiver' hsubscriber' hlagged
    obtain rfl := Option.some.inj hreceiver'
    obtain rfl := Option.some.inj hsubscriber'
    have hstep := h.inStep _ subscriber hreceiver hsubscriber hlagged
    rw [hcoming] at hstep
    exact hstep.receive h.rising

theorem Inv.step {a : HubAction E} (h : Inv afterSeq s) (hstep : s.step afterSeq a = some s') :
    Inv afterSeq s' := by
  cases a with
  | append event fails =>
      simp only [Hub.step] at hstep
      split_ifs at hstep with hidle
      cases hstep
      exact h.publish (by simpa using hidle) event fails
  | send =>
      obtain ⟨event, hevent, rfl⟩ := Option.map_eq_some_iff.mp hstep
      exact h.send hevent
  | attach =>
      simp only [Hub.step] at hstep
      split_ifs at hstep with hattached
      cases hstep
      exact h.attach (by simpa using hattached)
  | replay fails =>
      simp only [Hub.step] at hstep
      split_ifs at hstep with hready hfails
      · cases hstep
        simp only [Bool.or_eq_true, not_or, Bool.not_eq_true, Option.isSome_eq_false_iff,
          Option.isNone_iff_eq_none] at hready
        refine ⟨h.rising, ?_, fun _ => hready.2, by simp⟩
        intro event hmem
        exact h.known event (List.mem_append_right _ (by simpa [coming] using hmem))
      · cases hstep
        obtain ⟨receiver, hreceiver⟩ : ∃ receiver, s.receiver = some receiver := by
          simp only [Bool.or_eq_true, not_or, Option.isNone_iff_eq_none] at hready
          exact Option.ne_none_iff_exists'.mp hready.1
        exact h.replay hreceiver
  | receive =>
      simp only [Hub.step] at hstep
      split at hstep
      · rename_i event rest lagged subscriber hreceiver hsubscriber
        cases hstep
        exact h.receive hreceiver hsubscriber
      · cases hstep

theorem inv_of_reachable (h : (hubs afterSeq).Reachable s) : Inv afterSeq s := by
  refine h.invariant (I := Inv afterSeq) ?_ ?_
  · rintro s ⟨hrising, hpublishing, hreceiver, hsubscriber⟩
    refine ⟨hrising, by simp [coming, hpublishing, hreceiver], fun _ => hsubscriber, ?_⟩
    simp [hreceiver]
  · intro s a s' hinv _ hstep
    exact hinv.step hstep

end Hub

/-- **Subscription.** As long as its receiver has not fallen behind the hub's capacity, what a
subscriber has received and the new events on their way to it are together the events of the journal
above `afterSeq`, each once and in order; with nothing on the way it has received them all. -/
theorem subscription_exact {afterSeq : Nat} {s : Hub E} (h : (hubs afterSeq).Reachable s)
    {receiver : Receiver E} {subscriber : Subscriber E} (hreceiver : s.receiver = some receiver)
    (hsubscriber : s.subscriber = some subscriber) (hlagged : receiver.lagged = false) :
    (s.journal.map Prod.fst).Pairwise (· < ·) ∧
      subscriber.received ++ s.coming.filter (subscriber.cursor < ·.1) =
        s.journal.filter (afterSeq < ·.1) ∧
      (s.publishing = none → receiver.unread = [] →
        subscriber.received = s.journal.filter (afterSeq < ·.1)) := by
  have hinv := Hub.inv_of_reachable h
  have hall := (hinv.inStep receiver subscriber hreceiver hsubscriber hlagged).received_append
  refine ⟨(List.pairwise_cons.mp hinv.rising).2, hall, ?_⟩
  intro hpublishing hunread
  have hcoming : s.coming = [] := by simp [Hub.coming, hpublishing, hreceiver, hunread]
  simpa [hcoming] using hall

/-! ## A slow subscriber -/

def newHub : Hub Unit := { journal := [], publishing := none, receiver := none, subscriber := none }

def published (n : Nat) : List (Nat × Unit) := (List.range n).map fun i => (i + 1, ())

theorem published_succ (n : Nat) : published (n + 1) = published n ++ [(n + 1, ())] := by
  simp [published, List.range_succ]

theorem published_add_two (n : Nat) : ∃ rest, published (n + 2) = (1, ()) :: (2, ()) :: rest := by
  unfold published
  rw [List.range_succ_eq_map, List.range_succ_eq_map]
  exact ⟨_, rfl⟩

theorem lastSeq_published (n : Nat) : lastSeq (published n) = n := by
  cases n with
  | zero => rfl
  | succ n => rw [published_succ, lastSeq_concat]

/-- A subscriber that reads nothing while `n` events are published. -/
def idleHub (n : Nat) : Hub Unit where
  journal := published n
  publishing := none
  receiver := some
    { unread := (published n).drop (n - hubCapacity), lagged := decide (hubCapacity < n) }
  subscriber := some { cursor := 0, received := [] }

theorem push_published (n : Nat) :
    Receiver.push
        { unread := (published n).drop (n - hubCapacity), lagged := decide (hubCapacity < n) }
        (n + 1, ()) =
      { unread := (published (n + 1)).drop (n + 1 - hubCapacity)
        lagged := decide (hubCapacity < n + 1) } := by
  have hlength : (published n).length = n := by simp [published]
  have hdrop : (published n).drop (n - hubCapacity) ++ [(n + 1, ())] =
      (published (n + 1)).drop (n - hubCapacity) := by
    rw [published_succ, List.drop_append_of_le_length (by omega)]
  have hunread : ((published (n + 1)).drop (n - hubCapacity)).length =
      n + 1 - (n - hubCapacity) := by
    simp [published]
  unfold Receiver.push
  dsimp only
  rw [hdrop, hunread]
  by_cases hfull : hubCapacity ≤ n
  · rw [if_pos (by omega), List.drop_drop]
    have hlagged : hubCapacity < n + 1 := Nat.lt_succ_of_le hfull
    have hcount : n - hubCapacity + (n + 1 - (n - hubCapacity) - hubCapacity) =
        n + 1 - hubCapacity := by omega
    rw [hcount, decide_eq_true hlagged]
  · rw [if_neg (by omega)]
    have hzero : n - hubCapacity = 0 := by omega
    have hzero' : n + 1 - hubCapacity = 0 := by omega
    rw [hzero, hzero', decide_eq_false (by omega), decide_eq_false (by omega)]

theorem run_idleHub (n : Nat) :
    ∃ actions, (hubs 0).run newHub actions = some (idleHub n) := by
  induction n with
  | zero => exact ⟨[.attach, .replay false], rfl⟩
  | succ n ih =>
      obtain ⟨actions, hrun⟩ := ih
      refine ⟨actions ++ [HubAction.append () false, HubAction.send], ?_⟩
      rw [Machine.run_append, hrun, Option.bind_some]
      have happend : (hubs 0).step (idleHub n) (.append () false) = some
          { idleHub n with
            journal := published (n + 1)
            publishing := some (n + 1, ()) } := by
        simp only [hubs, Hub.step, Hub.publish, idleHub, lastSeq_published, published_succ]
        rfl
      have hsend : (hubs 0).step
          { idleHub n with journal := published (n + 1), publishing := some (n + 1, ()) } .send =
            some (idleHub (n + 1)) := by
        simp only [hubs, Hub.step, idleHub, Option.map_some, push_published]
      rw [Machine.run, happend, Option.bind_some, Machine.run, hsend]
      rfl

/-- One event more than the hub holds is published before the subscriber reads: the first is gone,
and what it receives begins with the second. -/
theorem slow_subscriber_misses :
    ¬∀ (afterSeq : Nat) (s : Hub Unit), (hubs afterSeq).Reachable s → ∀ subscriber,
      s.subscriber = some subscriber →
      subscriber.received <+: s.journal.filter (afterSeq < ·.1) := by
  intro h
  obtain ⟨actions, hrun⟩ := run_idleHub (hubCapacity + 1)
  obtain ⟨rest, hrest⟩ := published_add_two (hubCapacity - 1)
  have hpublished : published (hubCapacity + 1) = (1, ()) :: (2, ()) :: rest := hrest
  have hreceive : (hubs 0).step (idleHub (hubCapacity + 1)) .receive = some
      { idleHub (hubCapacity + 1) with
        receiver := some { unread := rest, lagged := true }
        subscriber := some { cursor := 2, received := [(2, ())] } } := by
    have hone : hubCapacity + 1 - hubCapacity = 1 := by omega
    simp only [hubs, Hub.step, idleHub, hone, hpublished, List.drop_succ_cons, List.drop_zero]
    rfl
  have hrun' : (hubs 0).run newHub (actions ++ [.receive]) = some
      { idleHub (hubCapacity + 1) with
        receiver := some { unread := rest, lagged := true }
        subscriber := some { cursor := 2, received := [(2, ())] } } := by
    rw [Machine.run_concat, hrun, Option.bind_some, hreceive]
  have hinit : (hubs 0).init newHub := ⟨by simp [Hub.Rising, newHub], rfl, rfl, rfl⟩
  have hprefix := h 0 _ (Machine.reachable_of_run hinit hrun') _ rfl
  dsimp only [idleHub] at hprefix
  rw [hpublished] at hprefix
  simp at hprefix

/-- The event is appended before the replay and sent after it: it comes twice and is taken once. -/
theorem overlap_taken_once :
    ∃ s : Hub Unit, (hubs 0).Reachable s ∧ ∃ subscriber, s.subscriber = some subscriber ∧
      subscriber.received = s.journal.filter (0 < ·.1) := by
  obtain ⟨s, hrun, hreceiver, hsubscriber, hpublishing⟩ : ∃ s,
      (hubs 0).run newHub [.attach, .append () false, .replay false, .send, .receive] = some s ∧
        s.receiver = some { unread := [], lagged := false } ∧
        s.subscriber = some { cursor := 1, received := [(1, ())] } ∧ s.publishing = none :=
    ⟨_, rfl, rfl, rfl, rfl⟩
  have hinit : (hubs 0).init newHub := ⟨by simp [Hub.Rising, newHub], rfl, rfl, rfl⟩
  have hreach : (hubs 0).Reachable s := Machine.reachable_of_run hinit hrun
  exact ⟨s, hreach, _, hsubscriber,
    (subscription_exact hreach hreceiver hsubscriber rfl).2.2 hpublishing rfl⟩

end Zeron.Engine
