import Mathlib.Data.List.Nodup
import Zeron.Lib.Machine

/-!
# Dialing a host

`dial.rs`: the addresses of a host are ordered by alternating their families and then raced, one new
attempt at each tick of the stagger timer or at once after a failure. When an attempt completes, and
with what, is an action, and so is each turn of the loop's `select!`; the timer may fire at any moment.
-/

namespace Zeron.Sync

open Zeron.Lib (Machine)

inductive SocketAddr where
  | v4 (ip : BitVec 32) (port : BitVec 16)
  | v6 (ip : BitVec 128) (port : BitVec 16) (flowinfo scopeId : BitVec 32)
deriving DecidableEq

def SocketAddr.isIpv6 : SocketAddr → Bool
  | .v4 .. => false
  | .v6 .. => true

/-! ## The order -/

/-- The loop of `interleave_families`: once an iterator is exhausted, the other goes on alone. -/
def alternate {α : Type} : List α → List α → List α
  | [], other => other
  | preferred, [] => preferred
  | a :: preferred, b :: other => a :: b :: alternate preferred other

def interleaveFamilies (addrs : List SocketAddr) : List SocketAddr :=
  let firstIsV6 := addrs.head?.any SocketAddr.isIpv6
  let (preferred, other) := addrs.partition fun addr => addr.isIpv6 == firstIsV6
  alternate preferred other

theorem alternate_perm {α : Type} (preferred other : List α) :
    (alternate preferred other).Perm (preferred ++ other) := by
  induction preferred, other using alternate.induct with
  | case1 other => exact .refl _
  | case2 preferred =>
      rw [List.append_nil]
      cases preferred <;> exact .refl _
  | case3 a preferred b other ih =>
      rw [alternate, List.cons_append]
      apply List.Perm.cons
      calc List.Perm (b :: alternate preferred other) (b :: (preferred ++ other)) := ih.cons b
        List.Perm _ (preferred ++ b :: other) := List.perm_middle.symm

theorem filter_alternate {α : Type} {p : α → Bool} {preferred other : List α}
    (hpreferred : ∀ a ∈ preferred, p a = true) (hother : ∀ b ∈ other, p b = false) :
    (alternate preferred other).filter p = preferred ∧
      (alternate preferred other).filter (fun a => !p a) = other := by
  induction preferred, other using alternate.induct with
  | case1 other =>
      rw [alternate]
      exact ⟨List.filter_eq_nil_iff.mpr fun b hb => by simp [hother b hb],
        List.filter_eq_self.mpr fun b hb => by simp [hother b hb]⟩
  | case2 preferred =>
      have hsame : alternate preferred [] = preferred := by cases preferred <;> rfl
      rw [hsame]
      exact ⟨List.filter_eq_self.mpr hpreferred,
        List.filter_eq_nil_iff.mpr fun a ha => by simp [hpreferred a ha]⟩
  | case3 a preferred b other ih =>
      obtain ⟨ha, hpreferred⟩ := List.forall_mem_cons.mp hpreferred
      obtain ⟨hb, hother⟩ := List.forall_mem_cons.mp hother
      obtain ⟨hfst, hsnd⟩ := ih hpreferred hother
      simp [alternate, ha, hb, hfst, hsnd]

theorem interleaveFamilies_eq (addrs : List SocketAddr) :
    interleaveFamilies addrs =
      alternate (addrs.filter fun addr => addr.isIpv6 == addrs.head?.any SocketAddr.isIpv6)
        (addrs.filter fun addr => !(addr.isIpv6 == addrs.head?.any SocketAddr.isIpv6)) := by
  rw [interleaveFamilies, List.partition_eq_filter_filter]
  rfl

theorem interleaveFamilies_perm (addrs : List SocketAddr) :
    (interleaveFamilies addrs).Perm addrs := by
  rw [interleaveFamilies_eq]
  exact (alternate_perm _ _).trans (List.filter_append_perm _ addrs)

theorem filter_interleaveFamilies (addrs : List SocketAddr) (v6 : Bool) :
    (interleaveFamilies addrs).filter (·.isIpv6 == v6) = addrs.filter (·.isIpv6 == v6) := by
  rw [interleaveFamilies_eq]
  generalize addrs.head?.any SocketAddr.isIpv6 = firstIsV6
  obtain ⟨hfst, hsnd⟩ := @filter_alternate _ (fun addr : SocketAddr => addr.isIpv6 == firstIsV6)
    (addrs.filter fun addr => addr.isIpv6 == firstIsV6)
    (addrs.filter fun addr => !(addr.isIpv6 == firstIsV6))
    (fun a ha => (List.mem_filter.mp ha).2)
    (fun b hb => by simpa using (List.mem_filter.mp hb).2)
  by_cases heq : v6 = firstIsV6
  · rw [heq]
    exact hfst
  · have hnot : (fun addr : SocketAddr => addr.isIpv6 == v6) =
        fun addr => !(addr.isIpv6 == firstIsV6) := by
      funext addr
      cases hv6 : addr.isIpv6 <;> cases v6 <;> cases firstIsV6 <;> simp_all
    rw [hnot]
    exact hsnd

theorem head_interleaveFamilies (addrs : List SocketAddr) :
    (interleaveFamilies addrs).head? = addrs.head? := by
  cases addrs with
  | nil => rfl
  | cons first addrs =>
      rw [interleaveFamilies_eq, List.head?_cons, Option.any_some,
        List.filter_cons_of_pos (by simp)]
      generalize List.filter _ (first :: addrs) = other
      cases other <;> rfl

/-! ## The race -/

inductive ErrorKind where
  | notFound
  | other (kind : String)
deriving DecidableEq

structure IoError where
  kind : ErrorKind
  message : String
deriving DecidableEq

/-- `TcpStream::connect`, with its result once it has completed. -/
structure Attempt (Stream : Type) where
  addr : SocketAddr
  result : Option (Except IoError Stream)

/-- The attempts that were started stay, for the statements; `pending` are the places among them of
those that the loop has not taken yet. -/
structure Race (Stream : Type) where
  queue : List SocketAddr
  attempts : List (Attempt Stream)
  pending : List Nat
  verdict : Option (Except IoError Stream)

inductive Action (Stream : Type) where
  /-- The attempt at that place completes. -/
  | complete (i : Nat) (result : Except IoError Stream)
  /-- `pending.next()` yields the attempt at that place. -/
  | next (i : Nat)
  | stagger

namespace Race

variable {Stream : Type}

/-- `race_connect` up to its loop. -/
def raceConnect : List SocketAddr → Race Stream
  | [] =>
      { queue := [], attempts := [], pending := []
        verdict := some (.error ⟨.notFound, "no addresses resolved"⟩) }
  | first :: queue => { queue, attempts := [⟨first, none⟩], pending := [0], verdict := none }

variable (race : Race Stream)

def push (addr : SocketAddr) (queue : List SocketAddr) : Race Stream :=
  { race with
    queue, attempts := race.attempts ++ [⟨addr, none⟩]
    pending := race.pending ++ [race.attempts.length] }

/-- A failure starts the next attempt; without one, the last failure is the verdict. -/
def failed (err : IoError) : Race Stream :=
  match race.queue with
  | addr :: queue => race.push addr queue
  | [] => if race.pending.isEmpty then { race with verdict := some (.error err) } else race

def take (i : Nat) : Race Stream := { race with pending := race.pending.erase i }

def step : Action Stream → Option (Race Stream)
  | .complete i result =>
      match race.verdict, race.attempts[i]? with
      | none, some ⟨addr, none⟩ =>
          some { race with attempts := race.attempts.set i ⟨addr, some result⟩ }
      | _, _ => none
  | .next i =>
      if race.verdict.isNone ∧ i ∈ race.pending then
        match race.attempts[i]?.bind Attempt.result with
        | some (.ok stream) => some { race.take i with verdict := some (.ok stream) }
        | some (.error err) => some ((race.take i).failed err)
        | none => none
      else none
  | .stagger =>
      match race.verdict, race.queue with
      | none, addr :: queue => some (race.push addr queue)
      | _, _ => none

def machine (addrs : List SocketAddr) : Machine (Race Stream) (Action Stream) where
  init race := race = raceConnect (interleaveFamilies addrs)
  step := step

/-! ### What a step keeps -/

/-- The loop has taken the attempt's failure, or its connection as the verdict. -/
def Taken (attempt : Attempt Stream) : Prop :=
  (∃ err, attempt.result = some (.error err)) ∨
    ∃ stream, attempt.result = some (.ok stream) ∧ race.verdict = some (.ok stream)

structure Sound (order : List SocketAddr) : Prop where
  order : race.attempts.map Attempt.addr ++ race.queue = order
  places : race.pending.Nodup
  started : ∀ i ∈ race.pending, i < race.attempts.length
  taken : ∀ i attempt, race.attempts[i]? = some attempt → i ∈ race.pending ∨ race.Taken attempt
  running : race.verdict = none → race.pending ≠ []
  won : ∀ stream, race.verdict = some (.ok stream) →
    ∃ attempt ∈ race.attempts, attempt.result = some (.ok stream)
  lost : ∀ err, race.verdict = some (.error err) → race.queue = [] ∧ race.pending = []

/-- Between taking a failure and what follows it, the race may have nothing pending. -/
structure Failing (order : List SocketAddr) : Prop where
  order : race.attempts.map Attempt.addr ++ race.queue = order
  places : race.pending.Nodup
  started : ∀ i ∈ race.pending, i < race.attempts.length
  taken : ∀ i attempt, race.attempts[i]? = some attempt → i ∈ race.pending ∨ race.Taken attempt
  running : race.verdict = none

variable {race} {order : List SocketAddr}

theorem Taken.push {attempt : Attempt Stream} (h : race.Taken attempt) (addr : SocketAddr)
    (queue : List SocketAddr) : (race.push addr queue).Taken attempt := h

theorem sound_raceConnect : (raceConnect order : Race Stream).Sound order := by
  cases order with
  | nil => exact ⟨rfl, .nil, nofun, nofun, nofun, nofun, fun _ _ => ⟨rfl, rfl⟩⟩
  | cons first queue =>
      refine ⟨rfl, List.nodup_singleton 0, by simp [raceConnect], ?_, nofun, nofun, nofun⟩
      intro i attempt hi
      obtain ⟨hlt, -⟩ := List.getElem?_eq_some_iff.mp hi
      have hzero : i = 0 := Nat.lt_one_iff.mp hlt
      exact .inl (hzero ▸ List.mem_cons_self)

theorem Failing.push (h : race.Failing order) {addr : SocketAddr} {queue : List SocketAddr}
    (hqueue : race.queue = addr :: queue) : (race.push addr queue).Sound order := by
  have hnew : race.attempts.length ∉ race.pending := fun hmem =>
    Nat.lt_irrefl _ (h.started _ hmem)
  refine ⟨?_, ?_, ?_, ?_, ?_, ?_, ?_⟩
  · rw [← h.order, hqueue]
    simp [Race.push]
  · exact h.places.append (List.nodup_singleton _) (List.disjoint_singleton.mpr hnew)
  · intro i hi
    have hlength : (race.push addr queue).attempts.length = race.attempts.length + 1 := by
      simp [Race.push]
    rw [hlength]
    obtain hmem | hlast := List.mem_append.mp hi
    · exact Nat.lt_succ_of_lt (h.started i hmem)
    · rw [List.mem_singleton.mp hlast]
      exact Nat.lt_succ_self _
  · intro i attempt hi
    by_cases hlt : i < race.attempts.length
    · change (race.attempts ++ [_])[i]? = _ at hi
      rw [List.getElem?_append_left hlt] at hi
      exact (h.taken i attempt hi).imp (List.mem_append_left _) fun htaken => htaken.push addr queue
    · obtain ⟨hle, -⟩ := List.getElem?_eq_some_iff.mp hi
      simp only [Race.push, List.length_append, List.length_singleton] at hle
      have hlast : i = race.attempts.length := by omega
      exact .inl (List.mem_append_right _ (List.mem_singleton.mpr hlast))
  · exact fun _ => List.append_ne_nil_of_right_ne_nil _ (List.cons_ne_nil _ _)
  · intro stream hverdict
    exact absurd (h.running.symm.trans hverdict) nofun
  · intro err hverdict
    exact absurd (h.running.symm.trans hverdict) nofun

theorem Failing.failed (h : race.Failing order) (err : IoError) :
    (race.failed err).Sound order := by
  unfold Race.failed
  split
  · rename_i addr queue hqueue
    exact h.push hqueue
  · rename_i hqueue
    split_ifs with hpending
    · have hempty : race.pending = [] := List.isEmpty_iff.mp hpending
      refine ⟨h.order, h.places, h.started, ?_, nofun, nofun, fun _ _ => ⟨hqueue, hempty⟩⟩
      intro i attempt hi
      obtain hmem | herr | ⟨stream, -, hverdict⟩ := h.taken i attempt hi
      · exact .inl hmem
      · exact .inr (.inl herr)
      · exact absurd (h.running.symm.trans hverdict) nofun
    · refine ⟨h.order, h.places, h.started, h.taken, fun _ => ?_, ?_, ?_⟩
      · simpa using hpending
      · intro stream hverdict
        exact absurd (h.running.symm.trans hverdict) nofun
      · intro err' hverdict
        exact absurd (h.running.symm.trans hverdict) nofun

theorem Sound.failing (h : race.Sound order) (hrunning : race.verdict = none) :
    race.Failing order :=
  ⟨h.order, h.places, h.started, h.taken, hrunning⟩

theorem Sound.complete (h : race.Sound order) (hrunning : race.verdict = none) {i : Nat}
    {addr : SocketAddr} (hi : race.attempts[i]? = some ⟨addr, none⟩)
    (result : Except IoError Stream) :
    Sound { race with attempts := race.attempts.set i ⟨addr, some result⟩ } order := by
  have hpending : i ∈ race.pending := by
    obtain hmem | ⟨err, herr⟩ | ⟨stream, hstream, -⟩ := h.taken i _ hi
    · exact hmem
    · cases herr
    · cases hstream
  refine ⟨?_, h.places, ?_, ?_, fun _ => h.running hrunning, ?_, ?_⟩
  · have hsame : (race.attempts.set i ⟨addr, some result⟩).map Attempt.addr =
        race.attempts.map Attempt.addr := by
      rw [List.map_set]
      apply List.ext_getElem?
      intro j
      rw [List.getElem?_set]
      split_ifs with hij hlt
      · rw [List.getElem?_map, ← hij, hi]
        rfl
      · rw [List.getElem?_eq_none (hij ▸ Nat.le_of_not_lt hlt)]
      · rfl
    rw [hsame]
    exact h.order
  · intro j hj
    rw [List.length_set]
    exact h.started j hj
  · intro j attempt hj
    by_cases hij : i = j
    · exact .inl (hij ▸ hpending)
    · rw [List.getElem?_set_ne hij] at hj
      exact h.taken j attempt hj
  · intro stream hverdict
    exact absurd (hrunning.symm.trans hverdict) nofun
  · intro err hverdict
    exact absurd (hrunning.symm.trans hverdict) nofun

theorem Sound.take_failed (h : race.Sound order) (hrunning : race.verdict = none) {i : Nat}
    {err : IoError} (hi : race.attempts[i]?.bind Attempt.result = some (.error err)) :
    ((race.take i).failed err).Sound order := by
  apply Failing.failed
  refine ⟨h.order, h.places.erase i, fun j hj => h.started j (List.mem_of_mem_erase hj), ?_,
    hrunning⟩
  intro j attempt hj
  obtain hmem | htaken := h.taken j attempt hj
  · by_cases hij : j = i
    · subst hij
      change race.attempts[j]? = some attempt at hj
      rw [hj] at hi
      exact .inr (.inl ⟨err, hi⟩)
    · exact .inl ((List.mem_erase_of_ne hij).mpr hmem)
  · exact .inr htaken

theorem Sound.take_won (h : race.Sound order) (hrunning : race.verdict = none) {i : Nat}
    {stream : Stream} (hi : race.attempts[i]?.bind Attempt.result = some (.ok stream)) :
    Sound { race.take i with verdict := some (.ok stream) } order := by
  refine ⟨h.order, h.places.erase i, fun j hj => h.started j (List.mem_of_mem_erase hj), ?_,
    nofun, ?_, nofun⟩
  · intro j attempt hj
    obtain hmem | herr | ⟨other, -, hverdict⟩ := h.taken j attempt hj
    · by_cases hij : j = i
      · subst hij
        change race.attempts[j]? = some attempt at hj
        rw [hj] at hi
        exact .inr (.inr ⟨stream, hi, rfl⟩)
      · exact .inl ((List.mem_erase_of_ne hij).mpr hmem)
    · exact .inr (.inl herr)
    · exact absurd (hrunning.symm.trans hverdict) nofun
  · intro other hverdict
    cases hverdict
    obtain ⟨attempt, hattempt, hresult⟩ := Option.bind_eq_some_iff.mp hi
    exact ⟨attempt, List.mem_of_getElem? hattempt, hresult⟩

/-- What each action does, and when. -/
theorem step_cases {race' : Race Stream} {action : Action Stream}
    (hstep : race.step action = some race') :
    race.verdict = none ∧
      ((∃ i addr result, action = .complete i result ∧ race.attempts[i]? = some ⟨addr, none⟩ ∧
          race' = { race with attempts := race.attempts.set i ⟨addr, some result⟩ }) ∨
        (∃ i stream, action = .next i ∧ i ∈ race.pending ∧
          race.attempts[i]?.bind Attempt.result = some (.ok stream) ∧
            race' = { race.take i with verdict := some (.ok stream) }) ∨
        (∃ i err, action = .next i ∧ i ∈ race.pending ∧
          race.attempts[i]?.bind Attempt.result = some (.error err) ∧
            race' = (race.take i).failed err) ∨
        ∃ addr queue, action = .stagger ∧ race.queue = addr :: queue ∧
          race' = race.push addr queue) := by
  cases action with
  | complete i result =>
      simp only [step] at hstep
      split at hstep
      · rename_i addr hverdict hi
        cases hstep
        exact ⟨hverdict, .inl ⟨i, addr, result, rfl, hi, rfl⟩⟩
      · cases hstep
  | next i =>
      simp only [step] at hstep
      split_ifs at hstep with hguard
      obtain ⟨hverdict, hmem⟩ := hguard
      refine ⟨Option.isNone_iff_eq_none.mp hverdict, .inr ?_⟩
      split at hstep
      · rename_i stream hi
        cases hstep
        exact .inl ⟨i, stream, rfl, hmem, hi, rfl⟩
      · rename_i err hi
        cases hstep
        exact .inr (.inl ⟨i, err, rfl, hmem, hi, rfl⟩)
      · cases hstep
  | stagger =>
      simp only [step] at hstep
      split at hstep
      · rename_i addr queue hverdict hqueue
        cases hstep
        exact ⟨hverdict, .inr (.inr (.inr ⟨addr, queue, rfl, hqueue, rfl⟩))⟩
      · cases hstep

theorem Sound.step (h : race.Sound order) {race' : Race Stream} {action : Action Stream}
    (hstep : race.step action = some race') : race'.Sound order := by
  obtain ⟨hrunning, ⟨i, addr, result, -, hi, rfl⟩ | ⟨i, stream, -, -, hi, rfl⟩ |
    ⟨i, err, -, -, hi, rfl⟩ | ⟨addr, queue, -, hqueue, rfl⟩⟩ := step_cases hstep
  · exact h.complete hrunning hi result
  · exact h.take_won hrunning hi
  · exact h.take_failed hrunning hi
  · exact (h.failing hrunning).push hqueue

theorem sound_of_reachable {addrs : List SocketAddr} (h : (machine addrs).Reachable race) :
    race.Sound (interleaveFamilies addrs) := by
  apply h.invariant
  · rintro _ rfl
    exact sound_raceConnect
  · exact fun _ _ _ hsound _ hstep => hsound.step hstep

/-! ### Every race ends -/

/-- An address has three steps before it: to be started, to complete, to be taken. -/
def measure (race : Race Stream) : Nat :=
  3 * race.queue.length + race.attempts.countP (·.result.isNone) + race.pending.length

theorem measure_push {addr : SocketAddr} {queue : List SocketAddr}
    (hqueue : race.queue = addr :: queue) :
    (race.push addr queue).measure + 1 = race.measure := by
  simp only [measure, push, hqueue, List.length_cons, List.countP_append, List.length_append,
    List.countP_singleton, Option.isNone_none, if_true, List.length_nil]
  omega

theorem measure_failed_le (err : IoError) : (race.failed err).measure ≤ race.measure := by
  unfold Race.failed
  split
  · rename_i addr queue hqueue
    rw [← measure_push hqueue]
    exact Nat.le_succ _
  · split_ifs <;> exact Nat.le_refl _

theorem measure_take {i : Nat} (hi : i ∈ race.pending) :
    (race.take i).measure + 1 = race.measure := by
  have hlength := List.length_erase_of_mem hi
  have hpos := List.length_pos_of_mem hi
  simp only [measure, take]
  omega

theorem measure_step {race' : Race Stream} {action : Action Stream}
    (hstep : race.step action = some race') : race'.measure < race.measure := by
  obtain ⟨-, ⟨i, addr, result, -, hi, rfl⟩ | ⟨i, stream, -, hmem, -, rfl⟩ |
    ⟨i, err, -, hmem, -, rfl⟩ | ⟨addr, queue, -, hqueue, rfl⟩⟩ := step_cases hstep
  · obtain ⟨hlt, hget⟩ := List.getElem?_eq_some_iff.mp hi
    have hcount : (race.attempts.set i ⟨addr, some result⟩).countP (·.result.isNone) + 1 =
        race.attempts.countP (·.result.isNone) := by
      have hpos : 0 < race.attempts.countP (·.result.isNone) :=
        List.countP_pos_iff.mpr ⟨_, List.mem_of_getElem? hi, rfl⟩
      rw [List.countP_set hlt, hget]
      simp only [Option.isNone_none, if_true, Option.isNone_some, Bool.false_eq_true, if_false]
      omega
    simp only [measure]
    omega
  · exact Nat.lt_of_succ_le (Nat.le_of_eq (measure_take hmem))
  · exact Nat.lt_of_le_of_lt (measure_failed_le err) (Nat.lt_of_succ_le (Nat.le_of_eq (measure_take hmem)))
  · exact Nat.lt_of_succ_le (Nat.le_of_eq (measure_push hqueue))

theorem measure_raceConnect_le (order : List SocketAddr) :
    (raceConnect order : Race Stream).measure ≤ 3 * order.length := by
  cases order with
  | nil => exact Nat.le_refl _
  | cons first queue =>
      simp only [measure, raceConnect, List.length_cons, List.countP_singleton,
        Option.isNone_none, if_true, List.length_nil]
      omega

/-- **Every address has its chance.** The order is the resolver's with the families alternating. A
race starts its attempts in that order and once each; it has one pending until it ends, ends with a
connection exactly when a started attempt succeeded before, and with an error only when all were
started and failed. It ends after three steps for each address at the latest, and an attempt that has
succeeded can be taken until then. -/
theorem every_address_has_its_chance (addrs : List SocketAddr) :
    (interleaveFamilies addrs).Perm addrs ∧
    (∀ v6, (interleaveFamilies addrs).filter (·.isIpv6 == v6) = addrs.filter (·.isIpv6 == v6)) ∧
    (interleaveFamilies addrs).head? = addrs.head? ∧
    (∀ race : Race Stream, (machine addrs).Reachable race →
      race.attempts.map Attempt.addr ++ race.queue = interleaveFamilies addrs ∧
      (race.verdict = none → race.pending ≠ [] ∧ ∀ i ∈ race.pending, i < race.attempts.length) ∧
      (race.verdict ≠ none → ((∃ stream, race.verdict = some (.ok stream)) ↔
        ∃ attempt ∈ race.attempts, ∃ stream, attempt.result = some (.ok stream))) ∧
      (∀ err, race.verdict = some (.error err) → race.queue = [] ∧
        ∀ attempt ∈ race.attempts, ∃ err, attempt.result = some (.error err)) ∧
      ∀ i attempt stream, race.attempts[i]? = some attempt → attempt.result = some (.ok stream) →
        race.verdict = none → race.step (.next i) =
          some { race.take i with verdict := some (.ok stream) }) ∧
    ∀ (actions : List (Action Stream)) (race : Race Stream),
      (machine addrs).run (raceConnect (interleaveFamilies addrs)) actions = some race →
        actions.length ≤ 3 * addrs.length := by
  refine ⟨interleaveFamilies_perm addrs, filter_interleaveFamilies addrs,
    head_interleaveFamilies addrs, ?_, ?_⟩
  · intro race hreach
    have h := sound_of_reachable hreach
    have hfailed : ∀ err, race.verdict = some (.error err) →
        ∀ attempt ∈ race.attempts, ∃ err, attempt.result = some (.error err) := by
      intro err hverdict attempt hmem
      obtain ⟨i, hi⟩ := List.getElem?_of_mem hmem
      obtain hpending | herr | ⟨stream, -, hwon⟩ := h.taken i attempt hi
      · rw [(h.lost err hverdict).2] at hpending
        exact absurd hpending List.not_mem_nil
      · exact herr
      · cases hverdict.symm.trans hwon
    refine ⟨h.order, fun hnone => ⟨h.running hnone, h.started⟩, ?_,
      fun err hverdict => ⟨(h.lost err hverdict).1, hfailed err hverdict⟩, ?_⟩
    · intro hended
      constructor
      · rintro ⟨stream, hverdict⟩
        obtain ⟨attempt, hmem, hresult⟩ := h.won stream hverdict
        exact ⟨attempt, hmem, stream, hresult⟩
      · rintro ⟨attempt, hmem, stream, hresult⟩
        cases hverdict : race.verdict with
        | none => exact absurd hverdict hended
        | some verdict =>
            cases verdict with
            | ok stream => exact ⟨stream, rfl⟩
            | error err =>
                obtain ⟨err', herr⟩ := hfailed err hverdict attempt hmem
                cases hresult.symm.trans herr
    · intro i attempt stream hi hresult hnone
      have hpending : i ∈ race.pending := by
        obtain hmem | ⟨err, herr⟩ | ⟨other, -, hwon⟩ := h.taken i attempt hi
        · exact hmem
        · cases hresult.symm.trans herr
        · cases hnone.symm.trans hwon
      simp only [step, hnone, hi, hresult, Option.isNone_none, hpending, and_self, if_true,
        Option.bind_some]
  · intro actions race hrun
    have hle := @Machine.length_add_le_of_run _ _ (machine addrs) (fun _ => True) measure
      (fun _ => True) (fun _ _ _ _ _ hstep => ⟨trivial, measure_step hstep⟩) _ _ _ trivial
      (fun _ _ => trivial) hrun
    have hstart := @measure_raceConnect_le Stream (interleaveFamilies addrs)
    rw [(interleaveFamilies_perm addrs).length_eq] at hstart
    omega

/-- The resolver's first pick is tried first, and the other family's next. -/
example :
    interleaveFamilies [.v6 1 443 0 0, .v6 2 443 0 0, .v4 1 443, .v4 2 443, .v4 3 443] =
      [.v6 1 443 0 0, .v4 1 443, .v6 2 443 0 0, .v4 2 443, .v4 3 443] := by
  decide

end Race

end Zeron.Sync
