import Zeron.Lib.Lexicographic
import Zeron.Registry.Hlc

/-!
# The order of stamps

`encode_hlc` and `HlcClock::next` of `crates/doc/src/registry.rs`. As long as the milliseconds show
thirteen digits and the counter six, the bytes of two stamps are ordered like what they show. A
counter that is full carries into the milliseconds, which only fails at the last of thirteen digits.
-/

namespace Zeron.Registry

open Zeron.Lib.Digits Zeron.Lib.Lexicographic
open Zeron.Lib.Utf8 (encode)

theorem encodeHlc_lt_iff {ms ms' : Int} {counter counter' : Nat} {device device' : String}
    (hms : 0 ≤ ms ∧ ms < 10 ^ 13) (hms' : 0 ≤ ms' ∧ ms' < 10 ^ 13) (hcounter : counter ≤ 999999)
    (hcounter' : counter' ≤ 999999) :
    encode (encodeHlc ms counter device) < encode (encodeHlc ms' counter' device') ↔
      ms < ms' ∨ ms = ms' ∧ (counter < counter' ∨
        counter = counter' ∧ encode device < encode device') := by
  obtain ⟨m, rfl⟩ := Int.eq_ofNat_of_zero_le hms.1
  obtain ⟨m', rfl⟩ := Int.eq_ofNat_of_zero_le hms'.1
  have hm : m < 10 ^ 13 := by exact_mod_cast hms.2
  have hm' : m' < 10 ^ 13 := by exact_mod_cast hms'.2
  have hpad : (zeroPad 13 m).length = (zeroPad 13 m').length :=
    (length_leftpad hm (by decide)).trans (length_leftpad hm' (by decide)).symm
  have hpad' : (zeroPad 6 counter).length = (zeroPad 6 counter').length := by
    rw [length_zeroPad_counter hcounter, length_zeroPad_counter hcounter']
  have hlt : zeroPad 13 m < zeroPad 13 m' ↔ m < m' := leftpad_lt_iff (by decide) hm hm'
  have hlt' : zeroPad 6 counter < zeroPad 6 counter' ↔ counter < counter' :=
    leftpad_lt_iff (by decide) (by omega) (by omega)
  rw [encode_lt_iff, encode_lt_iff, String.lt_iff_toList_lt, String.lt_iff_toList_lt, encodeHlc,
    encodeHlc, String.toList_ofList, String.toList_ofList, append_lt_append_iff hpad,
    List.cons_lt_cons_self, append_lt_append_iff hpad', List.cons_lt_cons_self, hlt, hlt',
    (zeroPad_injective 13).eq_iff, (zeroPad_injective 6).eq_iff, Int.ofNat_lt, Int.ofNat_inj,
    Int.ofNat_inj]

namespace HlcClock

variable {clock : HlcClock} {device : String} {nowMs : Int} {readings : List Int}

/-- What successive calls of `next` return. -/
def stamps (clock : HlcClock) (device : String) : List Int → List Hlc
  | [] => []
  | nowMs :: readings =>
      (clock.next nowMs device).1 :: stamps (clock.next nowMs device).2 device readings

/-- The milliseconds fit into thirteen digits, the counter into six. -/
def Shown (clock : HlcClock) : Prop :=
  (0 ≤ clock.lastMs ∧ clock.lastMs < 10 ^ 13) ∧ clock.InRange

def CarriesOut (clock : HlcClock) (nowMs : Int) : Prop :=
  nowMs ≤ clock.lastMs ∧ clock.lastMs = 10 ^ 13 - 1 ∧ clock.counter = 999999

instance (clock : HlcClock) (nowMs : Int) : Decidable (clock.CarriesOut nowMs) :=
  inferInstanceAs (Decidable (_ ∧ _))

def NeverCarriesOut (clock : HlcClock) : List Int → Prop
  | [] => True
  | nowMs :: readings =>
      ¬ clock.CarriesOut nowMs ∧ NeverCarriesOut (clock.tick nowMs) readings

instance decidableNeverCarriesOut : (clock : HlcClock) → (readings : List Int) →
    Decidable (clock.NeverCarriesOut readings)
  | _, [] => .isTrue trivial
  | clock, nowMs :: readings =>
      have := decidableNeverCarriesOut (clock.tick nowMs) readings
      inferInstanceAs (Decidable (_ ∧ _))

theorem Shown.tick (h : clock.Shown) (hnow : nowMs < 10 ^ 13) (hcarry : ¬ clock.CarriesOut nowMs) :
    (clock.tick nowMs).Shown := by
  obtain ⟨⟨hpos, hlt⟩, hcounter⟩ := h
  refine ⟨?_, clock.tick_inRange nowMs⟩
  unfold CarriesOut at hcarry
  unfold InRange at hcounter
  unfold HlcClock.tick
  split_ifs
  · dsimp only
    omega
  · dsimp only
    omega
  · exact ⟨hpos, hlt⟩

theorem Before.stamp_lt {other : HlcClock} (h : clock.Before other) (hclock : clock.Shown)
    (hother : other.Shown) : encode (clock.stamp device) < encode (other.stamp device) := by
  unfold stamp
  rw [encodeHlc_lt_iff hclock.1 hother.1 hclock.2 hother.2]
  unfold Before at h
  tauto

theorem mem_stamps (hclock : clock.Shown) (hreadings : ∀ nowMs ∈ readings, nowMs < 10 ^ 13)
    (h : clock.NeverCarriesOut readings) {hlc : Hlc} (hmem : hlc ∈ clock.stamps device readings) :
    ∃ other : HlcClock, clock.Before other ∧ other.Shown ∧ hlc = other.stamp device := by
  induction readings generalizing clock with
  | nil => cases hmem
  | cons nowMs readings ih =>
      rw [List.forall_mem_cons] at hreadings
      have hnext := hclock.tick hreadings.1 h.1
      obtain rfl | hmem := List.mem_cons.mp hmem
      · exact ⟨clock.tick nowMs, clock.before_tick nowMs, hnext, rfl⟩
      · obtain ⟨other, hbefore, hother⟩ := ih hnext hreadings.2 h.2 hmem
        exact ⟨other, (clock.before_tick nowMs).trans hbefore, hother⟩

theorem pairwise_stamps (hclock : clock.Shown) (hreadings : ∀ nowMs ∈ readings, nowMs < 10 ^ 13)
    (h : clock.NeverCarriesOut readings) :
    (clock.stamps device readings).Pairwise fun a b => encode a < encode b := by
  induction readings generalizing clock with
  | nil => exact .nil
  | cons nowMs readings ih =>
      rw [List.forall_mem_cons] at hreadings
      have hnext := hclock.tick hreadings.1 h.1
      refine .cons (fun hlc hmem => ?_) (ih hnext hreadings.2 h.2)
      obtain ⟨other, hbefore, hother, rfl⟩ := mem_stamps hnext hreadings.2 h.2 hmem
      exact hbefore.stamp_lt hnext hother

theorem CarriesOut.not_lt (h : clock.CarriesOut nowMs) :
    ¬ encode (clock.stamp device) < encode ((clock.tick nowMs).stamp device) := by
  obtain ⟨hnow, hms, hcounter⟩ := h
  have htick : clock.tick nowMs = { lastMs := 10 ^ 13, counter := 0 } := by
    unfold HlcClock.tick
    rw [if_neg (by omega), if_pos (by omega), hms]
    rfl
  rw [encode_lt_iff, String.lt_iff_toList_lt, htick, stamp, stamp, encodeHlc, encodeHlc,
    String.toList_ofList, String.toList_ofList, hms, hcounter]
  have hlast : zeroPad 13 (10 ^ 13 - 1) = '9' :: "999999999999".toList := by decide +kernel
  have hcarried : zeroPad 13 (10 ^ 13) = '1' :: "0000000000000".toList := by decide +kernel
  rw [hlast, hcarried, List.cons_append, List.cons_append, List.cons_lt_cons_iff, not_or]
  exact ⟨by decide, fun heq => absurd heq.1 (by decide)⟩

theorem neverCarriesOut_of_pairwise (hclock : clock.Shown)
    (hreadings : ∀ nowMs ∈ readings, nowMs < 10 ^ 13)
    (h : (clock.stamp device :: clock.stamps device readings).Pairwise fun a b =>
      encode a < encode b) : clock.NeverCarriesOut readings := by
  induction readings generalizing clock with
  | nil => trivial
  | cons nowMs readings ih =>
      rw [List.forall_mem_cons] at hreadings
      obtain ⟨hfirst, hrest⟩ := List.pairwise_cons.mp h
      have hcarry : ¬ clock.CarriesOut nowMs := by
        intro hcarry
        exact hcarry.not_lt (hfirst _ List.mem_cons_self)
      exact ⟨hcarry, ih (hclock.tick hreadings.1 hcarry) hreadings.2 hrest⟩

theorem initial_shown : initial.Shown := by
  unfold Shown initial InRange
  decide

theorem pairwise_stamps_iff (hreadings : ∀ nowMs ∈ readings, nowMs < 10 ^ 13) :
    ((initial.stamps device readings).Pairwise fun a b => encode a < encode b) ↔
      initial.NeverCarriesOut readings := by
  refine ⟨fun h => ?_, pairwise_stamps initial_shown hreadings⟩
  cases readings with
  | nil => trivial
  | cons nowMs readings =>
      rw [List.forall_mem_cons] at hreadings
      have hcarry : ¬ initial.CarriesOut nowMs := fun hcarry => absurd hcarry.2.2 (by decide)
      exact ⟨hcarry,
        neverCarriesOut_of_pairwise (initial_shown.tick hreadings.1 hcarry) hreadings.2 h⟩

theorem not_neverCarriesOut_replicate {counter calls : Nat} (hcounter : counter ≤ 999999)
    (h : 999999 < counter + calls) :
    ¬ (HlcClock.mk (10 ^ 13 - 1) counter).NeverCarriesOut (.replicate calls (10 ^ 13 - 1)) := by
  induction calls generalizing counter with
  | zero => omega
  | succ calls ih =>
      rintro ⟨hcarry, hrest⟩
      have hless : counter < 999999 := by
        by_contra hfull
        exact hcarry ⟨le_refl _, rfl, by dsimp only; omega⟩
      have htick : (HlcClock.mk (10 ^ 13 - 1) counter).tick (10 ^ 13 - 1) =
          ⟨10 ^ 13 - 1, counter + 1⟩ := by
        unfold HlcClock.tick
        dsimp only
        rw [if_neg (lt_irrefl _), if_neg (by omega)]
      rw [htick] at hrest
      exact ih (by omega) (by omega) hrest

end HlcClock

/-- **The order of stamps.** The stamps of one clock strictly increase, byte by byte, in exactly the
runs in which no call carries into a fourteenth digit; any two stamps that show thirteen and six
digits are ordered like their milliseconds, counters and devices. -/
theorem stamps_increase_iff (device : String) (readings : List Int)
    (h : ∀ nowMs ∈ readings, nowMs < 10 ^ 13) :
    (((HlcClock.initial.stamps device readings).Pairwise fun a b => encode a < encode b) ↔
      HlcClock.initial.NeverCarriesOut readings) ∧
    ∀ (left right : HlcClock) (device device' : String), left.Shown → right.Shown →
      (encode (left.stamp device) < encode (right.stamp device') ↔
        left.lastMs < right.lastMs ∨ left.lastMs = right.lastMs ∧ (left.counter < right.counter ∨
          left.counter = right.counter ∧ encode device < encode device')) :=
  ⟨HlcClock.pairwise_stamps_iff h, fun _ _ _ _ hleft hright =>
    encodeHlc_lt_iff hleft.1 hright.1 hleft.2 hright.2⟩

theorem stamps_increase_backwards :
    (HlcClock.initial.stamps "d" [5, 5, 3]).Pairwise fun a b => encode a < encode b :=
  (stamps_increase_iff "d" [5, 5, 3] (by decide)).1.mpr (by decide)

/-- A million and one calls in the last millisecond. -/
theorem last_millisecond_overflows :
    ¬ ∀ (device : String) (readings : List Int), (∀ nowMs ∈ readings, nowMs < 10 ^ 13) →
      (HlcClock.initial.stamps device readings).Pairwise fun a b => encode a < encode b := by
  intro hall
  have hreadings : ∀ nowMs ∈ List.replicate 1000001 ((10 : Int) ^ 13 - 1), nowMs < 10 ^ 13 := by
    intro nowMs hnow
    rw [List.eq_of_mem_replicate hnow]
    omega
  obtain ⟨-, hrest⟩ := (HlcClock.pairwise_stamps_iff hreadings).mp (hall "d" _ hreadings)
  exact HlcClock.not_neverCarriesOut_replicate (Nat.zero_le _) (by decide) hrest

end Zeron.Registry
