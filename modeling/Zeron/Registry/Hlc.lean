import Mathlib.Data.String.Basic
import Mathlib.Tactic.Ring
import Mathlib.Order.RelClasses
import Zeron.Lib.Digits

/-!
# Hybrid logical clocks

The source writes a clock as the string `{ms:013}-{counter:06}-{device}`. Padding only widens, so a
stamp determines its milliseconds and its counter whatever their size; the batch ids of one device
are told apart by this alone.
-/

namespace Zeron.Registry

open Zeron.Lib.Digits

/-- A clock, compared as the string it is. -/
abbrev Hlc := String

/-- A number under the format directive `{:0width}`: the sign counts into the width. -/
def zeroPad (width : Nat) : Int → List Char
  | .ofNat n => (Nat.toDigits 10 n).leftpad width '0'
  | .negSucc n => '-' :: (Nat.toDigits 10 (n + 1)).leftpad (width - 1) '0'

def encodeHlc (ms : Int) (counter : Nat) (device : String) : Hlc :=
  String.ofList (zeroPad 13 ms ++ '-' :: (zeroPad 6 counter ++ '-' :: device.toList))

/-- `a` is strictly newer than `b`; a clock never written loses to any. -/
def hlcNewer (a : Hlc) : Option Hlc → Bool
  | none => true
  | some b => decide (b < a)

@[simp]
theorem hlcNewer_none (a : Hlc) : hlcNewer a none = true := rfl

@[simp]
theorem hlcNewer_some {a b : Hlc} : hlcNewer a (some b) = true ↔ b < a := by
  simp [hlcNewer]

structure HlcClock where
  lastMs : Int
  counter : Nat
  deriving DecidableEq

namespace HlcClock

def initial : HlcClock := { lastMs := 0, counter := 0 }

/-- The clock after a tick at wall time `nowMs`. -/
def tick (clock : HlcClock) (nowMs : Int) : HlcClock :=
  if clock.lastMs < nowMs then
    { lastMs := nowMs, counter := 0 }
  else if 999999 < clock.counter + 1 then
    { lastMs := clock.lastMs + 1, counter := 0 }
  else
    { clock with counter := clock.counter + 1 }

def stamp (clock : HlcClock) (device : String) : Hlc :=
  encodeHlc clock.lastMs clock.counter device

def next (clock : HlcClock) (nowMs : Int) (device : String) : Hlc × HlcClock :=
  ((clock.tick nowMs).stamp device, clock.tick nowMs)

/-- `HlcClock::next` resets the counter before it needs a seventh digit. -/
def InRange (clock : HlcClock) : Prop := clock.counter ≤ 999999

/-- The order in which one clock emits its stamps. -/
def Before (left right : HlcClock) : Prop :=
  left.lastMs < right.lastMs ∨ left.lastMs = right.lastMs ∧ left.counter < right.counter

theorem initial_inRange : initial.InRange := by
  simp [initial, InRange]

theorem tick_inRange (clock : HlcClock) (nowMs : Int) : (clock.tick nowMs).InRange := by
  unfold tick InRange
  split
  · simp
  · split <;> simp
    omega

theorem before_tick (clock : HlcClock) (nowMs : Int) : clock.Before (clock.tick nowMs) := by
  unfold tick Before
  split
  · left
    assumption
  · split
    · left
      simp
    · right
      simp

theorem Before.trans {a b c : HlcClock} (hab : a.Before b) (hbc : b.Before c) : a.Before c := by
  unfold Before at *
  omega

theorem Before.irrefl {a : HlcClock} : ¬ a.Before a := by
  unfold Before
  omega

end HlcClock

section Digits

theorem length_zeroPad_counter {counter : Nat} (h : counter ≤ 999999) :
    (zeroPad 6 counter).length = 6 := by
  have hdigits : (Nat.toDigits 10 counter).length ≤ 6 :=
    (Nat.length_toDigits_le_iff (by decide) (by decide)).mpr (by omega)
  change ((Nat.toDigits 10 counter).leftpad 6 '0').length = 6
  rw [List.leftpad, List.length_append, List.length_replicate]
  omega

theorem zeroPad_injective (width : Nat) : Function.Injective (zeroPad width) := by
  have hdash : ∀ n : Nat, '-' ∉ (Nat.toDigits 10 n).leftpad width '0' := by
    intro n hmem
    exact absurd (leftpad_isDigit hmem) (by decide)
  intro left right h
  match left, right with
  | .ofNat m, .ofNat n =>
      have hvalue := congrArg (fun cs => Nat.ofDigitChars 10 cs 0) h
      simp only [zeroPad, ofDigitChars_leftpad] at hvalue
      rw [hvalue]
  | .negSucc m, .negSucc n =>
      simp only [zeroPad, List.cons.injEq, true_and] at h
      have hvalue := congrArg (fun cs => Nat.ofDigitChars 10 cs 0) h
      simp only [ofDigitChars_leftpad] at hvalue
      rw [Nat.succ.inj hvalue]
  | .ofNat m, .negSucc n =>
      refine absurd ?_ (hdash m)
      change '-' ∈ zeroPad width (Int.ofNat m)
      rw [h]
      exact List.mem_cons_self
  | .negSucc m, .ofNat n =>
      refine absurd ?_ (hdash n)
      change '-' ∈ zeroPad width (Int.ofNat n)
      rw [← h]
      exact List.mem_cons_self

end Digits

theorem HlcClock.stamp_injective {left right : HlcClock} {device : String}
    (hleft : left.InRange) (hright : right.InRange)
    (h : left.stamp device = right.stamp device) : left = right := by
  have hchars := String.ofList_injective h
  have hlen : ('-' :: (zeroPad 6 left.counter ++ '-' :: device.toList)).length =
      ('-' :: (zeroPad 6 right.counter ++ '-' :: device.toList)).length := by
    simp only [List.length_cons, List.length_append, length_zeroPad_counter hleft,
      length_zeroPad_counter hright]
  obtain ⟨hms, hrest⟩ := List.append_inj' hchars hlen
  obtain ⟨hcounter, -⟩ := List.append_inj (List.cons.inj hrest).2
    (by rw [length_zeroPad_counter hleft, length_zeroPad_counter hright])
  have hms' := zeroPad_injective 13 hms
  have hcounter' := Int.ofNat_inj.mp (zeroPad_injective 6 hcounter)
  cases left
  cases right
  simp_all

theorem HlcClock.stamp_ne_of_before {left right : HlcClock} {device : String}
    (hleft : left.InRange) (hright : right.InRange) (h : left.Before right) :
    left.stamp device ≠ right.stamp device := by
  intro heq
  rw [stamp_injective hleft hright heq] at h
  exact Before.irrefl h

end Zeron.Registry
