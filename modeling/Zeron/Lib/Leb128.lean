import Mathlib.Algebra.Order.Ring.Nat
import Mathlib.Tactic.Ring
import Zeron.Lib.Utf8

/-!
# Unsigned LEB128

Numbers in groups of seven bits, least significant first; every byte but the last has its top bit
set. The reader stops with an error at the end of the input, and after a given number of bytes.
-/

namespace Zeron.Lib.Leb128

def uleb128 (n : Nat) : Bytes :=
  if h : n < 128 then [.ofNat n] else .ofNat (128 + n % 128) :: uleb128 (n / 128)
termination_by n
decreasing_by omega

inductive ReadError where
  | truncated
  | overflow
  deriving DecidableEq

/-- Reads at most `budget` bytes; `scale` is the weight of the next group. -/
def read : (budget scale acc : Nat) → Bytes → Except ReadError (Nat × Bytes)
  | _, _, _, [] => .error .truncated
  | 0, _, _, _ :: _ => .error .overflow
  | budget + 1, scale, acc, byte :: bytes =>
      let acc := acc + byte.toNat % 128 * scale
      if byte.toNat < 128 then .ok (acc, bytes) else read budget (scale * 128) acc bytes

theorem uleb128_of_lt {n : Nat} (h : n < 128) : uleb128 n = [.ofNat n] := by
  rw [uleb128, dif_pos h]

theorem uleb128_of_le {n : Nat} (h : 128 ≤ n) :
    uleb128 n = .ofNat (128 + n % 128) :: uleb128 (n / 128) := by
  rw [uleb128, dif_neg (by omega)]

theorem uleb128_ne_nil (n : Nat) : uleb128 n ≠ [] := by
  rw [uleb128]
  split <;> simp

/-- A number that fits the budget is read back, and only such a number. -/
theorem read_uleb128 (n budget scale acc : Nat) (rest : Bytes) (hbudget : 0 < budget) :
    read budget scale acc (uleb128 n ++ rest) =
      if n < 128 ^ budget then .ok (acc + n * scale, rest) else .error .overflow := by
  induction n using Nat.strong_induction_on generalizing budget scale acc with
  | _ n ih =>
      obtain ⟨budget, rfl⟩ : ∃ b, budget = b + 1 := ⟨budget - 1, by omega⟩
      have hpow : 128 ^ (budget + 1) = 128 ^ budget * 128 := pow_succ 128 budget
      have hpos : 0 < 128 ^ budget := Nat.pow_pos (by decide)
      by_cases hn : n < 128
      · rw [uleb128_of_lt hn, List.singleton_append, read, Utf8.toNat_ofNat (by omega),
          if_pos hn, if_pos (by omega), Nat.mod_eq_of_lt hn]
      · rw [uleb128_of_le (by omega), List.cons_append, read, Utf8.toNat_ofNat (by omega),
          if_neg (by omega), Nat.add_mod_left, Nat.mod_mod]
        cases budget with
        | zero =>
            rw [if_neg (by omega)]
            cases hrest : uleb128 (n / 128) ++ rest with
            | nil => exact absurd (List.append_eq_nil_iff.mp hrest).1 (uleb128_ne_nil _)
            | cons byte bytes => rfl
        | succ budget =>
            rw [ih (n / 128) (by omega) (budget + 1) _ _ (by omega)]
            have hiff : n / 128 < 128 ^ (budget + 1) ↔ n < 128 ^ (budget + 2) := by
              rw [Nat.div_lt_iff_lt_mul (by decide), ← hpow]
            have hvalue : acc + n % 128 * scale + n / 128 * (scale * 128) = acc + n * scale := by
              conv_rhs => rw [← Nat.mod_add_div n 128]
              ring
            simp only [hiff, hvalue]

/-- A proper part of a number is refused. -/
theorem read_take_uleb128 (n budget scale acc i : Nat) (hi : i < (uleb128 n).length) :
    ∃ err, read budget scale acc ((uleb128 n).take i) = .error err := by
  induction n using Nat.strong_induction_on generalizing budget scale acc i with
  | _ n ih =>
      cases i with
      | zero => exact ⟨.truncated, by simp [read]⟩
      | succ i =>
          by_cases hn : n < 128
          · rw [uleb128_of_lt hn, List.length_singleton] at hi
            omega
          · rw [uleb128_of_le (by omega)] at hi ⊢
            rw [List.take_succ_cons]
            cases budget with
            | zero => exact ⟨.overflow, rfl⟩
            | succ budget =>
                rw [read, Utf8.toNat_ofNat (by omega), if_neg (by omega)]
                exact ih (n / 128) (by omega) _ _ _ _ (by simpa using hi)

end Zeron.Lib.Leb128
