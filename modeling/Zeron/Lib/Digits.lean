import Mathlib.Algebra.Ring.Nat

/-!
# Padded decimal numbers

Zeros in front of a number change neither its value nor that it consists of digits.
-/

namespace Zeron.Lib.Digits

theorem toDigits_isDigit {n : Nat} {c : Char} (h : c ∈ Nat.toDigits 10 n) : c.isDigit = true :=
  Nat.isDigit_of_mem_toDigits (by omega) (by omega) h

theorem ofDigitChars_leftpad (width n : Nat) :
    Nat.ofDigitChars 10 ((Nat.toDigits 10 n).leftpad width '0') 0 = n := by
  rw [List.leftpad, Nat.ofDigitChars_append, Nat.ofDigitChars_replicate_zero, mul_zero,
    Nat.ofDigitChars_ten_toDigits]

theorem leftpad_isDigit {width n : Nat} {c : Char}
    (h : c ∈ (Nat.toDigits 10 n).leftpad width '0') : c.isDigit = true := by
  rw [List.leftpad, List.mem_append] at h
  obtain h | h := h
  · rw [List.eq_of_mem_replicate h]
    rfl
  · exact toDigits_isDigit h

end Zeron.Lib.Digits
