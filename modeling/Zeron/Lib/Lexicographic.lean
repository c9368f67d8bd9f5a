import Mathlib.Data.String.Basic
import Mathlib.Tactic.GCongr
import Mathlib.Tactic.Ring
import Zeron.Lib.Digits
import Zeron.Lib.Utf8

/-!
# Orders that an encoding keeps

Where the codes of two symbols differ before either ends, the order of the symbols is the order of the
codes, whatever follows, and with it the order of texts is that of their encodings. UTF-8 is of this
kind. Numbers of one width are ordered like their digits.
-/

namespace Zeron.Lib.Lexicographic

open Zeron.Lib.Digits
open Zeron.Lib.Utf8

section Lists

variable {α β : Type*} [LT α] [LT β]

theorem append_lt_append_iff [Std.Irrefl fun x y : α => x < y] {front front' : List α}
    (h : front.length = front'.length) (back back' : List α) :
    front ++ back < front' ++ back' ↔ front < front' ∨ front = front' ∧ back < back' := by
  induction front generalizing front' with
  | nil =>
      obtain rfl : front' = [] := List.length_eq_zero_iff.mp h.symm
      simp
  | cons a front ih =>
      obtain ⟨b, front', rfl⟩ := List.exists_cons_of_length_pos (l := front') (by simp [← h])
      have hlength : front.length = front'.length := by simpa using h
      rw [List.cons_append, List.cons_append, List.cons_lt_cons_iff, List.cons_lt_cons_iff,
        ih hlength, List.cons.injEq]
      tauto

theorem flatMap_lt {encode : α → List β} (hne : ∀ a, encode a ≠ [])
    (hlt : ∀ a b, a < b → ∀ rest rest', encode a ++ rest < encode b ++ rest') {xs ys : List α}
    (h : xs < ys) : xs.flatMap encode < ys.flatMap encode := by
  induction h with
  | nil =>
      rename_i b ys
      obtain ⟨byte, bytes, hb⟩ := List.exists_cons_of_ne_nil (hne b)
      rw [List.flatMap_nil, List.flatMap_cons, hb]
      exact List.nil_lt_cons _ _
  | cons _ ih =>
      rw [List.flatMap_cons, List.flatMap_cons]
      exact List.append_left_lt ih
  | rel hab => exact hlt _ _ hab _ _

end Lists

section Utf8

theorem ofNat_lt {m n : Nat} (hm : m < 256) (hn : n < 256) :
    UInt8.ofNat m < UInt8.ofNat n ↔ m < n := by
  rw [UInt8.lt_iff_toNat_lt, toNat_ofNat hm, toNat_ofNat hn]

theorem ofNat_eq {m n : Nat} (hm : m < 256) (hn : n < 256) :
    UInt8.ofNat m = UInt8.ofNat n ↔ m = n := by
  rw [← UInt8.toNat_inj, toNat_ofNat hm, toNat_ofNat hn]

/-- The first byte at which two characters differ orders them. -/
theorem encodeChar_lt {c d : Char} (h : c < d) (rest rest' : Bytes) :
    encodeChar c ++ rest < encodeChar d ++ rest' := by
  have hlt : c.toNat < d.toNat := UInt32.lt_iff_toNat_lt.mp (Char.lt_def.mp h)
  obtain ⟨hc, -⟩ := toNat_le c
  obtain ⟨hd, -⟩ := toNat_le d
  unfold encodeChar
  split_ifs <;>
    simp (disch := omega) only [List.cons_append, List.nil_append, List.cons_lt_cons_iff, ofNat_lt,
      ofNat_eq] <;>
    omega

theorem encode_lt_iff {s t : String} : encode s < encode t ↔ s < t := by
  have hmono {s t : String} (h : s < t) : encode s < encode t := by
    refine flatMap_lt (fun c => ?_) (fun _ _ => encodeChar_lt) (String.lt_iff_toList_lt.mp h)
    unfold encodeChar
    split_ifs <;> simp
  constructor
  · intro h
    obtain hlt | rfl | hgt := lt_trichotomy s t
    · exact hlt
    · exact absurd h (List.lt_irrefl _)
    · exact absurd h (List.lt_asymm (hmono hgt))
  · exact hmono

end Utf8

section Digits

theorem digit_le {c : Char} (h : c.isDigit = true) : c.toNat - '0'.toNat ≤ 9 := by
  simp only [Char.isDigit, Bool.and_eq_true, decide_eq_true_eq, UInt32.le_iff_toNat_le] at h
  change c.val.toNat - 48 ≤ 9
  have hle : c.val.toNat ≤ 57 := h.2
  omega

/-- Further digits refine a number. -/
theorem ofDigitChars_bounds {digits : List Char} (h : ∀ c ∈ digits, c.isDigit = true) (n : Nat) :
    n * 10 ^ digits.length ≤ Nat.ofDigitChars 10 digits n ∧
      Nat.ofDigitChars 10 digits n < (n + 1) * 10 ^ digits.length := by
  induction digits generalizing n with
  | nil => simp [Nat.ofDigitChars_nil]
  | cons c digits ih =>
      rw [List.forall_mem_cons] at h
      obtain ⟨hlow, hhigh⟩ := ih h.2 (10 * n + (c.toNat - '0'.toNat))
      have hdigit := digit_le h.1
      rw [Nat.ofDigitChars_cons, List.length_cons, pow_succ]
      constructor
      · calc
          n * (10 ^ digits.length * 10) = (10 * n) * 10 ^ digits.length := by ring
          _ ≤ (10 * n + (c.toNat - '0'.toNat)) * 10 ^ digits.length := by gcongr; omega
          _ ≤ _ := hlow
      · calc
          _ < (10 * n + (c.toNat - '0'.toNat) + 1) * 10 ^ digits.length := hhigh
          _ ≤ (10 * (n + 1)) * 10 ^ digits.length := by gcongr; omega
          _ = (n + 1) * (10 ^ digits.length * 10) := by ring

theorem ofDigitChars_lt {digits digits' : List Char} (hlt : digits < digits')
    (hlength : digits.length = digits'.length) (h : ∀ c ∈ digits, c.isDigit = true)
    (h' : ∀ c ∈ digits', c.isDigit = true) (n : Nat) :
    Nat.ofDigitChars 10 digits n < Nat.ofDigitChars 10 digits' n := by
  induction hlt generalizing n with
  | nil => cases hlength
  | cons _ ih =>
      rw [List.forall_mem_cons] at h h'
      rw [Nat.ofDigitChars_cons, Nat.ofDigitChars_cons]
      exact ih (by simpa using hlength) h.2 h'.2 _
  | @rel c digits d digits' hcd =>
      rw [List.forall_mem_cons] at h h'
      have hlength : digits.length = digits'.length := by simpa using hlength
      have hle : c.toNat - '0'.toNat + 1 ≤ d.toNat - '0'.toNat := by
        have hc := h.1
        simp only [Char.isDigit, Bool.and_eq_true, decide_eq_true_eq,
          UInt32.le_iff_toNat_le] at hc
        have hlow : 48 ≤ c.toNat := hc.1
        have hlt : c.toNat < d.toNat := UInt32.lt_iff_toNat_lt.mp (Char.lt_def.mp hcd)
        change c.toNat - 48 + 1 ≤ d.toNat - 48
        omega
      rw [Nat.ofDigitChars_cons, Nat.ofDigitChars_cons]
      calc
        _ < (10 * n + (c.toNat - '0'.toNat) + 1) * 10 ^ digits.length :=
          (ofDigitChars_bounds h.2 _).2
        _ ≤ (10 * n + (d.toNat - '0'.toNat)) * 10 ^ digits'.length := by
          rw [hlength, Nat.add_assoc]
          apply Nat.mul_le_mul_right
          exact Nat.add_le_add_left hle _
        _ ≤ _ := (ofDigitChars_bounds h'.2 _).1

theorem length_leftpad {width n : Nat} (h : n < 10 ^ width) (hwidth : 0 < width) :
    ((Nat.toDigits 10 n).leftpad width '0').length = width := by
  have hdigits := (Nat.length_toDigits_le_iff (by decide) hwidth).mpr h
  rw [List.leftpad, List.length_append, List.length_replicate]
  omega

/-- Numbers padded to one width are ordered like their digits. -/
theorem leftpad_lt_iff {width m n : Nat} (hwidth : 0 < width) (hm : m < 10 ^ width)
    (hn : n < 10 ^ width) :
    (Nat.toDigits 10 m).leftpad width '0' < (Nat.toDigits 10 n).leftpad width '0' ↔ m < n := by
  have hmono {m n : Nat} (hm : m < 10 ^ width) (hn : n < 10 ^ width)
      (h : (Nat.toDigits 10 m).leftpad width '0' < (Nat.toDigits 10 n).leftpad width '0') :
      m < n := by
    have hvalue := ofDigitChars_lt h
      (by rw [length_leftpad hm hwidth, length_leftpad hn hwidth])
      (fun _ => leftpad_isDigit) (fun _ => leftpad_isDigit) 0
    rwa [ofDigitChars_leftpad, ofDigitChars_leftpad] at hvalue
  refine ⟨hmono hm hn, fun h => ?_⟩
  obtain hlt | heq | hgt := lt_trichotomy ((Nat.toDigits 10 m).leftpad width '0')
    ((Nat.toDigits 10 n).leftpad width '0')
  · exact hlt
  · have hvalue := congrArg (fun digits => Nat.ofDigitChars 10 digits 0) heq
    simp only [ofDigitChars_leftpad] at hvalue
    exact absurd hvalue (Nat.ne_of_lt h)
  · exact absurd (hmono hn hm hgt) (Nat.lt_asymm h)

end Digits

end Zeron.Lib.Lexicographic
