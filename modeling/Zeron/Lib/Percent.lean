import Mathlib.Data.List.Basic
import Zeron.Lib.Utf8

/-!
# Percent-encoding

Bytes as text: some stand for themselves, the others are written as a percent sign and two
hexadecimal digits.
-/

namespace Zeron.Lib.Percent

open Zeron.Lib.Utf8 (encodeChar)

def hexDigit (n : Nat) : Char := if n < 10 then .ofNat (48 + n) else .ofNat (55 + n)

def encodeByte (keep : UInt8 → Bool) (byte : UInt8) : List Char :=
  if keep byte then [.ofNat byte.toNat]
  else ['%', hexDigit (byte.toNat / 16), hexDigit (byte.toNat % 16)]

def encode (keep : UInt8 → Bool) (bytes : Bytes) : List Char := bytes.flatMap (encodeByte keep)

/-- `char::to_digit` in base 16. -/
def hexValue (byte : UInt8) : Option Nat :=
  let n := byte.toNat
  if 48 ≤ n ∧ n ≤ 57 then some (n - 48)
  else if 65 ≤ n ∧ n ≤ 70 then some (n - 55)
  else if 97 ≤ n ∧ n ≤ 102 then some (n - 87)
  else none

/-- `u8::from_str_radix` of two characters in base 16, which reads a sign in front. -/
def hexPair (high low : UInt8) : Option UInt8 :=
  if high = 43 then (hexValue low).map .ofNat
  else (hexValue high).bind fun h => (hexValue low).map fun l => .ofNat (16 * h + l)

/-- `none` where a percent sign stands without its digits. -/
def decode : Bytes → Option Bytes
  | [] => some []
  | byte :: bytes =>
      if byte = 37 then
        match bytes with
        | high :: low :: rest =>
            (hexPair high low).bind fun value => (decode rest).map (value :: ·)
        | _ => none
      else (decode bytes).map (byte :: ·)

theorem encodeChar_ascii (n : Nat) (h : n < 0x80) : encodeChar (.ofNat n) = [.ofNat n] := by
  have hvalue : (Char.ofNat n).toNat = n := by
    unfold Char.ofNat
    rw [dif_pos (.inl (by omega))]
    exact rfl
  rw [encodeChar, hvalue, if_pos h]

theorem encodeChar_hexDigit {n : Nat} (h : n < 16) :
    encodeChar (hexDigit n) = [.ofNat (if n < 10 then 48 + n else 55 + n)] := by
  unfold hexDigit
  split_ifs <;> exact encodeChar_ascii _ (by omega)

theorem hexValue_digit : ∀ n < 16, hexValue (.ofNat (if n < 10 then 48 + n else 55 + n)) = some n ∧
    UInt8.ofNat (if n < 10 then 48 + n else 55 + n) ≠ 43 := by
  decide

theorem hexPair_hexDigits (n : Nat) (h : n < 256) : hexPair
    (.ofNat (if n / 16 < 10 then 48 + n / 16 else 55 + n / 16))
    (.ofNat (if n % 16 < 10 then 48 + n % 16 else 55 + n % 16)) = some (.ofNat n) := by
  obtain ⟨hhigh, hsign⟩ := hexValue_digit (n / 16) (by omega)
  obtain ⟨hlow, -⟩ := hexValue_digit (n % 16) (Nat.mod_lt _ (by omega))
  rw [hexPair, if_neg hsign, hhigh, hlow]
  exact congrArg (fun n => some (UInt8.ofNat n)) (Nat.div_add_mod n 16)

/-- Bytes are read back; those that stand for themselves are ASCII, and no percent sign. -/
theorem decode_encode {keep : UInt8 → Bool} (hkeep : ∀ byte, keep byte = true → byte.toNat < 0x80)
    (hpercent : keep 37 = false) (bytes : Bytes) :
    decode ((encode keep bytes).flatMap encodeChar) = some bytes := by
  induction bytes with
  | nil => rfl
  | cons byte bytes ih =>
      have hbyte := byte.toNat_lt
      rw [encode, List.flatMap_cons, List.flatMap_append, ← encode, encodeByte]
      split_ifs with hkept
      · have hne : byte ≠ 37 := by
          rintro rfl
          rw [hpercent] at hkept
          cases hkept
        rw [List.flatMap_singleton, encodeChar_ascii _ (hkeep byte hkept), UInt8.ofNat_toNat,
          List.singleton_append]
        unfold decode
        rw [if_neg hne, ih]
        rfl
      · have hpair := hexPair_hexDigits byte.toNat hbyte
        have hsign : encodeChar '%' = [37] := by decide
        rw [List.flatMap_cons, List.flatMap_cons, List.flatMap_cons,
          encodeChar_hexDigit (by omega), encodeChar_hexDigit (by omega), hsign]
        simp only [List.cons_append, List.nil_append, List.flatMap_nil]
        rw [decode, if_pos rfl]
        simp only [hpair, ih, UInt8.ofNat_toNat]
        rfl

end Zeron.Lib.Percent
