import Mathlib.Data.List.Basic

/-!
# JSON strings

The form in which JSON writers put strings, with a backslash before quotes, backslashes and control
characters, and a reader of that form.
-/

namespace Zeron.Lib.JsonString

def hexDigit (n : Nat) : Char := if n < 10 then .ofNat (48 + n) else .ofNat (87 + n)

def escapeChar (c : Char) : List Char :=
  if c = '"' then ['\\', '"']
  else if c = '\\' then ['\\', '\\']
  else if c = '\n' then ['\\', 'n']
  else if c = '\r' then ['\\', 'r']
  else if c = '\t' then ['\\', 't']
  else if c.toNat = 8 then ['\\', 'b']
  else if c.toNat = 12 then ['\\', 'f']
  else if c.toNat < 0x20 then
    ['\\', 'u', '0', '0', hexDigit (c.toNat / 16), hexDigit (c.toNat % 16)]
  else [c]

def escape (cs : List Char) : List Char := cs.flatMap escapeChar

def quote (cs : List Char) : List Char := '"' :: (escape cs ++ ['"'])

def hexValue (c : Char) : Nat := if c.toNat < 58 then c.toNat - 48 else c.toNat - 87

/-- Reads to the closing quote, with the rest behind it. -/
def readString : List Char → Option (List Char × List Char)
  | [] => none
  | '"' :: rest => some ([], rest)
  | '\\' :: 'u' :: '0' :: '0' :: high :: low :: rest =>
      (readString rest).map fun (cs, rest) =>
        (.ofNat (hexValue high * 16 + hexValue low) :: cs, rest)
  | '\\' :: 'n' :: rest => (readString rest).map fun (cs, rest) => ('\n' :: cs, rest)
  | '\\' :: 'r' :: rest => (readString rest).map fun (cs, rest) => ('\r' :: cs, rest)
  | '\\' :: 't' :: rest => (readString rest).map fun (cs, rest) => ('\t' :: cs, rest)
  | '\\' :: 'b' :: rest => (readString rest).map fun (cs, rest) => (.ofNat 8 :: cs, rest)
  | '\\' :: 'f' :: rest => (readString rest).map fun (cs, rest) => (.ofNat 12 :: cs, rest)
  | '\\' :: c :: rest => (readString rest).map fun (cs, rest) => (c :: cs, rest)
  | c :: rest => (readString rest).map fun (cs, rest) => (c :: cs, rest)

theorem hexValue_hexDigit : ∀ n < 16, hexValue (hexDigit n) = n := by decide

theorem readString_cons {c : Char} (hquote : c ≠ '"') (hslash : c ≠ '\\') (rest : List Char) :
    readString (c :: rest) = (readString rest).map fun (cs, rest) => (c :: cs, rest) := by
  rw [readString.eq_def]
  split <;> simp_all

/-- A character is written as a named escape, by its number, or as itself. -/
theorem escapeChar_cases (c : Char) :
    (∃ d : Char, 0x20 ≤ d.toNat ∧ escapeChar c = ['\\', d] ∧ ∀ rest : List Char,
      readString ('\\' :: d :: rest) = (readString rest).map fun (cs, rest) => (c :: cs, rest)) ∨
    (c.toNat < 0x20 ∧ escapeChar c =
      ['\\', 'u', '0', '0', hexDigit (c.toNat / 16), hexDigit (c.toNat % 16)]) ∨
    (0x20 ≤ c.toNat ∧ c ≠ '"' ∧ c ≠ '\\' ∧ escapeChar c = [c]) := by
  unfold escapeChar
  by_cases hquote : c = '"'
  · subst hquote
    exact .inl ⟨'"', by decide, rfl, fun _ => rfl⟩
  rw [if_neg hquote]
  by_cases hslash : c = '\\'
  · subst hslash
    exact .inl ⟨'\\', by decide, rfl, fun _ => rfl⟩
  rw [if_neg hslash]
  by_cases hn : c = '\n'
  · subst hn
    exact .inl ⟨'n', by decide, rfl, fun _ => rfl⟩
  rw [if_neg hn]
  by_cases hr : c = '\r'
  · subst hr
    exact .inl ⟨'r', by decide, rfl, fun _ => rfl⟩
  rw [if_neg hr]
  by_cases ht : c = '\t'
  · subst ht
    exact .inl ⟨'t', by decide, rfl, fun _ => rfl⟩
  rw [if_neg ht]
  by_cases hb : c.toNat = 8
  · obtain rfl : Char.ofNat 8 = c := by rw [← hb, Char.ofNat_toNat]
    exact .inl ⟨'b', by decide, rfl, fun _ => rfl⟩
  rw [if_neg hb]
  by_cases hf : c.toNat = 12
  · obtain rfl : Char.ofNat 12 = c := by rw [← hf, Char.ofNat_toNat]
    exact .inl ⟨'f', by decide, rfl, fun _ => rfl⟩
  rw [if_neg hf]
  by_cases hlow : c.toNat < 0x20
  · exact .inr (.inl ⟨hlow, if_pos hlow⟩)
  · exact .inr (.inr ⟨Nat.le_of_not_lt hlow, hquote, hslash, if_neg hlow⟩)

theorem readString_escapeChar (c : Char) (rest : List Char) :
    readString (escapeChar c ++ rest) =
      (readString rest).map fun (cs, rest) => (c :: cs, rest) := by
  obtain ⟨d, -, heq, hread⟩ | ⟨hlow, heq⟩ | ⟨-, hquote, hslash, heq⟩ := escapeChar_cases c
  · rw [heq]
    exact hread rest
  · have hvalue : hexValue (hexDigit (c.toNat / 16)) * 16 + hexValue (hexDigit (c.toNat % 16)) =
        c.toNat := by
      rw [hexValue_hexDigit _ (by omega), hexValue_hexDigit _ (by omega)]
      omega
    rw [heq]
    change (readString rest).map _ = _
    rw [hvalue, Char.ofNat_toNat]
  · rw [heq]
    exact readString_cons hquote hslash rest

theorem readString_escape (cs rest : List Char) :
    readString (escape cs ++ '"' :: rest) = some (cs, rest) := by
  induction cs with
  | nil => rfl
  | cons c cs ih =>
      rw [escape, List.flatMap_cons, List.append_assoc, readString_escapeChar]
      change (readString (escape cs ++ '"' :: rest)).map _ = _
      rw [ih]
      rfl

theorem length_le_length_escape (cs : List Char) : cs.length ≤ (escape cs).length := by
  induction cs with
  | nil => exact Nat.le_refl _
  | cons c cs ih =>
      have hchar : 1 ≤ (escapeChar c).length := by
        obtain ⟨d, -, heq, -⟩ | ⟨-, heq⟩ | ⟨-, -, -, heq⟩ := escapeChar_cases c <;>
          simp [heq]
      rw [escape, List.flatMap_cons, List.length_append, List.length_cons]
      change cs.length + 1 ≤ (escapeChar c).length + (escape cs).length
      omega

theorem le_hexDigit : ∀ n < 16, 0x20 ≤ (hexDigit n).toNat := by decide

/-- No control character stands in an escaped text. -/
theorem le_of_mem_escape {c : Char} {cs : List Char} (h : c ∈ escape cs) : 0x20 ≤ c.toNat := by
  obtain ⟨d, -, hc⟩ := List.mem_flatMap.mp h
  obtain ⟨e, he, heq, -⟩ | ⟨hlow, heq⟩ | ⟨hle, -, -, heq⟩ := escapeChar_cases d <;>
    rw [heq] at hc <;> simp only [List.mem_cons, List.not_mem_nil, or_false] at hc
  · obtain rfl | rfl := hc
    · decide
    · exact he
  · obtain rfl | rfl | rfl | rfl | rfl | rfl := hc
    · decide
    · decide
    · decide
    · decide
    · exact le_hexDigit _ (by omega)
    · exact le_hexDigit _ (Nat.mod_lt _ (by omega))
  · rwa [hc]

end Zeron.Lib.JsonString
