import Zeron.Lib.Utf8

/-!
# Character boundaries

Positions in the bytes of a text at which no character is cut: `str::is_char_boundary`, and the
slices between two of them.
-/

namespace Zeron.Lib.Utf8

def isContinuation (byte : UInt8) : Bool := 0x80 ≤ byte.toNat ∧ byte.toNat < 0xC0

/-- The start, the end, or a byte that begins a character. -/
def isCharBoundary (bytes : Bytes) (index : Nat) : Bool :=
  index == 0 ||
    match bytes[index]? with
    | some byte => !isContinuation byte
    | none => index == bytes.length

/-- Back to the last boundary at or before a position. -/
def backToBoundary (bytes : Bytes) : Nat → Nat
  | 0 => 0
  | index + 1 =>
      if index + 1 < bytes.length ∧ isCharBoundary bytes (index + 1) = false then
        backToBoundary bytes index
      else index + 1

/-- A slice that cuts no character. -/
def sliceText (bytes : Bytes) (start stop : Nat) : Option String :=
  if start ≤ stop ∧ isCharBoundary bytes start = true ∧ isCharBoundary bytes stop = true then
    decode? ((bytes.drop start).take (stop - start))
  else none

theorem encodeChar_shape (c : Char) : ∃ lead tail, encodeChar c = lead :: tail ∧
    isContinuation lead = false ∧ (∀ byte ∈ tail, isContinuation byte = true) ∧
      tail.length ≤ 3 := by
  obtain ⟨hlt, -⟩ := toNat_le c
  have htail : ∀ n < 64, isContinuation (UInt8.ofNat (0x80 + n)) = true := by
    intro n hn
    apply decide_eq_true
    rw [toNat_ofNat (by omega)]
    omega
  have hlead : ∀ n < 256, (n < 0x80 ∨ 0xC0 ≤ n) → isContinuation (UInt8.ofNat n) = false := by
    intro n hn hrange
    apply decide_eq_false
    rw [toNat_ofNat hn]
    omega
  unfold encodeChar
  split_ifs with h1 h2 h3
  · exact ⟨_, [], rfl, hlead _ (by omega) (.inl h1), by simp, by simp⟩
  · refine ⟨_, _, rfl, hlead _ (by omega) (by omega), fun byte hbyte => ?_, by simp⟩
    rw [List.mem_singleton.mp hbyte]
    exact htail _ (by omega)
  · refine ⟨_, _, rfl, hlead _ (by omega) (by omega), fun byte hbyte => ?_, by simp⟩
    simp only [List.mem_cons, List.not_mem_nil, or_false] at hbyte
    obtain rfl | rfl := hbyte <;> exact htail _ (by omega)
  · refine ⟨_, _, rfl, hlead _ (by omega) (by omega), fun byte hbyte => ?_, by simp⟩
    simp only [List.mem_cons, List.not_mem_nil, or_false] at hbyte
    obtain rfl | rfl | rfl := hbyte <;> exact htail _ (by omega)

theorem isCharBoundary_of_append {front bytes : Bytes} {index : Nat}
    (h : isCharBoundary (front ++ bytes) (front.length + index) = true) :
    isCharBoundary bytes index = true := by
  cases index with
  | zero => rfl
  | succ index =>
      unfold isCharBoundary at h ⊢
      rw [List.getElem?_append_right (Nat.le_add_right _ _), Nat.add_sub_cancel_left,
        List.length_append] at h
      cases hbyte : bytes[index + 1]? with
      | none | some byte => simpa [hbyte] using h

/-- The boundaries are the ends of the whole characters before them. -/
theorem isCharBoundary_iff {chars : List Char} {index : Nat}
    (h : index ≤ (chars.flatMap encodeChar).length) :
    isCharBoundary (chars.flatMap encodeChar) index = true ↔
      ∃ front back, chars = front ++ back ∧ index = (front.flatMap encodeChar).length := by
  constructor
  · intro hboundary
    induction chars generalizing index with
    | nil => exact ⟨[], [], rfl, Nat.le_zero.mp h⟩
    | cons c chars ih =>
        obtain ⟨lead, tail, hshape, hlead, htail, -⟩ := encodeChar_shape c
        cases index with
        | zero => exact ⟨[], c :: chars, rfl, rfl⟩
        | succ index =>
            rw [List.flatMap_cons, hshape] at hboundary h
            by_cases hin : index < tail.length
            · -- Inside the first character.
              have hbyte : (lead :: tail ++ chars.flatMap encodeChar)[index + 1]? =
                  some tail[index] := by
                rw [List.cons_append, List.getElem?_cons_succ, List.getElem?_append_left hin,
                  List.getElem?_eq_getElem hin]
              unfold isCharBoundary at hboundary
              rw [hbyte] at hboundary
              simp [htail tail[index] (List.getElem_mem hin)] at hboundary
            · obtain ⟨rest, rfl⟩ := Nat.exists_eq_add_of_le (Nat.le_of_not_lt hin)
              have hlength : tail.length + rest + 1 = (lead :: tail).length + rest := by
                simp
                omega
              rw [hlength] at hboundary h
              rw [List.length_append] at h
              obtain ⟨front, back, rfl, rfl⟩ :=
                ih (by omega) (isCharBoundary_of_append hboundary)
              refine ⟨c :: front, back, rfl, ?_⟩
              rw [hlength, List.flatMap_cons, hshape, List.length_append]
  · rintro ⟨front, back, rfl, rfl⟩
    unfold isCharBoundary
    rw [List.flatMap_append, List.getElem?_append_right (Nat.le_refl _), Nat.sub_self]
    cases back with
    | nil => simp
    | cons c back =>
        obtain ⟨lead, tail, hshape, hlead, -⟩ := encodeChar_shape c
        rw [List.flatMap_cons, hshape]
        simp [hlead]

theorem backToBoundary_le (bytes : Bytes) (index : Nat) : backToBoundary bytes index ≤ index := by
  induction index with
  | zero => exact Nat.le_refl _
  | succ index ih =>
      rw [backToBoundary]
      split
      · omega
      · exact Nat.le_refl _

theorem isCharBoundary_backToBoundary {bytes : Bytes} {index : Nat} (h : index ≤ bytes.length) :
    isCharBoundary bytes (backToBoundary bytes index) = true := by
  induction index with
  | zero => rfl
  | succ index ih =>
      rw [backToBoundary]
      split
      · exact ih (by omega)
      · rename_i hstop
        by_cases hlt : index + 1 < bytes.length
        · simpa using fun hcut => hstop ⟨hlt, hcut⟩
        · have hlength : bytes.length = index + 1 := by omega
          unfold isCharBoundary
          rw [List.getElem?_eq_none (Nat.le_of_eq hlength)]
          simp [hlength]

/-- The way back ends at the first boundary that it meets. -/
theorem le_backToBoundary {bytes : Bytes} {boundary index : Nat} (hle : boundary ≤ index)
    (h : isCharBoundary bytes boundary = true) : boundary ≤ backToBoundary bytes index := by
  induction index with
  | zero => exact hle
  | succ index ih =>
      rw [backToBoundary]
      split
      · rename_i hcut
        refine ih (Nat.le_of_lt_succ (Nat.lt_of_le_of_ne hle ?_))
        rintro rfl
        rw [h] at hcut
        cases hcut.2
      · exact hle

/-- Between two boundaries there are whole characters. -/
theorem sliceText_chars (front mid back : List Char) :
    sliceText ((front ++ mid ++ back).flatMap encodeChar) (front.flatMap encodeChar).length
      ((front ++ mid).flatMap encodeChar).length = some (String.ofList mid) := by
  have hstart : isCharBoundary ((front ++ mid ++ back).flatMap encodeChar)
      (front.flatMap encodeChar).length = true :=
    (isCharBoundary_iff (by simp)).mpr ⟨front, mid ++ back, by simp, rfl⟩
  have hstop : isCharBoundary ((front ++ mid ++ back).flatMap encodeChar)
      ((front ++ mid).flatMap encodeChar).length = true :=
    (isCharBoundary_iff (by simp)).mpr ⟨front ++ mid, back, rfl, rfl⟩
  unfold sliceText
  rw [if_pos ⟨by simp, hstart, hstop⟩]
  have hslice : (((front ++ mid ++ back).flatMap encodeChar).drop
      (front.flatMap encodeChar).length).take
        (((front ++ mid).flatMap encodeChar).length - (front.flatMap encodeChar).length) =
      encode (String.ofList mid) := by
    unfold encode
    simp [List.flatMap_append, String.toList_ofList]
  rw [hslice, decode?_encode]

end Zeron.Lib.Utf8
