import Zeron.Lib.Utf8

/-!
# Slices by byte offset

A text is a list of characters, an offset in it counts bytes. A slice that would cut a character, or
goes behind the end, fails.
-/

namespace Zeron.Lib.Utf8

theorem utf8Len_append (front back : List Char) :
    utf8Len (front ++ back) = utf8Len front + utf8Len back := by
  rw [utf8Len, List.flatMap_append, List.length_append]
  rfl

theorem utf8Len_cons (c : Char) (text : List Char) : utf8Len (c :: text) = utf8Len [c] + utf8Len text :=
  utf8Len_append [c] text

@[simp]
theorem utf8Len_nil : utf8Len [] = 0 := rfl

theorem utf8Len_pos (c : Char) : 0 < utf8Len [c] := by
  rw [utf8Len, List.flatMap_singleton, encodeChar]
  split_ifs <;> simp

/-- A text of no bytes is empty. -/
theorem eq_nil_of_utf8Len {text : List Char} (h : utf8Len text = 0) : text = [] := by
  cases text with
  | nil => rfl
  | cons c text =>
      rw [utf8Len_cons] at h
      have := utf8Len_pos c
      omega

theorem utf8Len_pos_of_ne_nil {text : List Char} (h : text ≠ []) : 0 < utf8Len text :=
  Nat.pos_of_ne_zero fun hzero => h (eq_nil_of_utf8Len hzero)

/-- Of two cuts of a text, the later one has the earlier one in its front. -/
theorem exists_of_utf8Len_le {front back front' back' : List Char}
    (h : front ++ back = front' ++ back') (hle : utf8Len front ≤ utf8Len front') :
    ∃ middle, front' = front ++ middle ∧ back = middle ++ back' := by
  obtain ⟨middle, hfront, hback⟩ | ⟨middle, rfl, rfl⟩ := List.append_eq_append_iff.mp h
  · exact ⟨middle, hfront, hback⟩
  · rw [utf8Len_append] at hle
    obtain rfl : middle = [] := eq_nil_of_utf8Len (by omega)
    exact ⟨[], by simp, rfl⟩

theorem eq_of_utf8Len {front back front' back' : List Char} (h : front ++ back = front' ++ back')
    (hlength : utf8Len front = utf8Len front') : front = front' ∧ back = back' := by
  obtain ⟨middle, rfl, rfl⟩ := exists_of_utf8Len_le h (Nat.le_of_eq hlength)
  rw [utf8Len_append] at hlength
  obtain rfl : middle = [] := eq_nil_of_utf8Len (by omega)
  exact ⟨(List.append_nil _).symm, rfl⟩

/-- The text up to an offset, and from there on. -/
def splitAt? : Nat → List Char → Option (List Char × List Char)
  | 0, text => some ([], text)
  | _ + 1, [] => none
  | n + 1, c :: text =>
      if utf8Len [c] ≤ n + 1 then
        (splitAt? (n + 1 - utf8Len [c]) text).map fun (front, back) => (c :: front, back)
      else none

theorem splitAt?_append (front back : List Char) :
    splitAt? (utf8Len front) (front ++ back) = some (front, back) := by
  induction front with
  | nil => rw [utf8Len_nil, List.nil_append, splitAt?]
  | cons c front ih =>
      rw [utf8Len_cons]
      obtain ⟨n, hn⟩ : ∃ n, utf8Len [c] + utf8Len front = n + 1 :=
        ⟨utf8Len [c] + utf8Len front - 1, by have := utf8Len_pos c; omega⟩
      rw [hn, List.cons_append, splitAt?, if_pos (by omega), ← hn, Nat.add_sub_cancel_left, ih]
      rfl

theorem splitAt?_eq_some {n : Nat} {text front back : List Char} :
    splitAt? n text = some (front, back) ↔ text = front ++ back ∧ utf8Len front = n := by
  constructor
  · intro h
    induction text generalizing n front with
    | nil =>
        cases n with
        | zero =>
            cases h
            exact ⟨rfl, rfl⟩
        | succ n => cases h
    | cons c text ih =>
        cases n with
        | zero =>
            cases h
            exact ⟨rfl, rfl⟩
        | succ n =>
            rw [splitAt?] at h
            split_ifs at h with hle
            obtain ⟨⟨front', back'⟩, hrest, heq⟩ := Option.map_eq_some_iff.mp h
            cases heq
            obtain ⟨rfl, hlength⟩ := ih hrest
            refine ⟨rfl, ?_⟩
            rw [utf8Len_cons, hlength]
            omega
  · rintro ⟨rfl, rfl⟩
    exact splitAt?_append front back

/-- The text between two offsets. -/
def slice? (start stop : Nat) (text : List Char) : Option (List Char) :=
  (splitAt? stop text).bind fun (front, _) => (splitAt? start front).map (·.2)

theorem slice?_append (front middle back : List Char) :
    slice? (utf8Len front) (utf8Len front + utf8Len middle) (front ++ (middle ++ back)) =
      some middle := by
  rw [slice?, ← utf8Len_append, ← List.append_assoc, splitAt?_append, Option.bind_some]
  dsimp only
  rw [splitAt?_append]
  rfl

/-- A cut at this offset cuts no character. -/
def isBoundary (text : List Char) (n : Nat) : Bool := (splitAt? n text).isSome

theorem isBoundary_iff {text : List Char} {n : Nat} :
    isBoundary text n = true ↔ ∃ front back, text = front ++ back ∧ utf8Len front = n := by
  rw [isBoundary, Option.isSome_iff_exists, Prod.exists]
  exact exists_congr fun front => exists_congr fun back => splitAt?_eq_some

theorem isBoundary_utf8Len (front back : List Char) :
    isBoundary (front ++ back) (utf8Len front) = true :=
  isBoundary_iff.mpr ⟨front, back, rfl, rfl⟩

theorem isBoundary_zero (text : List Char) : isBoundary text 0 = true :=
  isBoundary_utf8Len [] text

theorem isBoundary_end (text : List Char) : isBoundary text (utf8Len text) = true :=
  isBoundary_iff.mpr ⟨text, [], (List.append_nil _).symm, rfl⟩

theorem isBoundary_le {text : List Char} {n : Nat} (h : isBoundary text n = true) :
    n ≤ utf8Len text := by
  obtain ⟨front, back, rfl, rfl⟩ := isBoundary_iff.mp h
  rw [utf8Len_append]
  exact Nat.le_add_right _ _

theorem isBoundary_append_left {front : List Char} {n : Nat} (h : n ≤ utf8Len front)
    (back : List Char) : isBoundary (front ++ back) n = isBoundary front n := by
  rw [Bool.eq_iff_iff, isBoundary_iff, isBoundary_iff]
  constructor
  · rintro ⟨front', back', htext, rfl⟩
    obtain ⟨middle, hfront, -⟩ := exists_of_utf8Len_le htext.symm h
    exact ⟨front', middle, hfront, rfl⟩
  · rintro ⟨front', back', rfl, rfl⟩
    exact ⟨front', back' ++ back, List.append_assoc _ _ _, rfl⟩

theorem isBoundary_append_right (front back : List Char) (n : Nat) :
    isBoundary (front ++ back) (utf8Len front + n) = isBoundary back n := by
  rw [Bool.eq_iff_iff, isBoundary_iff, isBoundary_iff]
  constructor
  · rintro ⟨front', back', htext, hlength⟩
    obtain ⟨middle, rfl, rfl⟩ := exists_of_utf8Len_le htext (by omega)
    rw [utf8Len_append] at hlength
    exact ⟨middle, back', rfl, by omega⟩
  · rintro ⟨front', back', rfl, rfl⟩
    exact ⟨front ++ front', back', (List.append_assoc _ _ _).symm, utf8Len_append _ _⟩

end Zeron.Lib.Utf8
