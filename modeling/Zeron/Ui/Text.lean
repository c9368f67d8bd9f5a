import Mathlib.Data.List.Basic

/-!
# Prefixes of texts

`starts_with` and `strip_prefix` with a literal, on lists of characters.
-/

namespace Zeron.Ui

def startsWith (text : String) (cs : List Char) : Bool := text.toList.isPrefixOf cs

/-- `str::strip_prefix` -/
def strip (text : String) (cs : List Char) : Option (List Char) :=
  if startsWith text cs then some (cs.drop text.toList.length) else none

theorem startsWith_append (text : String) (cs : List Char) :
    startsWith text (text.toList ++ cs) = true :=
  List.isPrefixOf_iff_prefix.mpr (List.prefix_append _ _)

theorem strip_append (text : String) (cs : List Char) :
    strip text (text.toList ++ cs) = some cs := by
  rw [strip, if_pos (startsWith_append text cs), List.drop_left]

theorem eq_append_of_strip {text : String} {cs rest : List Char} (h : strip text cs = some rest) :
    cs = text.toList ++ rest := by
  unfold strip startsWith at h
  split_ifs at h with hstarts
  cases h
  exact (List.prefix_iff_eq_append.mp (List.isPrefixOf_iff_prefix.mp hstarts)).symm

theorem startsWith_of_head {text : String} {c : Char} {cs : List Char}
    (h : text.toList.head?.any (· ≠ c) = true) : startsWith text (c :: cs) = false := by
  unfold startsWith
  cases htext : text.toList with
  | nil => simp [htext] at h
  | cons first rest =>
      have hne : first ≠ c := by simpa [htext] using h
      simp [List.isPrefixOf, hne]

end Zeron.Ui
