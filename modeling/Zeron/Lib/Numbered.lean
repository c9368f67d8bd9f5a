import Mathlib.Data.List.Induction
import Mathlib.Data.List.Nodup
import Mathlib.Data.List.Perm.Subperm

/-!
# Numbered parts

Something cut into `count` parts arrives as numbered parts in any order. Each part is put into its
slot; the slots are filled when as many parts as there are slots have come and no number was out of
range or came twice.
-/

namespace Zeron.Lib.Numbered

variable {α : Type*}

/-- No number is out of range, and none comes twice. -/
def WellNumbered (count : Nat) (parts : List (Nat × α)) : Prop :=
  (parts.map Prod.fst).Nodup ∧ ∀ part ∈ parts, part.1 < count

def Complete (count : Nat) (parts : List (Nat × α)) : Prop :=
  ∀ i < count, ∃ part, (i, part) ∈ parts

/-- Puts each part into its slot, from empty ones. -/
def assemble (empty : α) (count : Nat) (parts : List (Nat × α)) : List α :=
  parts.foldl (fun slots part => slots.set part.1 part.2) (.replicate count empty)

/-- What came under each number. -/
def inOrder (empty : α) (count : Nat) (parts : List (Nat × α)) : List α :=
  (List.range count).map fun i => (parts.lookup i).getD empty

variable {empty : α} {count : Nat} {parts parts' : List (Nat × α)}

theorem assemble_concat (part : Nat × α) :
    assemble empty count (parts ++ [part]) = (assemble empty count parts).set part.1 part.2 := by
  simp [assemble]

theorem length_assemble : (assemble empty count parts).length = count := by
  induction parts using List.reverseRecOn with
  | nil => simp [assemble]
  | append_singleton parts part ih => rw [assemble_concat, List.length_set, ih]

theorem WellNumbered.of_concat {part : Nat × α} (h : WellNumbered count (parts ++ [part])) :
    WellNumbered count parts ∧ part.1 < count ∧ part.1 ∉ parts.map Prod.fst := by
  obtain ⟨hnodup, hlt⟩ := h
  rw [List.map_append, List.map_singleton, List.nodup_append] at hnodup
  refine ⟨⟨hnodup.1, fun other hmem => hlt other (List.mem_append_left _ hmem)⟩,
    hlt part (by simp), ?_⟩
  intro hmem
  exact hnodup.2.2 part.1 hmem part.1 (by simp) rfl

theorem WellNumbered.of_append (h : WellNumbered count (parts ++ parts')) :
    WellNumbered count parts := by
  obtain ⟨hnodup, hlt⟩ := h
  rw [List.map_append] at hnodup
  exact ⟨hnodup.of_append_left, fun part hmem => hlt part (List.mem_append_left _ hmem)⟩

theorem WellNumbered.perm (h : WellNumbered count parts) (hperm : parts.Perm parts') :
    WellNumbered count parts' :=
  ⟨(hperm.map Prod.fst).nodup_iff.mp h.1, fun part hmem => h.2 part (hperm.mem_iff.mpr hmem)⟩

theorem WellNumbered.subperm (h : WellNumbered count parts) :
    (parts.map Prod.fst).Subperm (List.range count) := by
  apply List.subperm_of_subset h.1
  intro i hmem
  obtain ⟨part, hpart, rfl⟩ := List.mem_map.mp hmem
  exact List.mem_range.mpr (h.2 part hpart)

theorem WellNumbered.length_le (h : WellNumbered count parts) : parts.length ≤ count := by
  have hle := h.subperm.length_le
  rwa [List.length_map, List.length_range] at hle

/-- As many parts as slots fill them all. -/
theorem WellNumbered.complete_iff (h : WellNumbered count parts) :
    Complete count parts ↔ parts.length = count := by
  constructor
  · intro hcomplete
    apply Nat.le_antisymm h.length_le
    have hsubset : List.range count ⊆ parts.map Prod.fst := by
      intro i hmem
      obtain ⟨part, hpart⟩ := hcomplete i (List.mem_range.mp hmem)
      exact List.mem_map.mpr ⟨(i, part), hpart, rfl⟩
    have hle := (List.subperm_of_subset List.nodup_range hsubset).length_le
    rwa [List.length_map, List.length_range] at hle
  · intro hlength i hlt
    have hperm : (parts.map Prod.fst).Perm (List.range count) :=
      h.subperm.perm_of_length_le (by simp [hlength])
    obtain ⟨part, hpart, rfl⟩ := List.mem_map.mp (hperm.mem_iff.mpr (List.mem_range.mpr hlt))
    exact ⟨part.2, hpart⟩

theorem lookup_eq_none_of_notMem {i : Nat} (h : i ∉ parts.map Prod.fst) :
    parts.lookup i = none := by
  rw [List.lookup_eq_none_iff]
  intro part hmem
  have hne : i ≠ part.1 := fun heq => h (heq ▸ List.mem_map_of_mem hmem)
  simpa using hne

theorem lookup_concat_of_notMem {part : Nat × α} (h : part.1 ∉ parts.map Prod.fst) (i : Nat) :
    (parts ++ [part]).lookup i = if i = part.1 then some part.2 else parts.lookup i := by
  rw [List.lookup_append]
  by_cases heq : i = part.1
  · rw [heq, lookup_eq_none_of_notMem h, if_pos rfl, List.lookup_cons_self, Option.none_or]
  · have hne : (i == part.1) = false := by simpa using heq
    have hnone : [part].lookup i = none := by
      rw [List.lookup_eq_none_iff]
      rintro other hother
      rw [List.mem_singleton.mp hother]
      simpa using hne
    rw [if_neg heq, hnone, Option.or_none]

/-- **Assembly.** Well-numbered parts are put together in the order of their numbers. -/
theorem assemble_eq_inOrder (h : WellNumbered count parts) :
    assemble empty count parts = inOrder empty count parts := by
  induction parts using List.reverseRecOn with
  | nil => simp [assemble, inOrder, List.map_const']
  | append_singleton parts part ih =>
      obtain ⟨hparts, -, hfresh⟩ := h.of_concat
      rw [assemble_concat, ih hparts]
      apply List.ext_getElem
      · simp [inOrder]
      · intro i hi _
        simp only [inOrder, List.getElem_set, List.getElem_map, List.getElem_range,
          lookup_concat_of_notMem hfresh]
        by_cases heq : part.1 = i
        · simp [heq]
        · rw [if_neg heq, if_neg (Ne.symm heq)]

theorem mem_iff_lookup (h : (parts.map Prod.fst).Nodup) {i : Nat} {part : α} :
    (i, part) ∈ parts ↔ parts.lookup i = some part := by
  induction parts with
  | nil => simp
  | cons head rest ih =>
      rw [List.map_cons, List.nodup_cons] at h
      rw [List.mem_cons, List.lookup_cons]
      by_cases heq : i = head.1
      · subst heq
        have hnot : (head.1, part) ∉ rest := fun hmem =>
          h.1 (List.mem_map.mpr ⟨(head.1, part), hmem, rfl⟩)
        simp [hnot, Prod.ext_iff, eq_comm]
      · have hne : (i == head.1) = false := by simpa using heq
        rw [hne, ← ih h.2]
        simp [Prod.ext_iff, heq]

/-- The order in which the parts come does not matter. -/
theorem inOrder_perm (h : WellNumbered count parts) (hperm : parts.Perm parts') :
    inOrder empty count parts = inOrder empty count parts' := by
  have hlookup : ∀ i, parts.lookup i = parts'.lookup i := by
    intro i
    apply Option.ext
    intro part
    rw [← mem_iff_lookup h.1, ← mem_iff_lookup (h.perm hperm).1, hperm.mem_iff]
  simp [inOrder, hlookup]

/-- The parts of something that is cut in order. -/
def number (count : Nat) (piece : Nat → α) : List (Nat × α) :=
  (List.range count).map fun i => (i, piece i)

theorem wellNumbered_number (count : Nat) (piece : Nat → α) :
    WellNumbered count (number count piece) := by
  constructor
  · simpa [number, Function.comp_def] using List.nodup_range
  · intro part hmem
    obtain ⟨i, hi, rfl⟩ := List.mem_map.mp hmem
    exact List.mem_range.mp hi

theorem inOrder_number (count : Nat) (piece : Nat → α) :
    inOrder empty count (number count piece) = (List.range count).map piece := by
  apply List.map_congr_left
  intro i hi
  have hmem : (i, piece i) ∈ number count piece := List.mem_map.mpr ⟨i, hi, rfl⟩
  rw [(mem_iff_lookup (wellNumbered_number count piece).1).mp hmem, Option.getD_some]

end Zeron.Lib.Numbered
