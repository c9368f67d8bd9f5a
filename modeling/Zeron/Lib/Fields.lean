import Mathlib.Data.List.Basic

/-!
# Terminated fields

Fields that each end in a separator, records of a fixed number of fields, and words between blanks.
-/

namespace Zeron.Lib.Fields

variable {α : Type*}

def terminated (sep : α) (fields : List (List α)) : List α :=
  fields.flatMap fun field => field ++ [sep]

theorem terminated_append (sep : α) (fields fields' : List (List α)) :
    terminated sep (fields ++ fields') = terminated sep fields ++ terminated sep fields' :=
  List.flatMap_append

/-- It starts with the first field and ends with a separator. -/
theorem exists_terminated (sep : α) (field : List α) (fields : List (List α)) :
    ∃ more, terminated sep (field :: fields) = field ++ more ++ [sep] := by
  induction fields generalizing field with
  | nil => exact ⟨[], by simp [terminated]⟩
  | cons next fields ih =>
      obtain ⟨more, hmore⟩ := ih next
      refine ⟨sep :: next ++ more, ?_⟩
      calc terminated sep (field :: next :: fields)
          = field ++ sep :: terminated sep (next :: fields) := by simp [terminated]
        _ = field ++ (sep :: next ++ more) ++ [sep] := by
            rw [hmore]
            simp

/-- Splitting gives the fields back, and an empty one behind the last separator. -/
theorem splitOn_terminated [BEq α] [LawfulBEq α] {sep : α} {fields : List (List α)}
    (h : ∀ field ∈ fields, sep ∉ field) : (terminated sep fields).splitOn sep = fields ++ [[]] := by
  induction fields with
  | nil => rfl
  | cons field fields ih =>
      have hfields := ih fun other hother => h other (List.mem_cons_of_mem _ hother)
      have hfield : ∀ a ∈ field, (a == sep) = false := by
        intro a ha
        rw [beq_eq_false_iff_ne]
        rintro rfl
        exact h field List.mem_cons_self ha
      calc (terminated sep (field :: fields)).splitOn sep
          = (field ++ sep :: terminated sep fields).splitOn sep := by simp [terminated]
        _ = field :: (terminated sep fields).splitOn sep := by
            rw [List.splitOn_eq_splitOnP]
            exact List.splitOnP_append_cons_of_forall_mem hfield sep BEq.rfl _
        _ = field :: fields ++ [[]] := by rw [hfields, List.cons_append]

theorem not_mem_of_mem_splitOn [BEq α] [LawfulBEq α] {sep : α} {text piece : List α}
    (h : piece ∈ text.splitOn sep) : sep ∉ piece := by
  induction text generalizing piece with
  | nil =>
      rw [List.splitOn_nil, List.mem_singleton] at h
      simp [h]
  | cons a text ih =>
      rw [List.splitOn_cons_eq_if_modifyHead] at h
      split_ifs at h with hsep
      · obtain rfl | h := List.mem_cons.mp h
        · simp
        · exact ih h
      · cases hpieces : text.splitOn sep with
        | nil => exact absurd hpieces (List.splitOn_ne_nil _ _)
        | cons first pieces =>
            rw [hpieces] at h ih
            obtain rfl | h := List.mem_cons.mp h
            · have hfirst := ih List.mem_cons_self
              simpa [Ne.symm (by simpa using hsep : a ≠ sep)] using hfirst
            · exact ih (List.mem_cons_of_mem _ h)

/-! ## Records -/

/-- `chunks(n)` of a list that is no longer than the first argument. -/
def chunksFrom (n : Nat) : Nat → List α → List (List α)
  | 0, _ | _, [] => []
  | fuel + 1, xs => xs.take n :: chunksFrom n fuel (xs.drop n)

def chunks (n : Nat) (xs : List α) : List (List α) := chunksFrom n xs.length xs

theorem chunksFrom_of_le {n : Nat} (hn : 0 < n) {fuel fuel' : Nat} {xs : List α}
    (h : xs.length ≤ fuel) (h' : xs.length ≤ fuel') :
    chunksFrom n fuel xs = chunksFrom n fuel' xs := by
  induction fuel generalizing fuel' xs with
  | zero =>
      obtain rfl : xs = [] := List.length_eq_zero_iff.mp (Nat.le_zero.mp h)
      cases fuel' <;> rfl
  | succ fuel ih =>
      cases xs with
      | nil => cases fuel' <;> rfl
      | cons x xs =>
          cases fuel' with
          | zero => exact absurd h' (by simp)
          | succ fuel' =>
              simp only [List.length_cons] at h h'
              have hdrop : ((x :: xs).drop n).length ≤ xs.length := by
                rw [List.length_drop, List.length_cons]
                omega
              have hrest : chunksFrom n fuel ((x :: xs).drop n) =
                  chunksFrom n fuel' ((x :: xs).drop n) := ih (by omega) (by omega)
              rw [chunksFrom, chunksFrom, hrest]
              all_goals exact List.cons_ne_nil _ _

theorem chunks_append {n : Nat} (hn : 0 < n) {record : List α} (hrecord : record.length = n)
    (rest : List α) : chunks n (record ++ rest) = record :: chunks n rest := by
  have hne : record ++ rest ≠ [] := by
    rintro heq
    have hlength := congrArg List.length heq
    rw [List.length_append, List.length_nil] at hlength
    omega
  obtain ⟨fuel, hfuel⟩ : ∃ fuel, (record ++ rest).length = fuel + 1 :=
    Nat.exists_eq_add_one.mpr (List.length_pos_iff.mpr hne)
  have hlength : (record ++ rest).length = record.length + rest.length := List.length_append
  rw [chunks, hfuel, chunksFrom, List.take_left' hrecord, List.drop_left' hrecord, chunks]
  · exact congrArg _ (chunksFrom_of_le hn (by omega) (Nat.le_refl _))
  · exact hne

/-- Whole records come back, followed by the chunks of what is behind them. -/
theorem chunks_flatten_append {n : Nat} (hn : 0 < n) {records : List (List α)}
    (hrecords : ∀ record ∈ records, record.length = n) (rest : List α) :
    chunks n (records.flatten ++ rest) = records ++ chunks n rest := by
  induction records with
  | nil => rfl
  | cons record records ih =>
      obtain ⟨hrecord, hrest⟩ := List.forall_mem_cons.mp hrecords
      rw [List.flatten_cons, List.append_assoc, chunks_append hn hrecord, ih hrest]
      rfl

/-! ## Words -/

/-- The non-empty pieces between the elements that separate. -/
def words (separates : α → Bool) (xs : List α) : List (List α) :=
  (xs.splitOnP separates).filter fun word => !word.isEmpty

theorem intercalate_cons_cons (sep : α) (word next : List α) (ws : List (List α)) :
    [sep].intercalate (word :: next :: ws) = word ++ sep :: [sep].intercalate (next :: ws) := by
  simp [List.intercalate]

theorem eq_or_mem_of_mem_intercalate {sep a : α} {ws : List (List α)}
    (h : a ∈ [sep].intercalate ws) : a = sep ∨ ∃ word ∈ ws, a ∈ word := by
  induction ws with
  | nil => exact absurd h List.not_mem_nil
  | cons word ws ih =>
      cases ws with
      | nil =>
          rw [List.intercalate_singleton] at h
          exact .inr ⟨word, List.mem_cons_self, h⟩
      | cons next ws =>
          rw [intercalate_cons_cons] at h
          obtain hword | hmem := List.mem_append.mp h
          · exact .inr ⟨word, List.mem_cons_self, hword⟩
          · obtain rfl | hrest := List.mem_cons.mp hmem
            · exact .inl rfl
            · obtain hsep | ⟨other, hother, ha⟩ := ih hrest
              · exact .inl hsep
              · exact .inr ⟨other, List.mem_cons_of_mem _ hother, ha⟩

theorem words_intercalate {separates : α → Bool} {sep : α} (hsep : separates sep = true)
    {ws : List (List α)} (h : ∀ word ∈ ws, word ≠ [] ∧ ∀ a ∈ word, separates a = false) :
    words separates ([sep].intercalate ws) = ws := by
  induction ws with
  | nil => rfl
  | cons word ws ih =>
      obtain ⟨⟨hne, hword⟩, hrest⟩ := List.forall_mem_cons.mp h
      cases ws with
      | nil =>
          rw [List.intercalate_singleton, words, List.splitOnP_eq_singleton hword]
          simp [hne]
      | cons next ws =>
          rw [intercalate_cons_cons, words, List.splitOnP_append_cons_of_forall_mem hword sep hsep,
            List.filter_cons_of_pos (by simp [hne])]
          exact congrArg _ (ih hrest)

end Zeron.Lib.Fields
