import Mathlib.Data.List.Sort
import Mathlib.Data.List.TakeWhile

/-!
# The best of a stream

The first `k` of a list sorted by a total order, and a buffer that is sorted and cut while the list
is still being read.
-/

namespace Zeron.Lib.TopK

variable {α : Type*}

/-- A total order, as a test. -/
structure TotalOrder (le : α → α → Bool) : Prop where
  trans : ∀ a b c, le a b = true → le b c = true → le a c = true
  total : ∀ a b, (le a b || le b a) = true
  antisymm : ∀ a b, le a b = true → le b a = true → a = b

variable {le : α → α → Bool}

def best (le : α → α → Bool) (k : Nat) (items : List α) : List α := (items.mergeSort le).take k

/-- A list has one sorted order. -/
theorem mergeSort_eq (h : TotalOrder le) {items sorted : List α} (hperm : sorted.Perm items)
    (hsorted : sorted.Pairwise (le · ·)) : items.mergeSort le = sorted := by
  have hmerge := List.pairwise_mergeSort h.trans h.total items
  exact ((List.mergeSort_perm items le).trans hperm.symm).eq_of_pairwise
    (fun a b _ _ => h.antisymm a b) hmerge hsorted

theorem best_perm (h : TotalOrder le) (k : Nat) {items items' : List α} (hperm : items.Perm items') :
    best le k items = best le k items' := by
  have hsort := mergeSort_eq h ((List.mergeSort_perm items' le).trans hperm.symm)
    (List.pairwise_mergeSort h.trans h.total items')
  rw [best, best, hsort]

/-- Behind the items that are at most `x`, a sorted list has none. -/
theorem not_le_of_mem_dropWhile (h : TotalOrder le) {x : α} {items : List α}
    (hsorted : items.Pairwise (le · ·)) {b : α} (hb : b ∈ items.dropWhile (le · x)) :
    le b x = false ∧ le x b = true := by
  induction items with
  | nil => exact absurd hb List.not_mem_nil
  | cons a items ih =>
      obtain ⟨hhead, htail⟩ := List.pairwise_cons.mp hsorted
      by_cases ha : le a x = true
      · rw [List.dropWhile_cons_of_pos (p := (le · x)) ha] at hb
        exact ih htail hb
      · rw [List.dropWhile_cons_of_neg (p := (le · x)) ha] at hb
        have hab : le a b = true := by
          obtain rfl | hmem := List.mem_cons.mp hb
          · simpa using h.total b b
          · exact hhead b hmem
        have hnot : le b x ≠ true := fun hbx => ha (h.trans a b x hab hbx)
        have htotal := h.total x b
        rw [Bool.eq_false_iff.mpr hnot, Bool.or_false] at htotal
        exact ⟨Bool.eq_false_iff.mpr hnot, htotal⟩

/-- An item with `k` others at or before it is not among the best. -/
theorem best_cons (h : TotalOrder le) {k : Nat} {x : α} {items : List α}
    (hk : k ≤ items.countP (le · x)) : best le k (x :: items) = best le k items := by
  have hsorted := List.pairwise_mergeSort h.trans h.total items
  have hperm := List.mergeSort_perm items le
  unfold best
  rw [← hperm.countP_eq] at hk
  generalize items.mergeSort le = sorted at hsorted hperm hk
  have hsplit : sorted.takeWhile (le · x) ++ sorted.dropWhile (le · x) = sorted :=
    List.takeWhile_append_dropWhile
  have hfront : ∀ a ∈ sorted.takeWhile (le · x), le a x = true :=
    fun a ha => List.mem_takeWhile_imp (p := (le · x)) ha
  have hback := fun b => not_le_of_mem_dropWhile (b := b) (x := x) h hsorted
  have hlength : k ≤ (sorted.takeWhile (le · x)).length := by
    rw [← hsplit, List.countP_append, List.countP_eq_length.mpr hfront,
      List.countP_eq_zero.mpr fun b hb => by simp [(hback b hb).1]] at hk
    exact hk
  have hinserted : (sorted.takeWhile (le · x) ++ x :: sorted.dropWhile (le · x)).Pairwise
      (le · ·) := by
    rw [← hsplit] at hsorted
    obtain ⟨hfrontSorted, hbackSorted, hcross⟩ := List.pairwise_append.mp hsorted
    refine List.pairwise_append.mpr ⟨hfrontSorted, ?_, ?_⟩
    · exact List.pairwise_cons.mpr ⟨fun b hb => (hback b hb).2, hbackSorted⟩
    · intro a ha b hb
      obtain rfl | hb := List.mem_cons.mp hb
      · exact hfront a ha
      · exact hcross a ha b hb
  have hsort : (x :: items).mergeSort le = _ := mergeSort_eq h
    (List.perm_middle.trans ((hsplit ▸ hperm).cons x)) hinserted
  calc ((x :: items).mergeSort le).take k
      = (sorted.takeWhile (le · x)).take k := by rw [hsort, List.take_append_of_le_length hlength]
    _ = (sorted.takeWhile (le · x) ++ sorted.dropWhile (le · x)).take k :=
        (List.take_append_of_le_length hlength).symm
    _ = sorted.take k := by rw [hsplit]

/-- What is not among the best of a part is not among the best of the whole. -/
theorem best_append (h : TotalOrder le) (k : Nat) (items rest : List α) :
    best le k (best le k items ++ rest) = best le k (items ++ rest) := by
  have hsorted := List.pairwise_mergeSort h.trans h.total items
  have hperm := List.mergeSort_perm items le
  rw [best_perm h k (hperm.symm.append_right rest)]
  conv_lhs => rw [best.eq_def le k items]
  generalize items.mergeSort le = sorted at hsorted
  have hdropped : ∀ dropped : List α,
      (∀ x ∈ dropped, k ≤ ((sorted.take k).countP (le · x))) →
        best le k (dropped ++ (sorted.take k ++ rest)) = best le k (sorted.take k ++ rest) := by
    intro dropped
    induction dropped with
    | nil => exact fun _ => rfl
    | cons x dropped ih =>
        intro hdropped
        have hx := hdropped x List.mem_cons_self
        rw [List.cons_append, best_cons h, ih fun y hy => hdropped y (List.mem_cons_of_mem x hy)]
        rw [List.countP_append, List.countP_append]
        omega
  have hbehind : ∀ x ∈ sorted.drop k, k ≤ (sorted.take k).countP (le · x) := by
    intro x hx
    rw [← List.take_append_drop k sorted] at hsorted
    have hcross := (List.pairwise_append.mp hsorted).2.2
    rw [List.countP_eq_length.mpr fun a ha => hcross a ha x hx, List.length_take]
    have hpos := List.length_pos_of_mem hx
    rw [List.length_drop] at hpos
    omega
  calc best le k (sorted.take k ++ rest)
      = best le k (sorted.drop k ++ (sorted.take k ++ rest)) := (hdropped _ hbehind).symm
    _ = best le k (sorted ++ rest) := by
        refine best_perm h k ?_
        rw [← List.append_assoc]
        refine List.Perm.append_right rest ?_
        conv_rhs => rw [← List.take_append_drop k sorted]
        exact List.perm_append_comm

/-- Reads one more item; a buffer that is too long is sorted and cut. -/
def push (le : α → α → Bool) (k : Nat) (kept : List α) (item : α) : List α :=
  if k < (kept ++ [item]).length then best le k (kept ++ [item]) else kept ++ [item]

/-- **Top k.** Cutting on the way loses none of the best. -/
theorem best_foldl_push (h : TotalOrder le) (k : Nat) (items kept : List α) :
    best le k (items.foldl (push le k) kept) = best le k (kept ++ items) := by
  induction items generalizing kept with
  | nil => rw [List.foldl_nil, List.append_nil]
  | cons item items ih =>
      rw [List.foldl_cons, ih, push]
      split_ifs
      · rw [best_append h, List.append_assoc, List.singleton_append]
      · rw [List.append_assoc, List.singleton_append]

theorem length_foldl_push (k : Nat) (items : List α) {kept : List α} (hkept : kept.length ≤ k) :
    (items.foldl (push le k) kept).length ≤ k := by
  induction items generalizing kept with
  | nil => exact hkept
  | cons item items ih =>
      rw [List.foldl_cons]
      apply ih
      rw [push]
      split_ifs with hlong
      · exact (List.length_take_le _ _)
      · exact Nat.not_lt.mp hlong

end Zeron.Lib.TopK
