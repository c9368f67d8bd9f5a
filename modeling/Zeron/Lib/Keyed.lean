import Mathlib.Data.List.Nodup

/-!
# Lists with keys

Items are looked up, taken out and put behind one another by their keys. Where no two items have
one key these operations act on the one place that an item has.
-/

namespace Zeron.Lib.Keyed

variable {α κ : Type} [DecidableEq κ] (key : α → κ)

def position (items : List α) (k : κ) : Option Nat := items.findIdx? fun item => key item = k

/-- Without the first item that has the key. -/
def remove (items : List α) (k : κ) : List α :=
  match position key items k with
  | some index => items.eraseIdx index
  | none => items

/-- An item is put behind the anchor, or first if there is none. -/
def insertAfter (items : List α) (anchor : Option κ) (item : α) : Option (List α) :=
  match anchor with
  | none => some (items.insertIdx 0 item)
  | some k => (position key items k).map fun index => items.insertIdx (index + 1) item

variable {key} {front back : List α} {item : α} {k : κ}

theorem position_eq_none (h : ∀ item ∈ front, key item ≠ k) : position key front k = none := by
  unfold position
  rw [List.findIdx?_eq_none_iff]
  exact fun item hitem => decide_eq_false (h item hitem)

/-- The first item with the key is found where it is. -/
theorem position_append_cons (h : ∀ other ∈ front, key other ≠ key item) :
    position key (front ++ item :: back) (key item) = some front.length := by
  have hfront := position_eq_none h
  unfold position at hfront ⊢
  rw [List.findIdx?_append, hfront, List.findIdx?_cons, if_pos (decide_eq_true rfl)]
  simp

theorem remove_eq_self (h : ∀ item ∈ front, key item ≠ k) : remove key front k = front := by
  unfold remove
  rw [position_eq_none h]

theorem remove_append_cons (h : ∀ other ∈ front, key other ≠ key item) :
    remove key (front ++ item :: back) (key item) = front ++ back := by
  unfold remove
  rw [position_append_cons h]
  exact (List.eraseIdx_append_of_length_le (Nat.le_refl _) _).trans (by simp)

theorem insertIdx_append (front back : List α) (item : α) :
    (front ++ back).insertIdx front.length item = front ++ item :: back := by
  induction front with
  | nil => rfl
  | cons first front ih => exact congrArg (first :: ·) ih

/-- Behind the last of some items comes what is put behind its key. -/
theorem insertAfter_last (h : (front.map key).Nodup) (new : α) :
    insertAfter key (front ++ back) (front.map key).getLast? new =
      some (front ++ new :: back) := by
  obtain rfl | ⟨init, last, rfl⟩ := List.eq_nil_or_concat' front
  · rfl
  · rw [List.map_append, List.map_singleton] at h ⊢
    have hinit : ∀ other ∈ init, key other ≠ key last := fun other hother =>
      (List.nodup_append.mp h).2.2 _ (List.mem_map_of_mem hother) _ List.mem_cons_self
    have hposition : position key (init ++ last :: back) (key last) = some init.length :=
      position_append_cons hinit
    unfold insertAfter
    rw [List.getLast?_concat, List.append_assoc, List.singleton_append]
    dsimp only
    rw [hposition, Option.map_some]
    have hinsert := insertIdx_append (init ++ [last]) back new
    rw [List.length_append, List.length_singleton] at hinsert
    simpa using hinsert

/-- Another item is still there when one is taken from its place. -/
theorem mem_eraseIdx_of_ne {items : List α} {i : Nat} {a b : α} (ha : items[i]? = some a)
    (hb : b ∈ items) (hne : b ≠ a) : b ∈ items.eraseIdx i := by
  rw [List.mem_eraseIdx_iff_getElem?]
  obtain ⟨j, hj⟩ := List.getElem?_of_mem hb
  refine ⟨j, ?_, hj⟩
  rintro rfl
  exact hne (Option.some.inj (hj.symm.trans ha))

end Zeron.Lib.Keyed
