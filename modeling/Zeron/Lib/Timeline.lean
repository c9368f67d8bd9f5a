import Mathlib.Data.List.Basic
import Mathlib.Logic.Function.Iterate

/-!
# Undo and redo

A history is a timeline of values with a position in it. Undo and redo move the position, an edit
drops what is behind it; the ends of the timeline are what undoing and redoing come to.
-/

namespace Zeron.Lib

/-- The nearest value is in front on either side. -/
structure Timeline (α : Type*) where
  past : List α
  present : α
  future : List α

namespace Timeline

variable {α : Type*}

/-- The earliest value. -/
def first (timeline : Timeline α) : α := timeline.past.getLast?.getD timeline.present

/-- The latest value. -/
def last (timeline : Timeline α) : α := timeline.future.getLast?.getD timeline.present

def undo (timeline : Timeline α) : Timeline α :=
  match timeline.past with
  | [] => timeline
  | previous :: past => ⟨past, previous, timeline.present :: timeline.future⟩

def redo (timeline : Timeline α) : Timeline α :=
  match timeline.future with
  | [] => timeline
  | next :: future => ⟨timeline.present :: timeline.past, next, future⟩

theorem getLast?_getD_cons (a : α) (values : List α) (b : α) :
    (a :: values).getLast?.getD b = values.getLast?.getD a := by
  cases values with
  | nil => rfl
  | cons c values => rw [List.getLast?_cons_cons, List.getLast?_cons, Option.getD_some, Option.getD_some]

@[simp]
theorem first_undo (timeline : Timeline α) : timeline.undo.first = timeline.first := by
  obtain ⟨past, present, future⟩ := timeline
  cases past with
  | nil => rfl
  | cons previous past => exact (getLast?_getD_cons previous past present).symm

@[simp]
theorem last_undo (timeline : Timeline α) : timeline.undo.last = timeline.last := by
  obtain ⟨past, present, future⟩ := timeline
  cases past with
  | nil => rfl
  | cons previous past => exact getLast?_getD_cons present future previous

@[simp]
theorem first_redo (timeline : Timeline α) : timeline.redo.first = timeline.first := by
  obtain ⟨past, present, future⟩ := timeline
  cases future with
  | nil => rfl
  | cons next future => exact getLast?_getD_cons present past next

@[simp]
theorem last_redo (timeline : Timeline α) : timeline.redo.last = timeline.last := by
  obtain ⟨past, present, future⟩ := timeline
  cases future with
  | nil => rfl
  | cons next future => exact (getLast?_getD_cons next future present).symm

theorem past_undo (timeline : Timeline α) : timeline.undo.past = timeline.past.tail := by
  rw [undo]
  split <;> simp [*]

theorem future_redo (timeline : Timeline α) : timeline.redo.future = timeline.future.tail := by
  rw [redo]
  split <;> simp [*]

/-- Undoing as often as there is something to undo comes to the earliest value, and keeps the latest. -/
theorem undo_iterate (timeline : Timeline α) {n : Nat} (hn : timeline.past.length = n) :
    (undo^[n] timeline).past = [] ∧ (undo^[n] timeline).present = timeline.first ∧
      (undo^[n] timeline).last = timeline.last := by
  induction n generalizing timeline with
  | zero =>
      obtain ⟨past, present, future⟩ := timeline
      obtain rfl := List.eq_nil_of_length_eq_zero hn
      exact ⟨rfl, rfl, rfl⟩
  | succ n ih =>
      have hlength : timeline.undo.past.length = n := by
        rw [past_undo, List.length_tail, hn, Nat.add_sub_cancel]
      obtain ⟨hpast, hpresent, hlast⟩ := ih timeline.undo hlength
      rw [Function.iterate_succ_apply]
      exact ⟨hpast, hpresent.trans (first_undo timeline), hlast.trans (last_undo timeline)⟩

/-- Redoing as often as there is something to redo comes to the latest value. -/
theorem redo_iterate (timeline : Timeline α) {n : Nat} (hn : timeline.future.length = n) :
    (redo^[n] timeline).future = [] ∧ (redo^[n] timeline).present = timeline.last := by
  induction n generalizing timeline with
  | zero =>
      obtain ⟨past, present, future⟩ := timeline
      obtain rfl := List.eq_nil_of_length_eq_zero hn
      exact ⟨rfl, rfl⟩
  | succ n ih =>
      have hlength : timeline.redo.future.length = n := by
        rw [future_redo, List.length_tail, hn, Nat.add_sub_cancel]
      obtain ⟨hfuture, hpresent⟩ := ih timeline.redo hlength
      rw [Function.iterate_succ_apply]
      exact ⟨hfuture, hpresent.trans (last_redo timeline)⟩

end Timeline

end Zeron.Lib
