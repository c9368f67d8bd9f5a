import Mathlib.Data.List.Perm.Basic

/-!
# Keyed writes

A loop that writes entries into a state, each under its own key, where a write neither sees nor
touches what stands under the other keys. What such a loop leaves under a key depends on the one
entry with that key, so it does not depend on the order of the entries.
-/

namespace Zeron.Lib

variable {σ κ α β : Type*}

/-- `write` acts on the view of its own key by `effect` and on no other view; it raises the flag of
the state when `fires` says so. -/
structure KeyedWrites (write : σ → κ → α → σ) (view : σ → κ → β) (flag : σ → Bool)
    (effect : κ → α → β → β) (fires : κ → α → β → Bool) : Prop where
  self : ∀ s k a, view (write s k a) k = effect k a (view s k)
  other : ∀ s k a k', k' ≠ k → view (write s k a) k' = view s k'
  flag : ∀ s k a, flag (write s k a) = (flag s || fires k a (view s k))

namespace KeyedWrites

variable {write : σ → κ → α → σ} {view : σ → κ → β} {flag : σ → Bool} {effect : κ → α → β → β}
  {fires : κ → α → β → Bool} {entries : List (κ × α)}

def all (write : σ → κ → α → σ) (s : σ) (entries : List (κ × α)) : σ :=
  entries.foldl (fun s entry => write s entry.1 entry.2) s

def Distinct (entries : List (κ × α)) : Prop := entries.Pairwise fun a b => a.1 ≠ b.1

theorem Distinct.perm {entries' : List (κ × α)} (h : Distinct entries)
    (hperm : entries.Perm entries') : Distinct entries' :=
  (hperm.pairwise_iff fun hne => hne.symm).mp h

theorem view_of_not_mem (w : KeyedWrites write view flag effect fires) (s : σ) {k : κ}
    (h : ∀ entry ∈ entries, entry.1 ≠ k) : view (all write s entries) k = view s k := by
  induction entries generalizing s with
  | nil => rfl
  | cons entry entries ih =>
      have hrest := ih (write s entry.1 entry.2) fun e he => h e (List.mem_cons_of_mem _ he)
      exact hrest.trans (w.other s entry.1 entry.2 k (h entry List.mem_cons_self).symm)

theorem view_of_mem (w : KeyedWrites write view flag effect fires) (s : σ) {k : κ} {a : α}
    (hdistinct : Distinct entries) (h : (k, a) ∈ entries) :
    view (all write s entries) k = effect k a (view s k) := by
  induction entries generalizing s with
  | nil => cases h
  | cons entry entries ih =>
      obtain ⟨hhead, hrest⟩ := List.pairwise_cons.mp hdistinct
      obtain rfl | htail := List.mem_cons.mp h
      · exact (w.view_of_not_mem (write s k a) fun e he => (hhead e he).symm).trans (w.self s k a)
      · have hne : k ≠ entry.1 := (hhead _ htail).symm
        exact (ih (write s entry.1 entry.2) hrest htail).trans
          (congrArg (effect k a) (w.other s entry.1 entry.2 k hne))

/-- The flag is up at the end if it was up before, or if some entry fires on the view of its key. -/
theorem flag_all (w : KeyedWrites write view flag effect fires) (s : σ)
    (hdistinct : Distinct entries) :
    flag (all write s entries) =
      (flag s || entries.any fun entry => fires entry.1 entry.2 (view s entry.1)) := by
  induction entries generalizing s with
  | nil => simp [all]
  | cons entry entries ih =>
      obtain ⟨hhead, hrest⟩ := List.pairwise_cons.mp hdistinct
      have hviews : (entries.any fun e => fires e.1 e.2 (view (write s entry.1 entry.2) e.1)) =
          entries.any fun e => fires e.1 e.2 (view s e.1) := by
        rw [Bool.eq_iff_iff, List.any_eq_true, List.any_eq_true]
        refine exists_congr fun e => and_congr_right fun he => ?_
        rw [w.other s entry.1 entry.2 e.1 (hhead e he).symm]
      calc flag (all write s (entry :: entries))
          = flag (all write (write s entry.1 entry.2) entries) := rfl
        _ = _ := by rw [ih _ hrest, hviews, w.flag, List.any_cons, Bool.or_assoc]

end KeyedWrites

end Zeron.Lib
