import Mathlib.Logic.Function.Basic
import Mathlib.Logic.Relation
import Mathlib.Order.Nat

/-!
# Versioned tables

A table whose every row carries the version that last wrote it. The point of the stamp is delta
sync: a replica that holds version `m` reaches version `n` on the rows of version `n` stamped above
`m` alone, because a row stamped at most `m` has not changed since `m`.
-/

namespace Zeron.Lib

variable {κ ρ : Type*}

/-- The view holds every row of the table; it may hold more. -/
def Covers (view table : κ → Option ρ) : Prop := ∀ k r, table k = some r → view k = some r

section Overwrite

variable [DecidableEq κ] (keyOf : ρ → κ)

/-- Puts the rows into the view, one after the other. -/
def overwrite (view : κ → Option ρ) (rows : List ρ) : κ → Option ρ :=
  rows.foldl (fun view r => Function.update view (keyOf r) (some r)) view

variable {keyOf}

theorem overwrite_of_not_mem {view : κ → Option ρ} {rows : List ρ} {k : κ}
    (h : ∀ r ∈ rows, keyOf r ≠ k) : overwrite keyOf view rows k = view k := by
  induction rows generalizing view with
  | nil => rfl
  | cons r rows ih =>
      unfold overwrite at ih ⊢
      rw [List.foldl_cons, ih fun r' h' => h r' (List.mem_cons_of_mem _ h'),
        Function.update_of_ne (h r List.mem_cons_self).symm]

/-- Where all rows are taken from one table, their order does not matter. -/
theorem overwrite_of_mem (table : κ → Option ρ) {view : κ → Option ρ} {rows : List ρ} {r : ρ}
    (htable : ∀ r ∈ rows, table (keyOf r) = some r) (h : r ∈ rows) :
    overwrite keyOf view rows (keyOf r) = some r := by
  induction rows generalizing view with
  | nil => cases h
  | cons r' rows ih =>
      have htable' : ∀ r ∈ rows, table (keyOf r) = some r :=
        fun r hr => htable r (List.mem_cons_of_mem _ hr)
      by_cases hlater : ∃ r'' ∈ rows, keyOf r'' = keyOf r
      · obtain ⟨r'', hr'', hkey⟩ := hlater
        have heq : r'' = r := by
          have hr := htable r h
          rw [← hkey, htable' r'' hr''] at hr
          exact Option.some.inj hr
        exact ih htable' (heq ▸ hr'')
      · have hhead : r = r' := by
          obtain rfl | hr := List.mem_cons.mp h
          · rfl
          · exact absurd ⟨r, hr, rfl⟩ hlater
        have hrest : ∀ r'' ∈ rows, keyOf r'' ≠ keyOf r :=
          fun r'' hr'' hkey => hlater ⟨r'', hr'', hkey⟩
        subst hhead
        change overwrite keyOf (Function.update view (keyOf r) (some r)) rows (keyOf r) = some r
        rw [overwrite_of_not_mem hrest, Function.update_self]

end Overwrite

/-- The history of a table. Version `n + 1` rewrites rows of version `n` and stamps the rewritten
ones; a row never leaves the table, and a later version of it comes from the earlier by `writes`. -/
structure Versions (keyOf : ρ → κ) (stamp : ρ → Nat) (writes : ρ → ρ → Prop) where
  table : Nat → κ → Option ρ
  zero : ∀ k, table 0 k = none
  keyed : ∀ n k r, table n k = some r → keyOf r = k
  step : ∀ n k, table (n + 1) k = table n k ∨ ∃ r, table (n + 1) k = some r ∧ stamp r = n + 1
  grow : ∀ n k r, table n k = some r →
    ∃ r', table (n + 1) k = some r' ∧ Relation.ReflTransGen writes r r'

namespace Versions

variable {keyOf : ρ → κ} {stamp : ρ → Nat} {writes : ρ → ρ → Prop}
  (versions : Versions keyOf stamp writes)

theorem stamp_le {n : Nat} {k : κ} {r : ρ} (h : versions.table n k = some r) : stamp r ≤ n := by
  induction n with
  | zero => simp [versions.zero] at h
  | succ n ih =>
      obtain hsame | ⟨r', hr', hstamp⟩ := versions.step n k
      · exact (ih (hsame ▸ h)).trans (Nat.le_succ n)
      · rw [h, Option.some.injEq] at hr'
        rw [hr', hstamp]

theorem stamp_pos {n : Nat} {k : κ} {r : ρ} (h : versions.table n k = some r) : 0 < stamp r := by
  induction n with
  | zero => simp [versions.zero] at h
  | succ n ih =>
      obtain hsame | ⟨r', hr', hstamp⟩ := versions.step n k
      · exact ih (hsame ▸ h)
      · rw [h, Option.some.injEq] at hr'
        rw [hr', hstamp]
        exact Nat.succ_pos n

/-- A row whose stamp is not above `m` was there in version `m` already. -/
theorem table_of_stamp_le {m n : Nat} {k : κ} {r : ρ} (hle : m ≤ n)
    (h : versions.table n k = some r) (hstamp : stamp r ≤ m) : versions.table m k = some r := by
  induction hle with
  | refl => exact h
  | @step n hmn ih =>
      obtain hsame | ⟨r', hr', hstamp'⟩ := versions.step n k
      · exact ih (hsame ▸ h)
      · rw [h, Option.some.injEq] at hr'
        subst hr'
        have hle : m ≤ n := hmn
        omega

/-- What every write keeps, later versions keep. -/
theorem later {P : ρ → Prop} (hwrites : ∀ r r', writes r r' → P r → P r') {m n : Nat} {k : κ}
    {r : ρ} (hle : m ≤ n) (h : versions.table m k = some r) (hP : P r) :
    ∃ r', versions.table n k = some r' ∧ P r' := by
  induction hle with
  | refl => exact ⟨r, h, hP⟩
  | @step n _ ih =>
      obtain ⟨mid, hmid, hPmid⟩ := ih
      obtain ⟨r', hr', hsteps⟩ := versions.grow n k mid hmid
      refine ⟨r', hr', ?_⟩
      clear hr'
      induction hsteps with
      | refl => exact hPmid
      | tail _ hwrite ih => exact hwrites _ _ hwrite ih

section Delta

/-- The rows of version `n` stamped above `m`. -/
def IsDelta (m n : Nat) (rows : List ρ) : Prop :=
  m ≤ n ∧ ∀ r, r ∈ rows ↔ versions.table n (keyOf r) = some r ∧ m < stamp r

variable {versions} [DecidableEq κ] {m n : Nat} {rows : List ρ} {view : κ → Option ρ}

/-- **Delta sync.** Over a view that holds version `m`, the delta gives one that holds `n`. -/
theorem IsDelta.covers (h : versions.IsDelta m n rows) (hview : Covers view (versions.table m)) :
    Covers (overwrite keyOf view rows) (versions.table n) := by
  intro k r hr
  have hkey : keyOf r = k := versions.keyed n k r hr
  subst hkey
  have htable : ∀ r' ∈ rows, versions.table n (keyOf r') = some r' := fun r' h' => ((h.2 r').mp h').1
  by_cases hstamp : m < stamp r
  · exact overwrite_of_mem _ htable ((h.2 r).mpr ⟨hr, hstamp⟩)
  · have hold : versions.table m (keyOf r) = some r :=
      versions.table_of_stamp_le h.1 hr (Nat.le_of_not_lt hstamp)
    rw [overwrite_of_not_mem, hview _ _ hold]
    intro r' h' hkey
    obtain ⟨hr', hstamp'⟩ := (h.2 r').mp h'
    rw [hkey, hr, Option.some.injEq] at hr'
    exact hstamp (hr' ▸ hstamp')

/-- A delta says nothing about the rows the table does not have. -/
theorem IsDelta.overwrite_of_none (h : versions.IsDelta m n rows) {k : κ}
    (hk : versions.table n k = none) : overwrite keyOf view rows k = view k := by
  refine overwrite_of_not_mem fun r hr hkey => ?_
  have hrow := ((h.2 r).mp hr).1
  rw [hkey, hk] at hrow
  cases hrow

end Delta

section Extend

/-- No row was ever written. -/
def empty : Versions keyOf stamp writes where
  table _ _ := none
  zero _ := rfl
  keyed _ _ _ h := nomatch h
  step _ _ := Or.inl rfl
  grow _ _ _ h := nomatch h

variable (head : Nat) (next : κ → Option ρ) (hkeyed : ∀ k r, next k = some r → keyOf r = k)
  (hstep : ∀ k, next k = versions.table head k ∨ ∃ r, next k = some r ∧ stamp r = head + 1)
  (hgrow : ∀ k r, versions.table head k = some r →
    ∃ r', next k = some r' ∧ Relation.ReflTransGen writes r r')

/-- The history up to `head`, with `next` as the version after it. -/
def extend : Versions keyOf stamp writes where
  table n := if n ≤ head then versions.table n else next
  zero k := by simp [versions.zero]
  keyed n k r h := by
    split at h
    · exact versions.keyed n k r h
    · exact hkeyed k r h
  step n k := by
    obtain hlt | heq | hgt := lt_trichotomy n head
    · rw [if_pos (Nat.succ_le_of_lt hlt), if_pos hlt.le]
      exact versions.step n k
    · subst heq
      rw [if_neg (by omega), if_pos (le_refl n)]
      exact hstep k
    · rw [if_neg (by omega), if_neg (by omega)]
      exact Or.inl rfl
  grow n k r h := by
    obtain hlt | heq | hgt := lt_trichotomy n head
    · rw [if_pos hlt.le] at h
      rw [if_pos (Nat.succ_le_of_lt hlt)]
      exact versions.grow n k r h
    · subst heq
      rw [if_pos (le_refl n)] at h
      rw [if_neg (by omega)]
      exact hgrow k r h
    · rw [if_neg (by omega)] at h ⊢
      exact ⟨r, h, Relation.ReflTransGen.refl⟩

theorem extend_table_of_le {n : Nat} (h : n ≤ head) :
    (versions.extend head next hkeyed hstep hgrow).table n = versions.table n :=
  if_pos h

theorem extend_table_succ :
    (versions.extend head next hkeyed hstep hgrow).table (head + 1) = next :=
  if_neg (by omega)

end Extend

end Versions

end Zeron.Lib
