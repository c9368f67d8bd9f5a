import Mathlib.Data.List.Nodup
import Mathlib.Data.Set.Insert

/-!
# Claim boards

Work that may be done at most once, by holders that may vanish at any point: a key is claimed by
taking it off a board that never gives it back, and only its holder may do it. Claims are lost when
a holder vanishes, so a key may never be done; it is never done twice.
-/

namespace Zeron.Lib

structure Board (π κ : Type*) where
  /-- The keys that were ever claimed, by these holders or before them. -/
  taken : Set κ
  holds : π → Option κ
  done : List κ

namespace Board

variable {π κ : Type*}

/-- What a step may do to a board. -/
inductive Move (b b' : Board π κ) : Prop where
  /-- Claims may be dropped and keys may be taken by others. -/
  | release (htaken : b.taken ⊆ b'.taken) (hdone : b'.done = b.done)
      (hholds : ∀ p key, b'.holds p = some key → b.holds p = some key)
  | claim (p : π) (key : κ) (hfresh : key ∉ b.taken) (htaken : b'.taken = insert key b.taken)
      (hdone : b'.done = b.done) (hholds : b'.holds p = some key)
      (hothers : ∀ q, q ≠ p → b'.holds q = b.holds q)
  | finish (p : π) (key : κ) (hholds : b.holds p = some key) (htaken : b'.taken = b.taken)
      (hdone : b'.done = b.done ++ [key]) (hreleased : b'.holds p = none)
      (hothers : ∀ q, q ≠ p → b'.holds q = b.holds q)

/-- Each claim is somebody's, taken, and not done yet. -/
structure Sound (b : Board π κ) : Prop where
  done_nodup : b.done.Nodup
  done_taken : ∀ key ∈ b.done, key ∈ b.taken
  held_taken : ∀ p key, b.holds p = some key → key ∈ b.taken
  held_not_done : ∀ p key, b.holds p = some key → key ∉ b.done
  held_once : ∀ p q key, b.holds p = some key → b.holds q = some key → p = q

theorem Sound.of_idle {b : Board π κ} (hholds : ∀ p, b.holds p = none) (hdone : b.done = []) :
    b.Sound := by
  constructor <;> simp [hholds, hdone]

theorem Sound.release {b b' : Board π κ} (h : b.Sound) (htaken : b.taken ⊆ b'.taken)
    (hdone : b'.done = b.done)
    (hholds : ∀ p key, b'.holds p = some key → b.holds p = some key) : b'.Sound where
  done_nodup := hdone ▸ h.done_nodup
  done_taken key hkey := htaken (h.done_taken key (hdone ▸ hkey))
  held_taken p key hp := htaken (h.held_taken p key (hholds p key hp))
  held_not_done p key hp := hdone ▸ h.held_not_done p key (hholds p key hp)
  held_once p q key hp hq := h.held_once p q key (hholds p key hp) (hholds q key hq)

theorem Sound.claim {b b' : Board π κ} (h : b.Sound) {p : π} {key : κ} (hfresh : key ∉ b.taken)
    (htaken : b'.taken = insert key b.taken) (hdone : b'.done = b.done)
    (hholds : b'.holds p = some key) (hothers : ∀ q, q ≠ p → b'.holds q = b.holds q) :
    b'.Sound := by
  -- Every claim but the new one is an old one, on a key that was taken before.
  have hold : ∀ q other, b'.holds q = some other → q = p ∧ other = key ∨
      q ≠ p ∧ b.holds q = some other ∧ other ≠ key := by
    intro q other hq
    by_cases hqp : q = p
    · subst hqp
      exact .inl ⟨rfl, Option.some_inj.mp (hq.symm.trans hholds)⟩
    · have hq' : b.holds q = some other := hothers q hqp ▸ hq
      refine .inr ⟨hqp, hq', ?_⟩
      rintro rfl
      exact hfresh (h.held_taken q other hq')
  constructor
  · exact hdone ▸ h.done_nodup
  · intro other hother
    rw [htaken]
    exact .inr (h.done_taken other (hdone ▸ hother))
  · intro q other hq
    rw [htaken]
    obtain ⟨-, rfl⟩ | ⟨-, hq', -⟩ := hold q other hq
    · exact .inl rfl
    · exact .inr (h.held_taken q other hq')
  · intro q other hq
    rw [hdone]
    obtain ⟨-, rfl⟩ | ⟨-, hq', -⟩ := hold q other hq
    · exact fun hmem => hfresh (h.done_taken other hmem)
    · exact h.held_not_done q other hq'
  · intro q r other hq hr
    obtain ⟨rfl, rfl⟩ | ⟨-, hq', hne⟩ := hold q other hq
    · obtain ⟨rfl, -⟩ | ⟨-, -, hne⟩ := hold r other hr
      · rfl
      · exact absurd rfl hne
    · obtain ⟨-, rfl⟩ | ⟨-, hr', -⟩ := hold r other hr
      · exact absurd rfl hne
      · exact h.held_once q r other hq' hr'

theorem Sound.finish {b b' : Board π κ} (h : b.Sound) {p : π} {key : κ}
    (hholds : b.holds p = some key) (htaken : b'.taken = b.taken)
    (hdone : b'.done = b.done ++ [key]) (hreleased : b'.holds p = none)
    (hothers : ∀ q, q ≠ p → b'.holds q = b.holds q) : b'.Sound := by
  -- The claims that remain are held by others, so on other keys.
  have hold : ∀ q other, b'.holds q = some other → b.holds q = some other ∧ other ≠ key := by
    intro q other hq
    have hqp : q ≠ p := by
      rintro rfl
      rw [hreleased] at hq
      cases hq
    have hq' : b.holds q = some other := hothers q hqp ▸ hq
    refine ⟨hq', ?_⟩
    rintro rfl
    exact hqp (h.held_once q p other hq' hholds)
  constructor
  · rw [hdone, ← List.concat_eq_append]
    exact List.Nodup.concat (h.held_not_done p key hholds) h.done_nodup
  · intro other hother
    rw [hdone, List.mem_append, List.mem_singleton] at hother
    rw [htaken]
    obtain hother | rfl := hother
    · exact h.done_taken other hother
    · exact h.held_taken p other hholds
  · intro q other hq
    rw [htaken]
    exact h.held_taken q other (hold q other hq).1
  · intro q other hq
    obtain ⟨hq', hne⟩ := hold q other hq
    rw [hdone, List.mem_append, List.mem_singleton]
    rintro (hmem | heq)
    · exact h.held_not_done q other hq' hmem
    · exact hne heq
  · intro q r other hq hr
    exact h.held_once q r other (hold q other hq).1 (hold r other hr).1

/-- **Board rule.** Every move keeps a board sound. -/
theorem Sound.move {b b' : Board π κ} (h : b.Sound) (hmove : b.Move b') : b'.Sound := by
  cases hmove with
  | release htaken hdone hholds => exact h.release htaken hdone hholds
  | claim p key hfresh htaken hdone hholds hothers =>
      exact h.claim hfresh htaken hdone hholds hothers
  | finish p key hholds htaken hdone hreleased hothers =>
      exact h.finish hholds htaken hdone hreleased hothers

end Board

end Zeron.Lib
