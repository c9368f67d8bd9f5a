import Mathlib.Logic.Relation

/-!
# Machines and their runs

A machine is a state with a partial step function; whatever is not determined (which party moves,
what it is told) is part of the action. Runs are lists of actions, so a concrete run evaluates.

A guard restricts the steps a run may take. Safety under a guard is one induction, stated here once:
a predicate that the initial states have and that every guarded step keeps holds in every state that
a guarded run reaches.
-/

namespace Zeron.Lib

structure Machine (σ α : Type*) where
  init : σ → Prop
  step : σ → α → Option σ

namespace Machine

variable {σ α : Type*} (machine : Machine σ α) (guard : σ → α → Prop)

/-- One step that the guard admits. -/
def Next (s s' : σ) : Prop := ∃ a, guard s a ∧ machine.step s a = some s'

def Steps : σ → σ → Prop := Relation.ReflTransGen (machine.Next guard)

/-- The state can be reached by steps that all meet the guard. -/
def ReachableWhen (s : σ) : Prop := ∃ s₀, machine.init s₀ ∧ machine.Steps guard s₀ s

/-- The guard that admits every step. -/
def anyStep : σ → α → Prop := fun _ _ => True

instance (s : σ) (a : α) : Decidable (anyStep s a) := .isTrue trivial

def Reachable (s : σ) : Prop := machine.ReachableWhen anyStep s

def run : σ → List α → Option σ
  | s, [] => some s
  | s, a :: actions => (machine.step s a).bind fun s' => run s' actions

/-- Runs the actions and stops at the first that the guard refuses. -/
def runWhen [∀ s a, Decidable (guard s a)] : σ → List α → Option σ
  | s, [] => some s
  | s, a :: actions =>
      if guard s a then (machine.step s a).bind fun s' => runWhen s' actions else none

variable {machine guard}

theorem Steps.refl (s : σ) : machine.Steps guard s s := Relation.ReflTransGen.refl

theorem Steps.trans {s₁ s₂ s₃ : σ} (h₁ : machine.Steps guard s₁ s₂)
    (h₂ : machine.Steps guard s₂ s₃) : machine.Steps guard s₁ s₃ :=
  Relation.ReflTransGen.trans h₁ h₂

theorem Steps.head {s₁ s₂ s₃ : σ} {a : α} (hguard : guard s₁ a)
    (hstep : machine.step s₁ a = some s₂) (h : machine.Steps guard s₂ s₃) :
    machine.Steps guard s₁ s₃ :=
  Relation.ReflTransGen.head ⟨a, hguard, hstep⟩ h

theorem Steps.tail {s₁ s₂ s₃ : σ} {a : α} (h : machine.Steps guard s₁ s₂)
    (hguard : guard s₂ a) (hstep : machine.step s₂ a = some s₃) : machine.Steps guard s₁ s₃ :=
  Relation.ReflTransGen.tail h ⟨a, hguard, hstep⟩

theorem Steps.mono {weaker : σ → α → Prop} (hle : ∀ s a, guard s a → weaker s a) {s s' : σ}
    (h : machine.Steps guard s s') : machine.Steps weaker s s' := by
  have hnext : ∀ s s', machine.Next guard s s' → machine.Next weaker s s' := by
    rintro s s' ⟨a, hguard, hstep⟩
    exact ⟨a, hle s a hguard, hstep⟩
  exact Relation.ReflTransGen.mono hnext _ _ h

/-- **Run rule.** What every guarded step keeps, a guarded run keeps. -/
theorem Steps.invariant {I : σ → Prop}
    (hstep : ∀ s a s', I s → guard s a → machine.step s a = some s' → I s')
    {s s' : σ} (h : machine.Steps guard s s') (hinv : I s) : I s' := by
  induction h with
  | refl => exact hinv
  | tail _ hnext ih =>
      obtain ⟨a, hguard, ha⟩ := hnext
      exact hstep _ a _ ih hguard ha

/-- **Reachability rule.** An inductive invariant holds in every reachable state. -/
theorem ReachableWhen.invariant {I : σ → Prop} (hinit : ∀ s, machine.init s → I s)
    (hstep : ∀ s a s', I s → guard s a → machine.step s a = some s' → I s')
    {s : σ} (h : machine.ReachableWhen guard s) : I s := by
  obtain ⟨s₀, hs₀, hsteps⟩ := h
  exact hsteps.invariant hstep (hinit s₀ hs₀)

theorem ReachableWhen.steps {s s' : σ} (h : machine.ReachableWhen guard s)
    (hsteps : machine.Steps guard s s') : machine.ReachableWhen guard s' := by
  obtain ⟨s₀, hs₀, h₀⟩ := h
  exact ⟨s₀, hs₀, h₀.trans hsteps⟩

theorem ReachableWhen.mono {weaker : σ → α → Prop} (hle : ∀ s a, guard s a → weaker s a) {s : σ}
    (h : machine.ReachableWhen guard s) : machine.ReachableWhen weaker s := by
  obtain ⟨s₀, hs₀, hsteps⟩ := h
  exact ⟨s₀, hs₀, hsteps.mono hle⟩

/-- An evaluated guarded run is a sequence of guarded steps. -/
theorem steps_of_runWhen [∀ s a, Decidable (guard s a)] {s s' : σ} {actions : List α}
    (h : machine.runWhen guard s actions = some s') : machine.Steps guard s s' := by
  induction actions generalizing s with
  | nil =>
      cases h
      exact Steps.refl _
  | cons a actions ih =>
      unfold runWhen at h
      split at h
      · rename_i hguard
        obtain ⟨next, hnext, hrest⟩ := Option.bind_eq_some_iff.mp h
        exact Steps.head hguard hnext (ih hrest)
      · cases h

theorem run_append (s : σ) (actions actions' : List α) :
    machine.run s (actions ++ actions') =
      (machine.run s actions).bind fun s' => machine.run s' actions' := by
  induction actions generalizing s with
  | nil => rfl
  | cons a actions ih =>
      rw [List.cons_append, run, run, Option.bind_assoc]
      exact congrArg _ (funext ih)

theorem run_concat (s : σ) (actions : List α) (a : α) :
    machine.run s (actions ++ [a]) = (machine.run s actions).bind (machine.step · a) := by
  rw [run_append]
  refine congrArg _ (funext fun s' => ?_)
  rw [run]
  cases machine.step s' a <;> rfl

theorem steps_of_run {s s' : σ} {actions : List α} (h : machine.run s actions = some s') :
    machine.Steps anyStep s s' := by
  induction actions generalizing s with
  | nil =>
      cases h
      exact Steps.refl _
  | cons a actions ih =>
      obtain ⟨next, hnext, hrest⟩ := Option.bind_eq_some_iff.mp h
      exact Steps.head trivial hnext (ih hrest)

/-- **Termination rule.** A run has at most as many steps as a measure that each of them lowers. -/
theorem length_add_le_of_run {I : σ → Prop} {measure : σ → Nat} {admitted : α → Prop}
    (hstep : ∀ s a s', I s → admitted a → machine.step s a = some s' →
      I s' ∧ measure s' < measure s)
    {s s' : σ} {actions : List α} (hinv : I s) (hadmitted : ∀ a ∈ actions, admitted a)
    (h : machine.run s actions = some s') : actions.length + measure s' ≤ measure s := by
  induction actions generalizing s with
  | nil =>
      cases h
      simp
  | cons a actions ih =>
      obtain ⟨next, hnext, hrest⟩ := Option.bind_eq_some_iff.mp h
      obtain ⟨hinv', hlt⟩ := hstep s a next hinv (hadmitted a List.mem_cons_self) hnext
      have hle := ih hinv' (fun b hb => hadmitted b (List.mem_cons_of_mem a hb)) hrest
      rw [List.length_cons]
      omega

/-- An evaluated guarded run that ends in a state with an evaluated property. -/
theorem exists_steps_of_runWhen (machine : Machine σ α) (guard : σ → α → Prop)
    [∀ s a, Decidable (guard s a)] {s : σ} (actions : List α) {p : σ → Bool}
    (h : (machine.runWhen guard s actions).any p = true) :
    ∃ s', machine.Steps guard s s' ∧ p s' = true := by
  cases hrun : machine.runWhen guard s actions with
  | none => simp [hrun] at h
  | some s' => exact ⟨s', steps_of_runWhen hrun, by simpa [hrun] using h⟩

theorem reachable_of_run {s₀ s : σ} {actions : List α} (hinit : machine.init s₀)
    (h : machine.run s₀ actions = some s) : machine.Reachable s :=
  ⟨s₀, hinit, steps_of_run h⟩

end Machine

end Zeron.Lib
