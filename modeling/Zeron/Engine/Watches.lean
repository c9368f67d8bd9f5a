import Mathlib.Data.List.Basic
import Mathlib.Logic.Function.Basic
import Zeron.Lib.Machine

/-!
# Watches of the registry

`WorkspaceHost` of `crates/engine/src/workspace_host.rs`: a publish reads all rows under the lock of
the registry and sends them to one watch after the other, a save exports under the lock and writes to
the store. The change task does both, and so do other tasks. The watch of the devices, which also
shows presence, is left out.
-/

namespace Zeron.Engine.Watches

open Zeron.Lib (Machine)

inductive Target where
  | chats
  | sessions
  | spaces
  /-- The stored snapshot. -/
  | stored
deriving DecidableEq

/-- A publish or a save under way. `version` counts the changes before the read. -/
structure Flight (R : Type*) where
  read : Option (Nat × R)
  left : List Target
deriving DecidableEq

def publish {R : Type*} : Flight R := { read := none, left := [.chats, .sessions, .spaces] }

def saveSnapshot {R : Type*} : Flight R := { read := none, left := [.stored] }

inductive Task (R : Type*) where
  | waiting
  | running (flight : Flight R) (change : Bool)
deriving DecidableEq

/-- `version` and `sent` are kept for the statements: the number of changes, and of those that each
target's value has seen. -/
structure Host (R V : Type*) where
  reg : R
  version : Nat
  /-- Changes whose bump of the counter is to come. -/
  unbumped : Nat
  changed : Nat
  seen : Nat
  task : Task R
  /-- `save_deadline` is set. -/
  saveDue : Bool
  others : List (Flight R)
  values : Target → V
  sent : Target → Nat

inductive Action (R : Type*) where
  /-- A local mutation or a server frame, under the lock. -/
  | change (reg : R)
  | bump
  /-- A bump with no change: the room is joined. -/
  | joined
  | taskChanged
  | taskDeadline
  | taskPresence
  | taskAdvance
  /-- Another task publishes, or saves. -/
  | publish
  | save
  | advance (i : Nat)
deriving DecidableEq

namespace Host

variable {R V : Type*} (view : Target → R → V)

def start (reg : R) : Host R V :=
  { reg, version := 0, unbumped := 0, changed := 0, seen := 0, task := .waiting, saveDue := false
    others := [], values := fun target => view target reg, sent := fun _ => 0 }

variable (host : Host R V)

def deliver (target : Target) (copy : Nat × R) : Host R V :=
  { host with
    values := Function.update host.values target (view target copy.2)
    sent := Function.update host.sent target copy.1 }

/-- The next step of a publish or a save: the read, or one send. -/
def advance (flight : Flight R) : Option (Host R V × Flight R) :=
  match flight.read, flight.left with
  | none, _ => some (host, { flight with read := some (host.version, host.reg) })
  | some copy, target :: left => some (host.deliver view target copy, { flight with left })
  | some _, [] => none

def step (host : Host R V) : Action R → Option (Host R V)
  | .change reg =>
      some { host with reg, version := host.version + 1, unbumped := host.unbumped + 1 }
  | .bump =>
      if host.unbumped = 0 then none
      else some { host with unbumped := host.unbumped - 1, changed := host.changed + 1 }
  | .joined => some { host with changed := host.changed + 1 }
  | .taskChanged =>
      match host.task with
      | .waiting =>
          if host.seen = host.changed then none
          else some { host with seen := host.changed, task := .running publish true }
      | .running _ _ => none
  | .taskDeadline =>
      match host.task with
      | .waiting =>
          if host.saveDue then
            some { host with saveDue := false, task := .running saveSnapshot false }
          else none
      | .running _ _ => none
  | .taskPresence =>
      match host.task with
      | .waiting => some { host with task := .running publish false }
      | .running _ _ => none
  | .taskAdvance =>
      match host.task with
      | .waiting => none
      | .running flight change =>
          match host.advance view flight with
          | some (host, flight) => some { host with task := .running flight change }
          | none => some { host with task := .waiting, saveDue := host.saveDue || change }
  | .publish => some { host with others := host.others ++ [publish] }
  | .save => some { host with others := host.others ++ [saveSnapshot] }
  | .advance i =>
      match host.others[i]? with
      | none => none
      | some flight =>
          match host.advance view flight with
          | some (host, flight) => some { host with others := host.others.set i flight }
          | none => some { host with others := host.others.eraseIdx i }

def machine : Machine (Host R V) (Action R) :=
  { init := fun host => ∃ reg, host = start view reg, step := step view }

/-- No change is unhandled, and nothing is published or saved. -/
def Settled : Prop :=
  host.unbumped = 0 ∧ host.seen = host.changed ∧ host.task = .waiting ∧ host.saveDue = false ∧
    host.others = []

instance [DecidableEq R] : Decidable host.Settled := inferInstanceAs (Decidable (_ ∧ _))

/-- What is sent next was read no earlier than what the target got last. -/
def newest (flight : Flight R) : Bool :=
  match flight.read, flight.left with
  | some copy, target :: _ => host.sent target ≤ copy.1
  | _, _ => true

def inOrder : Action R → Bool
  | .taskAdvance =>
      match host.task with
      | .running flight _ => host.newest flight
      | .waiting => true
  | .advance i => host.others[i]?.all host.newest
  | _ => true

def InOrder (host : Host R V) (a : Action R) : Prop := host.inOrder a = true

instance (host : Host R V) (a : Action R) : Decidable (InOrder host a) :=
  inferInstanceAs (Decidable (host.inOrder a = true))

/-! ## The invariant -/

/-- What was read is of some version, and of this one it is the registry. -/
def Current (version : Nat) (reg : R) (flight : Flight R) : Prop :=
  ∀ copy ∈ flight.read, copy.1 ≤ version ∧ (copy.1 = version → copy.2 = reg)

def Brings (flight : Flight R) (target : Target) : Prop :=
  target ∈ flight.left ∧ ∀ copy ∈ flight.read, copy.1 = host.version

/-- With every change told to the task, a watch has the registry or is about to get it. -/
def WatchOwed (target : Target) : Prop :=
  host.sent target = host.version ∨
    ∃ flight, host.task = .running flight true ∧ host.Brings flight target

def StoreOwed : Prop :=
  host.sent .stored = host.version ∨ host.saveDue = true ∨
    ∃ flight change, host.task = .running flight change ∧
      (change = true ∨ host.Brings flight .stored)

structure Inv : Prop where
  seen : host.seen ≤ host.changed
  sent : ∀ target, host.sent target ≤ host.version ∧
    (host.sent target = host.version → host.values target = view target host.reg)
  task : ∀ flight change, host.task = .running flight change →
    Current host.version host.reg flight
  others : ∀ flight ∈ host.others, Current host.version host.reg flight
  watches : host.unbumped = 0 → host.seen = host.changed →
    ∀ target, target ≠ .stored → host.WatchOwed target
  store : host.unbumped = 0 → host.seen = host.changed → host.StoreOwed

variable {view} {host}

theorem Inv.start (reg : R) : Inv view (start view reg) where
  seen := Nat.le_refl _
  sent _ := ⟨Nat.le_refl _, fun _ => rfl⟩
  task := nofun
  others := nofun
  watches _ _ _ _ := .inl rfl
  store _ _ := .inl rfl

section Deliver

variable {flight flight' : Flight R} {host' : Host R V} {target : Target} {copy : Nat × R}

theorem advance_cases (h : host.advance view flight = some (host', flight')) :
    (flight.read = none ∧ host' = host ∧
      flight' = { flight with read := some (host.version, host.reg) }) ∨
    ∃ copy target left, flight.read = some copy ∧ flight.left = target :: left ∧
      host' = host.deliver view target copy ∧ flight' = { flight with left } := by
  unfold advance at h
  split at h
  · rename_i hread
    cases h
    exact .inl ⟨hread, rfl, rfl⟩
  · rename_i copy target left hread hleft
    cases h
    exact .inr ⟨copy, target, left, hread, hleft, rfl, rfl⟩
  · cases h

theorem advance_none (h : host.advance view flight = none) : flight.left = [] := by
  unfold advance at h
  split at h
  · cases h
  · cases h
  · assumption

theorem Current.read {version : Nat} {reg : R} :
    Current version reg { flight with read := some (version, reg) } := by
  rintro copy ⟨⟩
  exact ⟨Nat.le_refl _, fun _ => rfl⟩

theorem Current.unread {version : Nat} {reg : R} (h : flight.read = none) :
    Current version reg flight := by
  intro copy hcopy
  rw [h] at hcopy
  cases hcopy

theorem Current.change {version : Nat} {reg reg' : R} (h : Current version reg flight) :
    Current (version + 1) reg' flight := by
  intro copy hcopy
  have hle := (h copy hcopy).1
  exact ⟨Nat.le_succ_of_le hle, fun heq => by omega⟩

theorem sent_deliver_self : (host.deliver view target copy).sent target = copy.1 :=
  Function.update_self ..

theorem sent_deliver_of_ne {other : Target} (h : other ≠ target) :
    (host.deliver view target copy).sent other = host.sent other :=
  Function.update_of_ne h ..

theorem still_current (hcurrent : Current host.version host.reg flight)
    (hread : flight.read = some copy) (hle : host.sent target ≤ copy.1) {other : Target}
    (hsent : host.sent other = host.version) :
    (host.deliver view target copy).sent other = host.version := by
  have hcopy := (hcurrent copy hread).1
  by_cases heq : other = target
  · subst heq
    rw [sent_deliver_self]
    omega
  · rw [sent_deliver_of_ne heq, hsent]

theorem Inv.sent_le (h : Inv view host) (hcurrent : Current host.version host.reg flight)
    (hread : flight.read = some copy) (other : Target) :
    (host.deliver view target copy).sent other ≤ host.version ∧
      ((host.deliver view target copy).sent other = host.version →
        (host.deliver view target copy).values other = view other host.reg) := by
  by_cases heq : other = target
  · subst heq
    simp only [deliver, Function.update_self]
    obtain ⟨hle, hreg⟩ := hcurrent copy hread
    exact ⟨hle, fun hversion => by rw [hreg hversion]⟩
  · simp only [deliver, Function.update_of_ne heq]
    exact h.sent other

theorem newest_le (hnewest : host.newest flight = true) (hread : flight.read = some copy)
    {left : List Target} (hleft : flight.left = target :: left) : host.sent target ≤ copy.1 := by
  unfold newest at hnewest
  rw [hread, hleft] at hnewest
  simpa using hnewest

end Deliver

/-! ## Steps -/

theorem Inv.change (h : Inv view host) (reg : R) :
    Inv view { host with reg, version := host.version + 1, unbumped := host.unbumped + 1 } where
  seen := h.seen
  sent target := by
    have hle := (h.sent target).1
    exact ⟨Nat.le_succ_of_le hle, fun heq => by dsimp only at heq; omega⟩
  task flight change hrunning := (h.task flight change hrunning).change
  others flight hflight := (h.others flight hflight).change
  watches hunbumped := nomatch hunbumped
  store hunbumped := nomatch hunbumped

theorem Inv.bump (h : Inv view host) {unbumped : Nat} :
    Inv view { host with unbumped, changed := host.changed + 1 } := by
  have hseen := h.seen
  exact ⟨Nat.le_succ_of_le hseen, h.sent, h.task, h.others,
    fun _ heq => by dsimp only at heq; omega, fun _ heq => by dsimp only at heq; omega⟩

theorem Inv.taskChanged (h : Inv view host) :
    Inv view { host with seen := host.changed, task := .running publish true } := by
  refine ⟨Nat.le_refl _, h.sent, ?_, h.others, fun _ _ target hstored => .inr ?_, fun _ _ => ?_⟩
  · rintro flight change ⟨⟩
    exact .unread rfl
  · refine ⟨publish, rfl, ?_, nofun⟩
    cases target with
    | stored => exact absurd rfl hstored
    | chats | sessions | spaces => simp [publish]
  · exact .inr (.inr ⟨publish, true, rfl, .inl rfl⟩)

theorem Inv.taskDeadline (h : Inv view host) (htask : host.task = .waiting) :
    Inv view { host with saveDue := false, task := .running saveSnapshot false } := by
  refine ⟨h.seen, h.sent, ?_, h.others, fun hunbumped hseen target hstored => .inl ?_,
    fun _ _ => .inr (.inr ⟨saveSnapshot, false, rfl, .inr ⟨?_, nofun⟩⟩)⟩
  · rintro flight change ⟨⟩
    exact .unread rfl
  · obtain hsent | ⟨flight, hrunning, -⟩ := h.watches hunbumped hseen target hstored
    · exact hsent
    · rw [htask] at hrunning
      cases hrunning
  · exact List.mem_cons_self

theorem Inv.taskPresence (h : Inv view host) (htask : host.task = .waiting) :
    Inv view { host with task := .running publish false } := by
  refine ⟨h.seen, h.sent, ?_, h.others, fun hunbumped hseen target hstored => .inl ?_,
    fun hunbumped hseen => ?_⟩
  · rintro flight change ⟨⟩
    exact .unread rfl
  · obtain hsent | ⟨flight, hrunning, -⟩ := h.watches hunbumped hseen target hstored
    · exact hsent
    · rw [htask] at hrunning
      cases hrunning
  · obtain hsent | hdue | ⟨flight, change, hrunning, -⟩ := h.store hunbumped hseen
    · exact .inl hsent
    · exact .inr (.inl hdue)
    · rw [htask] at hrunning
      cases hrunning

theorem Inv.others_set (h : Inv view host) {others : List (Flight R)}
    (hothers : ∀ flight ∈ others, Current host.version host.reg flight) :
    Inv view { host with others } :=
  ⟨h.seen, h.sent, h.task, hothers, h.watches, h.store⟩

theorem Inv.deliver (h : Inv view host) {flight : Flight R} {target : Target} {copy : Nat × R}
    (hcurrent : Current host.version host.reg flight) (hread : flight.read = some copy)
    (hle : host.sent target ≤ copy.1) : Inv view (host.deliver view target copy) := by
  refine ⟨h.seen, h.sent_le hcurrent hread, h.task, h.others,
    fun hunbumped hseen other hstored => ?_, fun hunbumped hseen => ?_⟩
  · exact (h.watches hunbumped hseen other hstored).imp_left (still_current hcurrent hread hle)
  · exact (h.store hunbumped hseen).imp_left (still_current hcurrent hread hle)

theorem Inv.taskAdvance (h : Inv view host) {flight : Flight R} {change : Bool}
    (htask : host.task = .running flight change) (hnewest : host.newest flight = true)
    {host' : Host R V} {flight' : Flight R}
    (hadvance : host.advance view flight = some (host', flight')) :
    Inv view { host' with task := .running flight' change } := by
  have hcurrent := h.task flight change htask
  obtain ⟨hread, rfl, rfl⟩ | ⟨copy, target, left, hread, hleft, rfl, rfl⟩ := advance_cases hadvance
  · have hbrings : ∀ target, host'.Brings flight target →
        host'.Brings { flight with read := some (host'.version, host'.reg) } target := by
      rintro target ⟨hmem, -⟩
      refine ⟨hmem, ?_⟩
      rintro copy ⟨⟩
      rfl
    refine ⟨h.seen, h.sent, ?_, h.others, fun hunbumped hseen target hstored => ?_,
      fun hunbumped hseen => ?_⟩
    · rintro other change' ⟨⟩
      exact .read
    · apply (h.watches hunbumped hseen target hstored).imp_right
      rintro ⟨other, hrunning, hother⟩
      rw [htask] at hrunning
      cases hrunning
      exact ⟨_, rfl, hbrings target hother⟩
    · apply (h.store hunbumped hseen).imp_right fun hmore => hmore.imp_right ?_
      rintro ⟨other, change', hrunning, hother⟩
      rw [htask] at hrunning
      cases hrunning
      exact ⟨_, change, rfl, hother.imp_right (hbrings .stored)⟩
  · have hle := newest_le hnewest hread hleft
    have hsent : ∀ other, host.sent other = host.version →
        (host.deliver view target copy).sent other = host.version := fun other =>
      still_current hcurrent hread hle
    -- What the flight was to bring is there now, or is still to be sent.
    have hbrings : ∀ other, host.Brings flight other →
        (host.deliver view target copy).sent other = host.version ∨
          host.Brings { flight with left } other := by
      rintro other ⟨hmem, hversion⟩
      by_cases heq : other = target
      · subst heq
        left
        rw [sent_deliver_self]
        exact hversion copy hread
      · rw [hleft] at hmem
        exact .inr ⟨(List.mem_cons.mp hmem).resolve_left heq, hversion⟩
    refine ⟨h.seen, h.sent_le hcurrent hread, ?_, h.others,
      fun hunbumped hseen other hstored => ?_, fun hunbumped hseen => ?_⟩
    · rintro other change' ⟨⟩
      exact hcurrent
    · obtain hold | ⟨other', hrunning, hother⟩ := h.watches hunbumped hseen other hstored
      · exact .inl (hsent other hold)
      · rw [htask] at hrunning
        cases hrunning
        exact (hbrings other hother).imp_right fun hstill => ⟨_, rfl, hstill⟩
    · obtain hold | hdue | ⟨other', change', hrunning, hother⟩ := h.store hunbumped hseen
      · exact .inl (hsent .stored hold)
      · exact .inr (.inl hdue)
      · rw [htask] at hrunning
        cases hrunning
        obtain hchange | hother := hother
        · exact .inr (.inr ⟨_, change, rfl, .inl hchange⟩)
        · exact (hbrings .stored hother).imp_right fun hstill =>
            .inr ⟨_, change, rfl, .inr hstill⟩

theorem Inv.taskDone (h : Inv view host) {flight : Flight R} {change : Bool}
    (htask : host.task = .running flight change) (hleft : flight.left = []) :
    Inv view { host with task := .waiting, saveDue := host.saveDue || change } := by
  have hnothing : ∀ target, ¬ host.Brings flight target := by
    rintro target ⟨hmem, -⟩
    rw [hleft] at hmem
    cases hmem
  refine ⟨h.seen, h.sent, nofun, h.others, fun hunbumped hseen target hstored => .inl ?_,
    fun hunbumped hseen => ?_⟩
  · obtain hsent | ⟨other, hrunning, hother⟩ := h.watches hunbumped hseen target hstored
    · exact hsent
    · rw [htask] at hrunning
      cases hrunning
      exact absurd hother (hnothing target)
  · obtain hsent | hdue | ⟨other, change', hrunning, hother⟩ := h.store hunbumped hseen
    · exact .inl hsent
    · exact .inr (.inl (by simp [hdue]))
    · rw [htask] at hrunning
      cases hrunning
      obtain hchange | hother := hother
      · exact .inr (.inl (by simp [hchange]))
      · exact absurd hother (hnothing .stored)

theorem Inv.step {host' : Host R V} {a : Action R} (h : Inv view host) (horder : InOrder host a)
    (hstep : host.step view a = some host') : Inv view host' := by
  cases a with
  | change reg =>
      cases hstep
      exact h.change reg
  | bump =>
      simp only [Host.step] at hstep
      split at hstep <;> cases hstep
      exact h.bump
  | joined =>
      cases hstep
      exact h.bump
  | taskChanged =>
      simp only [Host.step] at hstep
      split at hstep
      · split at hstep <;> cases hstep
        exact h.taskChanged
      · cases hstep
  | taskDeadline =>
      simp only [Host.step] at hstep
      split at hstep
      · rename_i htask
        split at hstep <;> cases hstep
        exact h.taskDeadline htask
      · cases hstep
  | taskPresence =>
      simp only [Host.step] at hstep
      split at hstep <;> cases hstep
      rename_i htask
      exact h.taskPresence htask
  | taskAdvance =>
      simp only [Host.step] at hstep
      split at hstep
      · cases hstep
      · rename_i flight change htask
        have hnewest : host.newest flight = true := by
          simp only [InOrder, inOrder, htask] at horder
          exact horder
        split at hstep <;> cases hstep
        · rename_i hadvance
          exact h.taskAdvance htask hnewest hadvance
        · rename_i hadvance
          exact h.taskDone htask (advance_none hadvance)
  | publish | save =>
      cases hstep
      apply h.others_set
      intro flight hflight
      obtain hflight | hflight := List.mem_append.mp hflight
      · exact h.others flight hflight
      · rw [List.mem_singleton.mp hflight]
        exact .unread rfl
  | advance i =>
      simp only [Host.step] at hstep
      split at hstep
      · cases hstep
      · rename_i flight hflight
        have hcurrent := h.others flight (List.mem_of_getElem? hflight)
        have hnewest : host.newest flight = true := by
          simp only [InOrder, inOrder, hflight, Option.all_some] at horder
          exact horder
        split at hstep <;> cases hstep
        · rename_i host' flight' hadvance
          obtain ⟨-, rfl, rfl⟩ | ⟨copy, target, left, hread, hleft, rfl, rfl⟩ :=
            advance_cases hadvance
          · apply h.others_set
            intro other hother
            obtain hother | rfl := List.mem_or_eq_of_mem_set hother
            · exact h.others other hother
            · exact .read
          · apply (h.deliver hcurrent hread (newest_le hnewest hread hleft)).others_set
            intro other hother
            obtain hother | rfl := List.mem_or_eq_of_mem_set hother
            · exact h.others other hother
            · exact hcurrent
        · apply h.others_set
          exact fun other hother => h.others other (List.mem_of_mem_eraseIdx hother)

theorem Inv.settled (h : Inv view host) (hsettled : host.Settled) (target : Target) :
    host.values target = view target host.reg := by
  obtain ⟨hunbumped, hseen, htask, hdue, -⟩ := hsettled
  apply (h.sent target).2
  by_cases hstored : target = .stored
  · subst hstored
    obtain hsent | hsave | ⟨flight, change, hrunning, -⟩ := h.store hunbumped hseen
    · exact hsent
    · rw [hdue] at hsave
      cases hsave
    · rw [htask] at hrunning
      cases hrunning
  · obtain hsent | ⟨flight, hrunning, -⟩ := h.watches hunbumped hseen target hstored
    · exact hsent
    · rw [htask] at hrunning
      cases hrunning

/-- Each target shows the registry as it is. -/
def whole : Target → Nat → Nat := fun _ reg => reg

end Host

end Zeron.Engine.Watches
