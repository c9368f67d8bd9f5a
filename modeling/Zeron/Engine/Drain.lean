import Mathlib.Logic.Function.Basic
import Zeron.Engine.Commands
import Zeron.Lib.Board
import Zeron.Lib.Machine

/-!
# Drain passes

`DocHost::drain_commands` of `crates/engine/src/doc_host.rs`: any number of passes over the handles
of one chat, each a sequence of separate steps, against the table `processed_commands` of
`crates/sync/src/store.rs`. Each statement on the table is atomic (one connection behind a mutex);
between any two of them other passes may run.

A pass that finds the id already in the table when it marks it goes on as if it had marked it: the
result of `mark_processed` is only looked at for an error.
-/

namespace Zeron.Engine

open Zeron.Lib (Board Machine)

/-- Where a pass stands. -/
inductive Stage where
  | read
  /-- The commands read, and those the search has not come to yet. -/
  | find (commands rest : List SessionCommandEntry)
  | evaluate (commands : List SessionCommandEntry) (entry : SessionCommandEntry)
  | mark (entry : SessionCommandEntry) (disposition : CommandDisposition)
  | execute (entry : SessionCommandEntry)
  | executing (entry : SessionCommandEntry)
  | resolve (id : String) (outcome : Outcome)

structure Pass where
  handle : Nat
  skipped : List String
  stage : Stage

structure DrainState where
  /-- `processed_commands`. -/
  ledger : List String
  docs : Nat → ChatDoc
  passes : Nat → Option Pass
  /-- The ids handed to the session engine, oldest first. No step reads it. -/
  handed : List String

inductive DrainAction where
  /-- A pass begins that found the engine wired and the chat hosted here. -/
  | start (p handle : Nat)
  | read (p : Nat)
  /-- One candidate of the search; the table's read may fail. -/
  | find (p : Nat) (readFails : Bool)
  | evaluate (p : Nat) (nowMs : Int) (readFails : Bool)
  | mark (p : Nat) (writeFails : Bool)
  | execute (p : Nat)
  | settle (p : Nat) (replies : Replies)
  | resolve (p : Nat)
  /-- The task of a pass is cancelled. -/
  | cancel (p : Nat)
  /-- Imports, local commits and re-opens. -/
  | edit (handle : Nat) (doc : ChatDoc)
  /-- `import_processed_commands`. -/
  | importClaims (ids : List String)
  /-- The process dies; the documents come back from the snapshots. -/
  | crash (docs : Nat → ChatDoc)

/-- `is_processed(id).unwrap_or(false)`. -/
def isProcessed (ledger : List String) (readFails : Bool) (id : String) : Bool :=
  !readFails && ledger.contains id

/-- `INSERT OR IGNORE`: whether this call claimed the id, and the table after it. -/
def markProcessed (ledger : List String) (id : String) : Bool × List String :=
  if id ∈ ledger then (false, ledger) else (true, ledger ++ [id])

def Pass.dispose (pass : Pass) (entry : SessionCommandEntry) : CommandDisposition → Pass
  | .skip => { pass with skipped := entry.id :: pass.skipped, stage := .read }
  | .expired => { pass with stage := .resolve entry.id (.expired, none) }
  | .superseded => { pass with stage := .resolve entry.id (.superseded, none) }
  | .execute => { pass with stage := .execute entry }

namespace DrainState

def setPass (s : DrainState) (p : Nat) (pass : Option Pass) : DrainState :=
  { s with passes := Function.update s.passes p pass }

def evaluationContext (s : DrainState) (doc : ChatDoc) (commands : List SessionCommandEntry)
    (nowMs : Int) (readFails : Bool) : EvaluationContext :=
  { isProcessed := isProcessed s.ledger readFails
    nowMs
    entries := commands
    currentTurnId := doc.entryIds.getLast?
    turnIsPast := fun turnId => doc.entryIds.contains turnId }

def readStep (s : DrainState) (p : Nat) (pass : Pass) : Option DrainState :=
  match pass.stage with
  | .read =>
      let commands := (s.docs pass.handle).commands
      some (s.setPass p (some { pass with stage := .find commands commands }))
  | _ => none

def findStep (s : DrainState) (p : Nat) (pass : Pass) (readFails : Bool) : Option DrainState :=
  match pass.stage with
  -- Nothing left to do: the pass returns.
  | .find _ [] => some (s.setPass p none)
  | .find commands (entry :: rest) =>
      if entry.status = .pending ∧ entry.id ∉ pass.skipped ∧
          isProcessed s.ledger readFails entry.id = false then
        some (s.setPass p (some { pass with stage := .evaluate commands entry }))
      else some (s.setPass p (some { pass with stage := .find commands rest }))
  | _ => none

def evaluateStep (s : DrainState) (p : Nat) (pass : Pass) (nowMs : Int) (readFails : Bool) :
    Option DrainState :=
  match pass.stage with
  | .evaluate commands entry =>
      let cx := s.evaluationContext (s.docs pass.handle) commands nowMs readFails
      some (s.setPass p (some { pass with stage := .mark entry (evaluateCommand entry cx) }))
  | _ => none

def markStep (s : DrainState) (p : Nat) (pass : Pass) (writeFails : Bool) : Option DrainState :=
  match pass.stage with
  | .mark entry disposition =>
      if writeFails then some (s.setPass p none)
      else
        -- The first component is not looked at.
        let ledger := (markProcessed s.ledger entry.id).2
        some ({ s with ledger }.setPass p (some (pass.dispose entry disposition)))
  | _ => none

def executeStep (s : DrainState) (p : Nat) (pass : Pass) : Option DrainState :=
  match pass.stage with
  | .execute entry =>
      some ({ s with handed := s.handed ++ [entry.id] }.setPass p
        (some { pass with stage := .executing entry }))
  | _ => none

def settleStep (s : DrainState) (p : Nat) (pass : Pass) (replies : Replies) :
    Option DrainState :=
  match pass.stage with
  | .executing entry =>
      let outcome := settledAs (Engine.execute entry.payload replies).2
      some (s.setPass p (some { pass with stage := .resolve entry.id outcome }))
  | _ => none

def resolveStep (s : DrainState) (p : Nat) (pass : Pass) : Option DrainState :=
  match pass.stage with
  | .resolve id (status, resolution) =>
      let doc := (s.docs pass.handle).setCommandStatus id status resolution
      some ({ s with docs := Function.update s.docs pass.handle doc }.setPass p
        (some { pass with stage := .read }))
  | _ => none

def step (s : DrainState) : DrainAction → Option DrainState
  | .start p handle =>
      if s.passes p = none then
        some (s.setPass p (some { handle, skipped := [], stage := .read }))
      else none
  | .read p => (s.passes p).bind (s.readStep p)
  | .find p readFails => (s.passes p).bind fun pass => s.findStep p pass readFails
  | .evaluate p nowMs readFails =>
      (s.passes p).bind fun pass => s.evaluateStep p pass nowMs readFails
  | .mark p writeFails => (s.passes p).bind fun pass => s.markStep p pass writeFails
  | .execute p => (s.passes p).bind (s.executeStep p)
  | .settle p replies => (s.passes p).bind fun pass => s.settleStep p pass replies
  | .resolve p => (s.passes p).bind (s.resolveStep p)
  | .cancel p => some (s.setPass p none)
  | .edit handle doc => some { s with docs := Function.update s.docs handle doc }
  | .importClaims ids =>
      some { s with ledger := ids.foldl (fun ledger id => (markProcessed ledger id).2) s.ledger }
  | .crash docs => some { s with docs, passes := fun _ => none }

end DrainState

def drains : Machine DrainState DrainAction where
  init s := s.passes = (fun _ => none) ∧ s.handed = []
  step := DrainState.step

/-- No pass marks for execution a command that the table already holds: its evaluation, made on an
earlier read, is out of date. -/
def MarksFresh (s : DrainState) : DrainAction → Prop
  | .mark p false =>
      match (s.passes p).map Pass.stage with
      | some (.mark entry .execute) => entry.id ∉ s.ledger
      | _ => True
  | _ => True

instance (s : DrainState) (a : DrainAction) : Decidable (MarksFresh s a) := by
  unfold MarksFresh
  split
  · split <;> infer_instance
  · infer_instance

/-! ## The table as a board of claims -/

def Pass.claimed (pass : Pass) : Option String :=
  match pass.stage with
  | .execute entry => some entry.id
  | _ => none

variable {s s' : DrainState} {pass : Pass} {p : Nat}

namespace DrainState

/-- A pass holds the id it has marked for execution and not yet handed over. -/
def board (s : DrainState) : Board Nat String where
  taken := {id | id ∈ s.ledger}
  holds p := (s.passes p).bind Pass.claimed
  done := s.handed

@[simp]
theorem setPass_ledger (s : DrainState) (p : Nat) (pass : Option Pass) :
    (s.setPass p pass).ledger = s.ledger := rfl

@[simp]
theorem setPass_handed (s : DrainState) (p : Nat) (pass : Option Pass) :
    (s.setPass p pass).handed = s.handed := rfl

theorem setPass_holds_self (s : DrainState) (p : Nat) (pass : Option Pass) :
    (s.setPass p pass).board.holds p = pass.bind Pass.claimed := by
  simp [board, setPass]

theorem setPass_holds_of_ne (s : DrainState) {p q : Nat} (hqp : q ≠ p) (pass : Option Pass) :
    (s.setPass p pass).board.holds q = s.board.holds q := by
  simp [board, setPass, Function.update_of_ne hqp]

theorem move_setPass (s s' : DrainState) (p : Nat) (pass : Option Pass)
    (hledger : s.ledger ⊆ s'.ledger) (hhanded : s'.handed = s.handed)
    (hpasses : s'.passes = s.passes) (hnone : pass.bind Pass.claimed = none) :
    s.board.Move (s'.setPass p pass).board := by
  refine .release (fun id hid => hledger hid) hhanded ?_
  intro q id hq
  by_cases hqp : q = p
  · subst hqp
    rw [setPass_holds_self, hnone] at hq
    cases hq
  · rw [setPass_holds_of_ne s' hqp] at hq
    simpa [board, hpasses] using hq

theorem subset_markProcessed (ledger : List String) (id : String) :
    ledger ⊆ (markProcessed ledger id).2 := by
  unfold markProcessed
  split_ifs <;> simp

theorem subset_importClaims (ledger ids : List String) :
    ledger ⊆ ids.foldl (fun ledger id => (markProcessed ledger id).2) ledger := by
  induction ids generalizing ledger with
  | nil => simp
  | cons id ids ih => exact List.Subset.trans (subset_markProcessed ledger id) (ih _)

theorem readStep_move (h : s.readStep p pass = some s') :
    s.board.Move s'.board := by
  unfold readStep at h
  split at h
  · cases h
    exact move_setPass s s p _ (List.Subset.refl _) rfl rfl rfl
  · cases h

theorem findStep_move {readFails : Bool} (h : s.findStep p pass readFails = some s') :
    s.board.Move s'.board := by
  unfold findStep at h
  split at h
  · cases h
    exact move_setPass s s p _ (List.Subset.refl _) rfl rfl rfl
  · split_ifs at h
    all_goals
      cases h
      exact move_setPass s s p _ (List.Subset.refl _) rfl rfl rfl
  · cases h

theorem evaluateStep_move {nowMs : Int} {readFails : Bool}
    (h : s.evaluateStep p pass nowMs readFails = some s') :
    s.board.Move s'.board := by
  unfold evaluateStep at h
  split at h
  · cases h
    exact move_setPass s s p _ (List.Subset.refl _) rfl rfl rfl
  · cases h

theorem settleStep_move {replies : Replies} (h : s.settleStep p pass replies = some s') :
    s.board.Move s'.board := by
  unfold settleStep at h
  split at h
  · cases h
    exact move_setPass s s p _ (List.Subset.refl _) rfl rfl rfl
  · cases h

theorem resolveStep_move (h : s.resolveStep p pass = some s') :
    s.board.Move s'.board := by
  unfold resolveStep at h
  split at h
  · cases h
    exact move_setPass s _ p _ (List.Subset.refl _) rfl rfl rfl
  · cases h

theorem markStep_move {writeFails : Bool} (hpass : s.passes p = some pass)
    (hmarks : MarksFresh s (.mark p writeFails))
    (h : s.markStep p pass writeFails = some s') : s.board.Move s'.board := by
  unfold markStep at h
  split at h
  · rename_i entry disposition hstage
    cases writeFails with
    | true =>
        cases h
        exact move_setPass s s p _ (List.Subset.refl _) rfl rfl rfl
    | false =>
        cases h
        have hsubset := subset_markProcessed s.ledger entry.id
        cases disposition with
        | execute =>
            have hfresh : entry.id ∉ s.ledger := by simpa [MarksFresh, hpass, hstage] using hmarks
            have hmark : (markProcessed s.ledger entry.id).2 = s.ledger ++ [entry.id] := by
              simp [markProcessed, hfresh]
            refine .claim p entry.id hfresh ?_ rfl ?_ ?_
            · ext id
              simp [board, hmark, or_comm]
            · rw [setPass_holds_self]
              rfl
            · intro q hqp
              exact setPass_holds_of_ne _ hqp _
        | skip | expired | superseded => exact move_setPass s _ p _ hsubset rfl rfl rfl
  · cases h

theorem executeStep_move (hpass : s.passes p = some pass) (h : s.executeStep p pass = some s') :
    s.board.Move s'.board := by
  unfold executeStep at h
  split at h
  · rename_i entry hstage
    cases h
    refine .finish p entry.id ?_ rfl rfl ?_ ?_
    · simp [board, hpass, Pass.claimed, hstage]
    · rw [setPass_holds_self]
      rfl
    · intro q hqp
      exact setPass_holds_of_ne _ hqp _
  · cases h

theorem step_move {a : DrainAction} (hmarks : MarksFresh s a) (h : s.step a = some s') :
    s.board.Move s'.board := by
  cases a with
  | start p handle =>
      simp only [step] at h
      split_ifs at h
      cases h
      exact move_setPass s s p _ (List.Subset.refl _) rfl rfl rfl
  | read p =>
      obtain ⟨pass, -, h⟩ := Option.bind_eq_some_iff.mp h
      exact readStep_move h
  | find p readFails =>
      obtain ⟨pass, -, h⟩ := Option.bind_eq_some_iff.mp h
      exact findStep_move h
  | evaluate p nowMs readFails =>
      obtain ⟨pass, -, h⟩ := Option.bind_eq_some_iff.mp h
      exact evaluateStep_move h
  | mark p writeFails =>
      obtain ⟨pass, hpass, h⟩ := Option.bind_eq_some_iff.mp h
      exact markStep_move hpass hmarks h
  | execute p =>
      obtain ⟨pass, hpass, h⟩ := Option.bind_eq_some_iff.mp h
      exact executeStep_move hpass h
  | settle p replies =>
      obtain ⟨pass, -, h⟩ := Option.bind_eq_some_iff.mp h
      exact settleStep_move h
  | resolve p =>
      obtain ⟨pass, -, h⟩ := Option.bind_eq_some_iff.mp h
      exact resolveStep_move h
  | cancel p =>
      cases h
      exact move_setPass s s p _ (List.Subset.refl _) rfl rfl rfl
  | edit handle doc =>
      cases h
      exact .release (fun _ hid => hid) rfl fun _ _ hq => hq
  | importClaims ids =>
      cases h
      exact .release (fun _ hid => subset_importClaims s.ledger ids hid) rfl fun _ _ hq => hq
  | crash docs =>
      cases h
      exact .release (fun _ hid => hid) rfl fun _ _ hq => by cases hq

end DrainState

theorem drains_board_sound {s : DrainState} (h : drains.ReachableWhen MarksFresh s) :
    s.board.Sound := by
  refine h.invariant (I := fun s => s.board.Sound) ?_ ?_
  · rintro s ⟨hpasses, hhanded⟩
    exact .of_idle (fun p => by simp [DrainState.board, hpasses]) hhanded
  · intro s a s' hsound hmarks hstep
    exact hsound.move (DrainState.step_move hmarks hstep)

/-- **At most once.** While no pass marks for execution what the table already holds, each command
is handed to the session engine at most once over the whole run. -/
theorem handed_at_most_once {s : DrainState} (h : drains.ReachableWhen MarksFresh s) (id : String) :
    s.handed.count id ≤ 1 :=
  List.nodup_iff_count_le_one.mp (drains_board_sound h).done_nodup id

/-! ## Two passes over one command -/

def runEntry (id : String) : SessionCommandEntry :=
  { id
    payload := .run
      { prompt := "go", harness := none, cwd := "/w", attachments := [], resume := none } "m1"
    issuedAt := 0
    basedOnTurn := none
    expiresAt := none
    status := .pending
    resolution := none }

def oneCommand : DrainState where
  ledger := []
  docs := fun _ => { commands := [runEntry "c1"], entryIds := [] }
  passes := fun _ => none
  handed := []

def evaluated (p : Nat) : List DrainAction :=
  [.start p 0, .read p, .find p false, .evaluate p 1 false]

/-- The kick of `set_sessions` and the chat's own task both evaluate the command before either marks
it; the second goes on although the table holds the id. -/
theorem bothPasses_execute :
    ¬∀ s, drains.Reachable s → ∀ id, s.handed.count id ≤ 1 := by
  intro h
  let actions := evaluated 0 ++ evaluated 1 ++
    [.mark 0 false, .execute 0, .mark 1 false, .execute 1]
  obtain ⟨s, hrun, hcount⟩ :
      ∃ s, drains.run oneCommand actions = some s ∧ s.handed.count "c1" = 2 := by
    refine ⟨_, rfl, ?_⟩
    decide
  have hle := h s (Machine.reachable_of_run ⟨rfl, rfl⟩ hrun) "c1"
  omega

/-- The second pass reads the table after the first has marked; after a crash so does a third. -/
def politePasses : List DrainAction :=
  evaluated 0 ++ [.mark 0 false, .start 1 0, .read 1, .execute 0, .find 1 false, .find 1 false,
    .crash oneCommand.docs, .start 2 1, .read 2, .find 2 false]

theorem politePasses_hand_once :
    ∃ s, drains.ReachableWhen MarksFresh s ∧ s.handed = ["c1"] ∧ s.handed.count "c1" ≤ 1 := by
  obtain ⟨s, hsteps, hhanded⟩ := Machine.exists_steps_of_runWhen drains MarksFresh
    (s := oneCommand) politePasses (p := fun s => s.handed == ["c1"]) (by decide)
  have hreach : drains.ReachableWhen MarksFresh s := ⟨oneCommand, ⟨rfl, rfl⟩, hsteps⟩
  exact ⟨s, hreach, by simpa using hhanded, handed_at_most_once hreach "c1"⟩

end Zeron.Engine
