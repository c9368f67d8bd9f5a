import Mathlib.Data.List.Basic

/-!
# The room of a chat

The log of `edge/src/chat-log.ts`: numbered rows of opaque updates, and one checkpoint built by a
client. A snapshot is the list of the updates in it, and so is the frontier posted with it.
-/

namespace Zeron.Chat

/-- A batch's UUID, told apart by the device that made it. -/
structure BatchId where
  device : String
  number : Nat
deriving DecidableEq

structure LogRow (U : Type*) where
  seq : Nat
  device : String
  batchId : BatchId
  update : U
deriving DecidableEq

/-- `history` and `epoch` are kept for the statements: every row since the last reset, and the
number of resets. -/
structure ChatLog (U : Type*) where
  rows : List (LogRow U)
  headSeq : Nat
  seqFloor : Nat
  checkpointSeq : Nat
  checkpoint : Option (List U)
  history : List (LogRow U)
  epoch : Nat

/-- What the answer to a hello says; `frontier` is there if the checkpoint has a size. -/
structure StateHeader (U : Type*) where
  headSeq : Nat
  seqFloor : Nat
  checkpointSeq : Nat
  frontier : Option (List U)
deriving DecidableEq

namespace ChatLog

variable {U : Type*}

def empty : ChatLog U :=
  { rows := [], headSeq := 0, seqFloor := 0, checkpointSeq := 0, checkpoint := none
    history := [], epoch := 0 }

variable (log : ChatLog U)

def addRow (row : LogRow U) : ChatLog U :=
  { log with rows := log.rows ++ [row], headSeq := row.seq, history := log.history ++ [row] }

/-- The row's number, and whether its batch was there. -/
def appendRow (device : String) (batchId : BatchId) (update : U) : ChatLog U × Nat × Bool :=
  match log.rows.find? (·.batchId == batchId) with
  | some row => (log, row.seq, true)
  | none =>
      let row := { seq := log.headSeq + 1, device, batchId, update }
      (log.addRow row, row.seq, false)

def rowsAfter (after : Nat) (excludeDevice : Option String) : List (LogRow U) :=
  log.rows.filter fun row =>
    after < row.seq && excludeDevice.all fun device => device == "" || row.device != device

/-- Refused below the floor and above the head. -/
def commitCheckpoint (seqCovered : Nat) (snapshot : List U) : Option (ChatLog U) :=
  if seqCovered < log.seqFloor then none
  else if log.headSeq < seqCovered then none
  else some { log with
    rows := log.rows.filter (seqCovered < ·.seq)
    seqFloor := seqCovered
    checkpointSeq := seqCovered
    checkpoint := some snapshot }

/-- The `/reset` of an operator. -/
def reset : ChatLog U := { empty with epoch := log.epoch + 1 }

def state : StateHeader U :=
  { headSeq := log.headSeq, seqFloor := log.seqFloor, checkpointSeq := log.checkpointSeq
    frontier := log.checkpoint }

theorem appendRow_cases (device : String) (batchId : BatchId) (update : U) :
    (∃ row ∈ log.rows, row.batchId = batchId ∧
      log.appendRow device batchId update = (log, row.seq, true)) ∨
    ((∀ row ∈ log.rows, row.batchId ≠ batchId) ∧ log.appendRow device batchId update =
      (log.addRow ⟨log.headSeq + 1, device, batchId, update⟩, log.headSeq + 1, false)) := by
  unfold appendRow
  split
  · rename_i row hfind
    exact .inl ⟨row, List.mem_of_find?_eq_some hfind, by simpa using List.find?_some hfind, rfl⟩
  · rename_i hfind
    refine .inr ⟨fun row hrow => ?_, rfl⟩
    simpa using List.find?_eq_none.mp hfind row hrow

variable {log} in
theorem commitCheckpoint_eq {seqCovered : Nat} {snapshot : List U} {log' : ChatLog U}
    (hcommit : log.commitCheckpoint seqCovered snapshot = some log') :
    log.seqFloor ≤ seqCovered ∧ seqCovered ≤ log.headSeq ∧
      log' = { log with
        rows := log.rows.filter (seqCovered < ·.seq)
        seqFloor := seqCovered
        checkpointSeq := seqCovered
        checkpoint := some snapshot } := by
  unfold commitCheckpoint at hcommit
  split at hcommit
  · cases hcommit
  · split at hcommit
    · cases hcommit
    · exact ⟨by omega, by omega, (Option.some.inj hcommit).symm⟩

/-- The rows are those of the history above the floor, in the order of their numbers. -/
structure WellFormed (log : ChatLog U) : Prop where
  sorted : log.rows.Pairwise fun row other => row.seq < other.seq
  above : ∀ row ∈ log.rows, log.seqFloor < row.seq
  listed : ∀ row ∈ log.rows, row ∈ log.history
  kept : ∀ row ∈ log.history, row ∈ log.rows ∨ row.seq ≤ log.seqFloor
  numbered : ∀ row ∈ log.history, 1 ≤ row.seq ∧ row.seq ≤ log.headSeq
  floor : log.seqFloor ≤ log.headSeq
  checkpoint : log.checkpointSeq = log.seqFloor ∧ (log.checkpoint = none → log.seqFloor = 0)

namespace WellFormed

variable {log}

theorem empty : WellFormed (ChatLog.empty : ChatLog U) :=
  ⟨List.Pairwise.nil, nofun, nofun, nofun, nofun, Nat.le_refl _, rfl, fun _ => rfl⟩

theorem reset (log : ChatLog U) : WellFormed log.reset :=
  ⟨List.Pairwise.nil, nofun, nofun, nofun, nofun, Nat.le_refl _, rfl, fun _ => rfl⟩

theorem addRow (h : WellFormed log) {row : LogRow U} (hseq : row.seq = log.headSeq + 1) :
    WellFormed (log.addRow row) := by
  have hfloor := h.floor
  have hbelow : ∀ other ∈ log.history, other.seq < row.seq := fun other hother => by
    have := (h.numbered other hother).2
    omega
  refine ⟨?_, fun other hother => ?_, fun other hother => ?_, fun other hother => ?_,
    fun other hother => ?_, by simp only [ChatLog.addRow]; omega, h.checkpoint⟩
  · apply List.pairwise_append.mpr
    refine ⟨h.sorted, List.pairwise_singleton _ _, fun other hother last hlast => ?_⟩
    rw [List.mem_singleton.mp hlast]
    exact hbelow other (h.listed other hother)
  · obtain hother | hother := List.mem_append.mp hother
    · exact h.above other hother
    · rw [List.mem_singleton.mp hother]
      simp only [ChatLog.addRow]
      omega
  · obtain hother | hother := List.mem_append.mp hother
    · exact List.mem_append_left _ (h.listed other hother)
    · exact List.mem_append_right _ hother
  · obtain hother | hother := List.mem_append.mp hother
    · exact (h.kept other hother).imp_left (List.mem_append_left _)
    · exact .inl (List.mem_append_right _ hother)
  · obtain hother | hother := List.mem_append.mp hother
    · exact ⟨(h.numbered other hother).1, Nat.le_of_lt (hbelow other hother)⟩
    · rw [List.mem_singleton.mp hother]
      exact ⟨by omega, Nat.le_refl _⟩

theorem commit (h : WellFormed log) {seqCovered : Nat} {snapshot : List U} {log' : ChatLog U}
    (hcommit : log.commitCheckpoint seqCovered snapshot = some log') :
    WellFormed log' ∧ log.seqFloor ≤ seqCovered ∧ seqCovered ≤ log.headSeq ∧
      log' = { log with
        rows := log.rows.filter (seqCovered < ·.seq)
        seqFloor := seqCovered
        checkpointSeq := seqCovered
        checkpoint := some snapshot } := by
  obtain ⟨hfloor, hhead, rfl⟩ := commitCheckpoint_eq hcommit
  refine ⟨⟨h.sorted.filter _, fun row hrow => ?_, fun row hrow => ?_, fun row hrow => ?_,
    h.numbered, hhead, rfl, nofun⟩, hfloor, hhead, rfl⟩
  · simpa using (List.mem_filter.mp hrow).2
  · exact h.listed row (List.mem_filter.mp hrow).1
  · by_cases hcovered : seqCovered < row.seq
    · obtain hrow | hle := h.kept row hrow
      · exact .inl (List.mem_filter.mpr ⟨hrow, by simpa using hcovered⟩)
      · exact .inr (Nat.le_trans hle hfloor)
    · exact .inr (Nat.le_of_not_lt hcovered)

end WellFormed

end ChatLog

end Zeron.Chat
