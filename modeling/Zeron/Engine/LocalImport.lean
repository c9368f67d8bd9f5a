import Zeron.Engine.Drain
import Zeron.Engine.RunJournal

/-!
# The import of the local profile

`LocalImporter::run` of `crates/engine/src/local_import.rs` into a profile that is in use: every write
is a step of its own, can be refused, and is followed by what the target's drains do in between. The
process can die after any step, and the import can be run again.
-/

namespace Zeron.Engine

open Zeron.Lib (Bytes Machine)

/-- What the import reads of a row of `chats`. -/
structure ChatRow where
  id : String
  title : Option String
  roomGen : Option Nat

structure SpaceRow where
  id : String
  name : Option String

/-- A row of `snapshots`. -/
structure Snapshot where
  bytes : Bytes
  cursor : Nat
  epoch : Nat

structure Profile where
  spaces : List SpaceRow
  chats : List ChatRow
  snapshots : String → Option Snapshot
  journals : String → Option Bytes
  resumes : String → Option Bytes
  hasUploads : Bool
  /-- `processed_commands`: the ids with the times of their claims. -/
  ledger : List (String × Int)

/-- `CHAT2_DOC_EPOCH`. -/
def chat2DocEpoch : Nat := 2

namespace Profile

def processedIds (profile : Profile) : List String := profile.ledger.map Prod.fst

def upsertChat (profile : Profile) (row : ChatRow) : Profile :=
  { profile with chats := profile.chats.filter (·.id != row.id) ++ [row] }

def upsertSpace (profile : Profile) (row : SpaceRow) : Profile :=
  { profile with spaces := profile.spaces.filter (·.id != row.id) ++ [row] }

/-- `INSERT OR IGNORE`; existing claims win. -/
def insertClaim (profile : Profile) (claim : String × Int) : Profile :=
  if claim.1 ∈ profile.processedIds then profile
  else { profile with ledger := profile.ledger ++ [claim] }

def claims (profile : Profile) (commandsOf : Bytes → List String) (chatId : String) : List String :=
  profile.processedIds.filter fun id =>
    (profile.snapshots chatId).any fun snapshot => (commandsOf snapshot.bytes).contains id

end Profile

/-- The counters of a run; the last `Summary` is what they are at its end. -/
structure Tally where
  importedChats : Nat
  importedSpaces : Nat
  skippedChats : Nat
  skippedSpaces : Nat
  journalsCopied : Nat
  ledgerRowsMerged : Nat
  errors : List String

/-- Where a run stands. The first pending chat is the one that is being copied. -/
inductive ImportStage where
  | idle
  | spaces (pendingSpaces : List SpaceRow) (pendingChats : List ChatRow)
  | doc (pending : List ChatRow)
  | journal (chat : ChatRow) (rest : List ChatRow)
  | resume (chat : ChatRow) (rest : List ChatRow) (copied : Bool)
  | row (chat : ChatRow) (rest : List ChatRow) (copied : Bool)
  | readLedger
  | mergeLedger (rows : List (String × Int)) (inserted : Nat)
  | readRoot
  | marker

structure ImportState where
  target : Profile
  stage : ImportStage
  tally : Tally
  /-- The source's uploads are a read-only root of the target. -/
  readsUploads : Bool
  /-- The account's entry of the marker file: the chats and spaces imported. -/
  marker : Option (Nat × Nat)
  /-- The chats whose rows the import has written. No step reads it. -/
  imported : List String
  /-- Those of them whose rows no complete merge has followed. No step reads it. -/
  unmerged : List String

inductive ImportAction where
  | start
  /-- The next write, or its refusal. -/
  | next (error : Option String)
  /-- A drain of the target. -/
  | markProcessed (id : String) (processedAt : Int)
  | crash

namespace ImportState

def fail (s : ImportState) (message : String) : ImportState :=
  { s with tally := { s.tally with errors := s.tally.errors ++ [message] } }

/-- An error of `import_chat` ends the copy of this chat only. -/
def skipChat (s : ImportState) (chat : ChatRow) (rest : List ChatRow) (err : String) :
    ImportState :=
  { s.fail ("chat " ++ chat.id ++ ": " ++ err) with stage := .doc rest }

def start (source : Profile) (s : ImportState) : ImportState :=
  let pendingChats := source.chats.filter fun chat => !s.target.chats.any (·.id == chat.id)
  let pendingSpaces := source.spaces.filter fun space => !s.target.spaces.any (·.id == space.id)
  { s with
    stage := .spaces pendingSpaces pendingChats
    tally :=
      { importedChats := 0
        importedSpaces := 0
        skippedChats := source.chats.length - pendingChats.length
        skippedSpaces := source.spaces.length - pendingSpaces.length
        journalsCopied := 0
        ledgerRowsMerged := 0
        errors := [] } }

def saveDoc (source : Profile) (s : ImportState) (chat : ChatRow) : Profile :=
  match source.snapshots chat.id, s.target.snapshots chat.id with
  | some snapshot, none =>
      let saved := { bytes := snapshot.bytes, cursor := 0, epoch := chat2DocEpoch }
      { s.target with snapshots := Function.update s.target.snapshots chat.id (some saved) }
  | _, _ => s.target

/-- A journal file, if the target has none under its name, and whether it was copied. -/
def copyJournal (source : Profile) (s : ImportState) (chat : ChatRow) : Profile × Bool :=
  let stem := sanitizeId chat.id
  match source.journals stem, s.target.journals stem with
  | some bytes, none =>
      ({ s.target with journals := Function.update s.target.journals stem (some bytes) }, true)
  | _, _ => (s.target, false)

def copyResume (source : Profile) (s : ImportState) (chat : ChatRow) : Profile :=
  let stem := sanitizeId chat.id
  match source.resumes stem, s.target.resumes stem with
  | some bytes, none =>
      { s.target with resumes := Function.update s.target.resumes stem (some bytes) }
  | _, _ => s.target

/-- The row is written last: it makes the chat visible. -/
def importRow (s : ImportState) (chat : ChatRow) (rest : List ChatRow) (copied : Bool) :
    ImportState :=
  { s with
    target := s.target.upsertChat { chat with roomGen := some chat2DocEpoch }
    stage := .doc rest
    tally :=
      { s.tally with
        importedChats := s.tally.importedChats + 1
        journalsCopied := s.tally.journalsCopied + if copied then 1 else 0 }
    imported := s.imported ++ [chat.id]
    unmerged := s.unmerged ++ [chat.id] }

def mergeRow (s : ImportState) (claim : String × Int) (rest : List (String × Int))
    (inserted : Nat) : ImportState :=
  let isNew := claim.1 ∉ s.target.processedIds
  { s with
    target := s.target.insertClaim claim
    stage := .mergeLedger rest (inserted + if isNew then 1 else 0) }

def next (source : Profile) (s : ImportState) : Option String → Option ImportState
  | none =>
      match s.stage with
      | .idle => none
      | .spaces [] chats => some { s with stage := .doc chats }
      | .spaces (space :: rest) chats =>
          some { s with
            target := s.target.upsertSpace space
            stage := .spaces rest chats
            tally := { s.tally with importedSpaces := s.tally.importedSpaces + 1 } }
      | .doc [] => some { s with stage := .readLedger }
      | .doc (chat :: rest) =>
          some { s with target := s.saveDoc source chat, stage := .journal chat rest }
      | .journal chat rest =>
          let (target, copied) := s.copyJournal source chat
          some { s with target, stage := .resume chat rest copied }
      | .resume chat rest copied =>
          some { s with target := s.copyResume source chat, stage := .row chat rest copied }
      | .row chat rest copied => some (s.importRow chat rest copied)
      | .readLedger => some { s with stage := .mergeLedger source.ledger 0 }
      | .mergeLedger [] inserted =>
          some { s with
            stage := .readRoot
            tally := { s.tally with ledgerRowsMerged := inserted }
            unmerged := [] }
      | .mergeLedger (claim :: rest) inserted => some (s.mergeRow claim rest inserted)
      | .readRoot =>
          some { s with stage := .marker, readsUploads := s.readsUploads || source.hasUploads }
      | .marker =>
          some { s with
            stage := .idle
            marker := some (s.tally.importedChats, s.tally.importedSpaces) }
  | some err =>
      match s.stage with
      | .spaces (space :: rest) chats =>
          some { s.fail ("space " ++ space.id ++ ": " ++ err) with stage := .spaces rest chats }
      | .doc (chat :: rest) => some (s.skipChat chat rest err)
      | .journal chat rest => some (s.skipChat chat rest err)
      | .resume chat rest _ => some (s.skipChat chat rest err)
      | .row chat rest _ => some (s.skipChat chat rest err)
      | .readLedger => some { s.fail ("command ledger: " ++ err) with stage := .readRoot }
      | .mergeLedger (_ :: _) _ =>
          some { s.fail ("command ledger: " ++ err) with stage := .readRoot }
      | .marker => some { s.fail ("import marker: " ++ err) with stage := .idle }
      | _ => none

def step (source : Profile) (s : ImportState) : ImportAction → Option ImportState
  | .start =>
      match s.stage with
      | .idle => some (s.start source)
      | _ => none
  | .next error => s.next source error
  | .markProcessed id processedAt =>
      some { s with target := s.target.insertClaim (id, processedAt) }
  | .crash => some { s with stage := .idle }

end ImportState

def imports (source : Profile) : Machine ImportState ImportAction where
  init s := s.stage = .idle ∧ s.imported = [] ∧ s.unmerged = []
  step := ImportState.step source

/-- The ids that a drain of the target passes over. -/
def Shielded (s : ImportState) (ids : List String) : Prop :=
  ∀ id ∈ ids, isProcessed s.target.processedIds false id = true

/-- A chat's row is written when the target's table holds the source's claims for the chat. -/
def RowsShielded (source : Profile) (commandsOf : Bytes → List String) (s : ImportState) :
    ImportAction → Prop
  | .next none =>
      match s.stage with
      | .row chat _ _ => Shielded s (source.claims commandsOf chat.id)
      | _ => True
  | _ => True

instance (s : ImportState) (ids : List String) : Decidable (Shielded s ids) :=
  inferInstanceAs (Decidable (∀ id ∈ ids, isProcessed s.target.processedIds false id = true))

instance (source : Profile) (commandsOf : Bytes → List String) (s : ImportState)
    (a : ImportAction) : Decidable (RowsShielded source commandsOf s a) := by
  unfold RowsShielded
  split
  · split <;> infer_instance
  · infer_instance

/-! ## What a step does to the table -/

namespace Profile

variable (profile : Profile)

theorem mem_insertClaim (claim : String × Int) :
    claim.1 ∈ (profile.insertClaim claim).processedIds := by
  unfold insertClaim
  split_ifs with hmem
  · exact hmem
  · simp [processedIds]

theorem subset_insertClaim (claim : String × Int) :
    profile.processedIds ⊆ (profile.insertClaim claim).processedIds := by
  unfold insertClaim
  split_ifs
  · exact List.Subset.refl _
  · simp [processedIds]

end Profile

namespace ImportState

variable {source : Profile} {s s' : ImportState}

@[simp]
theorem saveDoc_processedIds (source : Profile) (s : ImportState) (chat : ChatRow) :
    (s.saveDoc source chat).processedIds = s.target.processedIds := by
  unfold saveDoc
  split <;> rfl

@[simp]
theorem copyJournal_processedIds (source : Profile) (s : ImportState) (chat : ChatRow) :
    (s.copyJournal source chat).1.processedIds = s.target.processedIds := by
  unfold copyJournal
  dsimp only
  split <;> rfl

@[simp]
theorem copyResume_processedIds (source : Profile) (s : ImportState) (chat : ChatRow) :
    (s.copyResume source chat).processedIds = s.target.processedIds := by
  unfold copyResume
  dsimp only
  split <;> rfl

/-- A step that writes no row and completes no merge. -/
structure Quiet (source : Profile) (s s' : ImportState) : Prop where
  imported : s'.imported = s.imported
  unmerged : s'.unmerged = s.unmerged
  claimed : s.target.processedIds ⊆ s'.target.processedIds
  /-- The rows still to be merged are all of them, or those behind one that was merged. -/
  merging : ∀ rows inserted, s'.stage = .mergeLedger rows inserted →
    rows = source.ledger ∨ s.stage = .mergeLedger rows inserted ∨
      ∃ claim before, s.stage = .mergeLedger (claim :: rows) before ∧
        claim.1 ∈ s'.target.processedIds

theorem Quiet.of_stage (himported : s'.imported = s.imported) (hunmerged : s'.unmerged = s.unmerged)
    (hids : s'.target.processedIds = s.target.processedIds)
    (hstage : ∀ rows inserted, s'.stage ≠ .mergeLedger rows inserted) : Quiet source s s' :=
  ⟨himported, hunmerged, fun _ hid => hids ▸ hid, fun rows inserted h =>
    absurd h (hstage rows inserted)⟩

theorem next_error_quiet {err : String} (h : s.next source (some err) = some s') :
    Quiet source s s' := by
  unfold next at h
  dsimp only at h
  split at h
  all_goals
    cases h
    try exact .of_stage rfl rfl rfl (by simp [skipChat])

/-- What a step is: the write of a chat's row, the end of a merge, or quiet. -/
theorem step_cases {a : ImportAction} (h : s.step source a = some s') :
    (∃ chat rest copied, a = .next none ∧ s.stage = .row chat rest copied ∧
        s' = s.importRow chat rest copied) ∨
      (∃ inserted, s.stage = .mergeLedger [] inserted ∧ s'.stage = .readRoot ∧
        s'.imported = s.imported ∧ s'.unmerged = [] ∧ s'.target = s.target) ∨
      Quiet source s s' := by
  cases a with
  | start =>
      simp only [step] at h
      split at h
      · cases h
        exact .inr (.inr (.of_stage rfl rfl rfl (by simp [start])))
      · cases h
  | crash =>
      cases h
      exact .inr (.inr (.of_stage rfl rfl rfl (by simp)))
  | markProcessed id processedAt =>
      cases h
      refine .inr (.inr ⟨rfl, rfl, s.target.subset_insertClaim _, ?_⟩)
      exact fun rows inserted hstage => .inr (.inl hstage)
  | next error =>
      cases error with
      | some err => exact .inr (.inr (next_error_quiet h))
      | none =>
          simp only [step, next] at h
          split at h
          · cases h
          · cases h
            exact .inr (.inr (.of_stage rfl rfl rfl (by simp)))
          · cases h
            exact .inr (.inr (.of_stage rfl rfl rfl (by simp)))
          · cases h
            exact .inr (.inr (.of_stage rfl rfl rfl (by simp)))
          · cases h
            exact .inr (.inr (.of_stage rfl rfl (by simp) (by simp)))
          · cases h
            exact .inr (.inr (.of_stage rfl rfl (by simp) (by simp)))
          · cases h
            exact .inr (.inr (.of_stage rfl rfl (by simp) (by simp)))
          · rename_i chat rest copied hstage
            cases h
            exact .inl ⟨chat, rest, copied, rfl, hstage, rfl⟩
          · cases h
            refine .inr (.inr ⟨rfl, rfl, List.Subset.refl _, ?_⟩)
            intro rows inserted hrows
            cases hrows
            exact .inl rfl
          · rename_i inserted hstage
            cases h
            exact .inr (.inl ⟨inserted, hstage, rfl, rfl, rfl, rfl⟩)
          · rename_i claim rest inserted hstage
            cases h
            refine .inr (.inr ⟨rfl, rfl, s.target.subset_insertClaim claim, ?_⟩)
            intro rows inserted' hrows
            cases hrows
            exact .inr (.inr ⟨claim, inserted, hstage, s.target.mem_insertClaim claim⟩)
          · cases h
            exact .inr (.inr (.of_stage rfl rfl rfl (by simp)))
          · cases h
            exact .inr (.inr (.of_stage rfl rfl rfl (by simp)))

end ImportState

section Runs

variable {source : Profile} {commandsOf : Bytes → List String} {s s' : ImportState}

theorem Shielded.mono {ids : List String} (h : Shielded s ids)
    (hsubset : s.target.processedIds ⊆ s'.target.processedIds) : Shielded s' ids := by
  intro id hid
  have hclaimed : id ∈ s.target.processedIds := by simpa [isProcessed] using h id hid
  simpa [isProcessed] using hsubset hclaimed

theorem shielded_of_subset {chatId : String}
    (h : source.processedIds ⊆ s.target.processedIds) :
    Shielded s (source.claims commandsOf chatId) := by
  intro id hid
  have hclaimed : id ∈ source.processedIds := (List.mem_filter.mp hid).1
  simpa [isProcessed] using h hclaimed

/-- **Import.** In every run in which each chat's row is written when the target's table holds the
source's claims for it, the drains of the target pass over every command that the source has claimed
of an imported chat, in every state. -/
theorem import_shields (h : (imports source).ReachableWhen (RowsShielded source commandsOf) s) :
    ∀ chatId ∈ s.imported, Shielded s (source.claims commandsOf chatId) := by
  refine h.invariant
    (I := fun s => ∀ chatId ∈ s.imported, Shielded s (source.claims commandsOf chatId)) ?_ ?_
  · rintro s ⟨-, himported, -⟩
    simp [himported]
  · intro s a s' hshielded hguard hstep
    rcases ImportState.step_cases hstep with
      ⟨chat, rest, copied, rfl, hstage, rfl⟩ | ⟨_, -, -, himported, -, htarget⟩ | hquiet
    · have hrow : Shielded s (source.claims commandsOf chat.id) := by
        simpa [RowsShielded, hstage] using hguard
      intro chatId hmem
      rcases List.mem_append.mp hmem with hmem | hmem
      · exact hshielded chatId hmem
      · rw [List.mem_singleton.mp hmem]
        exact hrow
    · rw [himported]
      intro chatId hmem
      refine (hshielded chatId hmem).mono ?_
      rw [htarget]
      exact List.Subset.refl _
    · rw [hquiet.imported]
      exact fun chatId hmem => (hshielded chatId hmem).mono hquiet.claimed

/-- What the merge has still to do, and the chats that it is done for. -/
structure Merging (source : Profile) (commandsOf : Bytes → List String) (s : ImportState) :
    Prop where
  rows : ∀ rows inserted, s.stage = .mergeLedger rows inserted →
    ∀ id ∈ source.processedIds, id ∈ s.target.processedIds ∨ id ∈ rows.map Prod.fst
  shielded : ∀ chatId ∈ s.imported, chatId ∉ s.unmerged →
    Shielded s (source.claims commandsOf chatId)

theorem Merging.quiet (h : Merging source commandsOf s) (hquiet : ImportState.Quiet source s s') :
    Merging source commandsOf s' := by
  refine ⟨?_, ?_⟩
  · intro rows inserted hstage id hid
    rcases hquiet.merging rows inserted hstage with
      rfl | hsame | ⟨claim, before, hbefore, hclaimed⟩
    · exact .inr hid
    · exact (h.rows rows inserted hsame id hid).imp_left fun hmem => hquiet.claimed hmem
    · rcases h.rows _ before hbefore id hid with hmem | hmem
      · exact .inl (hquiet.claimed hmem)
      · rcases List.mem_cons.mp hmem with rfl | hmem
        · exact .inl hclaimed
        · exact .inr hmem
  · rw [hquiet.imported, hquiet.unmerged]
    exact fun chatId hmem hmerged => (h.shielded chatId hmem hmerged).mono hquiet.claimed

theorem import_exposes_unmerged (h : (imports source).Reachable s) :
    ∀ chatId ∈ s.imported, chatId ∉ s.unmerged → Shielded s (source.claims commandsOf chatId) := by
  have hmerging : Merging source commandsOf s := by
    refine h.invariant (I := Merging source commandsOf) ?_ ?_
    · rintro s ⟨hstage, himported, -⟩
      exact ⟨by simp [hstage], by simp [himported]⟩
    · intro s a s' hmerging _ hstep
      rcases ImportState.step_cases hstep with
        ⟨chat, rest, copied, -, -, rfl⟩ |
        ⟨inserted, hbefore, hstage, himported, -, htarget⟩ | hquiet
      · refine ⟨by simp [ImportState.importRow], ?_⟩
        intro chatId hmem hmerged
        simp only [ImportState.importRow, List.mem_append, List.mem_singleton, not_or]
          at hmem hmerged
        exact (hmerging.shielded chatId (hmem.resolve_right hmerged.2) hmerged.1).mono
          (List.Subset.refl _)
      · refine ⟨by simp [hstage], ?_⟩
        intro chatId _ _
        refine shielded_of_subset fun id hid => ?_
        rw [htarget]
        exact (hmerging.rows [] inserted hbefore id hid).resolve_right (by simp)
      · exact hmerging.quiet hquiet
  exact hmerging.shielded

end Runs

/-! ## A command of an imported chat -/

/-- The local profile has one chat with the command `k1`, and has executed it. -/
def localProfile : Profile where
  spaces := []
  chats := [{ id := "c1", title := none, roomGen := none }]
  snapshots := fun id => if id = "c1" then some { bytes := [1], cursor := 0, epoch := 0 } else none
  journals := fun _ => none
  resumes := fun _ => none
  hasUploads := false
  ledger := [("k1", 5)]

def oneCommandOf : Bytes → List String := fun bytes => if bytes = [1] then ["k1"] else []

def emptyProfile : Profile where
  spaces := []
  chats := []
  snapshots := fun _ => none
  journals := fun _ => none
  resumes := fun _ => none
  hasUploads := false
  ledger := []

def beforeImport (target : Profile) : ImportState where
  target := target
  stage := .idle
  tally := ⟨0, 0, 0, 0, 0, 0, []⟩
  readsUploads := false
  marker := none
  imported := []
  unmerged := []

def untilRow : List ImportAction :=
  [.start, .next none, .next none, .next none, .next none, .next none]

/-- The chat is in the target's list, its snapshot is there, and the merge is still to come. -/
theorem imported_chat_exposed :
    ¬∀ (source : Profile) (commandsOf : Bytes → List String) (s : ImportState),
      (imports source).Reachable s → ∀ chatId ∈ s.imported,
      s.target.chats.any (·.id == chatId) = true →
      Shielded s (source.claims commandsOf chatId) := by
  intro h
  obtain ⟨s, hrun, himported, hchats, hledger⟩ : ∃ s,
      (imports localProfile).run (beforeImport emptyProfile) untilRow = some s ∧
        s.imported = ["c1"] ∧ s.target.chats.any (·.id == "c1") = true ∧ s.target.ledger = [] :=
    ⟨_, rfl, rfl, rfl, rfl⟩
  have hshielded := h localProfile oneCommandOf s (Machine.reachable_of_run ⟨rfl, rfl, rfl⟩ hrun)
    "c1" (by simp [himported]) hchats
  have hk1 := hshielded "k1" (by decide)
  simp [isProcessed, Profile.processedIds, hledger] at hk1

/-- The row is refused in a run that completes its merge, and written by the next run. -/
def secondRun : List ImportAction :=
  untilRow.dropLast ++ [.next (some "busy")] ++ List.replicate 6 (.next none) ++ untilRow

theorem second_run_shields :
    ∃ s, (imports localProfile).Reachable s ∧ s.imported = ["c1"] ∧
      ∀ chatId ∈ s.imported, Shielded s (localProfile.claims oneCommandOf chatId) := by
  obtain ⟨s, hsteps, himported⟩ := Machine.exists_steps_of_runWhen (imports localProfile)
    (RowsShielded localProfile oneCommandOf) (s := beforeImport emptyProfile) secondRun
    (p := fun s => s.imported == ["c1"]) (by decide)
  have hreach : (imports localProfile).ReachableWhen (RowsShielded localProfile oneCommandOf) s :=
    ⟨_, ⟨rfl, rfl, rfl⟩, hsteps⟩
  exact ⟨s, hreach.mono fun _ _ _ => trivial, by simpa using himported, import_shields hreach⟩

theorem merged_chat_shielded : ∃ s, (imports localProfile).Reachable s ∧ s.imported = ["c1"] ∧
    Shielded s (localProfile.claims oneCommandOf "c1") := by
  obtain ⟨s, hsteps, hs⟩ := Machine.exists_steps_of_runWhen (imports localProfile) Machine.anyStep
    (s := beforeImport emptyProfile) (untilRow ++ List.replicate 6 (.next none))
    (p := fun s => s.imported == ["c1"] && s.unmerged == []) (by decide)
  simp only [Bool.and_eq_true, beq_iff_eq] at hs
  have hreach : (imports localProfile).Reachable s := ⟨_, ⟨rfl, rfl, rfl⟩, hsteps⟩
  exact ⟨s, hreach, hs.1, import_exposes_unmerged hreach "c1" (by simp [hs.1]) (by simp [hs.2])⟩

end Zeron.Engine
