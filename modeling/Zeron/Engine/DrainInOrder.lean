import Mathlib.Data.Finset.Max
import Zeron.Engine.Interrupts

/-!
# One drain of the command list

The loop of `DocHost::drain_commands` of `crates/engine/src/doc_host.rs` in one pass that nothing
else touches the commands of: each turn takes the first pending command that the table does not
hold, and what it makes of it is settled before the next search. The clock, the transcript and the
replies at each turn are given from outside. Reads and writes of the store and of the document
succeed: a read or a mark that failed would halt the loop. Under distinct ids it is one walk over the
list.
-/

namespace Zeron.Engine

/-- What a turn of the loop is told. -/
structure Moment where
  nowMs : Int
  entryIds : List String
  replies : Replies

/-- The evaluation of one turn, with the table and the commands it was made on. -/
structure Verdict where
  entry : SessionCommandEntry
  ledger : List String
  commands : List SessionCommandEntry
  moment : Moment

namespace Verdict

def context (v : Verdict) : EvaluationContext :=
  drainContext v.ledger v.moment.entryIds v.commands v.moment.nowMs false

def disposition (v : Verdict) : CommandDisposition := evaluateCommand v.entry v.context

end Verdict

/-- What the next turn is told may depend on all that came before. -/
abbrev Surroundings : Type := List Verdict → SessionCommandEntry → Moment

structure DrainLoop where
  commands : List SessionCommandEntry
  ledger : List String
  skipped : List String
  /-- The turns so far. The loop does not read them. -/
  verdicts : List Verdict

namespace DrainLoop

def isCandidate (s : DrainLoop) (entry : SessionCommandEntry) : Bool :=
  entry.status == .pending && !s.skipped.contains entry.id && !isProcessed s.ledger false entry.id

def find (s : DrainLoop) : Option SessionCommandEntry := s.commands.find? s.isCandidate

/-- `resolve_command`. -/
def resolve (s : DrainLoop) (id : String) (outcome : Outcome) : DrainLoop :=
  { s with commands := ChatDoc.setStatusIn id outcome.1 outcome.2 s.commands }

def verdict (s : DrainLoop) (around : Surroundings) (entry : SessionCommandEntry) : Verdict :=
  { entry, ledger := s.ledger, commands := s.commands, moment := around s.verdicts entry }

def mark (s : DrainLoop) (v : Verdict) : DrainLoop :=
  { s with ledger := (markProcessed s.ledger v.entry.id).2, verdicts := s.verdicts ++ [v] }

def dispose (s : DrainLoop) (v : Verdict) : DrainLoop :=
  match v.disposition with
  | .skip => { s.mark v with skipped := v.entry.id :: s.skipped }
  | .expired => (s.mark v).resolve v.entry.id (.expired, none)
  | .superseded => (s.mark v).resolve v.entry.id (.superseded, none)
  | .execute =>
      (s.mark v).resolve v.entry.id (settledAs (execute v.entry.payload v.moment.replies).2)

def turns (around : Surroundings) : Nat → DrainLoop → DrainLoop
  | 0, s => s
  | fuel + 1, s =>
      match s.find with
      | none => s
      | some entry => turns around fuel (s.dispose (s.verdict around entry))

end DrainLoop

def drainStart (ledger : List String) (commands : List SessionCommandEntry) : DrainLoop :=
  { commands, ledger, skipped := [], verdicts := [] }

/-- `drain_commands`; there are at most as many turns as commands. -/
def drain (around : Surroundings) (ledger : List String) (commands : List SessionCommandEntry) :
    DrainLoop :=
  (drainStart ledger commands).turns around commands.length

/-! ## Settling a command -/

theorem settledAs_execute_ne_pending (payload : SessionCommandPayload) (replies : Replies) :
    (settledAs (execute payload replies).2).1 ≠ .pending := by
  cases payload with
  | run request messageId =>
      cases hclaim : replies.claimChat <;> cases hdispatch : replies.dispatch <;>
        simp [execute, hclaim, hdispatch, Replies.dispatching, settledAs, Except.map]
  | steer prompt messageId =>
      cases hsteer : replies.steer with
      | error err => simp [execute, hsteer, settledAs]
      | ok outcome =>
          cases outcome <;> cases hnext : replies.nextTurn prompt <;>
            cases hdispatch : replies.dispatch <;>
            simp [execute, hsteer, hnext, hdispatch, Replies.dispatching, settledAs, Except.map]
  | interrupt =>
      cases hinterrupt : replies.interrupt <;> simp [execute, hinterrupt, settledAs, Except.map]
  | respondInput requestId answers =>
      cases hrespond : replies.respondInput with
      | error err => simp [execute, hrespond, settledAs]
      | ok resolved =>
          cases resolved with
          | true => simp [execute, hrespond, settledAs]
          | false =>
              cases hopen : replies.openQuestion with
              | none => simp [execute, hrespond, hopen, settledAs]
              | some prompt =>
                  cases hnext : replies.nextTurn prompt <;>
                    cases hdispatch : replies.dispatch <;>
                    simp [execute, hrespond, hopen, hnext, hdispatch, Replies.dispatching,
                      settledAs, Except.map]

variable {entry : SessionCommandEntry}

theorem evaluateCommand_ne_skip {cx : EvaluationContext}
    (hprocessed : cx.isProcessed entry.id = false) : evaluateCommand entry cx ≠ .skip := by
  unfold evaluateCommand
  rw [if_neg (by simp [hprocessed])]
  split_ifs <;> simp

theorem setStatusIn_split {id : String} {pre rest : List SessionCommandEntry} (hid : entry.id = id)
    (hpre : id ∉ pre.map (·.id))
    (status : SessionCommandStatus) (resolution : Option String) :
    ChatDoc.setStatusIn id status resolution (pre ++ entry :: rest) =
      pre ++ { entry with status, resolution := resolution <|> entry.resolution } :: rest := by
  induction pre with
  | nil => simp [ChatDoc.setStatusIn, hid]
  | cons first pre ih =>
      rw [List.map_cons, List.mem_cons, not_or] at hpre
      obtain ⟨hfirst, hpre⟩ := hpre
      simp [ChatDoc.setStatusIn, Ne.symm hfirst, ih hpre]

theorem mem_markProcessed {ledger : List String} {id id' : String} :
    id' ∈ (markProcessed ledger id).2 ↔ id' ∈ ledger ∨ id' = id := by
  unfold markProcessed
  split_ifs with hid
  · exact ⟨.inl, fun h => h.elim (fun hmem => hmem) (fun heq => heq ▸ hid)⟩
  · simp

variable {v : Verdict}

theorem DrainLoop.dispose_eq_resolve {s : DrainLoop}
    (hprocessed : isProcessed v.ledger false v.entry.id = false) :
    ∃ outcome : Outcome, outcome.1 ≠ .pending ∧
      s.dispose v = (s.mark v).resolve v.entry.id outcome := by
  unfold DrainLoop.dispose
  split
  · rename_i hskip
    exact absurd hskip (evaluateCommand_ne_skip hprocessed)
  · exact ⟨(.expired, none), by simp, rfl⟩
  · exact ⟨(.superseded, none), by simp, rfl⟩
  · exact ⟨_, settledAs_execute_ne_pending _ _, rfl⟩

/-! ## The loop as one walk -/

theorem fresh_at {commands before behind : List SessionCommandEntry}
    (hnodup : (commands.map (·.id)).Nodup)
    (hsplit : commands = before ++ entry :: behind) :
    entry.id ∉ before.map (·.id) := by
  rw [hsplit, List.map_append, List.nodup_append] at hnodup
  exact fun hmem => hnodup.2.2 _ hmem _ (by simp) rfl

/-- A command that is no candidate any more when the walk comes to it is passed over. -/
def DrainLoop.visit (around : Surroundings) (s : DrainLoop) (entry : SessionCommandEntry) :
    DrainLoop :=
  if s.isCandidate entry then s.dispose (s.verdict around entry) else s

def DrainLoop.walk (around : Surroundings) (s : DrainLoop) (entries : List SessionCommandEntry) :
    DrainLoop :=
  entries.foldl (DrainLoop.visit around) s

def SessionCommandEntry.awaits (ledger : List String) (entry : SessionCommandEntry) : Bool :=
  entry.status == .pending && !ledger.contains entry.id

/-- Where the walk stands behind `pre` and before `rest`. -/
structure Walked (ledger : List String) (pre rest : List SessionCommandEntry) (s : DrainLoop) :
    Prop where
  /-- Of the commands behind it, those are still pending that the table held from the start. -/
  commands : ∃ done, s.commands = done ++ rest ∧ done.map (·.id) = pre.map (·.id) ∧
    ∀ c, c.status = .pending → (c ∈ done ↔ c ∈ pre ∧ c.id ∈ ledger)
  skipped : s.skipped = []
  ledger : ∀ id, id ∈ s.ledger ↔ id ∈ ledger ∨ id ∈ s.verdicts.map (·.entry.id)
  verdicts : ∀ v ∈ s.verdicts, v.entry ∈ pre

section Walk

variable {ledger : List String} {pre rest : List SessionCommandEntry} {s : DrainLoop}
variable {entry : SessionCommandEntry} {around : Surroundings}

theorem walked_start (ledger : List String) (commands : List SessionCommandEntry) :
    Walked ledger [] commands (drainStart ledger commands) := by
  refine ⟨⟨[], rfl, rfl, by simp⟩, rfl, ?_, ?_⟩ <;> simp [drainStart]

theorem Walked.isCandidate_eq (h : Walked ledger pre (entry :: rest) s)
    (hfresh : entry.id ∉ pre.map (·.id)) : s.isCandidate entry = entry.awaits ledger := by
  have hverdicts : entry.id ∉ s.verdicts.map (·.entry.id) := by
    intro hmem
    obtain ⟨v, hv, heq⟩ := List.mem_map.mp hmem
    exact hfresh (heq ▸ List.mem_map_of_mem (h.verdicts v hv))
  have hledger : s.ledger.contains entry.id = ledger.contains entry.id := by
    rw [Bool.eq_iff_iff, List.contains_iff_mem, List.contains_iff_mem, h.ledger]
    simp [hverdicts]
  simp only [DrainLoop.isCandidate, isProcessed, SessionCommandEntry.awaits, h.skipped, hledger]
  simp

theorem Walked.pass (h : Walked ledger pre (entry :: rest) s)
    (hskip : entry.awaits ledger = false) :
    Walked ledger (pre ++ [entry]) rest s := by
  obtain ⟨done, hcommands, hids, hpending⟩ := h.commands
  refine ⟨⟨done ++ [entry], by simp [hcommands], by simp [hids], ?_⟩, h.skipped, h.ledger, ?_⟩
  · intro c hc
    have hheld : c = entry → c.id ∈ ledger := by
      rintro rfl
      simpa [SessionCommandEntry.awaits, hc] using hskip
    simp only [List.mem_append, List.mem_singleton, hpending c hc]
    constructor
    · rintro (⟨hmem, hid⟩ | heq)
      · exact ⟨.inl hmem, hid⟩
      · exact ⟨.inr heq, hheld heq⟩
    · rintro ⟨hmem | heq, hid⟩
      · exact .inl ⟨hmem, hid⟩
      · exact .inr heq
  · exact fun v hv => List.mem_append_left _ (h.verdicts v hv)

/-- The walk settles a command that awaits. -/
theorem Walked.settle (h : Walked ledger pre (entry :: rest) s)
    (hfresh : entry.id ∉ pre.map (·.id)) (hawaits : entry.awaits ledger = true) :
    Walked ledger (pre ++ [entry]) rest (s.dispose (s.verdict around entry)) := by
  have hcandidate : s.isCandidate entry = true := (h.isCandidate_eq hfresh).trans hawaits
  have hprocessed : isProcessed s.ledger false entry.id = false := by
    simpa using (Bool.and_eq_true_iff.mp hcandidate).2
  have hunheld : entry.id ∉ ledger := by
    simpa using (Bool.and_eq_true_iff.mp hawaits).2
  obtain ⟨outcome, hsettled, hdispose⟩ :=
    DrainLoop.dispose_eq_resolve (s := s) (v := s.verdict around entry) hprocessed
  obtain ⟨done, hcommands, hids, hpending⟩ := h.commands
  rw [hdispose]
  refine ⟨⟨done ++ [{ entry with
    status := outcome.1, resolution := outcome.2 <|> entry.resolution }], ?_, ?_, ?_⟩, ?_, ?_, ?_⟩
  · have hdone : entry.id ∉ done.map (·.id) := hids ▸ hfresh
    simp [DrainLoop.resolve, DrainLoop.mark, DrainLoop.verdict, hcommands,
      setStatusIn_split rfl hdone]
  · simp [hids]
  · intro c hc
    have hne : c ≠ { entry with
        status := outcome.1, resolution := outcome.2 <|> entry.resolution } := by
      rintro rfl
      exact hsettled hc
    have hheld : c = entry → c.id ∉ ledger := by
      rintro rfl
      exact hunheld
    simp only [List.mem_append, List.mem_singleton, hne, or_false, hpending c hc]
    constructor
    · rintro ⟨hmem, hid⟩
      exact ⟨.inl hmem, hid⟩
    · rintro ⟨hmem | heq, hid⟩
      · exact ⟨hmem, hid⟩
      · exact absurd hid (hheld heq)
  · exact h.skipped
  · intro id
    simp only [DrainLoop.resolve, DrainLoop.mark, DrainLoop.verdict, mem_markProcessed, h.ledger,
      List.map_append, List.mem_append, List.map_cons, List.map_nil, List.mem_singleton]
    exact or_assoc
  · intro v hv
    simp only [DrainLoop.resolve, DrainLoop.mark, List.mem_append, List.mem_singleton] at hv
    rcases hv with hmem | rfl
    · exact List.mem_append_left _ (h.verdicts v hmem)
    · exact List.mem_append_right _ List.mem_cons_self

theorem Walked.visit (h : Walked ledger pre (entry :: rest) s)
    (hfresh : entry.id ∉ pre.map (·.id)) :
    Walked ledger (pre ++ [entry]) rest (s.visit around entry) := by
  unfold DrainLoop.visit
  rw [h.isCandidate_eq hfresh]
  cases hawaits : entry.awaits ledger with
  | true =>
      rw [if_pos rfl]
      exact h.settle hfresh hawaits
  | false =>
      rw [if_neg Bool.false_ne_true]
      exact h.pass hawaits

theorem Walked.walk {mid : List SessionCommandEntry} (h : Walked ledger pre (mid ++ rest) s)
    (hnodup : ((pre ++ mid).map (·.id)).Nodup) :
    Walked ledger (pre ++ mid) rest (s.walk around mid) := by
  induction mid generalizing s pre with
  | nil => simpa [DrainLoop.walk] using h
  | cons entry mid ih =>
      have hfresh : entry.id ∉ pre.map (·.id) := fresh_at hnodup rfl
      have hnext : Walked ledger (pre ++ [entry]) (mid ++ rest) (s.visit around entry) :=
        h.visit hfresh
      have hmove : pre ++ entry :: mid = pre ++ [entry] ++ mid := by simp
      rw [hmove] at hnodup ⊢
      exact ih hnext hnodup

theorem Walked.find_eq (h : Walked ledger pre rest s) : s.find = rest.find? s.isCandidate := by
  obtain ⟨done, hcommands, -, hpending⟩ := h.commands
  have hdone : done.find? s.isCandidate = none := by
    rw [List.find?_eq_none]
    intro c hc hcandidate
    simp only [DrainLoop.isCandidate, isProcessed, Bool.and_eq_true, beq_iff_eq] at hcandidate
    obtain ⟨⟨hstatus, -⟩, hunheld⟩ := hcandidate
    have hheld : c.id ∈ s.ledger := (h.ledger _).mpr (.inl ((hpending c hstatus).mp hc).2)
    simp [hheld] at hunheld
  rw [DrainLoop.find, hcommands, List.find?_append, hdone, Option.none_or]

theorem Walked.turns_eq (h : Walked ledger pre rest s)
    (hnodup : ((pre ++ rest).map (·.id)).Nodup) {fuel : Nat} (hfuel : rest.length ≤ fuel) :
    s.turns around fuel = s.walk around rest := by
  induction rest generalizing s pre fuel with
  | nil =>
      have hfind : s.find = none := h.find_eq
      cases fuel <;> simp [DrainLoop.turns, hfind, DrainLoop.walk]
  | cons entry rest ih =>
      have hfresh : entry.id ∉ pre.map (·.id) := fresh_at hnodup rfl
      have hmove : pre ++ entry :: rest = pre ++ [entry] ++ rest := by simp
      rw [hmove] at hnodup
      rw [List.length_cons] at hfuel
      have hnext : Walked ledger (pre ++ [entry]) rest (s.visit around entry) := h.visit hfresh
      have hwalk : s.walk around (entry :: rest) = (s.visit around entry).walk around rest := rfl
      rw [hwalk]
      cases hcandidate : s.isCandidate entry with
      | true =>
          obtain ⟨fuel, rfl⟩ : ∃ n, fuel = n + 1 := ⟨fuel - 1, by omega⟩
          have hfind : s.find = some entry := by
            rw [h.find_eq, List.find?_cons_of_pos hcandidate]
          have hvisit : s.visit around entry = s.dispose (s.verdict around entry) := by
            simp [DrainLoop.visit, hcandidate]
          rw [DrainLoop.turns, hfind]
          rw [hvisit] at hnext ⊢
          exact ih hnext hnodup (by omega)
      | false =>
          have hvisit : s.visit around entry = s := by simp [DrainLoop.visit, hcandidate]
          rw [hvisit] at hnext ⊢
          exact ih hnext hnodup (by omega)

end Walk

theorem drain_eq_walk {commands : List SessionCommandEntry} (hnodup : (commands.map (·.id)).Nodup)
    (around : Surroundings) (ledger : List String) :
    drain around ledger commands = (drainStart ledger commands).walk around commands :=
  (walked_start ledger commands).turns_eq hnodup (Nat.le_refl _)

/-! ## What a command is compared with -/

def SessionCommandEntry.Supersedes (other entry : SessionCommandEntry) : Prop :=
  other.id ≠ entry.id ∧ other.kind = entry.kind ∧ other.status = .pending ∧
    entry.issuedAt < other.issuedAt

theorem hasNewerSameKind_iff {entries : List SessionCommandEntry} :
    entry.hasNewerSameKind entries = true ↔ ∃ other ∈ entries, other.Supersedes entry := by
  simp [SessionCommandEntry.hasNewerSameKind, SessionCommandEntry.Supersedes, and_assoc]

/-- Of the commands before and behind one, those that are still pending when the drain comes to it
if they were at the start. -/
def stillStanding (ledger : List String) (before behind : List SessionCommandEntry) :
    List SessionCommandEntry :=
  before.filter (fun c => ledger.contains c.id) ++ behind

section Verdicts

variable {ledger : List String} {pre rest : List SessionCommandEntry} {s : DrainLoop}
variable {entry : SessionCommandEntry} {around : Surroundings}

theorem Walked.mem_commands (h : Walked ledger pre (entry :: rest) s) {other : SessionCommandEntry}
    (hstatus : other.status = .pending) (hother : other ∈ stillStanding ledger pre rest) :
    other ∈ s.commands := by
  obtain ⟨done, hcommands, -, hpending⟩ := h.commands
  simp only [stillStanding, List.mem_append, List.mem_filter, List.contains_iff_mem,
    ← hpending other hstatus] at hother
  rw [hcommands, List.mem_append, List.mem_cons]
  exact hother.imp_right .inr

theorem Walked.hasNewerSameKind_eq (h : Walked ledger pre (entry :: rest) s) :
    entry.hasNewerSameKind s.commands =
      entry.hasNewerSameKind (stillStanding ledger pre rest) := by
  obtain ⟨done, hcommands, -, hpending⟩ := h.commands
  rw [Bool.eq_iff_iff, hasNewerSameKind_iff, hasNewerSameKind_iff]
  refine exists_congr fun other => and_congr_left fun hother => ?_
  obtain ⟨hid, -, hstatus, -⟩ := hother
  have hne : other ≠ entry := fun heq => hid (heq ▸ rfl)
  simp [hcommands, stillStanding, hpending other hstatus, hne]

theorem Walked.disposition_eq (h : Walked ledger pre (entry :: rest) s)
    (hfresh : entry.id ∉ pre.map (·.id)) (hawaits : entry.awaits ledger = true)
    (hv : v = s.verdict around entry) :
    v.disposition =
      if entry.effectiveExpiry ≤ v.moment.nowMs then .expired
      else if (entry.kind = .steer ∨ entry.kind = .interrupt) ∧
          entry.hasNewerSameKind (stillStanding ledger pre rest) then .superseded
      else if entry.turnIsOver v.context then .superseded
      else .execute := by
  have hcandidate := (h.isCandidate_eq hfresh).trans hawaits
  have hprocessed : v.context.isProcessed v.entry.id = false := by
    have hunheld := (Bool.and_eq_true_iff.mp hcandidate).2
    rw [Bool.not_eq_true'] at hunheld
    rw [hv]
    exact hunheld
  have hentry : v.entry = entry := by rw [hv]; rfl
  have hnewer : entry.hasNewerSameKind v.context.entries =
      entry.hasNewerSameKind (stillStanding ledger pre rest) := by
    rw [hv]
    exact h.hasNewerSameKind_eq
  unfold Verdict.disposition evaluateCommand
  rw [hprocessed, hentry, hnewer, if_neg Bool.false_ne_true]
  rfl

theorem DrainLoop.visit_verdicts (around : Surroundings) (s : DrainLoop)
    (entry : SessionCommandEntry) :
    (s.visit around entry).verdicts =
      s.verdicts ++ if s.isCandidate entry then [s.verdict around entry] else [] := by
  unfold DrainLoop.visit
  split_ifs
  · unfold DrainLoop.dispose
    split <;> rfl
  · simp

/-- One verdict for each command that awaits, given when the walk comes to it. -/
theorem Walked.mem_walk_verdicts_iff (h : Walked ledger pre rest s)
    (hnodup : ((pre ++ rest).map (·.id)).Nodup) :
    v ∈ (s.walk around rest).verdicts ↔
      v ∈ s.verdicts ∨ ∃ mid entry post, rest = mid ++ entry :: post ∧
        entry.awaits ledger = true ∧ v = (s.walk around mid).verdict around entry := by
  induction rest generalizing s pre with
  | nil => simp [DrainLoop.walk]
  | cons entry rest ih =>
      have hfresh : entry.id ∉ pre.map (·.id) := fresh_at hnodup rfl
      have hmove : pre ++ entry :: rest = pre ++ [entry] ++ rest := by simp
      rw [hmove] at hnodup
      have hwalk : ∀ entries,
          s.walk around (entry :: entries) = (s.visit around entry).walk around entries :=
        fun _ => rfl
      rw [hwalk, ih (h.visit hfresh) hnodup, DrainLoop.visit_verdicts, h.isCandidate_eq hfresh,
        List.mem_append, or_assoc]
      refine or_congr_right ?_
      constructor
      · rintro (hv | ⟨mid, other, post, rfl, hawaits, rfl⟩)
        · split_ifs at hv with hawaits
          · exact ⟨[], entry, rest, rfl, hawaits, List.mem_singleton.mp hv⟩
          · simp at hv
        · exact ⟨entry :: mid, other, post, rfl, hawaits, by rw [hwalk]⟩
      · rintro ⟨mid, other, post, hsplit, hawaits, rfl⟩
        cases mid with
        | nil =>
            obtain ⟨rfl, rfl⟩ := List.cons.inj hsplit
            left
            rw [if_pos hawaits]
            exact List.mem_singleton.mpr rfl
        | cons first mid =>
            obtain ⟨rfl, hrest⟩ := List.cons.inj hsplit
            right
            exact ⟨mid, other, post, hrest, hawaits, by rw [hwalk]⟩

end Verdicts

section Drained

variable {commands : List SessionCommandEntry}

theorem mem_drain_verdicts_iff (hnodup : (commands.map (·.id)).Nodup) {around : Surroundings}
    {ledger : List String} :
    v ∈ (drain around ledger commands).verdicts ↔
      ∃ before entry behind, commands = before ++ entry :: behind ∧
        entry.awaits ledger = true ∧
        v = ((drainStart ledger commands).walk around before).verdict around entry := by
  rw [drain_eq_walk hnodup, (walked_start ledger commands).mem_walk_verdicts_iff hnodup]
  simp [drainStart]

theorem walked_at {before behind : List SessionCommandEntry}
    (hnodup : (commands.map (·.id)).Nodup) (hsplit : commands = before ++ entry :: behind)
    (around : Surroundings) (ledger : List String) :
    Walked ledger before (entry :: behind) ((drainStart ledger commands).walk around before) := by
  have hstart := walked_start ledger commands
  rw [hsplit] at hstart
  rw [hsplit] at hnodup ⊢
  rw [List.map_append, List.nodup_append] at hnodup
  exact hstart.walk (by simpa using hnodup.1)

/-! ## A superseded command has a newest one before it -/

theorem exists_newest {entries : List SessionCommandEntry}
    (h : entry.hasNewerSameKind entries = true) :
    ∃ newest ∈ entries, newest.Supersedes entry ∧
      ∀ other ∈ entries, other.Supersedes entry → other.issuedAt ≤ newest.issuedAt := by
  classical
  obtain ⟨newer, hmem, hnewer⟩ := hasNewerSameKind_iff.mp h
  obtain ⟨newest, hnewest, hmax⟩ :=
    (entries.toFinset.filter (·.Supersedes entry)).exists_max_image (·.issuedAt)
      ⟨newer, by simp [hmem, hnewer]⟩
  simp only [Finset.mem_filter, List.mem_toFinset] at hnewest hmax
  exact ⟨newest, hnewest.1, hnewest.2, fun other hother hsup => hmax other ⟨hother, hsup⟩⟩

/-- **Supersession.** When a command is discarded for newer ones of its kind, the newest of them is
executed in the same drain, unless the table held it, it has expired when the drain comes to it, or
it is an interrupt whose turn is over then. -/
theorem newest_survives (hnodup : (commands.map (·.id)).Nodup) {around : Surroundings}
    {ledger : List String} {v : Verdict} (hv : v ∈ (drain around ledger commands).verdicts)
    (hsuperseded : v.disposition = .superseded)
    (hnewer : v.entry.hasNewerSameKind v.commands = true) :
    ∃ newest ∈ v.commands, newest.Supersedes v.entry ∧
      (∀ other ∈ v.commands, other.Supersedes v.entry → other.issuedAt ≤ newest.issuedAt) ∧
      (newest.id ∈ ledger ∨ ∃ w ∈ (drain around ledger commands).verdicts, w.entry = newest ∧
        (w.disposition = .execute ∨ newest.effectiveExpiry ≤ w.moment.nowMs ∨
          newest.turnIsOver w.context = true)) := by
  obtain ⟨newest, hmem, hsup, hmax⟩ := exists_newest hnewer
  refine ⟨newest, hmem, hsup, hmax, ?_⟩
  by_cases hheld : newest.id ∈ ledger
  · exact .inl hheld
  right
  obtain ⟨before, entry, behind, hsplit, hawaits, rfl⟩ := (mem_drain_verdicts_iff hnodup).mp hv
  -- The newest is not among the commands the drain is done with, so it comes to it later.
  have hwalked := walked_at hnodup hsplit around ledger
  obtain ⟨done, hdone, -, hpending⟩ := hwalked.commands
  have hbehind : newest ∈ behind := by
    have hmem' : newest ∈ done ++ entry :: behind := hdone ▸ hmem
    rcases List.mem_append.mp hmem' with hmem' | hmem'
    · exact absurd ((hpending newest hsup.2.2.1).mp hmem').2 hheld
    · rcases List.mem_cons.mp hmem' with heq | hmem'
      · exact absurd (heq ▸ rfl) hsup.1
      · exact hmem'
  obtain ⟨front, back, rfl⟩ := List.append_of_mem hbehind
  have hsplit' : commands = (before ++ entry :: front) ++ newest :: back := by simp [hsplit]
  have hawaits' : newest.awaits ledger = true := by
    simp [SessionCommandEntry.awaits, hsup.2.2.1, hheld]
  refine ⟨_, (mem_drain_verdicts_iff hnodup).mpr ⟨_, _, _, hsplit', hawaits', rfl⟩, rfl, ?_⟩
  have hfresh := fresh_at hnodup hsplit'
  rw [(walked_at hnodup hsplit' around ledger).disposition_eq hfresh hawaits' rfl]
  -- Nothing that stands then is newer, for it stood before.
  have hnone : ¬newest.hasNewerSameKind (stillStanding ledger (before ++ entry :: front) back) := by
    rw [hasNewerSameKind_iff]
    rintro ⟨other, hother, -, hkind, hstatus, hlt⟩
    have hunheld : entry.id ∉ ledger := by
      simpa using (Bool.and_eq_true_iff.mp hawaits).2
    obtain ⟨hstood, hcommand⟩ : other ∈ stillStanding ledger before (front ++ newest :: back) ∧
        other ∈ commands := by
      simp only [stillStanding, List.mem_append, List.mem_filter, List.mem_cons,
        List.contains_iff_mem, hsplit] at hother ⊢
      rcases hother with ⟨hmem' | rfl | hmem', hid⟩ | hmem'
      · exact ⟨.inl ⟨hmem', hid⟩, .inl hmem'⟩
      · exact absurd hid hunheld
      · exact ⟨.inr (.inl hmem'), .inr (.inr (.inl hmem'))⟩
      · exact ⟨.inr (.inr (.inr hmem')), .inr (.inr (.inr (.inr hmem')))⟩
    have hlater : entry.issuedAt < other.issuedAt := lt_trans hsup.2.2.2 hlt
    have hid : other.id ≠ entry.id := by
      intro heq
      have hentry : entry ∈ commands := by simp [hsplit]
      have hsame := List.inj_on_of_nodup_map hnodup hcommand hentry heq
      exact absurd (hsame ▸ hlater) (lt_irrefl _)
    have hle := hmax other (hwalked.mem_commands hstatus hstood)
      ⟨hid, hkind.trans hsup.2.1, hstatus, hlater⟩
    exact absurd hlt (not_lt.mpr hle)
  split_ifs with hexpired hnewerThen hover
  · exact .inr (.inl hexpired)
  · exact absurd hnewerThen.2 hnone
  · exact .inr (.inr hover)
  · exact .inl rfl

end Drained

/-- An interrupt that was queued while `m1` was the last entry. -/
def interruptAt (id : String) (issuedAt : Int) : SessionCommandEntry :=
  queuedCommand [⟨"m1", .user⟩] id .interrupt issuedAt

def noReplies : Replies where
  claimChat := .ok ()
  defaultHarness := "claude"
  dispatch := .ok ()
  steer := .ok .accepted
  interrupt := .ok ()
  respondInput := .ok true
  lastRequest := none
  requestFromChatRow := none
  openQuestion := none

def stillAround (nowMs : Int) (entryIds : List String) : Surroundings :=
  fun _ _ => { nowMs, entryIds, replies := noReplies }

/-- **Completeness.** A loop that nothing halts ends, and no command is left to take up. -/
theorem drain_complete {commands : List SessionCommandEntry} (hnodup : (commands.map (·.id)).Nodup)
    (around : Surroundings) (ledger : List String) :
    (drain around ledger commands).find = none := by
  rw [drain_eq_walk hnodup]
  have hstart : Walked ledger [] (commands ++ []) (drainStart ledger commands) := by
    simpa using walked_start ledger commands
  have hend : Walked ledger ([] ++ commands) []
      ((drainStart ledger commands).walk around commands) := hstart.walk (by simpa using hnodup)
  rw [hend.find_eq]
  rfl

theorem drain_complete_two :
    (drain (stillAround 2 ["m1"]) [] [interruptAt "c1" 0, interruptAt "c2" 1]).find = none :=
  drain_complete (by decide) _ _

/-- Two interrupts at a turn that is over: the older is discarded for the newer, the newer for the
turn. -/
theorem no_interrupt_survives :
    ¬∀ (around : Surroundings) (ledger : List String) (commands : List SessionCommandEntry),
      (commands.map (·.id)).Nodup → ∀ v ∈ (drain around ledger commands).verdicts,
      v.disposition = .superseded → v.entry.hasNewerSameKind v.commands = true →
      ∃ newer ∈ v.commands, newer.Supersedes v.entry ∧
        (newer.id ∈ ledger ∨ ∃ w ∈ (drain around ledger commands).verdicts,
          w.entry = newer ∧ w.disposition = .execute) := by
  intro h
  let commands := [interruptAt "c1" 0, interruptAt "c2" 1]
  let around := stillAround 2 ["m1", "a1"]
  have hall : ∀ w ∈ (drain around [] commands).verdicts, w.disposition ≠ .execute := by decide
  obtain ⟨v, hv, hsuperseded, hnewer⟩ : ∃ v ∈ (drain around [] commands).verdicts,
      v.disposition = .superseded ∧ v.entry.hasNewerSameKind v.commands = true :=
    ⟨(drainStart [] commands).verdict around (interruptAt "c1" 0), List.mem_cons_self,
      by decide, by decide⟩
  obtain ⟨newer, -, -, hsurvives⟩ := h around [] commands (by decide) v hv hsuperseded hnewer
  rcases hsurvives with hheld | ⟨w, hw, -, hexecute⟩
  · simp at hheld
  · exact hall w hw hexecute

/-- Nothing was appended after `m1`: the newer of the two interrupts is executed. -/
theorem newer_interrupt_survives :
    ∃ newest, newest.Supersedes (interruptAt "c1" 0) ∧
      (newest.id ∈ ([] : List String) ∨
        ∃ w ∈ (drain (stillAround 2 ["m1"]) [] [interruptAt "c1" 0, interruptAt "c2" 1]).verdicts,
          w.entry = newest ∧ (w.disposition = .execute ∨
            newest.effectiveExpiry ≤ w.moment.nowMs ∨ newest.turnIsOver w.context = true)) := by
  let commands := [interruptAt "c1" 0, interruptAt "c2" 1]
  let around := stillAround 2 ["m1"]
  have hv : (drainStart [] commands).verdict around (interruptAt "c1" 0) ∈
      (drain around [] commands).verdicts := List.mem_cons_self
  obtain ⟨newest, -, hsup, -, hsurvives⟩ :=
    newest_survives (by decide) hv (by decide) (by decide)
  exact ⟨newest, hsup, hsurvives⟩

end Zeron.Engine
