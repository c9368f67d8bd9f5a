import Zeron.Engine.DrainInOrder

/-!
# Two orders of one command list

A drain of `crates/engine/src/doc_host.rs` while nothing else goes on: the transcript changes only
by what the drain executes. What becomes of a command can be said of the list alone: by the newer
commands that stand behind it, and for an interrupt by what was executed before it.
-/

namespace Zeron.Engine

structure DrainPlan where
  ledger : List String
  /-- The ids of the transcript's entries before the drain. -/
  entryIds : List String
  clock : SessionCommandEntry → Int
  replies : SessionCommandEntry → Replies
  /-- The transcript that the execution of a command leaves. -/
  leaves : List String → SessionCommandEntry → List String

namespace DrainPlan

def entryIdsAfter (plan : DrainPlan) (verdicts : List Verdict) : List String :=
  (verdicts.filter (·.disposition = .execute)).foldl (fun ids v => plan.leaves ids v.entry)
    plan.entryIds

def surroundings (plan : DrainPlan) : Surroundings := fun verdicts entry =>
  { nowMs := plan.clock entry
    entryIds := plan.entryIdsAfter verdicts
    replies := plan.replies entry }

def drain (plan : DrainPlan) (commands : List SessionCommandEntry) : DrainLoop :=
  Engine.drain plan.surroundings plan.ledger commands

end DrainPlan

def DrainLoop.executed (s : DrainLoop) : List SessionCommandEntry :=
  (s.verdicts.filter (·.disposition = .execute)).map (·.entry)

def DrainLoop.discarded (s : DrainLoop) : List SessionCommandEntry :=
  (s.verdicts.filter fun v => v.disposition = .expired ∨ v.disposition = .superseded).map (·.entry)

/-! ## The drain told of the list -/

namespace DrainPlan

variable (plan : DrainPlan)

def isLive (entry : SessionCommandEntry) : Bool :=
  entry.awaits plan.ledger && plan.clock entry < entry.effectiveExpiry

/-- Whether an unexpired command is superseded between the commands before and behind it, in a
transcript of these entries. -/
def discards (entryIds : List String) (before : List SessionCommandEntry)
    (entry : SessionCommandEntry) (behind : List SessionCommandEntry) : Bool :=
  ((entry.kind = .steer ∨ entry.kind = .interrupt) &&
      entry.hasNewerSameKind (stillStanding plan.ledger before behind)) ||
    entry.turnIsOver (drainContext [] entryIds [] 0 false)

/-- The transcript after the commands `through`, between those before and those behind. -/
def entryIdsThrough (entryIds : List String) (before : List SessionCommandEntry) :
    List SessionCommandEntry → List SessionCommandEntry → List String
  | [], _ => entryIds
  | entry :: through, behind =>
      let left :=
        if plan.isLive entry && !plan.discards entryIds before entry (through ++ behind) then
          plan.leaves entryIds entry
        else entryIds
      entryIdsThrough left (before ++ [entry]) through behind

/-- Whether a drain of the list discards a command that is live. -/
def discardsIn (commands : List SessionCommandEntry) (entry : SessionCommandEntry) : Bool :=
  let before := commands.takeWhile (·.id != entry.id)
  let behind := (commands.dropWhile (·.id != entry.id)).drop 1
  plan.discards (plan.entryIdsThrough plan.entryIds [] before (entry :: behind)) before entry behind

variable {plan} {pre rest : List SessionCommandEntry} {entry : SessionCommandEntry} {s : DrainLoop}

theorem disposition_iff (h : Walked plan.ledger pre (entry :: rest) s)
    (hfresh : entry.id ∉ pre.map (·.id)) (hawaits : entry.awaits plan.ledger = true) {v : Verdict}
    (hv : v = s.verdict plan.surroundings entry) :
    (v.disposition = .execute ↔ plan.isLive entry = true ∧
        plan.discards (plan.entryIdsAfter s.verdicts) pre entry rest = false) ∧
      (v.disposition = .expired ∨ v.disposition = .superseded ↔ plan.isLive entry = false ∨
        plan.discards (plan.entryIdsAfter s.verdicts) pre entry rest = true) := by
  have hnow : v.moment.nowMs = plan.clock entry := by rw [hv]; rfl
  have hover : entry.turnIsOver v.context =
      entry.turnIsOver (drainContext [] (plan.entryIdsAfter s.verdicts) [] 0 false) := by
    rw [hv]
    rfl
  rw [h.disposition_eq hfresh hawaits hv, hnow, hover]
  simp only [isLive, discards, hawaits, Bool.true_and, decide_eq_true_eq, decide_eq_false_iff_not,
    Bool.or_eq_true, Bool.or_eq_false_iff, Bool.and_eq_true]
  split_ifs with hexpired hnewer hover
  · simp [hexpired]
  · simp [lt_of_not_ge hexpired, hnewer]
  · simp [lt_of_not_ge hexpired, hover]
  · have hlive : plan.clock entry < entry.effectiveExpiry := lt_of_not_ge hexpired
    rw [not_and] at hnewer
    have hover' := Bool.eq_false_iff.mpr hover
    simpa [hlive, hover'] using hnewer

theorem entryIdsAfter_concat (verdicts : List Verdict) (v : Verdict) :
    plan.entryIdsAfter (verdicts ++ [v]) =
      if v.disposition = .execute then plan.leaves (plan.entryIdsAfter verdicts) v.entry
      else plan.entryIdsAfter verdicts := by
  unfold entryIdsAfter
  split_ifs with hruns <;> simp [List.filter_append, hruns]

theorem entryIdsAfter_visit (h : Walked plan.ledger pre (entry :: rest) s)
    (hfresh : entry.id ∉ pre.map (·.id)) :
    plan.entryIdsAfter (s.visit plan.surroundings entry).verdicts =
      if plan.isLive entry && !plan.discards (plan.entryIdsAfter s.verdicts) pre entry rest then
        plan.leaves (plan.entryIdsAfter s.verdicts) entry
      else plan.entryIdsAfter s.verdicts := by
  rw [DrainLoop.visit_verdicts, h.isCandidate_eq hfresh]
  cases hawaits : entry.awaits plan.ledger with
  | false => simp [isLive, hawaits]
  | true =>
      have hexecute := (disposition_iff h hfresh hawaits rfl).1
      rw [if_pos rfl, entryIdsAfter_concat]
      refine if_congr ?_ rfl rfl
      rw [hexecute, Bool.and_eq_true, Bool.not_eq_true']

theorem entryIdsAfter_walk {through behind : List SessionCommandEntry}
    (h : Walked plan.ledger pre (through ++ behind) s)
    (hnodup : ((pre ++ (through ++ behind)).map (·.id)).Nodup) :
    plan.entryIdsAfter (s.walk plan.surroundings through).verdicts =
      plan.entryIdsThrough (plan.entryIdsAfter s.verdicts) pre through behind := by
  induction through generalizing s pre with
  | nil => rfl
  | cons entry through ih =>
      have hfresh : entry.id ∉ pre.map (·.id) := fresh_at hnodup rfl
      have hmove : pre ++ (entry :: through ++ behind) = pre ++ [entry] ++ (through ++ behind) := by
        simp
      rw [hmove] at hnodup
      have hwalk : s.walk plan.surroundings (entry :: through) =
          (s.visit plan.surroundings entry).walk plan.surroundings through := rfl
      rw [hwalk, ih (h.visit hfresh) hnodup, entryIdsAfter_visit h hfresh]
      rfl

variable {commands : List SessionCommandEntry}

theorem discardsIn_eq {before behind : List SessionCommandEntry}
    (hnodup : (commands.map (·.id)).Nodup) (hsplit : commands = before ++ entry :: behind) :
    plan.discardsIn commands entry =
      plan.discards (plan.entryIdsThrough plan.entryIds [] before (entry :: behind)) before entry
        behind := by
  have hfresh := fresh_at hnodup hsplit
  have hskip : ∀ c ∈ before, (c.id != entry.id) = true := by
    intro c hc
    have hne : c.id ≠ entry.id := fun heq => hfresh (heq ▸ List.mem_map_of_mem hc)
    simpa using hne
  have hbefore : commands.takeWhile (·.id != entry.id) = before := by
    rw [hsplit, List.takeWhile_append_of_pos hskip]
    simp
  have hbehind : (commands.dropWhile (·.id != entry.id)).drop 1 = behind := by
    rw [hsplit, List.dropWhile_append_of_pos hskip]
    simp
  unfold discardsIn
  rw [hbefore, hbehind]

theorem drain_disposition_iff {before behind : List SessionCommandEntry}
    (hnodup : (commands.map (·.id)).Nodup) (hsplit : commands = before ++ entry :: behind)
    (hawaits : entry.awaits plan.ledger = true) {v : Verdict}
    (hv : v = ((drainStart plan.ledger commands).walk plan.surroundings before).verdict
      plan.surroundings entry) :
    (v.disposition = .execute ↔
        plan.isLive entry = true ∧ plan.discardsIn commands entry = false) ∧
      (v.disposition = .expired ∨ v.disposition = .superseded ↔
        plan.isLive entry = false ∨ plan.discardsIn commands entry = true) := by
  have hwalked := walked_at hnodup hsplit plan.surroundings plan.ledger
  have hstart : Walked plan.ledger [] (before ++ entry :: behind)
      (drainStart plan.ledger commands) := hsplit ▸ walked_start plan.ledger commands
  have hids := entryIdsAfter_walk hstart (by simpa [hsplit] using hnodup)
  rw [discardsIn_eq hnodup hsplit]
  have hiff := disposition_iff hwalked (fresh_at hnodup hsplit) hawaits hv
  rw [hids] at hiff
  exact hiff

theorem mem_drain_executed_iff (hnodup : (commands.map (·.id)).Nodup) :
    entry ∈ (plan.drain commands).executed ↔
      entry ∈ commands ∧ plan.isLive entry = true ∧ plan.discardsIn commands entry = false := by
  simp only [DrainLoop.executed, List.mem_map, List.mem_filter, decide_eq_true_eq]
  constructor
  · rintro ⟨v, ⟨hv, hexecute⟩, rfl⟩
    obtain ⟨before, entry, behind, hsplit, hawaits, rfl⟩ := (mem_drain_verdicts_iff hnodup).mp hv
    refine ⟨by simp [hsplit, DrainLoop.verdict], ?_⟩
    exact (drain_disposition_iff hnodup hsplit hawaits rfl).1.mp hexecute
  · rintro ⟨hmem, hlive, hkept⟩
    obtain ⟨before, behind, hsplit⟩ := List.append_of_mem hmem
    have hawaits := (Bool.and_eq_true_iff.mp hlive).1
    refine ⟨_, ⟨(mem_drain_verdicts_iff hnodup).mpr ⟨_, _, _, hsplit, hawaits, rfl⟩, ?_⟩, rfl⟩
    exact (drain_disposition_iff hnodup hsplit hawaits rfl).1.mpr ⟨hlive, hkept⟩

theorem mem_drain_discarded_iff (hnodup : (commands.map (·.id)).Nodup) :
    entry ∈ (plan.drain commands).discarded ↔
      entry ∈ commands ∧ entry.awaits plan.ledger = true ∧
        (plan.isLive entry = false ∨ plan.discardsIn commands entry = true) := by
  simp only [DrainLoop.discarded, List.mem_map, List.mem_filter, decide_eq_true_eq]
  constructor
  · rintro ⟨v, ⟨hv, hdiscard⟩, rfl⟩
    obtain ⟨before, entry, behind, hsplit, hawaits, rfl⟩ := (mem_drain_verdicts_iff hnodup).mp hv
    refine ⟨by simp [hsplit, DrainLoop.verdict], hawaits, ?_⟩
    exact (drain_disposition_iff hnodup hsplit hawaits rfl).2.mp hdiscard
  · rintro ⟨hmem, hawaits, hdiscard⟩
    obtain ⟨before, behind, hsplit⟩ := List.append_of_mem hmem
    refine ⟨_, ⟨(mem_drain_verdicts_iff hnodup).mpr ⟨_, _, _, hsplit, hawaits, rfl⟩, ?_⟩, rfl⟩
    exact (drain_disposition_iff hnodup hsplit hawaits rfl).2.mpr hdiscard

theorem discardsIn_eq_false (commands : List SessionCommandEntry)
    (hkind : ¬(entry.kind = .steer ∨ entry.kind = .interrupt)) :
    plan.discardsIn commands entry = false := by
  have hinterrupt : (entry.kind == .interrupt) = false := by
    simpa using fun h => hkind (.inr h)
  simp [discardsIn, discards, hkind, SessionCommandEntry.turnIsOver, hinterrupt]

end DrainPlan

/-- **Order.** Drains of two orders of one list execute the same commands and discard the same iff
each live steer and interrupt is discarded in both orders or in neither. -/
theorem drain_order_iff (plan : DrainPlan) {commands commands' : List SessionCommandEntry}
    (hperm : commands.Perm commands') (hnodup : (commands.map (·.id)).Nodup) :
    ((∀ entry, entry ∈ (plan.drain commands).executed ↔
          entry ∈ (plan.drain commands').executed) ∧
        ∀ entry, entry ∈ (plan.drain commands).discarded ↔
          entry ∈ (plan.drain commands').discarded) ↔
      ∀ entry ∈ commands, plan.isLive entry = true →
        (entry.kind = .steer ∨ entry.kind = .interrupt) →
        plan.discardsIn commands entry = plan.discardsIn commands' entry := by
  have hnodup' : (commands'.map (·.id)).Nodup := (hperm.map _).nodup_iff.mp hnodup
  constructor
  · rintro ⟨hexecuted, -⟩ entry hentry hlive -
    have hiff := hexecuted entry
    rw [DrainPlan.mem_drain_executed_iff hnodup, DrainPlan.mem_drain_executed_iff hnodup'] at hiff
    simp only [hentry, hperm.mem_iff.mp hentry, hlive, true_and] at hiff
    exact Bool.eq_iff_iff.mpr (by simpa using not_congr hiff)
  · intro hsame
    have hall : ∀ entry ∈ commands, plan.isLive entry = true →
        plan.discardsIn commands entry = plan.discardsIn commands' entry := by
      intro entry hentry hlive
      by_cases hkind : entry.kind = .steer ∨ entry.kind = .interrupt
      · exact hsame entry hentry hlive hkind
      · rw [DrainPlan.discardsIn_eq_false _ hkind, DrainPlan.discardsIn_eq_false _ hkind]
    refine ⟨fun entry => ?_, fun entry => ?_⟩
    · rw [DrainPlan.mem_drain_executed_iff hnodup, DrainPlan.mem_drain_executed_iff hnodup',
        hperm.mem_iff]
      refine and_congr_right fun hentry => and_congr_right fun hlive => ?_
      rw [hall entry (hperm.mem_iff.mpr hentry) hlive]
    · rw [DrainPlan.mem_drain_discarded_iff hnodup, DrainPlan.mem_drain_discarded_iff hnodup',
        hperm.mem_iff]
      refine and_congr_right fun hentry => and_congr_right fun hawaits => ?_
      cases hlive : plan.isLive entry with
      | false => simp
      | true => rw [hall entry (hperm.mem_iff.mpr hentry) hlive]

/-! ## Steers in one order -/

theorem hasNewerSameKind_stillStanding (entry : SessionCommandEntry) (ledger : List String)
    (before behind : List SessionCommandEntry) :
    entry.hasNewerSameKind (stillStanding ledger before behind) =
      entry.hasNewerSameKind (stillStanding ledger (before.filter (·.kind = entry.kind))
        (behind.filter (·.kind = entry.kind))) := by
  rw [Bool.eq_iff_iff, hasNewerSameKind_iff, hasNewerSameKind_iff]
  refine exists_congr fun other => and_congr_left fun hother => ?_
  simp [stillStanding, hother.2.1]

/-- Where no interrupt is live, only the order of the steers matters. -/
theorem drain_order_of_steers (plan : DrainPlan) {commands commands' : List SessionCommandEntry}
    (hperm : commands.Perm commands') (hnodup : (commands.map (·.id)).Nodup)
    (hsteers : commands.filter (·.kind = .steer) = commands'.filter (·.kind = .steer))
    (hnone : ∀ entry ∈ commands, plan.isLive entry = true → entry.kind ≠ .interrupt)
    (entry : SessionCommandEntry) :
    (entry ∈ (plan.drain commands).executed ↔ entry ∈ (plan.drain commands').executed) ∧
      (entry ∈ (plan.drain commands).discarded ↔ entry ∈ (plan.drain commands').discarded) := by
  have hnodup' : (commands'.map (·.id)).Nodup := (hperm.map _).nodup_iff.mp hnodup
  have hsame : entry ∈ commands → plan.isLive entry = true →
      plan.discardsIn commands entry = plan.discardsIn commands' entry := by
    intro hentry hlive
    by_cases hkind : entry.kind = .steer
    · -- The steers before and behind it are the same ones in both lists.
      obtain ⟨before, behind, hsplit⟩ := List.append_of_mem hentry
      obtain ⟨before', behind', hsplit'⟩ := List.append_of_mem (hperm.mem_iff.mp hentry)
      rw [hsplit, hsplit', List.filter_append, List.filter_append,
        List.filter_cons_of_pos (by simpa using hkind),
        List.filter_cons_of_pos (by simpa using hkind)] at hsteers
      have hdistinct := (hsplit ▸ hnodup).of_map
      rw [List.nodup_middle, List.nodup_cons, List.mem_append, not_or] at hdistinct
      have hinj := (List.append_cons_inj_of_notMem
        (fun h => hdistinct.1.1 (List.mem_of_mem_filter h))
        (fun h => hdistinct.1.2 (List.mem_of_mem_filter h))).mp hsteers
      rw [DrainPlan.discardsIn_eq hnodup hsplit, DrainPlan.discardsIn_eq hnodup' hsplit']
      have hinterrupt : (entry.kind == .interrupt) = false := by simp [hkind]
      simp only [DrainPlan.discards, SessionCommandEntry.turnIsOver, hinterrupt, Bool.false_and,
        hasNewerSameKind_stillStanding entry _ before, hasNewerSameKind_stillStanding entry _ before']
      rw [hkind, hinj.1, hinj.2.2]
    · have hother : ¬(entry.kind = .steer ∨ entry.kind = .interrupt) :=
        not_or.mpr ⟨hkind, hnone entry hentry hlive⟩
      rw [DrainPlan.discardsIn_eq_false _ hother, DrainPlan.discardsIn_eq_false _ hother]
  rw [DrainPlan.mem_drain_executed_iff hnodup, DrainPlan.mem_drain_executed_iff hnodup',
    DrainPlan.mem_drain_discarded_iff hnodup, DrainPlan.mem_drain_discarded_iff hnodup',
    ← hperm.mem_iff]
  by_cases hentry : entry ∈ commands
  · cases hlive : plan.isLive entry with
    | false => simp
    | true => rw [hsame hentry hlive]; simp
  · simp [hentry]

/-! ## Two steers -/

def steerAt (id : String) (issuedAt : Int) : SessionCommandEntry :=
  queuedCommand [] id (.steer "go" none) issuedAt

def steadyPlan : DrainPlan where
  ledger := []
  entryIds := []
  clock := fun _ => 2
  replies := fun _ => noReplies
  leaves := fun entryIds _ => entryIds

/-- Behind the newer steer the older one is discarded; after the newer was executed nothing newer is
pending, and the older is executed too. -/
theorem steers_depend_on_order :
    ¬∀ (plan : DrainPlan) (commands commands' : List SessionCommandEntry),
      commands.Perm commands' → (commands.map (·.id)).Nodup →
      (∀ entry, entry ∈ (plan.drain commands).executed ↔
          entry ∈ (plan.drain commands').executed) ∧
        ∀ entry, entry ∈ (plan.drain commands).discarded ↔
          entry ∈ (plan.drain commands').discarded := by
  intro h
  obtain ⟨hexecuted, -⟩ := h steadyPlan [steerAt "c1" 0, steerAt "c2" 1]
    [steerAt "c2" 1, steerAt "c1" 0] (List.Perm.swap _ _ _) (by decide)
  have hnot : steerAt "c1" 0 ∉ (steadyPlan.drain [steerAt "c1" 0, steerAt "c2" 1]).executed := by
    decide
  have hexecute : steerAt "c1" 0 ∈
      (steadyPlan.drain [steerAt "c2" 1, steerAt "c1" 0]).executed := by decide
  exact hnot ((hexecuted _).mpr hexecute)

/-- A steer and a run in either order. -/
theorem steer_and_run_agree :
    (∀ entry, entry ∈ (steadyPlan.drain [steerAt "c1" 0, runEntry "c2"]).executed ↔
        entry ∈ (steadyPlan.drain [runEntry "c2", steerAt "c1" 0]).executed) ∧
      ∀ entry, entry ∈ (steadyPlan.drain [steerAt "c1" 0, runEntry "c2"]).discarded ↔
        entry ∈ (steadyPlan.drain [runEntry "c2", steerAt "c1" 0]).discarded :=
  (drain_order_iff steadyPlan (List.Perm.swap _ _ _) (by decide)).mpr (by decide)

theorem steers_around_run :
    (runEntry "c3" ∈ (steadyPlan.drain [steerAt "c1" 0, runEntry "c3"]).executed ↔
        runEntry "c3" ∈ (steadyPlan.drain [runEntry "c3", steerAt "c1" 0]).executed) ∧
      (runEntry "c3" ∈ (steadyPlan.drain [steerAt "c1" 0, runEntry "c3"]).discarded ↔
        runEntry "c3" ∈ (steadyPlan.drain [runEntry "c3", steerAt "c1" 0]).discarded) :=
  drain_order_of_steers steadyPlan (List.Perm.swap _ _ _) (by decide) (by decide) (by decide) _

end Zeron.Engine
