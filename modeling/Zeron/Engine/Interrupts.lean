import Zeron.Doc.Segment
import Zeron.Engine.Drain

/-!
# The turn an interrupt is aimed at

`DocHost::queue_command` of `crates/engine/src/doc_host.rs` bases a command on the last entry that
the composer's device has, and the drain of the host compares it with the last entry there. Between
the two the running turn goes on writing entries.
-/

namespace Zeron.Engine

open Zeron.Lib (Machine)

/-- What the composer and the drain read of an entry of `messages`. -/
structure TranscriptEntry where
  id : String
  role : Doc.MessageRole

/-- What `drain_commands` evaluates a command against. -/
def drainContext (ledger entryIds : List String) (commands : List SessionCommandEntry)
    (nowMs : Int) (readFails : Bool) : EvaluationContext :=
  { isProcessed := isProcessed ledger readFails
    nowMs
    entries := commands
    currentTurnId := entryIds.getLast?
    turnIsPast := fun turnId => entryIds.contains turnId }

/-- The entry that `queue_command` appends on a device that has these entries. -/
def queuedCommand (messages : List TranscriptEntry) (id : String)
    (payload : SessionCommandPayload) (nowMs : Int) : SessionCommandEntry :=
  { id
    payload
    issuedAt := nowMs
    basedOnTurn := messages.getLast?.map (·.id)
    expiresAt := some (nowMs + commandDefaultTtlMs)
    status := .pending
    resolution := none }

/-- A chat at its host, with the commands of other devices on their way there. -/
structure ChatRun where
  transcript : List TranscriptEntry
  inFlight : List SessionCommandEntry
  commands : List SessionCommandEntry
  ledger : List String

inductive ChatAction where
  | writeUserMessage (id : String)
  /-- `SegmentWriter::begin`, under an id the turn has minted. -/
  | beginSegment (id : String)
  /-- On a device that has the first `seen` entries. -/
  | queueCommand (seen : Nat) (id : String) (payload : SessionCommandPayload) (nowMs : Int)
  /-- Concurrent appends may come to stand in any order. -/
  | arrive (index place : Nat)
  | setCommandStatus (id : String) (status : SessionCommandStatus) (resolution : Option String)
  | markProcessed (id : String)

namespace ChatRun

def entryIds (s : ChatRun) : List String := s.transcript.map (·.id)

def context (s : ChatRun) (commands : List SessionCommandEntry) (nowMs : Int) (readFails : Bool) :
    EvaluationContext :=
  drainContext s.ledger s.entryIds commands nowMs readFails

def append (s : ChatRun) (entry : TranscriptEntry) : ChatRun :=
  { s with transcript := s.transcript ++ [entry] }

def step (s : ChatRun) : ChatAction → Option ChatRun
  | .writeUserMessage id => some (if id ∈ s.entryIds then s else s.append ⟨id, .user⟩)
  | .beginSegment id => if id ∈ s.entryIds then none else some (s.append ⟨id, .assistant⟩)
  | .queueCommand seen id payload nowMs =>
      let entry := queuedCommand (s.transcript.take seen) id payload nowMs
      some { s with inFlight := s.inFlight ++ [entry] }
  | .arrive index place =>
      s.inFlight[index]?.map fun entry =>
        { s with
          inFlight := s.inFlight.eraseIdx index
          commands := s.commands.take place ++ entry :: s.commands.drop place }
  | .setCommandStatus id status resolution =>
      some { s with commands := ChatDoc.setStatusIn id status resolution s.commands }
  | .markProcessed id => some { s with ledger := (Engine.markProcessed s.ledger id).2 }

end ChatRun

def chatRuns : Machine ChatRun ChatAction where
  init s := s.transcript = [] ∧ s.inFlight = [] ∧ s.commands = []
  step := ChatRun.step

/-! ## What is appended after an entry -/

def appendedAfter (id : String) (messages : List TranscriptEntry) : List TranscriptEntry :=
  (messages.dropWhile (·.id != id)).drop 1

theorem appendedAfter_split {pre post : List TranscriptEntry} {entry : TranscriptEntry}
    (hpre : entry.id ∉ pre.map (·.id)) : appendedAfter entry.id (pre ++ entry :: post) = post := by
  have hskip : ∀ m ∈ pre, (m.id != entry.id) = true := by
    intro m hm
    have hne : m.id ≠ entry.id := fun heq => hpre (heq ▸ List.mem_map_of_mem hm)
    simpa using hne
  unfold appendedAfter
  rw [List.dropWhile_append_of_pos hskip]
  simp

theorem appendedAfter_eq_nil_iff {messages : List TranscriptEntry} {id : String}
    (hnodup : (messages.map (·.id)).Nodup) (hid : id ∈ messages.map (·.id)) :
    appendedAfter id messages = [] ↔ (messages.map (·.id)).getLast? = some id := by
  obtain ⟨entry, hentry, rfl⟩ := List.mem_map.mp hid
  obtain ⟨pre, post, rfl⟩ := List.append_of_mem hentry
  rw [List.map_append, List.map_cons, List.nodup_append] at hnodup
  obtain ⟨-, hnodup, hdisjoint⟩ := hnodup
  have hpre : entry.id ∉ pre.map (·.id) := fun hmem =>
    hdisjoint _ hmem _ List.mem_cons_self rfl
  rw [appendedAfter_split hpre]
  cases post with
  | nil => simp
  | cons next rest =>
      have hlast : ((next :: rest).map (·.id)).getLast? ≠ some entry.id := by
        intro hlast
        exact (List.nodup_cons.mp hnodup).1 (List.mem_of_getLast? hlast)
      simpa using hlast

/-! ## Commands are based on entries of the transcript -/

variable {s s' : ChatRun}

namespace ChatRun

structure Grounded (s : ChatRun) : Prop where
  nodup : s.entryIds.Nodup
  based : ∀ entry ∈ s.inFlight ++ s.commands, ∀ turnId, entry.basedOnTurn = some turnId →
    turnId ∈ s.entryIds

theorem Grounded.append {s : ChatRun} (hgrounded : s.Grounded) {entry : TranscriptEntry}
    (hfresh : entry.id ∉ s.entryIds) : (s.append entry).Grounded := by
  have hids : (s.append entry).entryIds = s.entryIds ++ [entry.id] := by
    simp [entryIds, ChatRun.append]
  refine ⟨?_, ?_⟩
  · rw [hids]
    refine List.nodup_append.mpr ⟨hgrounded.nodup, List.nodup_singleton _, ?_⟩
    intro id hid id' hid' heq
    rw [List.mem_singleton] at hid'
    exact hfresh (hid' ▸ heq ▸ hid)
  · intro command hcommand turnId hturn
    rw [hids]
    exact List.mem_append_left _ (hgrounded.based command hcommand turnId hturn)

theorem Grounded.of_commands (hgrounded : s.Grounded) (htranscript : s'.transcript = s.transcript)
    (hcommands : ∀ entry ∈ s'.inFlight ++ s'.commands, ∃ old ∈ s.inFlight ++ s.commands,
      old.basedOnTurn = entry.basedOnTurn) : s'.Grounded := by
  have hids : s'.entryIds = s.entryIds := by simp [entryIds, htranscript]
  refine ⟨hids ▸ hgrounded.nodup, ?_⟩
  intro entry hentry turnId hturn
  obtain ⟨old, hold, hbased⟩ := hcommands entry hentry
  rw [hids]
  exact hgrounded.based old hold turnId (hbased.trans hturn)

theorem mem_setStatusIn {id : String} {status : SessionCommandStatus} {resolution : Option String}
    {commands : List SessionCommandEntry} {entry : SessionCommandEntry}
    (hentry : entry ∈ ChatDoc.setStatusIn id status resolution commands) :
    ∃ old ∈ commands, old.basedOnTurn = entry.basedOnTurn := by
  induction commands with
  | nil => simp [ChatDoc.setStatusIn] at hentry
  | cons first rest ih =>
      unfold ChatDoc.setStatusIn at hentry
      split_ifs at hentry
      · rcases List.mem_cons.mp hentry with rfl | hmem
        · exact ⟨first, List.mem_cons_self, rfl⟩
        · exact ⟨entry, List.mem_cons_of_mem _ hmem, rfl⟩
      · rcases List.mem_cons.mp hentry with rfl | hmem
        · exact ⟨entry, List.mem_cons_self, rfl⟩
        · obtain ⟨old, hold, hbased⟩ := ih hmem
          exact ⟨old, List.mem_cons_of_mem _ hold, hbased⟩

theorem Grounded.step {a : ChatAction} (hgrounded : s.Grounded) (h : s.step a = some s') :
    s'.Grounded := by
  cases a with
  | writeUserMessage id =>
      cases h
      split_ifs with hid
      · exact hgrounded
      · exact hgrounded.append hid
  | beginSegment id =>
      simp only [ChatRun.step] at h
      split_ifs at h with hid
      cases h
      exact hgrounded.append hid
  | queueCommand seen id payload nowMs =>
      cases h
      refine ⟨hgrounded.nodup, ?_⟩
      intro entry hentry turnId hturn
      simp only [List.mem_append, List.mem_singleton] at hentry
      rcases hentry with (hmem | rfl) | hmem
      · exact hgrounded.based entry (List.mem_append_left _ hmem) turnId hturn
      · obtain ⟨last, hlast, rfl⟩ := Option.map_eq_some_iff.mp hturn
        exact List.mem_map_of_mem (List.mem_of_mem_take (List.mem_of_getLast? hlast))
      · exact hgrounded.based entry (List.mem_append_right _ hmem) turnId hturn
  | arrive index place =>
      obtain ⟨arrived, harrived, rfl⟩ := Option.map_eq_some_iff.mp h
      refine hgrounded.of_commands rfl ?_
      intro entry hentry
      refine ⟨entry, ?_, rfl⟩
      simp only [List.mem_append, List.mem_cons] at hentry ⊢
      rcases hentry with hmem | hmem | rfl | hmem
      · exact .inl (List.mem_of_mem_eraseIdx hmem)
      · exact .inr (List.mem_of_mem_take hmem)
      · exact .inl (List.mem_of_getElem? harrived)
      · exact .inr (List.mem_of_mem_drop hmem)
  | setCommandStatus id status resolution =>
      cases h
      refine hgrounded.of_commands rfl ?_
      intro entry hentry
      rcases List.mem_append.mp hentry with hmem | hmem
      · exact ⟨entry, List.mem_append_left _ hmem, rfl⟩
      · obtain ⟨old, hold, hbased⟩ := mem_setStatusIn hmem
        exact ⟨old, List.mem_append_right _ hold, hbased⟩
  | markProcessed id =>
      cases h
      exact hgrounded.of_commands rfl fun entry hentry => ⟨entry, hentry, rfl⟩

theorem grounded_of_reachable {s : ChatRun} (h : chatRuns.Reachable s) : s.Grounded := by
  refine h.invariant (I := Grounded) ?_ ?_
  · rintro s ⟨htranscript, hinFlight, hcommands⟩
    refine ⟨by simp [entryIds, htranscript], ?_⟩
    simp [hinFlight, hcommands]
  · intro s a s' hgrounded _ hstep
    exact hgrounded.step hstep

theorem turns_extend {a : ChatAction} (h : s.step a = some s') :
    s.transcript <+: s'.transcript := by
  cases a with
  | writeUserMessage id =>
      cases h
      split_ifs
      · exact List.prefix_refl _
      · exact List.prefix_append _ _
  | beginSegment id =>
      simp only [ChatRun.step] at h
      split_ifs at h
      cases h
      exact List.prefix_append _ _
  | arrive index place =>
      obtain ⟨arrived, -, rfl⟩ := Option.map_eq_some_iff.mp h
      exact List.prefix_refl _
  | queueCommand _ _ _ _ | setCommandStatus _ _ _ | markProcessed id =>
      cases h
      exact List.prefix_refl _

theorem steps_prefix (h : chatRuns.Steps Machine.anyStep s s') :
    s.transcript <+: s'.transcript :=
  h.invariant (I := fun t => s.transcript <+: t.transcript)
    (fun _ _ _ hprefix _ hstep => hprefix.trans (turns_extend hstep)) (List.prefix_refl _)

end ChatRun

/-! ## Where an interrupt goes -/

theorem turnIsOver_iff {s : ChatRun} {entry : SessionCommandEntry} {turnId : String}
    (hkind : entry.kind = .interrupt) (hturn : entry.basedOnTurn = some turnId)
    (hnodup : s.entryIds.Nodup) (hmem : turnId ∈ s.entryIds)
    (commands : List SessionCommandEntry) (nowMs : Int) (readFails : Bool) :
    entry.turnIsOver (s.context commands nowMs readFails) = false ↔
      appendedAfter turnId s.transcript = [] := by
  rw [appendedAfter_eq_nil_iff hnodup hmem]
  have hpast : s.entryIds.contains turnId = true := by simpa using hmem
  simp only [SessionCommandEntry.turnIsOver, hkind, hturn, ChatRun.context, drainContext, hpast]
  simp [ChatRun.entryIds]

/-- **Interrupts.** The commands are read, then the transcript. An unexpired interrupt is executed,
or a user message has come after the entry it is based on, iff such a message has come or nothing
at all, and the command is neither processed nor followed by a newer one. -/
theorem interrupt_reaches_turn_iff {s s' : ChatRun} (h : chatRuns.Reachable s)
    (hsteps : chatRuns.Steps Machine.anyStep s s') {entry : SessionCommandEntry}
    (hentry : entry ∈ s.commands) (hkind : entry.kind = .interrupt) {turnId : String}
    (hturn : entry.basedOnTurn = some turnId) {nowMs : Int} (hlive : nowMs < entry.effectiveExpiry)
    (readFails : Bool) :
    ((∀ m ∈ appendedAfter turnId s'.transcript, m.role ≠ .user) →
        evaluateCommand entry (s'.context s.commands nowMs readFails) = .execute) ↔
      (∃ m ∈ appendedAfter turnId s'.transcript, m.role = .user) ∨
        (isProcessed s'.ledger readFails entry.id = false ∧
          entry.hasNewerSameKind s.commands = false ∧
          appendedAfter turnId s'.transcript = []) := by
  have hgrounded := ChatRun.grounded_of_reachable h
  have hgrounded' := ChatRun.grounded_of_reachable (h.steps hsteps)
  have hmem : turnId ∈ s'.entryIds := by
    have hbased := hgrounded.based entry (List.mem_append_right _ hentry) turnId hturn
    exact ((ChatRun.steps_prefix hsteps).map (·.id)).subset hbased
  have hover := turnIsOver_iff hkind hturn hgrounded'.nodup hmem s.commands nowMs readFails
  have hexecute : evaluateCommand entry (s'.context s.commands nowMs readFails) = .execute ↔
      isProcessed s'.ledger readFails entry.id = false ∧
        entry.hasNewerSameKind s.commands = false ∧
        appendedAfter turnId s'.transcript = [] := by
    rw [evaluateCommand_eq_execute_iff, hover]
    simp [hkind, hlive, ChatRun.context, drainContext]
  rw [hexecute]
  constructor
  · intro himp
    by_cases huser : ∃ m ∈ appendedAfter turnId s'.transcript, m.role = .user
    · exact .inl huser
    · push Not at huser
      exact .inr (himp huser)
  · rintro (⟨m, hm, huser⟩ | hcondition) hnone
    · exact absurd huser (hnone m hm)
    · exact hcondition

/-- A message, an interrupt based on it, and then the first segment of the turn. -/
def lateInterrupt : List ChatAction :=
  [.writeUserMessage "m1", .queueCommand 1 "c1" .interrupt 0, .arrive 0 0, .beginSegment "a1"]

def newChat : ChatRun := { transcript := [], inFlight := [], commands := [], ledger := [] }

/-- The turn that the interrupt was aimed at has written its first segment: the interrupt is taken
to be about an earlier turn and superseded, while that turn goes on. -/
theorem running_turn_missed :
    ¬∀ s, chatRuns.Reachable s → ∀ entry ∈ s.commands, entry.kind = .interrupt →
      entry.status = .pending → entry.id ∉ s.ledger →
      ∀ turnId, entry.basedOnTurn = some turnId → ∀ nowMs, nowMs < entry.effectiveExpiry →
      (∀ m ∈ appendedAfter turnId s.transcript, m.role ≠ .user) →
      evaluateCommand entry (s.context s.commands nowMs false) = .execute := by
  intro h
  obtain ⟨s, hrun, hs⟩ : ∃ s, chatRuns.run newChat lateInterrupt = some s ∧
      s.transcript = [⟨"m1", .user⟩, ⟨"a1", .assistant⟩] ∧
      s.commands = [queuedCommand [⟨"m1", .user⟩] "c1" .interrupt 0] ∧ s.ledger = [] :=
    ⟨_, rfl, rfl, rfl, rfl⟩
  obtain ⟨htranscript, hcommands, hledger⟩ := hs
  have hexecute := h s (Machine.reachable_of_run ⟨rfl, rfl, rfl⟩ hrun) _
    (by rw [hcommands]; exact List.mem_cons_self) rfl rfl (by simp [hledger]) "m1" rfl 1
    (by decide) (by rw [htranscript]; decide)
  rw [hcommands, ChatRun.context, ChatRun.entryIds, htranscript, hledger] at hexecute
  exact absurd hexecute (by decide)

/-- Nothing was appended after the message: the interrupt goes through. -/
theorem prompt_interrupt_reaches :
    ∃ s, chatRuns.Reachable s ∧ ∃ entry ∈ s.commands,
      ((∀ m ∈ appendedAfter "m1" s.transcript, m.role ≠ .user) →
        evaluateCommand entry (s.context s.commands 1 false) = .execute) := by
  obtain ⟨s, hrun, htranscript, hcommands, hledger⟩ :
      ∃ s, chatRuns.run newChat (lateInterrupt.take 3) = some s ∧
        s.transcript = [⟨"m1", .user⟩] ∧
        s.commands = [queuedCommand [⟨"m1", .user⟩] "c1" .interrupt 0] ∧ s.ledger = [] :=
    ⟨_, rfl, rfl, rfl, rfl⟩
  have hreach : chatRuns.Reachable s := Machine.reachable_of_run ⟨rfl, rfl, rfl⟩ hrun
  have hmem : queuedCommand [⟨"m1", .user⟩] "c1" .interrupt 0 ∈ s.commands := by
    rw [hcommands]
    exact List.mem_cons_self
  refine ⟨s, hreach, _, hmem, ?_⟩
  refine (interrupt_reaches_turn_iff hreach (Machine.Steps.refl s) hmem rfl rfl (by decide)
    false).mpr (.inr ⟨?_, ?_, ?_⟩)
  · simp [isProcessed, hledger]
  · rw [hcommands]
    decide
  · rw [htranscript]
    rfl

end Zeron.Engine
