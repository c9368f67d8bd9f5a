import Zeron.Harness.Session

/-!
# Where a steer is

A steer taken from the mailbox is in the steering call, in its backlog, in the turn-boundary queue,
or delivered. Only these holders and the turn matter for it, so a session is looked at through them.
-/

namespace Zeron.Harness

open Zeron.Lib (Machine)

/-- The holders of steers, with what moves them on. -/
structure Holders where
  turn : Bool
  queue : List String
  call : Option String
  backlog : List String
  flushing : Bool
  mailboxOpen : Bool
  interrupted : Bool
  taken : List String
  delivered : List String
  exit : Option Exit

def Session.holders (s : Session) : Holders where
  turn := s.turn.isSome
  queue := s.queuedSteers
  call := s.steeringCall
  backlog := s.steerBacklog
  flushing := s.cancelFlushDeadline.isSome
  mailboxOpen := s.steeringOpen
  interrupted := s.interrupted
  taken := s.taken
  delivered := s.delivered
  exit := s.exit

namespace Holders

def held (h : Holders) : List String := h.call.toList ++ h.backlog ++ h.queue

/-- Every steer taken is delivered or in exactly one holder. -/
def Kept (h : Holders) : Prop := h.taken.Perm (h.delivered ++ h.held)

/-- What waits in the queue or in the backlog has a step that moves it on. -/
def Moving (h : Holders) : Prop :=
  (h.queue ≠ [] → h.turn = true ∨ h.flushing = true) ∧ (h.backlog ≠ [] → h.call ≠ none)

/-- Until it is interrupted, a session keeps its steers moving, and one that ends while its agent is
alive has delivered them all. -/
structure Inv (h : Holders) : Prop where
  kept : h.interrupted = false → h.exit = none → h.Kept
  moving : h.interrupted = false → h.exit = none → h.Moving
  settled : h.interrupted = false → ∀ exit, h.exit = some exit → exit ≠ .eof → h.Kept ∧ h.held = []

theorem kept_iff {h : Holders} :
    h.Kept ↔ ∀ text, h.taken.count text = h.delivered.count text + h.call.toList.count text
      + h.backlog.count text + h.queue.count text := by
  simp only [Kept, held, List.perm_iff_count, List.count_append, Nat.add_assoc]

theorem Inv.of_interrupted {h : Holders} (hint : h.interrupted = true) : h.Inv where
  kept hfalse := by simp [hint] at hfalse
  moving hfalse := by simp [hint] at hfalse
  settled hfalse := by simp [hint] at hfalse

theorem Inv.of_exit {h : Holders} {exit : Exit} (hexit : h.exit = some exit)
    (hdelivered : h.interrupted = false → exit ≠ .eof → h.Kept ∧ h.held = []) : h.Inv where
  kept _ hnone := by simp [hexit] at hnone
  moving _ hnone := by simp [hexit] at hnone
  settled hint other hother hne := by
    cases hexit.symm.trans hother
    exact hdelivered hint hne

theorem Inv.running {h : Holders} (hexit : h.exit = none) (hkept : h.Kept) (hmoving : h.Moving) :
    h.Inv where
  kept _ _ := hkept
  moving _ _ := hmoving
  settled _ _ hsome := by simp [hexit] at hsome

end Holders

/-! ## Steps that no holder notices -/

namespace Session

variable {s : Session}

@[simp] theorem holders_send (event : AgentEvent) : (s.send event).holders = s.holders := rfl

@[simp] theorem holders_sendSteered : s.sendSteered.holders = s.holders := rfl

@[simp] theorem holders_completeMessage : s.completeMessage.holders = s.holders := rfl

@[simp] theorem holders_sendAll (events : List StreamEvent) :
    (s.sendAll events).holders = s.holders := rfl

@[simp] theorem holders_sendUsage (res : PromptResult) : (s.sendUsage res).holders = s.holders := by
  unfold sendUsage
  split <;> rfl

@[simp] theorem holders_endTurn (res : PromptResult) : (s.endTurn res).holders = s.holders := rfl

@[simp] theorem holders_ask (asks : Bool) : (s.ask asks).holders = s.holders := by
  unfold ask
  split <;> rfl

@[simp] theorem holders_trackTurnSignals (event : StreamEvent) :
    (s.trackTurnSignals event).holders = s.holders := by
  cases event with
  | textDelta text =>
      simp only [trackTurnSignals]
      split <;> rfl
  | _ => rfl

@[simp] theorem holders_stream (events : List StreamEvent) :
    (s.stream events).holders = s.holders := by
  induction events generalizing s with
  | nil => rfl
  | cons event events ih =>
      unfold stream
      rw [ih, holders_send, holders_trackTurnSignals]

@[simp] theorem holders_drain (drained : List Incoming) :
    (s.drain drained).holders = s.holders := by
  induction drained generalizing s with
  | nil => rfl
  | cons inc drained ih =>
      cases inc with
      | request asks events =>
          unfold drain
          rw [ih, holders_sendAll, holders_ask]
      | _ =>
          unfold drain
          rw [ih]
          try rfl

theorem holders_leave (exit : Exit) :
    (s.leave exit).holders = { s.holders with exit := some exit } := by
  simp only [leave]
  split
  · rfl
  · split
    · rfl
    · split <;> rfl

theorem holders_receive (spec : Spec) (inc : Incoming) : (s.receive spec inc).holders = s.holders := by
  cases inc with
  | update turnEndCost events =>
      simp only [receive]
      split <;> rw [holders_stream] <;> rfl
  | turnEnded mine =>
      simp only [receive]
      split <;> rfl
  | notification events =>
      simp only [receive, holders_stream]
      rfl
  | request asks events => simp only [receive, holders_sendAll, holders_ask]

/-! ## The moves of steers -/

theorem inv_promptQueued (hexit : s.exit = none) (hkept : s.holders.Kept)
    (hbacklog : s.steerBacklog ≠ [] → s.steeringCall ≠ none)
    (hlast : s.queuedSteers = [] → s.steeringOpen = false → s.steeringCall = none) :
    s.promptQueued.holders.Inv := by
  unfold promptQueued
  cases hqueue : s.queuedSteers with
  | cons text rest =>
      refine Holders.Inv.running hexit ?_ ⟨fun _ => .inl rfl, hbacklog⟩
      rw [Holders.kept_iff] at hkept ⊢
      intro a
      have hcount := hkept a
      simp only [holders, hqueue, List.count_cons] at hcount
      simp only [holders, promptSteer, sendSteered, List.count_append, List.count_cons,
        List.count_nil]
      omega
  | nil =>
      cases hopen : s.steeringOpen with
      | true => exact Holders.Inv.running hexit hkept ⟨fun hne => absurd hqueue hne, hbacklog⟩
      | false =>
          have hcall := hlast hqueue hopen
          have hempty : s.steerBacklog = [] := by
            by_contra hne
            exact hbacklog hne hcall
          have hheld : s.holders.held = [] := by
            simp [Holders.held, holders, hcall, hempty, hqueue]
          simp only [Bool.false_eq_true, if_false, holders_leave]
          exact .of_exit rfl fun _ _ => ⟨hkept, hheld⟩

theorem settleCall_holders (hint : s.interrupted = false) (answer : Option SteeringResult)
    (hkept : s.holders.Kept) (hbacklog : s.steerBacklog ≠ [] → s.steeringCall ≠ none) :
    (s.settleCall answer).holders.Kept ∧ (s.settleCall answer).steeringCall = none ∧
      (s.settleCall answer).steerBacklog = [] ∧ (s.settleCall answer).exit = s.exit ∧
      (s.steerBacklog = [] → (s.steeringCall = none ∨ settledOutcome answer ≠ "promptRequired") →
        (s.settleCall answer).queuedSteers = s.queuedSteers) := by
  rw [Holders.kept_iff] at hkept ⊢
  unfold settleCall
  cases hcall : s.steeringCall with
  | none =>
      have hempty : s.steerBacklog = [] := by
        by_contra hne
        exact hbacklog hne hcall
      exact ⟨hkept, hcall, hempty, rfl, fun _ _ => rfl⟩
  | some text =>
      refine ⟨fun a => ?_, ?_⟩
      · have hcount := hkept a
        simp only [holders, hcall, Option.toList_some, List.count_cons, List.count_nil] at hcount
        by_cases houtcome : settledOutcome answer ≠ "promptRequired"
        · simp only [hint, Bool.false_eq_true, if_false, if_pos houtcome, holders, sendSteered,
            List.count_append, Option.toList_none, List.count_cons, List.count_nil]
          omega
        · simp only [hint, Bool.false_eq_true, if_false, if_neg houtcome, holders,
            List.count_append, Option.toList_none, List.count_cons, List.count_nil]
          omega
      · by_cases houtcome : settledOutcome answer ≠ "promptRequired" <;>
          simp +contextual [hint, houtcome, sendSteered]

theorem settleCall_interrupted (answer : Option SteeringResult) :
    (s.settleCall answer).interrupted = s.interrupted := by
  unfold settleCall
  cases s.steeringCall with
  | none => rfl
  | some text =>
      cases hint : s.interrupted with
      | true => simp
      | false =>
          by_cases houtcome : settledOutcome answer ≠ "promptRequired" <;>
            simp [houtcome, sendSteered]

theorem holders_closeTurn (res : PromptResult) (answer : Option SteeringResult)
    (drained : List Incoming) :
    (s.closeTurn res answer drained).holders
      = (Session.settleCall { s with turn := none, starveDeadline := none } answer).holders := by
  simp only [closeTurn]
  rw [holders_endTurn, holders_sendUsage, holders_completeMessage, holders_drain]

theorem inv_settleTurn (hexit : s.exit = none) (hinv : s.holders.Inv) (res : PromptResult)
    (answer : Option SteeringResult) (drained : List Incoming)
    (htimely : res = .error → s.interrupted = false → s.queuedSteers = [] ∧ s.steerBacklog = [] ∧
      (s.steeringCall = none ∨ settledOutcome answer ≠ "promptRequired")) :
    (s.settleTurn res answer drained).holders.Inv := by
  have hclose := holders_closeTurn (s := s) res answer drained
  have hsame : (s.closeTurn res answer drained).interrupted = s.interrupted :=
    (congrArg Holders.interrupted hclose).trans
      (settleCall_interrupted (s := { s with turn := none, starveDeadline := none }) answer)
  unfold settleTurn
  dsimp only
  rw [hsame]
  cases hint : s.interrupted with
  | true =>
      rw [Bool.true_or, if_pos rfl, holders_leave]
      exact Holders.Inv.of_interrupted (hsame.trans hint)
  | false =>
      obtain ⟨hkept, hcall, hempty, hexit', hqueue⟩ :=
        settleCall_holders (s := { s with turn := none, starveDeadline := none }) hint answer
          (hinv.kept hint hexit) (hinv.moving hint hexit).2
      rw [← hclose] at hkept
      have hcall' : (s.closeTurn res answer drained).steeringCall = none :=
        (congrArg Holders.call hclose).trans hcall
      have hempty' : (s.closeTurn res answer drained).steerBacklog = [] :=
        (congrArg Holders.backlog hclose).trans hempty
      rw [Bool.false_or]
      split
      · rename_i herror
        obtain ⟨hnone, hbacklog, hsettled⟩ := htimely (of_decide_eq_true herror) hint
        have hqueue' : (s.closeTurn res answer drained).queuedSteers = [] :=
          (congrArg Holders.queue hclose).trans ((hqueue hbacklog hsettled).trans hnone)
        rw [holders_leave]
        refine .of_exit rfl fun _ _ => ⟨hkept, ?_⟩
        simp [Holders.held, holders, hcall', hempty', hqueue']
      · exact inv_promptQueued ((congrArg Holders.exit hclose).trans (hexit'.trans hexit)) hkept
          (fun hne => absurd hempty' hne) (fun _ _ => hcall')

theorem inv_recover (hexit : s.exit = none) (hint : s.interrupted = false) (hinv : s.holders.Inv)
    (hlast : s.queuedSteers = [] → s.steeringOpen = false → s.steeringCall = none) :
    s.recover.holders.Inv := by
  unfold recover
  exact inv_promptQueued hexit (hinv.kept hint hexit) (hinv.moving hint hexit).2 hlast

theorem inv_flush (hexit : s.exit = none) (hint : s.interrupted = false) (hinv : s.holders.Inv)
    (hlast : s.turn = none → s.queuedSteers = [] → s.steeringOpen = false →
      s.steeringCall = none) : s.flush.holders.Inv := by
  have hkept := hinv.kept hint hexit
  have hmoving := hinv.moving hint hexit
  simp only [flush]
  cases hturn : s.turn with
  | none => exact inv_promptQueued hexit hkept hmoving.2 (hlast hturn)
  | some text =>
      refine Holders.Inv.running hexit hkept ⟨fun _ => .inl ?_, hmoving.2⟩
      simp [holders]

theorem inv_closeMailbox (hexit : s.exit = none) (hint : s.interrupted = false)
    (hinv : s.holders.Inv)
    (hlast : s.turn = none → s.queuedSteers = [] → s.steeringCall = none) :
    s.closeMailbox.holders.Inv := by
  have hkept := hinv.kept hint hexit
  have hmoving := hinv.moving hint hexit
  simp only [closeMailbox]
  by_cases hend : (s.turn.isNone && s.queuedSteers.isEmpty) = true
  · rw [if_pos hend, holders_leave]
    simp only [Bool.and_eq_true, Option.isNone_iff_eq_none, List.isEmpty_iff] at hend
    have hcall := hlast hend.1 hend.2
    have hempty : s.steerBacklog = [] := by
      by_contra hne
      exact hmoving.2 hne hcall
    have hheld : s.holders.held = [] := by
      simp [Holders.held, holders, hcall, hempty, hend.2]
    exact .of_exit rfl fun _ _ => ⟨hkept, hheld⟩
  · rw [if_neg hend]
    exact Holders.Inv.running hexit hkept hmoving

theorem inv_steer (spec : Spec) (hexit : s.exit = none) (hint : s.interrupted = false)
    (hinv : s.holders.Inv) (prompt : String) : (s.steer spec prompt).holders.Inv := by
  have hkept := Holders.kept_iff.mp (hinv.kept hint hexit)
  have hmoving := hinv.moving hint hexit
  simp only [holders] at hkept
  simp only [steer]
  split
  · rename_i hflush
    refine Holders.Inv.running hexit (Holders.kept_iff.mpr fun a => ?_) ⟨fun _ => .inr ?_, hmoving.2⟩
    · have hcount := hkept a
      simp only [holders, List.count_append]
      omega
    · exact (Bool.and_eq_true_iff.mp hflush).2
  · split
    · refine Holders.Inv.running hexit (Holders.kept_iff.mpr fun a => ?_)
        ⟨fun _ => .inr rfl, hmoving.2⟩
      have hcount := hkept a
      simp only [holders, List.count_append]
      omega
    · split
      · refine Holders.Inv.running hexit (Holders.kept_iff.mpr fun a => ?_)
          ⟨fun _ => .inl rfl, hmoving.2⟩
        have hcount := hkept a
        simp only [holders, promptSteer, sendSteered, List.count_append]
        omega
      · rename_i hturn
        have hlive : s.turn.isSome = true := by
          cases h : s.turn with
          | none => simp [h] at hturn
          | some text => rfl
        split
        · split
          · rename_i hcall
            refine Holders.Inv.running hexit (Holders.kept_iff.mpr fun a => ?_)
              ⟨fun _ => .inl hlive, fun _ => ?_⟩
            · have hcount := hkept a
              simp only [holders, List.count_append]
              omega
            · exact Option.isSome_iff_ne_none.mp hcall
          · rename_i hcall
            have hnone : s.steeringCall = none := by simpa using hcall
            refine Holders.Inv.running hexit (Holders.kept_iff.mpr fun a => ?_)
              ⟨fun _ => .inl hlive, fun _ => Option.some_ne_none _⟩
            have hcount := hkept a
            simp only [hnone, Option.toList_none, List.count_nil] at hcount
            simp only [holders, List.count_append, Option.toList_some]
            omega
        · refine Holders.Inv.running hexit (Holders.kept_iff.mpr fun a => ?_)
            ⟨fun _ => .inl hlive, hmoving.2⟩
          have hcount := hkept a
          simp only [holders, List.count_append]
          omega

theorem holders_answerCall (hint : s.interrupted = false) (text : String) (res : SteeringResult)
    (drained : List Incoming) :
    (s.answerCall text res drained).holders =
      if res.outcome ≠ "promptRequired" then
        { s.holders with call := none, delivered := s.delivered ++ [text] }
      else if s.turn.isSome then
        { s.holders with call := none, queue := s.queuedSteers ++ [text] }
      else { s.holders with call := none, turn := true, delivered := s.delivered ++ [text] } := by
  simp only [answerCall, hint, Bool.false_eq_true, if_false]
  split
  · split
    · simp only [holders_sendSteered, holders_drain]
      simp [holders, hint]
    · simp [holders, hint]
  · split <;> simp [holders, promptSteer, sendSteered, hint]

theorem kept_answerCall (hint : s.interrupted = false) (hkept : s.holders.Kept) {text : String}
    (hcall : s.steeringCall = some text) (res : SteeringResult) (drained : List Incoming) :
    (s.answerCall text res drained).holders.Kept := by
  rw [Holders.kept_iff] at hkept ⊢
  intro a
  have hcount := hkept a
  simp only [holders, hcall, Option.toList_some] at hcount
  rw [holders_answerCall hint]
  split
  · simp only [holders, List.count_append, Option.toList_none, List.count_nil]
    omega
  · split
    · simp only [holders, List.count_append, Option.toList_none, List.count_nil]
      omega
    · simp only [holders, List.count_append, Option.toList_none, List.count_nil]
      omega

/-- The followers of an answered call, unless they are left in a queue that nothing empties. -/
theorem inv_nextFollower (hexit : s.holders.exit = none) (hkept : s.holders.Kept)
    (hcall : s.holders.call = none)
    (hqueue : s.holders.queue ≠ [] → s.holders.turn = true ∨ s.holders.flushing = true)
    (hfollow : s.holders.turn = false → s.holders.flushing = false → s.holders.backlog = []) :
    s.nextFollower.holders.Inv := by
  have hcount := Holders.kept_iff.mp hkept
  simp only [holders] at hcount hcall
  unfold nextFollower
  cases hbacklog : s.steerBacklog with
  | nil => exact Holders.Inv.running hexit hkept ⟨hqueue, fun hne => absurd hbacklog hne⟩
  | cons text rest =>
      dsimp only
      split
      · rename_i hlive
        refine Holders.Inv.running hexit (Holders.kept_iff.mpr fun a => ?_)
          ⟨fun _ => .inl (Bool.and_eq_true_iff.mp hlive).1, fun _ => Option.some_ne_none _⟩
        have hcount := hcount a
        simp only [hcall, hbacklog, Option.toList_none, List.count_nil, List.count_cons] at hcount
        simp only [holders, Option.toList_some, List.count_cons, List.count_nil]
        omega
      · refine Holders.Inv.running hexit (Holders.kept_iff.mpr fun a => ?_)
          ⟨fun _ => ?_, fun hne => absurd rfl hne⟩
        · have hcount := hcount a
          simp only [hcall, hbacklog, Option.toList_none, List.count_nil, List.count_cons] at hcount
          simp only [holders, hcall, Option.toList_none, List.count_append, List.count_cons,
            List.count_nil]
          omega
        · by_contra hneither
          simp only [not_or, Bool.not_eq_true] at hneither
          have hempty := hfollow hneither.1 hneither.2
          simp [holders, hbacklog] at hempty

theorem inv_steeringAnswered (hexit : s.exit = none) (hinv : s.holders.Inv) {text : String}
    (hcall : s.steeringCall = some text) (res : SteeringResult) (drained : List Incoming)
    (htimely : res.outcome ≠ "promptRequired" → s.turn = none → s.cancelFlushDeadline = none →
      s.steerBacklog = []) :
    (s.steeringAnswered text res drained).holders.Inv := by
  cases hint : s.interrupted with
  | true =>
      apply Holders.Inv.of_interrupted
      unfold steeringAnswered nextFollower
      have hanswer : (s.answerCall text res drained).interrupted = true := by
        simp [answerCall, hint]
      split
      · exact hanswer
      · split <;> exact hanswer
  | false =>
      have hmoving := hinv.moving hint hexit
      have hkept := kept_answerCall hint (hinv.kept hint hexit) hcall res drained
      have hholders := holders_answerCall hint text res drained
      by_cases houtcome : res.outcome ≠ "promptRequired"
      · rw [if_pos houtcome] at hholders
        refine inv_nextFollower (by rw [hholders]; exact hexit) hkept (by rw [hholders]) ?_ ?_
        · rw [hholders]
          exact hmoving.1
        · rw [hholders]
          intro hturn hflush
          exact htimely houtcome (by simpa [holders] using hturn) (by simpa [holders] using hflush)
      · rw [if_neg houtcome] at hholders
        by_cases hturn : s.turn.isSome = true
        · rw [if_pos hturn] at hholders
          refine inv_nextFollower (by rw [hholders]; exact hexit) hkept (by rw [hholders]) ?_ ?_
          · rw [hholders]
            exact fun _ => .inl hturn
          · rw [hholders]
            intro hnone
            simp [holders, hturn] at hnone
        · rw [if_neg hturn] at hholders
          refine inv_nextFollower (by rw [hholders]; exact hexit) hkept (by rw [hholders]) ?_ ?_
          · rw [hholders]
            exact fun _ => .inl rfl
          · rw [hholders]
            exact nofun

end Session

/-! ## Runs -/

/-- No steering call is answered `injected` after its turn was settled while followers wait and no
flush is armed, and the loop is not left over a steering call in flight, nor by a failed prompt or a
consumer that hangs up over any steer. -/
def Timely (s : Session) : Action → Prop
  | .steeringResponse res _ =>
      res.outcome ≠ "promptRequired" → s.turn = none → s.cancelFlushDeadline = none →
        s.steerBacklog = []
  | .promptResponse res answer _ =>
      res = .error → s.interrupted = false → s.queuedSteers = [] ∧ s.steerBacklog = [] ∧
        (s.steeringCall = none ∨ settledOutcome answer ≠ "promptRequired")
  | .hangUp => s.interrupted = false → s.holders.held = []
  | .mailboxClosed => s.turn = none → s.queuedSteers = [] → s.steeringCall = none
  | .cancelFlush =>
      s.turn = none → s.queuedSteers = [] → s.steeringOpen = false → s.steeringCall = none
  | .recovery => s.queuedSteers = [] → s.steeringOpen = false → s.steeringCall = none
  | _ => True

instance (s : Session) (a : Action) : Decidable (Timely s a) := by
  unfold Timely
  split <;> exact inferInstance

theorem inv_start (prompt : String) : (Session.start prompt).holders.Inv :=
  Holders.Inv.running rfl (List.Perm.refl _) ⟨fun hne => absurd rfl hne, fun hne => absurd rfl hne⟩

theorem Session.inv_branch {spec : Spec} {s s' : Session} {a : Action} (hexit : s.exit = none)
    (hinv : s.holders.Inv) (htimely : Timely s a) (hbranch : s.branch spec a = some s') :
    s'.holders.Inv := by
  cases a with
  | tick ms =>
      cases hbranch
      exact hinv
  | answer | quietSettle =>
      simp only [branch] at hbranch
      split at hbranch <;> cases hbranch
      exact hinv
  | promptResponse res answer drained =>
      simp only [branch] at hbranch
      split at hbranch <;> cases hbranch
      exact inv_settleTurn hexit hinv res answer drained htimely
  | incoming inc =>
      cases hbranch
      rw [holders_receive]
      exact hinv
  | eof response =>
      cases hbranch
      unfold eof
      split
      · rw [holders_leave]
        exact .of_exit rfl fun _ hne => absurd rfl hne
      · rw [holders_leave]
        exact .of_exit rfl fun _ hne => absurd rfl hne
  | steeringResponse res drained =>
      obtain ⟨text, hcall, rfl⟩ := Option.map_eq_some_iff.mp hbranch
      exact inv_steeringAnswered hexit hinv hcall res drained htimely
  | cancelFlush =>
      simp only [branch] at hbranch
      split at hbranch <;> cases hbranch
      rename_i hdue
      exact inv_flush hexit (by simpa using (Bool.and_eq_true_iff.mp hdue).2) hinv htimely
  | recovery =>
      simp only [branch] at hbranch
      split at hbranch <;> cases hbranch
      rename_i hdue
      exact inv_recover hexit (by simpa using (Bool.and_eq_true_iff.mp hdue).2) hinv htimely
  | steer prompt =>
      simp only [branch] at hbranch
      split at hbranch <;> cases hbranch
      rename_i hopen
      exact inv_steer spec hexit (by simpa using (Bool.and_eq_true_iff.mp hopen).2) hinv prompt
  | mailboxClosed =>
      simp only [branch] at hbranch
      split at hbranch <;> cases hbranch
      rename_i hopen
      exact inv_closeMailbox hexit (by simpa using (Bool.and_eq_true_iff.mp hopen).2) hinv htimely
  | interrupt =>
      simp only [branch] at hbranch
      split at hbranch <;> cases hbranch
      apply Holders.Inv.of_interrupted
      simp only [Session.interrupt]
      split
      · rfl
      · rw [holders_leave]
        rfl
  | hangUp =>
      cases hbranch
      rw [holders_leave]
      exact .of_exit rfl fun hint _ => ⟨hinv.kept hint hexit, htimely hint⟩

/-- **No steer is stranded.** While steering calls are answered in time, every steer of a session that
was not interrupted is delivered or in exactly one holder, what is queued has a step that moves it
on, and a session that is left while its agent is alive has delivered all of them. -/
theorem steers_not_stranded (spec : Spec) {s : Session}
    (h : (machine spec).ReachableWhen Timely s) (hint : s.interrupted = false) :
    (s.exit = none → s.holders.Kept ∧ s.holders.Moving) ∧
      ∀ exit, s.exit = some exit → exit ≠ .eof → s.holders.Kept ∧ s.holders.held = [] := by
  have hinv : s.holders.Inv := by
    refine h.invariant (I := fun s => s.holders.Inv) ?_ ?_
    · rintro _ ⟨prompt, rfl⟩
      exact inv_start prompt
    · intro s a s' hinv htimely hstep
      simp only [machine] at hstep
      split at hstep
      · cases hstep
      · rename_i hnone
        exact Session.inv_branch (by simpa using hnone) hinv htimely hstep
  exact ⟨fun hexit => ⟨hinv.kept hint hexit, hinv.moving hint hexit⟩, hinv.settled hint⟩

/-- A harness with the steering extension, and one whose cost frames end turns. -/
def claudeCode : Spec where
  promptTransform := fun prompt => prompt
  steerExt := true
  costHintEnabled := true
  quietSettleMs := none

/-- Two steers, one injected and one answered at the turn boundary, before the mailbox is closed. -/
theorem two_steers_not_stranded :
    ∃ s : Session, s.exit = some .mailboxClosed ∧ s.delivered = ["a", "b"] ∧ s.holders.Kept ∧
      s.holders.held = [] := by
  obtain ⟨s, hsteps, hs⟩ := Machine.exists_steps_of_runWhen (machine claudeCode) Timely
    (s := .start "p")
    [.steer "a", .steer "b", .steeringResponse (.ok (some "injected") none) [],
      .promptResponse (.ok none true) none [], .mailboxClosed,
      .promptResponse (.ok none false) none []]
    (p := fun s => s.exit = some .mailboxClosed && s.delivered = ["a", "b"] && !s.interrupted)
    (by decide)
  simp only [Bool.and_eq_true, decide_eq_true_eq, Bool.not_eq_true'] at hs
  obtain ⟨⟨hexit, hdelivered⟩, hint⟩ := hs
  have h := (steers_not_stranded claudeCode ⟨_, ⟨"p", rfl⟩, hsteps⟩ hint).2 _ hexit nofun
  exact ⟨s, hexit, hdelivered, h⟩

/-- The steering call of a turn that was settled on its cost frame is answered `injected`: its
follower is queued behind no turn, no call and no timer. -/
theorem follower_stranded :
    ∃ s : Session, (machine claudeCode).Reachable s ∧ s.interrupted = false ∧ s.exit = none ∧
      s.queuedSteers = ["b"] ∧ ¬ s.holders.Moving := by
  obtain ⟨s, hsteps, hs⟩ := Machine.exists_steps_of_runWhen (machine claudeCode) Machine.anyStep
    (s := .start "p")
    [.incoming (.update true []), .steer "a", .steer "b", .tick 1000, .recovery,
      .steeringResponse (.ok (some "injected") none) []]
    (p := fun s => s.interrupted = false && s.exit = none && s.queuedSteers = ["b"]
      && s.turn = none && s.cancelFlushDeadline = none) (by decide)
  simp only [Bool.and_eq_true, decide_eq_true_eq] at hs
  obtain ⟨⟨⟨⟨hint, hexit⟩, hqueue⟩, hturn⟩, hflush⟩ := hs
  refine ⟨s, ⟨_, ⟨"p", rfl⟩, hsteps⟩, hint, hexit, hqueue, fun hmoving => ?_⟩
  obtain hlive | hlive := hmoving.1 (by simp [Session.holders, hqueue])
  · simp [Session.holders, hturn] at hlive
  · simp [Session.holders, hflush] at hlive

end Zeron.Harness
