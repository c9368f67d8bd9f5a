import Zeron.Harness.Session

/-!
# What the consumer sees of a turn

A turn is open from its prompt to its `Done`. The consumer follows turns through the log alone: a
`Steered` falls into an open turn or opens the next one, and the log of a session that is over ends
with a `Done`.
-/

namespace Zeron.Harness

open Zeron.Lib (Machine)

/-- A turn is open after the records, given whether one was before. -/
def turnOpen : Bool → List Record → Bool
  | running, [] => running
  | _, .prompt _ :: rest => turnOpen true rest
  | _, .event (.done _) :: rest => turnOpen false rest
  | running, .event _ :: rest => turnOpen running rest

/-- Every `Steered` falls into an open turn, or the prompt of a turn is sent right after it. -/
def SteersFit : Bool → List Record → Prop
  | _, [] => True
  | _, .prompt _ :: rest => SteersFit true rest
  | _, .event (.done _) :: rest => SteersFit false rest
  | running, .event (.steered _ _) :: rest =>
      (running = true ∨ ∃ text rest', rest = .prompt text :: rest') ∧ SteersFit running rest
  | running, .event _ :: rest => SteersFit running rest

def endsWithDone (log : List Record) : Bool :=
  match log.getLast? with
  | some (.event (.done _)) => true
  | _ => false

theorem turnOpen_append (running : Bool) (first second : List Record) :
    turnOpen running (first ++ second) = turnOpen (turnOpen running first) second := by
  induction first generalizing running with
  | nil => rfl
  | cons record rest ih =>
      cases record with
      | prompt text => exact ih true
      | event event => cases event <;> exact ih _

theorem SteersFit.append {running : Bool} {first second : List Record}
    (hfirst : SteersFit running first) (hsecond : SteersFit (turnOpen running first) second) :
    SteersFit running (first ++ second) := by
  induction first generalizing running with
  | nil => exact hsecond
  | cons record rest ih =>
      cases record with
      | prompt text => exact ih hfirst hsecond
      | event event =>
          cases event with
          | steered prev next =>
              obtain ⟨hopen, hrest⟩ := hfirst
              refine ⟨?_, ih hrest hsecond⟩
              obtain hrunning | ⟨text, rest', rfl⟩ := hopen
              · exact .inl hrunning
              · exact .inr ⟨text, rest' ++ second, rfl⟩
          | done status => exact ih hfirst hsecond
          | _ => exact ih hfirst hsecond

theorem SteersFit.done {log : List Record} (h : SteersFit false log) (status : DoneStatus) :
    SteersFit false (log ++ [Record.event (.done status)]) :=
  h.append trivial

theorem turnOpen_done (log : List Record) (status : DoneStatus) :
    turnOpen false (log ++ [Record.event (.done status)]) = false := by
  rw [turnOpen_append]
  rfl

theorem exists_of_endsWithDone {log : List Record} (h : endsWithDone log = true) :
    ∃ before status, log = before ++ [Record.event (.done status)] := by
  unfold endsWithDone at h
  split at h
  · rename_i status hlast
    obtain ⟨before, rfl⟩ := List.getLast?_eq_some_iff.mp hlast
    exact ⟨before, status, rfl⟩
  · cases h

/-! ## The view of a turn -/

structure Turns where
  log : List Record
  turn : Bool
  doneCurrent : Bool
  doneAfterInterrupt : Bool
  interrupted : Bool
  exit : Option Exit

def Session.turns (s : Session) : Turns where
  log := s.log
  turn := s.turn.isSome
  doneCurrent := s.doneCurrent
  doneAfterInterrupt := s.doneAfterInterrupt
  interrupted := s.interrupted
  exit := s.exit

/-- A record that neither opens nor ends a turn, and is no boundary of one. -/
def Record.plain : Record → Bool
  | .event (.sessionStarted _) | .event (.stream _) | .event .usage
  | .event (.assistantMessageCompleted _) => true
  | _ => false

theorem turnOpen_plain {records : List Record} (h : ∀ record ∈ records, record.plain = true)
    (running : Bool) : turnOpen running records = running := by
  induction records with
  | nil => rfl
  | cons record rest ih =>
      have hrest := ih fun r hr => h r (List.mem_cons_of_mem _ hr)
      have hrecord := h record List.mem_cons_self
      cases record with
      | prompt text => cases hrecord
      | event event => cases event <;> first | exact hrest | cases hrecord

theorem SteersFit.plain {records : List Record} (h : ∀ record ∈ records, record.plain = true)
    (running : Bool) : SteersFit running records := by
  induction records with
  | nil => trivial
  | cons record rest ih =>
      have hrest := ih fun r hr => h r (List.mem_cons_of_mem _ hr)
      have hrecord := h record List.mem_cons_self
      cases record with
      | prompt text => cases hrecord
      | event event => cases event <;> first | exact hrest | cases hrecord

def Turns.Grows (t t' : Turns) : Prop :=
  ∃ records, (∀ record ∈ records, record.plain = true) ∧ t' = { t with log := t.log ++ records }

theorem Turns.Grows.refl (t : Turns) : t.Grows t := ⟨[], by simp, by simp⟩

theorem Turns.Grows.trans {t t' t'' : Turns} (h : t.Grows t') (h' : t'.Grows t'') : t.Grows t'' := by
  obtain ⟨records, hplain, rfl⟩ := h
  obtain ⟨records', hplain', rfl⟩ := h'
  refine ⟨records ++ records', fun record hrecord => ?_, by simp⟩
  obtain hrecord | hrecord := List.mem_append.mp hrecord
  · exact hplain record hrecord
  · exact hplain' record hrecord

namespace Session

variable (s : Session)

theorem grows_completeMessage : s.turns.Grows s.completeMessage.turns :=
  ⟨[.event (.assistantMessageCompleted s.assistantMessageId)], by simp [Record.plain], rfl⟩

theorem grows_sendUsage (res : PromptResult) : s.turns.Grows (s.sendUsage res).turns := by
  unfold sendUsage
  split
  · exact ⟨[.event .usage], by simp [Record.plain], rfl⟩
  · exact Turns.Grows.refl _

theorem grows_sendAll (events : List StreamEvent) : s.turns.Grows (s.sendAll events).turns := by
  refine ⟨events.map fun event => .event (.stream event), fun record hrecord => ?_, rfl⟩
  obtain ⟨event, -, rfl⟩ := List.mem_map.mp hrecord
  rfl

theorem turns_ask (asks : Bool) : (s.ask asks).turns = s.turns := by
  unfold ask
  split <;> rfl

theorem turns_trackTurnSignals (event : StreamEvent) :
    (s.trackTurnSignals event).turns = s.turns := by
  cases event with
  | textDelta text =>
      simp only [trackTurnSignals]
      split <;> rfl
  | _ => rfl

theorem grows_stream (events : List StreamEvent) : s.turns.Grows (s.stream events).turns := by
  induction events generalizing s with
  | nil => exact Turns.Grows.refl _
  | cons event events ih =>
      refine Turns.Grows.trans ?_ (ih _)
      refine ⟨[.event (.stream event)], by simp [Record.plain], ?_⟩
      rw [← turns_trackTurnSignals s event]
      rfl

theorem grows_drain (drained : List Incoming) : s.turns.Grows (s.drain drained).turns := by
  induction drained generalizing s with
  | nil => exact Turns.Grows.refl _
  | cons inc drained ih =>
      cases inc with
      | update cost events | notification events => exact (s.grows_sendAll events).trans (ih _)
      | turnEnded mine => exact ih s
      | request asks events =>
          have hask := (s.ask asks).grows_sendAll events
          rw [turns_ask] at hask
          exact hask.trans (ih _)

end Session

theorem Turns.Grows.same {t t' : Turns} (h : t.Grows t') :
    t'.turn = t.turn ∧ t'.interrupted = t.interrupted ∧ t'.exit = t.exit := by
  obtain ⟨records, -, rfl⟩ := h
  exact ⟨rfl, rfl, rfl⟩

/-! ## The invariant -/

/-- What a session in its loop keeps, and what its log is once the loop is left. -/
structure Turns.Inv (t : Turns) : Prop where
  fits : SteersFit false t.log
  running : t.exit = none → turnOpen false t.log = t.turn ∧ t.doneCurrent = !t.turn ∧
    t.doneAfterInterrupt = false ∧ (t.interrupted = true → t.turn = true)
  ended : ∀ exit, t.exit = some exit → exit ≠ .consumerGone →
    ∃ before status, t.log = before ++ [.event (.done status)] ∧
      (t.interrupted = true → status = .interrupted)

theorem Turns.Grows.inv {t t' : Turns} (hgrows : t.Grows t') (hexit : t.exit = none) (hinv : t.Inv) :
    t'.Inv := by
  obtain ⟨records, hplain, rfl⟩ := hgrows
  obtain ⟨hopen, hdone, hafter, hint⟩ := hinv.running hexit
  refine ⟨hinv.fits.append (SteersFit.plain hplain _), fun _ => ⟨?_, hdone, hafter, hint⟩, ?_⟩
  · rw [turnOpen_append, turnOpen_plain hplain, hopen]
  · intro exit hsome
    simp [hexit] at hsome

namespace Session

variable {s : Session}

theorem turnsInv_sendSteered (hexit : s.exit = none) (hinv : s.turns.Inv) (hturn : s.turn.isSome = true) :
    s.sendSteered.turns.Inv := by
  obtain ⟨hopen, hdone, hafter, hint⟩ := hinv.running hexit
  have hlog : turnOpen false s.log = true := hopen.trans hturn
  refine ⟨hinv.fits.append ⟨.inl hlog, trivial⟩, fun _ => ⟨?_, hdone, hafter, hint⟩, ?_⟩
  · change turnOpen false (s.log ++ _) = _
    rw [turnOpen_append]
    exact hopen
  · intro exit hsome
    exact absurd (hexit.symm.trans hsome) nofun

theorem turnsInv_promptSteer (hexit : s.exit = none) (hfits : SteersFit false s.log)
    (hafter : s.doneAfterInterrupt = false) (text : String) : (s.promptSteer text).turns.Inv := by
  have hlog : (s.promptSteer text).log = s.log ++ [Record.event (.steered s.assistantMessageId
      (s.assistantMessageId + 1)), Record.prompt text] := by
    simp [promptSteer, sendSteered]
  refine ⟨?_, fun _ => ⟨?_, rfl, hafter, fun _ => rfl⟩, fun exit hsome => ?_⟩
  · change SteersFit false (s.promptSteer text).log
    rw [hlog]
    exact hfits.append ⟨.inr ⟨text, [], rfl⟩, trivial⟩
  · change turnOpen false (s.promptSteer text).log = true
    rw [hlog, turnOpen_append]
    rfl
  · exact absurd (hexit.symm.trans hsome) nofun

/-- The loop is left: the bookkeeping closes what the log has open. -/
theorem turnsInv_leave {exit : Exit} (hfits : SteersFit false s.log)
    (hafter : s.interrupted = true → s.doneAfterInterrupt = true →
      ∃ before, s.log = before ++ [Record.event (.done .interrupted)])
    (hdone : s.interrupted = false → s.doneCurrent = true → exit ≠ .consumerGone →
      ∃ before status, s.log = before ++ [Record.event (.done status)]) :
    (s.leave exit).turns.Inv := by
  have hfit (status : DoneStatus) : SteersFit false (s.log ++ [Record.event (.done status)]) :=
    hfits.append trivial
  simp only [leave]
  split
  · rename_i hgone
    refine ⟨hfits, nofun, fun other hsome hne => ?_⟩
    cases hsome
    exact absurd hgone hne
  · rename_i hgone
    split
    · exact ⟨hfit _, nofun, fun _ _ _ => ⟨s.log, .interrupted, rfl, fun _ => rfl⟩⟩
    · rename_i hint
      split
      · rename_i hcurrent
        simp only [Bool.and_eq_true, Bool.not_eq_true'] at hcurrent
        refine ⟨hfit _, nofun, fun _ _ _ => ⟨s.log, .errored, rfl, fun htrue => ?_⟩⟩
        exact absurd (hcurrent.1.symm.trans htrue) nofun
      · rename_i hcurrent
        refine ⟨hfits, nofun, fun _ _ _ => ?_⟩
        cases hinterrupted : s.interrupted with
        | true =>
            obtain ⟨before, hbefore⟩ := hafter hinterrupted (by simpa [hinterrupted] using hint)
            exact ⟨before, .interrupted, hbefore, fun _ => rfl⟩
        | false =>
            obtain ⟨before, status, hbefore⟩ :=
              hdone hinterrupted (by simpa [hinterrupted] using hcurrent) hgone
            exact ⟨before, status, hbefore, nofun⟩

theorem turnsInv_promptQueued (hexit : s.exit = none) (hfits : SteersFit false s.log)
    (hopen : turnOpen false s.log = false) (hturn : s.turn = none) (hdone : s.doneCurrent = true)
    (hafter : s.doneAfterInterrupt = false) (hint : s.interrupted = false)
    (hlast : s.queuedSteers = [] → s.steeringOpen = false →
      ∃ before status, s.log = before ++ [Record.event (.done status)]) :
    s.promptQueued.turns.Inv := by
  unfold promptQueued
  cases hqueue : s.queuedSteers with
  | cons text rest => exact turnsInv_promptSteer hexit hfits hafter text
  | nil =>
      cases hmailbox : s.steeringOpen with
      | true =>
          refine ⟨hfits, fun _ => ⟨?_, ?_, hafter, fun htrue => ?_⟩, fun exit hsome => ?_⟩
          · simpa [turns, hturn] using hopen
          · simpa [turns, hturn] using hdone
          · exact absurd (hint.symm.trans htrue) nofun
          · exact absurd (hexit.symm.trans hsome) nofun
      | false =>
          simp only [Bool.false_eq_true, if_false]
          refine turnsInv_leave hfits (fun htrue => ?_) fun _ _ _ => hlast hqueue hmailbox
          exact absurd (hint.symm.trans htrue) nofun

theorem settleCall_fits (answer : Option SteeringResult) (hfits : SteersFit false s.log)
    (hopen : turnOpen false s.log = true) :
    SteersFit false (s.settleCall answer).log ∧
      (s.settleCall answer).turns = { s.turns with log := (s.settleCall answer).log } := by
  unfold settleCall
  cases s.steeringCall with
  | none => exact ⟨hfits, rfl⟩
  | some text =>
      cases hint : s.interrupted with
      | true => exact ⟨hfits, by simp [turns, hint]⟩
      | false =>
          by_cases houtcome : settledOutcome answer ≠ "promptRequired"
          · simp only [Bool.false_eq_true, if_false, if_pos houtcome]
            exact ⟨hfits.append ⟨.inl hopen, trivial⟩, by simp [turns, sendSteered, hint]⟩
          · simp only [Bool.false_eq_true, if_false, if_neg houtcome]
            exact ⟨hfits, by simp [turns, hint]⟩

theorem turns_endTurn (res : PromptResult) :
    (s.endTurn res).turns =
      { s.turns with
        log := s.log ++ [.event (.done (stopOutcome res s.interrupted))]
        doneCurrent := true
        doneAfterInterrupt := s.doneAfterInterrupt || s.interrupted } := rfl

theorem endTurn_of_grows {t : Turns} (hgrows : t.Grows s.turns) (hfits : SteersFit false t.log)
    (res : PromptResult) :
    ∃ log, SteersFit false log ∧ (s.endTurn res).turns =
      { t with
        log := log ++ [.event (.done (stopOutcome res t.interrupted))]
        doneCurrent := true
        doneAfterInterrupt := t.doneAfterInterrupt || t.interrupted } := by
  obtain ⟨records, hplain, hgrown⟩ := hgrows
  refine ⟨t.log ++ records, hfits.append (SteersFit.plain hplain _), ?_⟩
  rw [turns_endTurn]
  have hlog : s.log = t.log ++ records := congrArg Turns.log hgrown
  have hint : s.interrupted = t.interrupted := congrArg Turns.interrupted hgrown
  have hafter : s.doneAfterInterrupt = t.doneAfterInterrupt :=
    congrArg Turns.doneAfterInterrupt hgrown
  rw [hlog, hint, hafter, hgrown]

theorem closeTurn_turns (hfits : SteersFit false s.log) (hopen : turnOpen false s.log = true)
    (hafter : s.doneAfterInterrupt = false) (res : PromptResult) (answer : Option SteeringResult)
    (drained : List Incoming) :
    ∃ log, SteersFit false log ∧ (s.closeTurn res answer drained).turns =
      { s.turns with
        log := log ++ [.event (.done (stopOutcome res s.interrupted))]
        turn := false
        doneCurrent := true
        doneAfterInterrupt := s.interrupted } := by
  obtain ⟨hfits', hturns⟩ := settleCall_fits (s := { s with turn := none, starveDeadline := none })
    answer hfits hopen
  have hgrows := ((grows_drain (Session.settleCall
    { s with turn := none, starveDeadline := none } answer) drained).trans
      (grows_completeMessage _)).trans (grows_sendUsage _ res)
  obtain ⟨log, hlog, hend⟩ := endTurn_of_grows hgrows hfits' res
  refine ⟨log, hlog, ?_⟩
  rw [show s.closeTurn res answer drained = Session.endTurn _ res from rfl, hend, hturns]
  simp [turns, hafter]

theorem turnsInv_settleTurn (hexit : s.exit = none) (hinv : s.turns.Inv) (hturn : s.turn.isSome = true)
    (res : PromptResult) (answer : Option SteeringResult) (drained : List Incoming) :
    (s.settleTurn res answer drained).turns.Inv := by
  obtain ⟨hopen, -, hafter, -⟩ := hinv.running hexit
  obtain ⟨log, hfits, hclose⟩ :=
    closeTurn_turns hinv.fits (hopen.trans hturn) hafter res answer drained
  simp only [turns, Turns.mk.injEq] at hclose
  obtain ⟨hlog, hnone, hdone, hafter', hint, hexit'⟩ := hclose
  simp only [settleTurn]
  have hfits' := hfits.done (stopOutcome res s.interrupted)
  rw [← hlog] at hfits'
  split
  · refine turnsInv_leave hfits' (fun htrue _ => ?_) (fun _ _ _ => ⟨log, _, hlog⟩)
    rw [hint] at htrue
    exact ⟨log, by rw [hlog, htrue]; rfl⟩
  · rename_i hrest
    simp only [Bool.or_eq_true, decide_eq_true_eq, not_or, Bool.not_eq_true] at hrest
    refine turnsInv_promptQueued (hexit'.trans hexit) hfits' ?_ (by simpa using hnone) hdone ?_ hrest.1
      fun _ _ => ⟨log, _, hlog⟩
    · rw [hlog]
      exact turnOpen_done _ _
    · rw [hafter', ← hint]
      exact hrest.1

theorem turnsInv_receive (spec : Spec) (hexit : s.exit = none) (hinv : s.turns.Inv) (inc : Incoming) :
    (s.receive spec inc).turns.Inv := by
  cases inc with
  | update cost events =>
      simp only [receive]
      refine (grows_stream _ events).inv ?_ ?_
      · split <;> exact hexit
      · split <;> exact hinv
  | turnEnded mine =>
      simp only [receive]
      split
      · rename_i hended
        simp only [Bool.and_eq_true, Option.isNone_iff_eq_none, Bool.not_eq_true'] at hended
        obtain ⟨-, hdone, hafter, hint⟩ := hinv.running hexit
        refine ⟨hinv.fits.done .completed, fun _ => ⟨?_, hdone, hafter, hint⟩, fun exit hsome => ?_⟩
        · change turnOpen false (s.log ++ _) = s.turn.isSome
          rw [turnOpen_done, hended.1.1]
          rfl
        · exact absurd (hexit.symm.trans hsome) nofun
      · exact hinv
  | notification events => exact (grows_stream _ events).inv hexit hinv
  | request asks events =>
      simp only [receive]
      refine (grows_sendAll _ events).inv ?_ ?_
      · rw [turns_ask]
        exact hexit
      · rw [turns_ask]
        exact hinv

theorem turnsInv_eof (hexit : s.exit = none) (hinv : s.turns.Inv) (response : Option PromptResult)
    (hlast : s.turn = none → endsWithDone s.log = true) : (s.eof response).turns.Inv := by
  obtain ⟨-, hdone, hafter, -⟩ := hinv.running hexit
  unfold eof
  split
  · rename_i stopReason usage _
    let res := PromptResult.ok stopReason usage
    have hgrows := (grows_completeMessage { s with turn := none }).trans (grows_sendUsage _ res)
    obtain ⟨log, hlog, hend⟩ := endTurn_of_grows hgrows hinv.fits res
    simp only [turns, Turns.mk.injEq] at hend
    obtain ⟨hended, -, -, -, hint, -⟩ := hend
    refine turnsInv_leave ?_ (fun htrue _ => ⟨log, ?_⟩) (fun _ _ _ => ⟨log, _, hended⟩)
    · rw [hended]
      exact hlog.done _
    · rw [hended, show s.interrupted = true from hint.symm.trans htrue]
      rfl
  · refine turnsInv_leave hinv.fits (fun _ htrue => ?_) fun _ hcurrent _ => ?_
    · exact absurd (hafter.symm.trans htrue) nofun
    · have hturn : s.turn.isSome = false := by
        rw [show s.doneCurrent = !s.turn.isSome from hdone] at hcurrent
        simpa using hcurrent
      exact exists_of_endsWithDone (hlast (by simpa using hturn))

theorem turns_nextFollower : s.nextFollower.turns = s.turns := by
  unfold nextFollower
  split
  · rfl
  · split <;> rfl

theorem turnsInv_steeringAnswered (hexit : s.exit = none) (hinv : s.turns.Inv) (text : String)
    (res : SteeringResult) (drained : List Incoming) :
    (s.steeringAnswered text res drained).turns.Inv := by
  obtain ⟨hopen, hdone, hafter, hint⟩ := hinv.running hexit
  unfold steeringAnswered
  rw [turns_nextFollower]
  simp only [answerCall]
  split
  · exact hinv
  · split
    · split
      · rename_i hturn
        have hgrows := grows_drain { s with
          steeringCall := none
          delivered := s.delivered ++ [text]
          steeredThisTurn := true
          starveDeadline := none } drained
        obtain ⟨hsame, -, hexit'⟩ := hgrows.same
        exact turnsInv_sendSteered (hexit'.trans hexit) (hgrows.inv hexit hinv) (hsame.trans hturn)
      · exact hinv
    · split
      · exact hinv
      · exact turnsInv_promptSteer hexit hinv.fits hafter text

theorem turnsInv_recover (hexit : s.exit = none) (hinv : s.turns.Inv) (hint : s.interrupted = false) :
    s.recover.turns.Inv := by
  obtain ⟨-, -, hafter, -⟩ := hinv.running hexit
  unfold recover
  have hplain : SteersFit (turnOpen false s.log)
      [.event (.assistantMessageCompleted s.assistantMessageId)] :=
    SteersFit.plain (by simp [Record.plain]) _
  have hfits := hinv.fits.append hplain
  exact turnsInv_promptQueued hexit (hfits.done .completed) (turnOpen_done _ _) rfl rfl hafter hint
    fun _ _ => ⟨_, _, rfl⟩

theorem turnsInv_flush (hexit : s.exit = none) (hinv : s.turns.Inv) (hint : s.interrupted = false)
    (hlast : s.turn = none → s.queuedSteers = [] → s.steeringOpen = false →
      endsWithDone s.log = true) : s.flush.turns.Inv := by
  obtain ⟨hopen, hdone, hafter, -⟩ := hinv.running hexit
  simp only [flush]
  split
  · rename_i hturn
    rw [Option.isNone_iff_eq_none] at hturn
    have hlog : turnOpen false s.log = false := by
      rw [show turnOpen false s.log = s.turn.isSome from hopen, hturn]
      rfl
    have hcurrent : s.doneCurrent = true := by
      rw [show s.doneCurrent = !s.turn.isSome from hdone, hturn]
      rfl
    exact turnsInv_promptQueued hexit hinv.fits hlog hturn hcurrent hafter hint fun hqueue hmailbox =>
      exists_of_endsWithDone (hlast hturn hqueue hmailbox)
  · exact hinv

theorem turnsInv_steer (spec : Spec) (hexit : s.exit = none) (hinv : s.turns.Inv) (prompt : String) :
    (s.steer spec prompt).turns.Inv := by
  obtain ⟨-, -, hafter, -⟩ := hinv.running hexit
  simp only [steer]
  split
  · exact hinv
  · split
    · exact hinv
    · split
      · exact turnsInv_promptSteer hexit hinv.fits hafter _
      · split
        · split <;> exact hinv
        · exact hinv

theorem turnsInv_closeMailbox (hinv : s.turns.Inv) (hint : s.interrupted = false)
    (hlast : s.turn = none → s.queuedSteers = [] → endsWithDone s.log = true) :
    s.closeMailbox.turns.Inv := by
  simp only [closeMailbox]
  split
  · rename_i hend
    simp only [Bool.and_eq_true, Option.isNone_iff_eq_none, List.isEmpty_iff] at hend
    refine turnsInv_leave hinv.fits (fun htrue => ?_) fun _ _ _ =>
      exists_of_endsWithDone (hlast hend.1 hend.2)
    exact absurd (hint.symm.trans htrue) nofun
  · exact hinv

theorem turnsInv_interrupt (hexit : s.exit = none) (hinv : s.turns.Inv) : s.interrupt.turns.Inv := by
  obtain ⟨hopen, hdone, hafter, -⟩ := hinv.running hexit
  simp only [interrupt]
  split
  · rename_i hturn
    refine ⟨hinv.fits, fun _ => ⟨hopen, hdone, hafter, fun _ => hturn⟩, fun exit hsome => ?_⟩
    exact absurd (hexit.symm.trans hsome) nofun
  · refine turnsInv_leave hinv.fits (fun _ htrue => ?_) nofun
    exact absurd (hafter.symm.trans htrue) nofun

end Session

/-! ## Runs -/

/-- The loop is not left between two turns with events of the agent after the last `Done`. -/
def Quieted (s : Session) : Action → Prop
  | .eof _ => s.turn = none → endsWithDone s.log = true
  | .mailboxClosed => s.turn = none → s.queuedSteers = [] → endsWithDone s.log = true
  | .cancelFlush =>
      s.turn = none → s.queuedSteers = [] → s.steeringOpen = false → endsWithDone s.log = true
  | _ => True

instance (s : Session) (a : Action) : Decidable (Quieted s a) := by
  unfold Quieted
  split <;> exact inferInstance

theorem turnsInv_start (prompt : String) : (Session.start prompt).turns.Inv where
  fits := trivial
  running _ := ⟨rfl, rfl, rfl, nofun⟩
  ended _ hsome := nomatch hsome

theorem Session.turnsInv_branch {spec : Spec} {s s' : Session} {a : Action} (hexit : s.exit = none)
    (hinv : s.turns.Inv) (hquieted : Quieted s a) (hbranch : s.branch spec a = some s') :
    s'.turns.Inv := by
  cases a with
  | tick ms =>
      cases hbranch
      exact hinv
  | answer | quietSettle =>
      simp only [branch] at hbranch
      split at hbranch <;> cases hbranch
      exact hinv
  | promptResponse res answer drained =>
      simp only [branch] at hbranch
      split at hbranch <;> cases hbranch
      rename_i hturn
      exact turnsInv_settleTurn hexit hinv hturn res answer drained
  | incoming inc =>
      cases hbranch
      exact turnsInv_receive spec hexit hinv inc
  | eof response =>
      cases hbranch
      exact turnsInv_eof hexit hinv response hquieted
  | steeringResponse res drained =>
      obtain ⟨text, -, rfl⟩ := Option.map_eq_some_iff.mp hbranch
      exact turnsInv_steeringAnswered hexit hinv text res drained
  | cancelFlush =>
      simp only [branch] at hbranch
      split at hbranch <;> cases hbranch
      rename_i hdue
      exact turnsInv_flush hexit hinv (by simpa using (Bool.and_eq_true_iff.mp hdue).2) hquieted
  | recovery =>
      simp only [branch] at hbranch
      split at hbranch <;> cases hbranch
      rename_i hdue
      exact turnsInv_recover hexit hinv (by simpa using (Bool.and_eq_true_iff.mp hdue).2)
  | steer prompt =>
      simp only [branch] at hbranch
      split at hbranch <;> cases hbranch
      exact turnsInv_steer spec hexit hinv prompt
  | mailboxClosed =>
      simp only [branch] at hbranch
      split at hbranch <;> cases hbranch
      rename_i hopen
      exact turnsInv_closeMailbox hinv (by simpa using (Bool.and_eq_true_iff.mp hopen).2) hquieted
  | interrupt =>
      simp only [branch] at hbranch
      split at hbranch <;> cases hbranch
      exact turnsInv_interrupt hexit hinv
  | hangUp =>
      cases hbranch
      refine turnsInv_leave hinv.fits (fun _ htrue => ?_) fun _ _ hne => absurd rfl hne
      exact absurd ((hinv.running hexit).2.2.1.symm.trans htrue) nofun

theorem done_mem_of_steered {log before pre post : List Record} {status : DoneStatus}
    {prev next : Nat} (hlog : log = before ++ [Record.event (.done status)])
    (hsteered : log = pre ++ .event (.steered prev next) :: post) :
    .event (.done status) ∈ post := by
  obtain rfl | ⟨init, last, rfl⟩ := List.eq_nil_or_concat post
  · have hlast := (List.append_inj' (hlog.symm.trans hsteered) rfl).2
    cases hlast
  · rw [List.concat_eq_append, ← List.cons_append, ← List.append_assoc] at hsteered
    have hlast := (List.append_inj' (hlog.symm.trans hsteered) rfl).2
    cases hlast
    simp

/-- **Every turn is closed for the consumer.** A `Steered` falls into an open turn or comes right
before the prompt of the next one; a session that is over without its consumer hanging up ends with a
`Done`, which comes after every `Steered` and has the status `Interrupted` after an interrupt. -/
theorem turns_closed (spec : Spec) {s : Session} (h : (machine spec).ReachableWhen Quieted s) :
    SteersFit false s.log ∧ ∀ exit, s.exit = some exit → exit ≠ .consumerGone →
      ∃ before status, s.log = before ++ [.event (.done status)] ∧
        (s.interrupted = true → status = .interrupted) ∧
        ∀ pre prev next post, s.log = pre ++ .event (.steered prev next) :: post →
          .event (.done status) ∈ post := by
  have hinv : s.turns.Inv := by
    refine h.invariant (I := fun s => s.turns.Inv) ?_ ?_
    · rintro _ ⟨prompt, rfl⟩
      exact turnsInv_start prompt
    · intro s a s' hinv hquieted hstep
      simp only [machine] at hstep
      split at hstep
      · cases hstep
      · rename_i hnone
        exact Session.turnsInv_branch (by simpa using hnone) hinv hquieted hstep
  refine ⟨hinv.fits, fun exit hexit hne => ?_⟩
  obtain ⟨before, status, hlog, hint⟩ := hinv.ended exit hexit hne
  exact ⟨before, status, hlog, hint, fun _ _ _ _ hsteered => done_mem_of_steered hlog hsteered⟩

/-- A steered turn, closed by its response, and the mailbox closed after it. -/
theorem steered_turn_closed :
    ∃ s : Session, s.exit = some .mailboxClosed ∧ SteersFit false s.log ∧
      endsWithDone s.log = true := by
  obtain ⟨s, hsteps, hs⟩ := Machine.exists_steps_of_runWhen
    (machine ⟨fun prompt => prompt, true, true, none⟩) Quieted (s := .start "p")
    [.incoming (.update false [.textDelta "x"]), .steer "a",
      .steeringResponse (.ok (some "injected") none) [], .promptResponse (.ok none true) none [],
      .mailboxClosed]
    (p := fun s => s.exit = some .mailboxClosed && endsWithDone s.log) (by decide)
  simp only [Bool.and_eq_true, decide_eq_true_eq] at hs
  have h := turns_closed _ ⟨_, ⟨"p", rfl⟩, hsteps⟩
  exact ⟨s, hs.1, h.1, hs.2⟩

/-- The agent writes on after its turn's `Done`, and its output ends: no `Done` follows. -/
theorem self_continued_turn_not_closed :
    ∃ s : Session, (machine ⟨fun prompt => prompt, true, true, none⟩).Reachable s ∧
      s.exit = some .eof ∧ s.interrupted = false ∧
      s.log.getLast? = some (.event (.stream (.textDelta "more"))) := by
  obtain ⟨s, hsteps, hs⟩ := Machine.exists_steps_of_runWhen
    (machine ⟨fun prompt => prompt, true, true, none⟩) Machine.anyStep (s := .start "p")
    [.promptResponse (.ok none false) none [], .incoming (.update false [.textDelta "more"]),
      .eof none]
    (p := fun s => s.exit = some .eof && s.interrupted = false
      && s.log.getLast? = some (.event (.stream (.textDelta "more")))) (by decide)
  simp only [Bool.and_eq_true, decide_eq_true_eq] at hs
  exact ⟨s, ⟨_, ⟨"p", rfl⟩, hsteps⟩, hs.1.1, hs.1.2, hs.2⟩

end Zeron.Harness
