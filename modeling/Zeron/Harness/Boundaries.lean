import Zeron.Harness.AgentRun

/-!
# Updates on their side of a boundary

What the branches of the session loop stream, and where the messages of the lines before a response
are in the log when the boundary is sent.
-/

namespace Zeron.Harness.Agent

open Zeron.Lib (Machine)
open Zeron.Registry (JsonValue)
open JsonRpc (RpcClient SerdeJson HarnessError forwards)

/-! ## What the branches stream -/

section Streams

def stream? : Record → Option StreamEvent
  | .event (.stream event) => some event
  | _ => none

def streamed (log : List Record) : List StreamEvent := log.filterMap stream?

/-- The log has got records, and the events are those they stream. -/
def Adds (log log' : List Record) (events : List StreamEvent) : Prop :=
  ∃ records, log' = log ++ records ∧ streamed records = events

def shown (s : Session) : Action → List Incoming
  | .incoming inc => [inc]
  | .promptResponse _ _ drained => drained
  | .steeringResponse res drained => if s.injects res then drained else []
  | _ => []

variable {log log' log'' : List Record} {events events' : List StreamEvent}

theorem Adds.refl (log : List Record) : Adds log log [] := ⟨[], by simp, rfl⟩

theorem Adds.trans (h : Adds log log' events) (h' : Adds log' log'' events') :
    Adds log log'' (events ++ events') := by
  obtain ⟨records, rfl, rfl⟩ := h
  obtain ⟨records', rfl, rfl⟩ := h'
  exact ⟨records ++ records', List.append_assoc .., List.filterMap_append⟩

theorem Adds.quiet (h : Adds log log' events) (h' : Adds log' log'' []) :
    Adds log log'' events := by
  have happ := h.trans h'
  rwa [List.append_nil] at happ

theorem Adds.streamed_eq (h : Adds log log' events) :
    streamed log' = streamed log ++ events := by
  obtain ⟨records, rfl, rfl⟩ := h
  exact List.filterMap_append

theorem adds_record {record : Record} (h : stream? record = none) (log : List Record) :
    Adds log (log ++ [record]) [] :=
  ⟨[record], rfl, by simp [streamed, h]⟩

variable (s : Session)

theorem adds_leave (exit : Exit) : Adds s.log (s.leave exit).log [] := by
  simp only [Session.leave]
  split_ifs
  · exact Adds.refl _
  · exact adds_record rfl _
  · exact adds_record rfl _
  · exact Adds.refl _

theorem adds_promptSteer (text : String) : Adds s.log (s.promptSteer text).log [] :=
  (@adds_record (.event (.steered _ _)) rfl _).quiet
    (@adds_record (.prompt text) rfl s.sendSteered.log)

theorem adds_promptQueued : Adds s.log s.promptQueued.log [] := by
  unfold Session.promptQueued
  split
  · exact adds_promptSteer _ _
  · split_ifs
    · exact Adds.refl _
    · exact adds_leave _ _

theorem adds_sendUsage (res : PromptResult) : Adds s.log (s.sendUsage res).log [] := by
  unfold Session.sendUsage
  split
  · exact adds_record rfl _
  · exact Adds.refl _

theorem adds_settleCall (answer : Option SteeringResult) :
    Adds s.log (s.settleCall answer).log [] := by
  simp only [Session.settleCall]
  split
  · exact Adds.refl _
  · split_ifs
    · exact Adds.refl _
    · exact adds_record rfl _
    · exact Adds.refl _

theorem adds_sendAll (events : List StreamEvent) : Adds s.log (s.sendAll events).log events := by
  refine ⟨events.map fun event => .event (.stream event), rfl, ?_⟩
  simp [streamed, List.filterMap_map, Function.comp_def, stream?]

theorem adds_stream (events : List StreamEvent) : Adds s.log (s.stream events).log events := by
  induction events generalizing s with
  | nil => exact Adds.refl _
  | cons event events ih =>
      have hlog : (s.trackTurnSignals event).log = s.log := by
        cases event with
        | textDelta text =>
            rw [Session.trackTurnSignals]
            split_ifs <;> rfl
        | _ => rfl
      have hone : Adds s.log ((s.trackTurnSignals event).send (.stream event)).log [event] :=
        ⟨[.event (.stream event)], by rw [← hlog]; rfl, rfl⟩
      exact hone.trans (ih _)

theorem adds_drain (drained : List Incoming) :
    Adds s.log (s.drain drained).log (drained.flatMap Incoming.events) := by
  induction drained generalizing s with
  | nil => exact Adds.refl _
  | cons inc drained ih =>
      rw [List.flatMap_cons]
      cases inc with
      | update _ events | notification events => exact (adds_sendAll s events).trans (ih _)
      | turnEnded _ => exact ih s
      | request asks events =>
          refine Adds.trans ?_ (ih _)
          cases asks with
          | true => exact adds_sendAll { s with openQuestions := s.openQuestions + 1 } events
          | false => exact adds_sendAll s events

/-- The session whose turn is closed, before the turn's completion. -/
def closing (answer : Option SteeringResult) (drained : List Incoming) : Session :=
  (Session.settleCall { s with turn := none, starveDeadline := none } answer).drain drained

theorem adds_closing (answer : Option SteeringResult) (drained : List Incoming) :
    Adds s.log (closing s answer drained).log (drained.flatMap Incoming.events) :=
  (adds_settleCall { s with turn := none, starveDeadline := none } answer).trans
    (adds_drain _ drained)

theorem closeTurn_log (res : PromptResult) (answer : Option SteeringResult)
    (drained : List Incoming) :
    ∃ usage status, streamed usage = [] ∧
      (s.closeTurn res answer drained).log = (closing s answer drained).log ++
        .event (.assistantMessageCompleted (closing s answer drained).assistantMessageId) ::
          (usage ++ [Record.event (.done status)]) := by
  obtain ⟨usage, husage, hquiet⟩ := adds_sendUsage (closing s answer drained).completeMessage res
  have hdone : ∃ status, (s.closeTurn res answer drained).log =
      ((closing s answer drained).completeMessage.sendUsage res).log ++
        [Record.event (.done status)] := ⟨_, rfl⟩
  obtain ⟨status, hdone⟩ := hdone
  refine ⟨usage, status, hquiet, hdone.trans ?_⟩
  rw [husage, Session.completeMessage, List.append_assoc, List.append_assoc]
  rfl

theorem settleTurn_log (res : PromptResult) (answer : Option SteeringResult)
    (drained : List Incoming) :
    ∃ tail id rest status, Adds s.log tail (drained.flatMap Incoming.events) ∧
      (s.settleTurn res answer drained).log =
        tail ++ .event (.assistantMessageCompleted id) :: rest ∧
          .event (.done status) ∈ rest ∧ streamed rest = [] := by
  obtain ⟨usage, status, husage, hlog⟩ := closeTurn_log s res answer drained
  have hafter : Adds (s.closeTurn res answer drained).log (s.settleTurn res answer drained).log
      [] := by
    simp only [Session.settleTurn]
    split_ifs
    · exact adds_leave _ _
    · exact adds_promptQueued _
  obtain ⟨records, hrecords, hquiet⟩ := hafter
  refine ⟨(closing s answer drained).log, (closing s answer drained).assistantMessageId,
    usage ++ [Record.event (.done status)] ++ records, status, adds_closing s answer drained, ?_,
    by simp, ?_⟩
  · rw [hrecords, hlog, List.append_assoc, List.cons_append]
  · simp only [streamed, List.filterMap_append] at husage hquiet ⊢
    rw [husage, hquiet]
    rfl

theorem adds_eof (response : Option PromptResult) :
    Adds s.log (s.eof response).log [] := by
  unfold Session.eof
  split
  · exact ((adds_record rfl _).quiet (adds_sendUsage _ _)).quiet
      ((adds_record rfl _).quiet (adds_leave _ _))
  · exact adds_leave { s with turn := none } .eof

theorem log_nextFollower : s.nextFollower.log = s.log := by
  unfold Session.nextFollower
  split
  · rfl
  · split_ifs <;> rfl

theorem injects_log {res : SteeringResult} (h : s.injects res = true) (text : String)
    (drained : List Incoming) :
    ∃ tail prev next, Adds s.log tail (drained.flatMap Incoming.events) ∧
      (s.steeringAnswered text res drained).log = tail ++ [Record.event (.steered prev next)] := by
  have hsent : ∃ prev next, (s.steeringAnswered text res drained).log =
      (Session.drain { s with
        steeringCall := none
        delivered := s.delivered ++ [text]
        steeredThisTurn := true
        starveDeadline := none } drained).log ++ [Record.event (.steered prev next)] := by
    rw [Session.steeringAnswered, log_nextFollower, Session.answerCall_injects s h]
    exact ⟨_, _, rfl⟩
  obtain ⟨prev, next, hsent⟩ := hsent
  exact ⟨_, prev, next, adds_drain { s with
    steeringCall := none
    delivered := s.delivered ++ [text]
    steeredThisTurn := true
    starveDeadline := none } drained, hsent⟩

theorem adds_answerCall {res : SteeringResult} (h : s.injects res = false) (text : String)
    (drained : List Incoming) : Adds s.log (s.answerCall text res drained).log [] := by
  simp only [Session.answerCall]
  split_ifs with hint houtcome hturn
  · exact Adds.refl _
  · simp [Session.injects, hint, houtcome, hturn] at h
  · exact Adds.refl _
  · exact Adds.refl _
  · exact Adds.refl _
  · exact adds_promptSteer { s with steeringCall := none } text

theorem adds_receive (spec : Spec) (inc : Incoming) :
    Adds s.log (s.receive spec inc).log inc.events := by
  cases inc with
  | update turnEndCost events =>
      simp only [Session.receive]
      split_ifs <;> exact adds_stream _ events
  | notification events => exact adds_stream _ events
  | turnEnded mine =>
      simp only [Session.receive]
      split_ifs
      · exact adds_record rfl _
      · exact Adds.refl _
  | request asks events =>
      cases asks with
      | true => exact adds_sendAll { s with openQuestions := s.openQuestions + 1 } events
      | false => exact adds_sendAll s events

theorem adds_recover : Adds s.log s.recover.log [] :=
  ((adds_record rfl _).quiet (adds_record rfl _)).quiet (adds_promptQueued _)

theorem adds_steer (spec : Spec) (prompt : String) : Adds s.log (s.steer spec prompt).log [] := by
  simp only [Session.steer]
  split_ifs
  · exact Adds.refl _
  · exact Adds.refl _
  · exact adds_promptSteer { s with taken := s.taken ++ [spec.promptTransform prompt] } _
  · exact Adds.refl _
  · exact Adds.refl _
  · exact Adds.refl _

variable {s}

/-- A branch streams the events of the messages it takes, and of no others. -/
theorem adds_branch {spec : Spec} {s' : Session} {a : Action} (h : s.branch spec a = some s') :
    Adds s.log s'.log ((shown s a).flatMap Incoming.events) := by
  cases a with
  | tick ms =>
      cases h
      exact Adds.refl _
  | answer | quietSettle =>
      simp only [Session.branch] at h
      split_ifs at h
      cases h
      exact Adds.refl _
  | promptResponse res answer drained =>
      simp only [Session.branch] at h
      split_ifs at h
      cases h
      obtain ⟨tail, id, rest, status, htail, hlog, -, hquiet⟩ :=
        settleTurn_log s res answer drained
      refine htail.quiet ⟨_, hlog, ?_⟩
      rw [streamed, List.filterMap_cons]
      exact hquiet
  | incoming inc =>
      cases h
      rw [shown, List.flatMap_singleton]
      exact adds_receive s spec inc
  | eof response =>
      cases h
      exact adds_eof s response
  | steeringResponse res drained =>
      obtain ⟨text, -, rfl⟩ := Option.map_eq_some_iff.mp h
      cases hinjects : s.injects res with
      | true =>
          obtain ⟨tail, prev, next, htail, hlog⟩ := injects_log s hinjects text drained
          rw [shown, if_pos hinjects, hlog]
          exact htail.quiet (adds_record rfl _)
      | false =>
          rw [shown, if_neg (by simp [hinjects]), Session.steeringAnswered, log_nextFollower]
          exact adds_answerCall s hinjects text drained
  | cancelFlush =>
      simp only [Session.branch] at h
      split_ifs at h
      cases h
      simp only [Session.flush]
      split_ifs
      · exact adds_promptQueued { s with cancelFlushDeadline := none }
      · exact Adds.refl _
  | recovery =>
      simp only [Session.branch] at h
      split_ifs at h
      cases h
      exact adds_recover s
  | steer prompt =>
      simp only [Session.branch] at h
      split_ifs at h
      cases h
      exact adds_steer s spec prompt
  | mailboxClosed =>
      simp only [Session.branch] at h
      split_ifs at h
      cases h
      simp only [Session.closeMailbox]
      split_ifs
      · exact adds_leave { s with steeringOpen := false } _
      · exact Adds.refl _
  | interrupt =>
      simp only [Session.branch] at h
      split_ifs at h
      cases h
      simp only [Session.interrupt]
      split_ifs
      · exact Adds.refl _
      · exact adds_leave { s with interruptSent := true, interrupted := true } _
  | hangUp =>
      cases h
      exact adds_leave s _

end Streams

/-! ## The invariant -/

section Invariant

variable {lib : SerdeJson} {read : JsonRpc.Incoming → Incoming} {setup : Setup} {r r' : Run}

def Run.consumed (r : Run) : List JsonRpc.Incoming :=
  (r.client.sent.take r.client.received).drop r.dropped

def Phase.Entered : Phase → Prop
  | .setup stage _ => stage = .config
  | .live _ _ _ => True
  | .over => False

/-- The log streams what the session has taken; what came before the answers that opened the session
was dropped. -/
structure Inv (lib : SerdeJson) (read : JsonRpc.Incoming → Incoming) (r : Run) : Prop where
  sound : Sound lib r
  dropped_le : r.dropped ≤ r.client.received
  setup : ∀ stage id, r.phase = .setup stage id → r.dropped = r.client.received
  opened : ∀ id n, (id, n) ∈ r.opened → AnsweredAt lib r.client id n ∧
    n ≤ r.client.taken.length ∧
      forwards lib (r.client.taken.take n) <+: r.client.sent.take r.dropped
  entered : r.phase.Entered → r.opened ≠ []
  live : ∀ s turnId callId, r.phase = .live s turnId callId →
    streamed s.log = (messages read r.consumed).flatMap Incoming.events

theorem messages_append (sent sent' : List JsonRpc.Incoming) :
    messages read (sent ++ sent') = messages read sent ++ messages read sent' := by
  simp [messages]

theorem drop_take_of_prefix {α : Type} {xs ys : List α} {i j k : Nat} (hxs : xs <+: ys)
    (hij : i ≤ j) (hj : j ≤ xs.length) (hjk : j ≤ k) :
    (ys.take k).drop i = (xs.take j).drop i ++ (ys.take k).drop j := by
  obtain ⟨more, rfl⟩ := hxs
  have htake : ((xs ++ more).take k).take j = xs.take j := by
    rw [List.take_take, Nat.min_eq_left hjk, List.take_append_of_le_length hj]
  have hlength : i ≤ (xs.take j).length := by
    rw [List.length_take]
    omega
  conv_lhs => rw [← List.take_append_drop j ((xs ++ more).take k), htake]
  rw [List.drop_append_of_le_length hlength]

theorem consumed_of_moved (hinv : Inv lib read r) (hmoved : Moved r r') :
    r'.consumed = r.consumed ++
      (r'.client.sent.take r'.client.received).drop r.client.received := by
  rw [Run.consumed, hmoved.dropped]
  exact drop_take_of_prefix hmoved.client.sent hinv.dropped_le hinv.sound.received_le
    hmoved.client.received

theorem Inv.opened_moved (hinv : Inv lib read r) (hmoved : Moved r r') {id : Int} {n : Nat}
    (hmem : (id, n) ∈ r'.opened) : AnsweredAt lib r'.client id n ∧ n ≤ r'.client.taken.length ∧
      forwards lib (r'.client.taken.take n) <+: r'.client.sent.take r'.dropped := by
  rw [hmoved.opened] at hmem
  obtain ⟨hanswered, hn, hforwards⟩ := hinv.opened id n hmem
  refine ⟨hanswered.mono hmoved.client, hn.trans hmoved.client.taken.length_le, ?_⟩
  rw [take_of_grows hn hmoved.client, hmoved.dropped]
  exact hforwards.trans (hmoved.client.sent.take r.dropped)

theorem Inv.idle (hinv : Inv lib read r) (hmoved : Moved r r') (hsound : Sound lib r')
    (hreceived : r'.client.received = r.client.received) : Inv lib read r' where
  sound := hsound
  dropped_le := by
    rw [hmoved.dropped, hreceived]
    exact hinv.dropped_le
  setup stage id hphase := by
    rw [hmoved.dropped, hreceived]
    exact hinv.setup stage id (hmoved.phase ▸ hphase)
  opened _ _ hmem := hinv.opened_moved hmoved hmem
  entered hentered := by
    rw [hmoved.opened]
    exact hinv.entered (hmoved.phase ▸ hentered)
  live s turnId callId hphase := by
    have hnone : (r'.client.sent.take r'.client.received).drop r.client.received = [] := by
      rw [hreceived]
      exact List.drop_eq_nil_of_le (List.length_take_le _ _)
    rw [consumed_of_moved hinv hmoved, hnone, List.append_nil]
    exact hinv.live s turnId callId (hmoved.phase ▸ hphase)

theorem branch_eq_some {action : Action} (h : r.branch setup action = some r') :
    ∃ s turnId callId s', r.phase = .live s turnId callId ∧
      s.branch setup.spec action = some s' ∧
        ∃ turnId' callId', r' = { r with phase := .live s' turnId' callId' } := by
  unfold Run.branch at h
  split at h
  · rename_i s turnId callId hphase
    obtain ⟨s', hs', rfl⟩ := Option.map_eq_some_iff.mp h
    simp only [machine] at hs'
    split_ifs at hs'
    exact ⟨s, turnId, callId, s', hphase, hs', _, _, rfl⟩
  · cases h

theorem Inv.branch {next : Run} {action : Action} (hinv : Inv lib read r) (hmoved : Moved r r')
    (hsound : Sound lib r')
    (hshown : ∀ s turnId callId, r.phase = .live s turnId callId → shown s action =
      messages read ((r'.client.sent.take r'.client.received).drop r.client.received))
    (h : r'.branch setup action = some next) : Inv lib read next := by
  obtain ⟨s, turnId, callId, s', hphase, hs', turnId', callId', rfl⟩ := branch_eq_some h
  rw [hmoved.phase] at hphase
  refine ⟨hsound.same, ?_, nofun,
    fun id n hmem => hinv.opened_moved hmoved hmem, fun _ => ?_, ?_⟩
  · change r'.dropped ≤ r'.client.received
    rw [hmoved.dropped]
    exact hinv.dropped_le.trans hmoved.client.received
  · change r'.opened ≠ []
    rw [hmoved.opened]
    exact hinv.entered (hphase ▸ trivial)
  · intro s'' turnId'' callId'' heq
    cases heq
    change streamed s'.log = (messages read r'.consumed).flatMap Incoming.events
    rw [consumed_of_moved hinv hmoved, messages_append, List.flatMap_append,
      ← hinv.live s turnId callId hphase, ← hshown s turnId callId hphase]
    exact (adds_branch hs').streamed_eq

theorem Moved.refl (r : Run) : Moved r r := ⟨rfl, rfl, rfl, .of_eq rfl rfl rfl⟩

theorem drop_take_self {α : Type} (xs : List α) (n : Nat) : (xs.take n).drop n = [] :=
  List.drop_eq_nil_of_le (List.length_take_le n xs)

theorem Inv.rephase (hinv : Inv lib read r) {phase : Phase}
    (hsetup : ∀ stage id, phase = .setup stage id → r.dropped = r.client.received)
    (hentered : phase.Entered → r.phase.Entered)
    (hlive : ∀ s turnId callId, phase = .live s turnId callId →
      streamed s.log = (messages read r.consumed).flatMap Incoming.events) :
    Inv lib read { r with phase } :=
  ⟨hinv.sound.same, hinv.dropped_le, hsetup, hinv.opened, fun h => hinv.entered (hentered h),
    hlive⟩

theorem Inv.over (hinv : Inv lib read r) : Inv lib read { r with phase := .over } := by
  refine hinv.rephase (fun stage id heq => ?_) False.elim fun s turnId callId heq => ?_
  · cases heq
  · cases heq

theorem Inv.redrop (hinv : Inv lib read r) (hmoved : Moved r r') (hsound : Sound lib r')
    {opened : List (Int × Nat)} {phase : Phase}
    (hopened : ∀ id n, (id, n) ∈ opened → (id, n) ∈ r'.opened ∨
      AnsweredAt lib r'.client id n ∧ Ahead lib r'.client n ∧
        r'.client.received = r'.client.sent.length)
    (hentered : phase.Entered → opened ≠ [])
    (hlive : ∀ s turnId callId, phase = .live s turnId callId → streamed s.log = []) :
    Inv lib read { r' with dropped := r'.client.received, opened, phase } := by
  refine ⟨hsound.same, le_rfl,
    fun _ _ _ => rfl, fun id n hmem => ?_, hentered, fun s turnId callId hphase => ?_⟩
  · obtain hold | ⟨hanswered, hahead, hempty⟩ := hopened id n hmem
    · obtain ⟨hanswered, hn, hforwards⟩ := hinv.opened_moved hmoved hold
      refine ⟨hanswered, hn, hforwards.trans ?_⟩
      apply List.take_prefix_take_left
      rw [hmoved.dropped]
      exact hinv.dropped_le.trans hmoved.client.received
    · refine ⟨hanswered, hahead.1, ?_⟩
      change forwards lib (r'.client.taken.take n) <+: r'.client.sent.take r'.client.received
      rw [hempty, List.take_length]
      exact hahead.2
  · change streamed s.log = (messages read
      ((r'.client.sent.take r'.client.received).drop r'.client.received)).flatMap Incoming.events
    rw [drop_take_self, hlive s turnId callId hphase]
    rfl

theorem streamed_setupNext {stage : Stage} {ok more : Bool} {s : Session}
    {turnId callId : Option Int}
    (h : Run.setupNext setup stage ok more = .live s turnId callId) : streamed s.log = [] := by
  have hs : s = .start setup.prompt := by
    cases stage <;> simp only [Run.setupNext] at h <;> split_ifs at h <;> cases h <;> rfl
  rw [hs]
  rfl

theorem Inv.call (hinv : Inv lib read r) {method : String} {params : JsonValue}
    (h : r.io lib (.call method params) = some r') : Inv lib read r' ∧ r'.phase = r.phase := by
  have hreceived : r'.client.received = r.client.received := by
    obtain ⟨client, hclient, rfl⟩ := Option.map_eq_some_iff.mp h
    cases hclient
    rfl
  exact ⟨hinv.idle (io_moved h) (io_sound hinv.sound h) hreceived, (io_moved h).phase⟩

theorem Inv.polled (hinv : Inv lib read r) {s : Session}
    {turnId callId turnId' callId' : Option Int} (hphase : r.phase = .live s turnId callId) :
    Inv lib read { r with phase := .live s turnId' callId' } := by
  refine hinv.rephase (fun stage id heq => ?_) (fun _ => hphase ▸ trivial) fun s' _ _ heq => ?_
  · cases heq
  · cases heq
    exact hinv.live s turnId callId hphase

theorem Inv.polledSetup (hinv : Inv lib read r) {stage : Stage} {id id' : Option Int}
    (hphase : r.phase = .setup stage id) : Inv lib read { r with phase := .setup stage id' } := by
  refine hinv.rephase (fun _ _ _ => hinv.setup stage id hphase) (fun hentered => ?_)
    fun s' _ _ heq => ?_
  · rw [hphase]
    exact hentered
  · cases heq

theorem Inv.handshake (hinv : Inv lib read r) {id : Option Int} {ok more : Bool}
    (hphase : r.phase = .setup .handshake id) :
    Inv lib read { r with phase := Run.setupNext setup .handshake ok more } := by
  refine hinv.rephase (fun _ _ _ => hinv.setup .handshake id hphase) (fun hentered => ?_)
    fun s' _ _ heq => ?_
  · simp only [Run.setupNext] at hentered
    split_ifs at hentered <;> cases hentered
  · simp only [Run.setupNext] at heq
    split_ifs at heq

theorem taken_receive {middle : Run} {incoming : JsonRpc.Incoming}
    (hincoming : r.client.sent[r.client.received]? = some incoming)
    (h : r.io lib .receive = some middle) :
    (middle.client.sent.take middle.client.received).drop r.client.received = [incoming] := by
  obtain ⟨client, hclient, rfl⟩ := Option.map_eq_some_iff.mp h
  obtain ⟨hreceived, hlt, hsent⟩ := received_receive hclient
  change (client.sent.take client.received).drop r.client.received = [incoming]
  rw [hreceived, hsent, List.take_add_one, hincoming,
    List.drop_append_of_le_length (by rw [List.length_take]; omega), drop_take_self]
  rfl

theorem ok_of_entered {stage : Stage} {result : Except HarnessError JsonValue} {more : Bool}
    (hconfig : stage ≠ .config) (hinit : stage ≠ .handshake)
    (h : (Run.setupNext setup stage result.isOk more).Entered) : ∃ value, result = .ok value := by
  cases result with
  | ok value => exact ⟨value, rfl⟩
  | error text =>
      cases stage with
      | handshake => exact absurd rfl hinit
      | config => exact absurd rfl hconfig
      | load | new => cases h

theorem Inv.step {action : RunAction} (hinv : Inv lib read r)
    (h : r.step lib read setup action = some r') : Inv lib read r' := by
  cases action with
  | io action =>
      simp only [Run.step] at h
      split_ifs at h with hwhere
      have hreceived : r'.client.received = r.client.received := by
        obtain ⟨client, hclient, rfl⟩ := Option.map_eq_some_iff.mp h
        exact (grows_step hclient).2 hwhere
      exact hinv.idle (io_moved h) (io_sound hinv.sound h) hreceived
  | poll params =>
      simp only [Run.step] at h
      split at h
      · rename_i stage hphase
        obtain ⟨middle, hmiddle, rfl⟩ := Option.map_eq_some_iff.mp h
        obtain ⟨hcalled, hsame⟩ := hinv.call hmiddle
        exact hcalled.polledSetup (hsame.trans hphase)
      · rename_i s callId hphase
        split_ifs at h
        obtain ⟨middle, hmiddle, rfl⟩ := Option.map_eq_some_iff.mp h
        obtain ⟨hcalled, hsame⟩ := hinv.call hmiddle
        exact hcalled.polled (hsame.trans hphase)
      · cases h
  | pollSteering params =>
      simp only [Run.step] at h
      split at h
      · rename_i s turnId hphase
        split_ifs at h
        obtain ⟨middle, hmiddle, rfl⟩ := Option.map_eq_some_iff.mp h
        obtain ⟨hcalled, hsame⟩ := hinv.call hmiddle
        exact hcalled.polled (hsame.trans hphase)
      · cases h
  | setupReceive =>
      simp only [Run.step] at h
      split at h
      · cases h
      · rename_i stage id hne hphase
        obtain ⟨middle, hmiddle, rfl⟩ := Option.map_eq_some_iff.mp h
        have hmoved := io_moved hmiddle
        refine hinv.redrop hmoved (io_sound hinv.sound hmiddle) (fun _ _ hmem => .inl hmem)
          (fun hentered => ?_) fun s turnId callId hlive => ?_
        · rw [hmoved.opened]
          exact hinv.entered (hmoved.phase ▸ hentered)
        · rw [hmoved.phase, hphase] at hlive
          cases hlive
      · cases h
  | setupAnswered during more =>
      simp only [Run.step] at h
      split at h
      · rename_i id hphase
        obtain ⟨result, -, rfl⟩ := Option.map_eq_some_iff.mp h
        exact hinv.handshake hphase
      · rename_i stage id hne hphase
        obtain ⟨result, hresult, h⟩ := Option.bind_eq_some_iff.mp h
        obtain ⟨middle, hmiddle, rfl⟩ := Option.map_eq_some_iff.mp h
        obtain ⟨hsound, hmoved, hempty⟩ := drain_moved hinv.sound hmiddle
        refine hinv.redrop hmoved hsound (fun other n hmem => ?_) (fun hentered => ?_)
          fun _ _ _ => streamed_setupNext
        · split_ifs at hmem
          · exact .inl hmem
          · refine (List.mem_append.mp hmem).imp_right fun hnew => ?_
            obtain ⟨id, rfl, hbefore⟩ := Option.bind_eq_some_iff.mp (Option.mem_toList.mp hnew)
            obtain ⟨place, hplace, heq⟩ := Option.map_eq_some_iff.mp hbefore
            cases heq
            exact ⟨(hinv.sound.answered _ _ hplace).mono hmoved.client,
              (hinv.sound.ahead _ _ hplace).mono hmoved.client, hempty⟩
        · by_cases hconfig : stage = .config
          · rw [if_pos hconfig, hmoved.opened]
            exact hinv.entered (hphase ▸ hconfig)
          · rw [if_neg hconfig]
            obtain ⟨value, rfl⟩ := ok_of_entered hconfig hne hentered
            obtain ⟨id, rfl, n, hbefore⟩ := hinv.sound.before_of_ok hresult
            simp [hbefore]
      · cases h
  | abandon =>
      simp only [Run.step] at h
      split at h
      · obtain rfl := Option.some.inj h
        exact hinv.over
      · cases h
  | promptResponse during =>
      simp only [Run.step] at h
      split at h
      · obtain ⟨result, -, h⟩ := Option.bind_eq_some_iff.mp h
        obtain ⟨middle, hmiddle, h⟩ := Option.bind_eq_some_iff.mp h
        obtain ⟨hsound, hmoved, hempty⟩ := drain_moved hinv.sound hmiddle
        refine hinv.branch hmoved hsound (fun _ _ _ _ => ?_) h
        rw [hempty, List.take_length]
        rfl
      · cases h
  | incoming =>
      simp only [Run.step] at h
      obtain ⟨incoming, hincoming, h⟩ := Option.bind_eq_some_iff.mp h
      split_ifs at h with heof
      obtain ⟨middle, hmiddle, h⟩ := Option.bind_eq_some_iff.mp h
      refine hinv.branch (io_moved hmiddle) (io_sound hinv.sound hmiddle) (fun _ _ _ _ => ?_) h
      rw [taken_receive hincoming hmiddle]
      simp [shown, messages, heof]
  | eof =>
      simp only [Run.step] at h
      split at h
      · split_ifs at h
        refine hinv.branch (Moved.refl r) hinv.sound (fun _ _ _ _ => ?_) h
        rw [drop_take_self]
        rfl
      · cases h
  | steeringResponse during =>
      simp only [Run.step] at h
      split at h
      · rename_i s turnId callId hphase
        obtain ⟨result, -, h⟩ := Option.bind_eq_some_iff.mp h
        split_ifs at h with hinjects
        · obtain ⟨middle, hmiddle, h⟩ := Option.bind_eq_some_iff.mp h
          obtain ⟨hsound, hmoved, hempty⟩ := drain_moved hinv.sound hmiddle
          refine hinv.branch hmoved hsound (fun _ _ _ hlive => ?_) h
          rw [hphase] at hlive
          cases hlive
          rw [hempty, List.take_length, shown, if_pos hinjects]
          rfl
        · refine hinv.branch (Moved.refl r) hinv.sound (fun _ _ _ hlive => ?_) h
          rw [hphase] at hlive
          cases hlive
          rw [drop_take_self, shown, if_neg hinjects]
          rfl
      · cases h
  | other action =>
      simp only [Run.step] at h
      split_ifs at h with hneeds
      refine hinv.branch (Moved.refl r) hinv.sound (fun _ _ _ _ => ?_) h
      rw [drop_take_self]
      cases action with
      | promptResponse _ _ _ | incoming _ | eof _ | steeringResponse _ _ => exact absurd rfl hneeds
      | _ => rfl

theorem inv_start : Inv lib read Run.start where
  sound :=
    { client := RpcClient.sound_new
      ordered := rfl
      filled := nofun
      received_le := le_rfl
      answered := nofun
      ahead := nofun }
  dropped_le := le_rfl
  setup _ _ _ := rfl
  opened := nofun
  entered := nofun
  live _ _ _ hphase := by cases hphase

theorem inv_of_reachable (h : (runs lib read setup).Reachable r) : Inv lib read r := by
  refine h.invariant (I := Inv lib read) ?_ ?_
  · rintro _ rfl
    exact inv_start
  · intro r action r' hinv _ hstep
    exact hinv.step hstep

end Invariant

/-! ## The boundaries -/

section Sides

variable (lib : SerdeJson) (read : JsonRpc.Incoming → Incoming) (setup : Setup)

/-- After what the setup dropped, the log streams the next messages of the channel, and those of the
first `n` lines are among both. -/
def Run.Shows (r : Run) (n : Nat) (log : List Record) : Prop :=
  ∃ seen, streamed log = (messages read seen).flatMap Incoming.events ∧
    r.client.sent.take r.dropped ++ seen <+: r.client.sent ∧
      forwards lib (r.client.taken.take n) <+: r.client.sent.take r.dropped ++ seen

/-- What holds of a run at its boundaries. -/
structure Run.OnItsSide (r : Run) : Prop where
  /-- Each message that the session takes is streamed once, in the order of the lines. -/
  inOrder : ∀ s turnId callId, r.phase = .live s turnId callId →
    streamed s.log = (messages read r.consumed).flatMap Incoming.events ∧
      r.client.sent.take r.dropped ++ r.consumed <+: forwards lib r.client.taken ++ [.eof]
  /-- What was written before the answer to `session/load` or `session/new` was dropped. -/
  opening : ∀ s turnId callId, r.phase = .live s turnId callId → r.opened ≠ [] ∧
    ∀ id n, (id, n) ∈ r.opened → AnsweredAt lib r.client id n ∧
      forwards lib (r.client.taken.take n) <+: r.client.sent.take r.dropped
  answered : ∀ id value, r.result (some id) = some (.ok value) →
    ∃ n, r.before id = some n ∧ AnsweredAt lib r.client id n
  /-- A turn that ends with its response. -/
  turnEnd : ∀ during r' s id callId n, r.phase = .live s (some id) callId →
    r.before id = some n → r.step lib read setup (.promptResponse during) = some r' →
      ∃ s' turnId' callId', r'.phase = .live s' turnId' callId' ∧
        ∃ log message rest status, s.log <+: log ∧
          s'.log = log ++ .event (.assistantMessageCompleted message) :: rest ∧
            .event (.done status) ∈ rest ∧ r'.Shows lib read n log
  /-- A turn that ends with the agent's output. -/
  outputEnd : ∀ r' s id callId n, r.phase = .live s (some id) callId → r.before id = some n →
    r.step lib read setup .eof = some r' → ∃ s' turnId' callId',
      r'.phase = .live s' turnId' callId' ∧ s.log <+: s'.log ∧ r'.Shows lib read n s.log
  /-- An injection into a turn whose response is not there yet. -/
  injection : ∀ during r' s turnId id result n, r.phase = .live s turnId (some id) →
    r.result (some id) = some result → s.injects (steeringResult result) = true →
      r.before id = some n → r.step lib read setup (.steeringResponse during) = some r' →
        ∃ s' turnId' callId', r'.phase = .live s' turnId' callId' ∧
          ∃ log prev next, s.log <+: log ∧ s'.log = log ++ [.event (.steered prev next)] ∧
            r'.Shows lib read n log

variable {lib read setup} {r r' : Run}

theorem Adds.isPrefix {log log' : List Record} {events : List StreamEvent}
    (h : Adds log log' events) : log <+: log' := by
  obtain ⟨records, rfl, -⟩ := h
  exact List.prefix_append _ _

theorem take_dropped_append_consumed (hle : r.dropped ≤ r.client.received) :
    r.client.sent.take r.dropped ++ r.consumed = r.client.sent.take r.client.received := by
  have htake : (r.client.sent.take r.client.received).take r.dropped =
      r.client.sent.take r.dropped := by
    rw [List.take_take, Nat.min_eq_left hle]
  rw [Run.consumed, ← htake, List.take_append_drop]

theorem shows_of_drain (hinv : Inv lib read r) (hmoved : Moved r r')
    (hempty : r'.client.received = r'.client.sent.length) {s : Session} {turnId callId : Option Int}
    (hphase : r.phase = .live s turnId callId) {n : Nat} (hahead : Ahead lib r.client n)
    {log : List Record}
    (hlog : Adds s.log log ((r.drained read r').flatMap Incoming.events)) {phase : Phase} :
    Run.Shows lib read { r' with phase } n log := by
  have hconsumed : r'.consumed = r.consumed ++ r'.client.sent.drop r.client.received := by
    rw [consumed_of_moved hinv hmoved, hempty, List.take_length]
  have hall : r'.client.sent.take r'.dropped ++ r'.consumed = r'.client.sent := by
    rw [take_dropped_append_consumed, hempty, List.take_length]
    rw [hmoved.dropped]
    exact hinv.dropped_le.trans hmoved.client.received
  refine ⟨r'.consumed, ?_, ?_, ?_⟩
  · rw [hlog.streamed_eq, hinv.live s turnId callId hphase, hconsumed, messages_append,
      List.flatMap_append]
    rfl
  · change r'.client.sent.take r'.dropped ++ r'.consumed <+: r'.client.sent
    rw [hall]
  · change forwards lib (r'.client.taken.take n) <+: r'.client.sent.take r'.dropped ++ r'.consumed
    rw [hall]
    exact (hahead.mono hmoved.client).2

theorem forwards_prefix_take {lines : List (Option (List Char))} {sent : List JsonRpc.Incoming}
    {received : Nat} (h : forwards lib lines <+: sent)
    (hend : sent[received]? = some .eof ∨ received = sent.length) :
    forwards lib lines <+: sent.take received := by
  refine List.prefix_take_iff.mpr ⟨h, ?_⟩
  obtain heof | hlength := hend
  · by_contra hlt
    have hmem : JsonRpc.Incoming.eof ∈ forwards lib lines := by
      have hget := h.getElem (Nat.lt_of_not_le hlt)
      obtain ⟨hbound, heof⟩ := List.getElem?_eq_some_iff.mp heof
      rw [← heof, ← hget]
      exact List.getElem_mem _
    exact RpcClient.eof_notMem_forwards lines hmem
  · rw [hlength]
    exact h.length_le

theorem onItsSide_of_inv (hinv : Inv lib read r) : r.OnItsSide lib read setup where
  inOrder s turnId callId hphase := by
    refine ⟨hinv.live s turnId callId hphase, ?_⟩
    rw [take_dropped_append_consumed hinv.dropped_le]
    exact (List.take_prefix _ _).trans hinv.sound.ordered.isPrefix
  opening s turnId callId hphase := by
    refine ⟨hinv.entered (hphase ▸ trivial), fun id n hmem => ?_⟩
    obtain ⟨hanswered, -, hforwards⟩ := hinv.opened id n hmem
    exact ⟨hanswered, hforwards⟩
  answered id value hresult := by
    obtain ⟨_, heq, n, hbefore⟩ := hinv.sound.before_of_ok hresult
    cases heq
    exact ⟨n, hbefore, hinv.sound.answered id n hbefore⟩
  turnEnd during r' s id callId n hphase hbefore h := by
    simp only [Run.step, hphase] at h
    obtain ⟨result, -, h⟩ := Option.bind_eq_some_iff.mp h
    obtain ⟨middle, hmiddle, h⟩ := Option.bind_eq_some_iff.mp h
    obtain ⟨-, hmoved, hempty⟩ := drain_moved hinv.sound hmiddle
    obtain ⟨_, _, _, s', hphase', hbranch, turnId', callId', rfl⟩ := branch_eq_some h
    rw [hmoved.phase, hphase] at hphase'
    cases hphase'
    simp only [Session.branch] at hbranch
    split_ifs at hbranch
    cases hbranch
    obtain ⟨log, message, rest, status, hlog, hafter, hdone, -⟩ := settleTurn_log s
      (promptResult result) ((r.result callId).map steeringResult) (r.drained read middle)
    exact ⟨_, turnId', callId', rfl, log, message, rest, status, hlog.isPrefix, hafter, hdone,
      shows_of_drain hinv hmoved hempty hphase (hinv.sound.ahead id n hbefore) hlog⟩
  outputEnd r' s id callId n hphase hbefore h := by
    simp only [Run.step, hphase] at h
    split_ifs at h with hend
    obtain ⟨_, _, _, s', hphase', hbranch, turnId', callId', rfl⟩ := branch_eq_some h
    rw [hphase] at hphase'
    cases hphase'
    cases hbranch
    refine ⟨_, turnId', callId', rfl, (adds_eof s _).isPrefix, r.consumed,
      hinv.live s (some id) callId hphase, ?_⟩
    change r.client.sent.take r.dropped ++ r.consumed <+: r.client.sent ∧
      forwards lib (r.client.taken.take n) <+: r.client.sent.take r.dropped ++ r.consumed
    rw [take_dropped_append_consumed hinv.dropped_le]
    exact ⟨List.take_prefix _ _, forwards_prefix_take (hinv.sound.ahead id n hbefore).2
      (hend.imp_right And.left)⟩
  injection during r' s turnId id result n hphase hresult hinjects hbefore h := by
    simp only [Run.step, hphase, hresult, Option.bind_some, hinjects, if_true] at h
    obtain ⟨middle, hmiddle, h⟩ := Option.bind_eq_some_iff.mp h
    obtain ⟨-, hmoved, hempty⟩ := drain_moved hinv.sound hmiddle
    obtain ⟨_, _, _, s', hphase', hbranch, turnId', callId', rfl⟩ := branch_eq_some h
    rw [hmoved.phase, hphase] at hphase'
    cases hphase'
    obtain ⟨text, -, rfl⟩ := Option.map_eq_some_iff.mp hbranch
    obtain ⟨log, prev, next, hlog, hafter⟩ := injects_log s hinjects text (r.drained read middle)
    exact ⟨_, turnId', callId', rfl, log, prev, next, hlog.isPrefix, hafter,
      shows_of_drain hinv hmoved hempty hphase (hinv.sound.ahead id n hbefore) hlog⟩

/-- **Boundaries.** Once the setup is over, updates are streamed once and in the order of the lines, and
none from before the answer that opened the session. A turn that ends with its response or with the
output has streamed every update before the response, and an injection every update before its
answer. -/
theorem updates_on_their_side (lib : SerdeJson) (read : JsonRpc.Incoming → Incoming) (setup : Setup)
    {r : Run} (h : (runs lib read setup).Reachable r) : r.OnItsSide lib read setup :=
  onItsSide_of_inv (inv_of_reachable h)

def answerText (id : String) : String := "\x7b\"id\":" ++ id ++ ",\"result\":true\x7d"

def updateText (text : String) : String :=
  "\x7b\"method\":\"session/update\",\"params\":\"" ++ text ++ "\"\x7d"

def answer (id : String) (n : Int) : String × JsonValue :=
  (answerText id, .object [("id", .int n), ("result", .bool true)])

def update (text : String) : String × JsonValue :=
  (updateText text, .object [("method", .string "session/update"), ("params", .string text)])

def talk : SerdeJson where
  parse := fun line =>
    (([answer "1" 1, answer "2" 2, answer "3" 3, answer "4" 4, update "early", update "x",
      update "cost", update "late"].find? fun entry => entry.1.toList = line)).map Prod.snd
  render := fun _ => "null"
  whole := fun _ => none

def readText : JsonRpc.Incoming → Incoming
  | .notification _ (.string text) => .update (text = "cost") [.textDelta text]
  | _ => .notification []

def steerable (costHint : Bool) : Setup :=
  ⟨⟨fun prompt => prompt, true, costHint, none⟩, false, "p"⟩

def request (id : Int) : List RunAction := [.io (.insert id), .io (.submit id)]

def reply (text : String) : List RunAction := [.io (.print (some text.toList)), .io .read]

def openSession : List RunAction :=
  [.poll .null] ++ request 1 ++ reply (answerText "1") ++
    [.io (.resume 1), .setupAnswered [] false, .poll .null] ++ request 2 ++
      reply (updateText "early") ++ [.io .send] ++ reply (answerText "2") ++
        [.io (.resume 2), .setupAnswered [.receive] false, .poll .null] ++ request 3

def steerTurn : List RunAction := [.other (.steer "a"), .pollSteering .null] ++ request 4

def Run.log? (r : Run) : Option (List Record) :=
  match r.phase with
  | .live s _ _ => some s.log
  | _ => none

/-- A steer that is injected behind an update. -/
theorem updates_on_their_side_injected :
    ∃ r r' : Run, r.OnItsSide talk readText (steerable false) ∧
      r.step talk readText (steerable false) (.steeringResponse [.receive]) = some r' ∧
        r'.log? = some [.event (.sessionStarted 0), .prompt "p",
          .event (.stream (.textDelta "x")), .event (.steered 0 1)] := by
  obtain ⟨r, hsteps, hr⟩ := Machine.exists_steps_of_runWhen
    (runs talk readText (steerable false)) Machine.anyStep (s := .start)
    (openSession ++ steerTurn ++ reply (updateText "x") ++ [.io .send] ++ reply (answerText "4") ++
      [.io (.resume 4)])
    (p := fun r => ((r.step talk readText (steerable false)
      (.steeringResponse [.receive])).bind Run.log?) = some [.event (.sessionStarted 0),
        .prompt "p", .event (.stream (.textDelta "x")), .event (.steered 0 1)])
    (by decide +kernel)
  obtain ⟨r', hstep, hlog⟩ := Option.bind_eq_some_iff.mp (of_decide_eq_true hr)
  exact ⟨r, r', updates_on_their_side _ _ _ ⟨_, rfl, hsteps⟩, hstep, hlog⟩

/-- With both responses there, the boundary comes before an update that was written before them; and a
turn that is over at its cost frame has its `Done` before an update that its response follows. -/
theorem update_behind_boundary :
    (∃ r : Run, (runs talk readText (steerable false)).Reachable r ∧
      r.client.taken = [answerText "1", updateText "early", answerText "2", updateText "x",
        answerText "4", answerText "3"].map (fun text => some text.toList) ∧
      r.log? = some [.event (.sessionStarted 0), .prompt "p", .event (.steered 0 1),
        .event (.stream (.textDelta "x")), .event (.assistantMessageCompleted 1),
        .event (.done .completed)]) ∧
      ∃ r : Run, (runs talk readText (steerable true)).Reachable r ∧
        r.client.taken = [answerText "1", updateText "early", answerText "2", updateText "cost",
          updateText "late", answerText "3"].map (fun text => some text.toList) ∧
        r.log? = some [.event (.sessionStarted 0), .prompt "p",
          .event (.stream (.textDelta "cost")), .event (.assistantMessageCompleted 0),
          .event (.done .completed), .event (.stream (.textDelta "late"))] := by
  constructor
  · obtain ⟨r, hsteps, hr⟩ := Machine.exists_steps_of_runWhen
      (runs talk readText (steerable false)) Machine.anyStep (s := .start)
      (openSession ++ steerTurn ++ reply (updateText "x") ++ [.io .send] ++
        reply (answerText "4") ++ reply (answerText "3") ++
        [.io (.resume 4), .io (.resume 3), .promptResponse [.receive]])
      (p := fun r => decide (r.client.taken = [answerText "1", updateText "early",
        answerText "2", updateText "x", answerText "4", answerText "3"].map
          (fun text => some text.toList) ∧
        r.log? = some [.event (.sessionStarted 0), .prompt "p", .event (.steered 0 1),
          .event (.stream (.textDelta "x")), .event (.assistantMessageCompleted 1),
          .event (.done .completed)])) (by decide +kernel)
    exact ⟨r, ⟨_, rfl, hsteps⟩, of_decide_eq_true hr⟩
  · obtain ⟨r, hsteps, hr⟩ := Machine.exists_steps_of_runWhen
      (runs talk readText (steerable true)) Machine.anyStep (s := .start)
      (openSession ++ reply (updateText "cost") ++ [.io .send, .incoming, .other (.tick 1000),
        .other .recovery] ++ reply (updateText "late") ++ [.io .send, .incoming] ++
        reply (answerText "3"))
      (p := fun r => decide (r.client.taken = [answerText "1", updateText "early",
        answerText "2", updateText "cost", updateText "late", answerText "3"].map
          (fun text => some text.toList) ∧
        r.log? = some [.event (.sessionStarted 0), .prompt "p",
          .event (.stream (.textDelta "cost")), .event (.assistantMessageCompleted 0),
          .event (.done .completed), .event (.stream (.textDelta "late"))])) (by decide +kernel)
    exact ⟨r, ⟨_, rfl, hsteps⟩, of_decide_eq_true hr⟩

end Sides

end Zeron.Harness.Agent
