import Mathlib.Data.List.Basic
import Zeron.Harness.Session

/-!
# Open tool calls and the quiet settle

The loop keeps a set of open tool calls, and a quiet turn is settled only while it is empty. Only the
branch of ordinary messages keeps the set: the drains and the answers to requests send their events
past it. A watcher follows the log of the turn, the questions, and which deadline is armed.
-/

namespace Zeron.Harness

open Zeron.Lib (Machine)

/-! ## The tool calls of a history -/

section History

/-- The call was announced, and its result came after that. -/
def HadResult (id : String) (events : List StreamEvent) : Prop :=
  [.toolCall id, .toolResult id].Sublist events

instance (id : String) (events : List StreamEvent) : Decidable (HadResult id events) :=
  inferInstanceAs (Decidable (List.Sublist _ _))

def track (tools : List String) : StreamEvent → List String
  | .toolCall id => if id ∈ tools then tools else id :: tools
  | .toolResult id => tools.filter fun tool => tool ≠ id
  | _ => tools

/-- The calls that the events announce and leave without a result. -/
def leftOpen (events : List StreamEvent) : List String := events.foldl track []

def StreamEvent.call? : StreamEvent → Option String
  | .toolCall id => some id
  | _ => none

variable {id : String} {tools : List String} {before events : List StreamEvent}

theorem mem_track_toolCall (other : String) :
    id ∈ track tools (.toolCall other) ↔ id = other ∨ id ∈ tools := by
  rw [track]
  by_cases hother : other ∈ tools
  · rw [if_pos hother]
    refine ⟨.inr, fun h => ?_⟩
    obtain rfl | hid := h
    · exact hother
    · exact hid
  · rw [if_neg hother, List.mem_cons]

theorem mem_track_toolResult (other : String) :
    id ∈ track tools (.toolResult other) ↔ id ∈ tools ∧ id ≠ other := by
  simp [track]

theorem mem_filterMap_call? : id ∈ events.filterMap StreamEvent.call? ↔ .toolCall id ∈ events := by
  rw [List.mem_filterMap]
  constructor
  · rintro ⟨event, hevent, hcall⟩
    cases event with
    | toolCall other =>
        cases hcall
        exact hevent
    | _ => cases hcall
  · exact fun h => ⟨_, h, rfl⟩

/-- A tracked call was open before and got no result, or is left open. -/
theorem mem_foldl_track :
    id ∈ events.foldl track tools ↔
      (id ∈ tools ∧ StreamEvent.toolResult id ∉ events) ∨
        ∃ pre post, events = pre ++ StreamEvent.toolCall id :: post ∧
          StreamEvent.toolResult id ∉ post := by
  induction events generalizing tools with
  | nil => simp
  | cons event events ih =>
      rw [List.foldl_cons, ih]
      constructor
      · rintro (⟨hid, hresult⟩ | ⟨pre, post, rfl, hpost⟩)
        · cases event with
          | toolCall other =>
              obtain rfl | hid := (mem_track_toolCall other).mp hid
              · exact .inr ⟨[], events, rfl, hresult⟩
              · exact .inl ⟨hid, by simpa using hresult⟩
          | toolResult other =>
              obtain ⟨hid, hne⟩ := (mem_track_toolResult other).mp hid
              exact .inl ⟨hid, by simpa [hne] using hresult⟩
          | textDelta _ | other => exact .inl ⟨hid, by simpa using hresult⟩
        · exact .inr ⟨event :: pre, post, rfl, hpost⟩
      · rintro (⟨hid, hresult⟩ | ⟨pre, post, heq, hpost⟩)
        · rw [List.mem_cons, not_or] at hresult
          obtain ⟨hne, hrest⟩ := hresult
          refine .inl ⟨?_, hrest⟩
          cases event with
          | toolCall other => exact (mem_track_toolCall other).mpr (.inr hid)
          | toolResult other =>
              refine (mem_track_toolResult other).mpr ⟨hid, ?_⟩
              rintro rfl
              exact hne rfl
          | textDelta _ | other => exact hid
        · obtain ⟨rfl, hevents⟩ | ⟨pre, rfl, rfl⟩ := List.cons_eq_append_iff.mp heq
          · cases hevents
            exact .inl ⟨(mem_track_toolCall id).mpr (.inl rfl), hpost⟩
          · exact .inr ⟨pre, post, rfl, hpost⟩

theorem mem_leftOpen :
    id ∈ leftOpen events ↔
      ∃ pre post, events = pre ++ StreamEvent.toolCall id :: post ∧
        StreamEvent.toolResult id ∉ post := by
  rw [leftOpen, mem_foldl_track]
  simp

theorem mem_foldl_track_iff :
    id ∈ events.foldl track tools ↔
      (id ∈ tools ∧ .toolResult id ∉ events) ∨ id ∈ leftOpen events := by
  rw [mem_foldl_track, mem_leftOpen]

theorem HadResult.mem (h : HadResult id events) :
    .toolCall id ∈ events ∧ .toolResult id ∈ events :=
  ⟨h.subset (by simp), h.subset (by simp)⟩

theorem hadResult_append :
    HadResult id (before ++ events) ↔
      HadResult id before ∨ (.toolCall id ∈ before ∧ .toolResult id ∈ events) ∨
        HadResult id events := by
  unfold HadResult
  constructor
  · intro h
    obtain ⟨first, second, heq, hfirst, hsecond⟩ := List.sublist_append_iff.mp h
    obtain ⟨rfl, rfl⟩ | ⟨tail, rfl, htail⟩ := List.cons_eq_append_iff.mp heq
    · exact .inr (.inr hsecond)
    · obtain ⟨rfl, rfl⟩ | ⟨rest, rfl, hrest⟩ := List.cons_eq_append_iff.mp htail
      · exact .inr (.inl ⟨List.singleton_sublist.mp hfirst, List.singleton_sublist.mp hsecond⟩)
      · obtain ⟨rfl, rfl⟩ := List.nil_eq_append_iff.mp hrest
        exact .inl hfirst
  · rintro (h | ⟨hcall, hresult⟩ | h)
    · exact h.trans (List.sublist_append_left _ _)
    · exact (List.singleton_sublist.mpr hcall).append (List.singleton_sublist.mpr hresult)
    · exact h.trans (List.sublist_append_right _ _)

theorem mem_leftOpen_or_hadResult (h : .toolCall id ∈ events) :
    id ∈ leftOpen events ∨ HadResult id events := by
  obtain ⟨pre, post, rfl⟩ := List.append_of_mem h
  by_cases hresult : .toolResult id ∈ post
  · refine .inr (hadResult_append.mpr (.inr (.inr ?_)))
    exact (List.singleton_sublist.mpr hresult).cons_cons _
  · exact .inl (mem_leftOpen.mpr ⟨pre, post, rfl, hresult⟩)

end History

/-! ## A set that keeps up with the history -/

section Sets

/-- The set holds the calls that have no result; all of them, in a live turn. -/
structure KeepsUp (tools : List String) (events : List StreamEvent) (live : Bool) : Prop where
  unsettled : ∀ id ∈ tools, .toolCall id ∈ events ∧ ¬HadResult id events
  complete : live = true → ∀ id, .toolCall id ∈ events → id ∈ tools ∨ HadResult id events

/-- Events that are not tracked change nothing that the set says. -/
def Unnoticed (tools : List String) (before events : List StreamEvent) (live : Bool) : Prop :=
  (∀ id ∈ tools, .toolResult id ∉ events) ∧
    (live = true → ∀ id ∈ events.filterMap StreamEvent.call?,
      id ∈ tools ∨ HadResult id (before ++ events))

variable {tools : List String} {before events : List StreamEvent} {live : Bool}

theorem KeepsUp.fresh : KeepsUp [] [] live := ⟨nofun, nofun⟩

theorem KeepsUp.weaken {live' : Bool} (h : KeepsUp tools events live)
    (hle : live' = true → live = true) :
    KeepsUp tools events live' :=
  ⟨h.unsettled, fun hlive => h.complete (hle hlive)⟩

theorem not_hadResult_append {id : String} (hbefore : ¬HadResult id before)
    (hresult : .toolResult id ∉ events) : ¬HadResult id (before ++ events) := by
  intro h
  obtain h | ⟨-, h⟩ | h := hadResult_append.mp h
  · exact hbefore h
  · exact hresult h
  · exact hresult h.mem.2

theorem KeepsUp.unnoticed (h : KeepsUp tools before live)
    (hevents : Unnoticed tools before events live) : KeepsUp tools (before ++ events) live where
  unsettled id hid :=
    ⟨List.mem_append_left _ (h.unsettled id hid).1,
      not_hadResult_append (h.unsettled id hid).2 (hevents.1 id hid)⟩
  complete hlive id hcall := by
    obtain hcall | hcall := List.mem_append.mp hcall
    · exact (h.complete hlive id hcall).imp_right fun hhad => hadResult_append.mpr (.inl hhad)
    · exact hevents.2 hlive id (mem_filterMap_call?.mpr hcall)

theorem KeepsUp.track (h : KeepsUp tools before live)
    (hfresh : ∀ id ∈ leftOpen events, ¬HadResult id (before ++ events)) :
    KeepsUp (events.foldl track tools) (before ++ events) live where
  unsettled id hid := by
    obtain ⟨hid, hresult⟩ | hid := mem_foldl_track_iff.mp hid
    · obtain ⟨hcall, hopen⟩ := h.unsettled id hid
      exact ⟨List.mem_append_left _ hcall, not_hadResult_append hopen hresult⟩
    · obtain ⟨pre, post, hevents, -⟩ := mem_leftOpen.mp hid
      exact ⟨by simp [hevents], hfresh id hid⟩
  complete hlive id hcall := by
    rw [mem_foldl_track_iff]
    obtain hcall | hcall := List.mem_append.mp hcall
    · obtain hid | hhad := h.complete hlive id hcall
      · by_cases hresult : .toolResult id ∈ events
        · exact .inr (hadResult_append.mpr (.inr (.inl ⟨hcall, hresult⟩)))
        · exact .inl (.inl ⟨hid, hresult⟩)
      · exact .inr (hadResult_append.mpr (.inl hhad))
    · obtain hid | hhad := mem_leftOpen_or_hadResult hcall
      · exact .inl (.inr hid)
      · exact .inr (hadResult_append.mpr (.inr (.inr hhad)))

end Sets

/-! ## The view of a session -/

def Record.follow (events : List StreamEvent) : Record → List StreamEvent
  | .prompt _ => []
  | .event (.stream streamed) => events ++ [streamed]
  | .event _ => events

def turnEvents (log : List Record) : List StreamEvent := log.foldl Record.follow []

theorem turnEvents_concat (log : List Record) (record : Record) :
    turnEvents (log ++ [record]) = record.follow (turnEvents log) := by
  simp [turnEvents]

theorem turnEvents_stream (log : List Record) (events : List StreamEvent) :
    turnEvents (log ++ events.map fun event => Record.event (.stream event)) =
      turnEvents log ++ events := by
  induction events generalizing log with
  | nil => simp
  | cons event events ih =>
      have happ := ih (log ++ [Record.event (.stream event)])
      rw [turnEvents_concat, List.append_assoc] at happ
      simpa [Record.follow] using happ

structure ToolView where
  openTools : List String
  events : List StreamEvent
  live : Bool
  questions : Nat

def Session.toolView (s : Session) : ToolView where
  openTools := s.openTools
  events := turnEvents s.log
  live := s.turn.isSome
  questions := s.openQuestions

def Incoming.events : Incoming → List StreamEvent
  | .update _ events | .notification events | .request _ events => events
  | .turnEnded _ => []

def Incoming.asks : Incoming → Bool
  | .request asks _ => asks
  | _ => false

namespace ToolView

variable (v : ToolView)

def seen (events : List StreamEvent) : ToolView :=
  { v with openTools := events.foldl track v.openTools, events := v.events ++ events }

/-- The events and the questions of messages, past the set. -/
def unseen (messages : List Incoming) : ToolView :=
  { v with
    events := v.events ++ messages.flatMap Incoming.events
    questions := v.questions + messages.countP Incoming.asks }

/-- The session goes on as it is, perhaps with its turn ended, or a new turn has begun. -/
def Settles (v' : ToolView) : Prop :=
  v'.questions = v.questions ∧
    ((v'.openTools = v.openTools ∧ v'.events = v.events ∧ (v'.live = true → v.live = true)) ∨
      (v'.openTools = [] ∧ v'.events = []))

variable {v}

theorem Settles.of_eq {v' : ToolView} (h : v' = v) : v.Settles v' := by
  rw [h]
  exact ⟨rfl, .inl ⟨rfl, rfl, id⟩⟩

theorem Settles.over {v' : ToolView} (h : { v with live := false }.Settles v') : v.Settles v' := by
  obtain ⟨hquestions, ⟨htools, hevents, hlive⟩ | hfresh⟩ := h
  · exact ⟨hquestions, .inl ⟨htools, hevents, fun h => absurd (hlive h) nofun⟩⟩
  · exact ⟨hquestions, .inr hfresh⟩

theorem Settles.trans {v' v'' : ToolView} (h : v.Settles v') (h' : v'.Settles v'') :
    v.Settles v'' := by
  obtain ⟨hquestions, hcase⟩ := h
  obtain ⟨hquestions', hcase'⟩ := h'
  refine ⟨hquestions'.trans hquestions, ?_⟩
  obtain ⟨htools', hevents', hlive'⟩ | hfresh' := hcase'
  · obtain ⟨htools, hevents, hlive⟩ | hfresh := hcase
    · exact .inl ⟨htools'.trans htools, hevents'.trans hevents, hlive ∘ hlive'⟩
    · exact .inr ⟨htools'.trans hfresh.1, hevents'.trans hfresh.2⟩
  · exact .inr hfresh'

end ToolView

namespace Session

variable (s : Session)

theorem toolView_sendSteered : s.sendSteered.toolView = s.toolView := by
  simp [toolView, sendSteered, turnEvents_concat, Record.follow]

theorem toolView_completeMessage : s.completeMessage.toolView = s.toolView := by
  simp [toolView, completeMessage, turnEvents_concat, Record.follow]

theorem toolView_sendDone (status : DoneStatus) :
    (s.send (.done status)).toolView = s.toolView := by
  simp [toolView, send, turnEvents_concat, Record.follow]

theorem toolView_sendUsage (res : PromptResult) : (s.sendUsage res).toolView = s.toolView := by
  unfold sendUsage
  split
  · simp [toolView, send, turnEvents_concat, Record.follow]
  · rfl

theorem toolView_endTurn (res : PromptResult) : (s.endTurn res).toolView = s.toolView := by
  simp [toolView, endTurn, turnEvents_concat, Record.follow]

theorem toolView_leave (exit : Exit) : (s.leave exit).toolView = s.toolView := by
  simp only [leave]
  split_ifs
  · rfl
  · exact toolView_sendDone _ _
  · exact toolView_sendDone _ _
  · rfl

theorem toolView_settleCall (answer : Option SteeringResult) :
    (s.settleCall answer).toolView = s.toolView := by
  simp only [settleCall]
  split
  · rfl
  · split_ifs
    · rfl
    · exact toolView_sendSteered s
    · rfl

theorem toolView_sendAll (events : List StreamEvent) :
    (s.sendAll events).toolView = { s.toolView with events := s.toolView.events ++ events } := by
  simp [toolView, sendAll, turnEvents_stream]

theorem toolView_stream (events : List StreamEvent) :
    (s.stream events).toolView = s.toolView.seen events := by
  induction events generalizing s with
  | nil => simp [stream, ToolView.seen]
  | cons event events ih =>
      have hone : ((s.trackTurnSignals event).send (.stream event)).toolView =
          s.toolView.seen [event] := by
        simp only [toolView, ToolView.seen, send, turnEvents_concat, Record.follow]
        cases event with
        | textDelta text =>
            rw [trackTurnSignals]
            split_ifs <;> rfl
        | _ => rfl
      rw [stream, ih, hone]
      simp [ToolView.seen]

theorem toolView_drain (drained : List Incoming) :
    (s.drain drained).toolView = s.toolView.unseen drained := by
  induction drained generalizing s with
  | nil => simp [drain, ToolView.unseen]
  | cons inc drained ih =>
      cases inc with
      | update cost events | notification events =>
          rw [drain, ih, toolView_sendAll]
          simp [ToolView.unseen, Incoming.events, Incoming.asks]
      | turnEnded mine =>
          rw [drain, ih]
          simp [ToolView.unseen, Incoming.events, Incoming.asks]
      | request asks events =>
          rw [drain, ih, toolView_sendAll]
          cases asks with
          | true =>
              simp [ToolView.unseen, Incoming.events, Incoming.asks, ask, toolView, List.countP_cons,
                Nat.add_right_comm, Nat.add_assoc]
          | false => simp [ToolView.unseen, Incoming.events, Incoming.asks, ask]

theorem settles_promptSteer (text : String) : s.toolView.Settles (s.promptSteer text).toolView := by
  exact ⟨rfl, .inr ⟨rfl, turnEvents_concat s.sendSteered.log (.prompt text)⟩⟩

theorem settles_promptQueued : s.toolView.Settles s.promptQueued.toolView := by
  unfold promptQueued
  split
  · exact settles_promptSteer _ _
  · split_ifs
    · exact .of_eq rfl
    · exact .of_eq (toolView_leave _ _)

theorem toolView_closeTurn (res : PromptResult) (answer : Option SteeringResult)
    (drained : List Incoming) :
    (s.closeTurn res answer drained).toolView =
      { s.toolView with live := false }.unseen drained := by
  simp only [closeTurn]
  rw [toolView_endTurn, toolView_sendUsage, toolView_completeMessage, toolView_drain,
    toolView_settleCall]
  rfl

theorem settles_settleTurn (res : PromptResult) (answer : Option SteeringResult)
    (drained : List Incoming) :
    ({ s.toolView with live := false }.unseen drained).Settles
      (s.settleTurn res answer drained).toolView := by
  rw [← toolView_closeTurn s res answer drained]
  simp only [settleTurn]
  split_ifs
  · exact .of_eq (toolView_leave _ _)
  · exact settles_promptQueued _

/-- The response is an injection into the live turn, so the queue is drained. -/
def injects (res : SteeringResult) : Bool :=
  !s.interrupted && res.outcome ≠ "promptRequired" && s.turn.isSome

theorem settles_nextFollower : s.toolView.Settles s.nextFollower.toolView := by
  unfold nextFollower
  split
  · exact .of_eq rfl
  · split_ifs <;> exact .of_eq rfl

theorem answerCall_injects {res : SteeringResult} (h : s.injects res = true) (text : String)
    (drained : List Incoming) :
    s.answerCall text res drained =
      (drain { s with
        steeringCall := none
        delivered := s.delivered ++ [text]
        steeredThisTurn := true
        starveDeadline := none } drained).sendSteered := by
  simp only [injects, Bool.and_eq_true, Bool.not_eq_true', decide_eq_true_eq] at h
  obtain ⟨⟨hint, houtcome⟩, hturn⟩ := h
  simp [answerCall, hint, houtcome, hturn]

theorem settles_answerCall (text : String) (res : SteeringResult) (drained : List Incoming) :
    (if s.injects res then s.toolView.unseen drained else s.toolView).Settles
      (s.answerCall text res drained).toolView := by
  by_cases hinjects : s.injects res = true
  · rw [if_pos hinjects, answerCall_injects s hinjects, toolView_sendSteered, toolView_drain]
    exact .of_eq rfl
  · rw [if_neg hinjects]
    simp only [answerCall]
    split_ifs with hint houtcome hturn
    · exact .of_eq rfl
    · refine absurd ?_ hinjects
      simp [injects, hint, houtcome, hturn]
    · exact .of_eq rfl
    · exact .of_eq rfl
    · exact .of_eq rfl
    · exact settles_promptSteer { s with steeringCall := none } text

theorem settles_eof (response : Option PromptResult) :
    s.toolView.Settles (s.eof response).toolView := by
  apply ToolView.Settles.over
  unfold eof
  split
  · refine .of_eq ?_
    rw [toolView_leave, toolView_endTurn, toolView_sendUsage, toolView_completeMessage]
    rfl
  · exact .of_eq (toolView_leave _ _)

theorem settles_flush : s.toolView.Settles s.flush.toolView := by
  simp only [flush]
  split_ifs
  · exact settles_promptQueued { s with cancelFlushDeadline := none }
  · exact .of_eq rfl

theorem settles_recover : s.toolView.Settles s.recover.toolView := by
  apply ToolView.Settles.over
  have hdone := settles_promptQueued
    (send { completeMessage { s with starveDeadline := none, turn := none } with
      doneCurrent := true } (.done .completed))
  rw [toolView_sendDone] at hdone
  have hcomplete := toolView_completeMessage { s with starveDeadline := none, turn := none }
  exact (ToolView.Settles.of_eq hcomplete).trans hdone

theorem settles_steer (spec : Spec) (prompt : String) :
    s.toolView.Settles (s.steer spec prompt).toolView := by
  simp only [steer]
  split_ifs
  · exact .of_eq rfl
  · exact .of_eq rfl
  · exact settles_promptSteer { s with taken := s.taken ++ [spec.promptTransform prompt] } _
  · exact .of_eq rfl
  · exact .of_eq rfl
  · exact .of_eq rfl

theorem settles_closeMailbox : s.toolView.Settles s.closeMailbox.toolView := by
  simp only [closeMailbox]
  split_ifs
  · exact .of_eq (toolView_leave _ _)
  · exact .of_eq rfl

theorem settles_interrupt : s.toolView.Settles s.interrupt.toolView := by
  simp only [interrupt]
  split_ifs
  · exact .of_eq rfl
  · exact .of_eq (toolView_leave _ _)

/-- The messages whose events a branch sends past the set. -/
def drains : Action → List Incoming
  | .promptResponse _ _ drained => drained
  | .steeringResponse res drained => if s.injects res then drained else []
  | .incoming (.request asks events) => [.request asks events]
  | _ => []

/-- The view after what a branch takes, before it prompts or leaves. -/
def take (a : Action) : ToolView :=
  match a with
  | .incoming (.update _ events) | .incoming (.notification events) => s.toolView.seen events
  | .answer => { s.toolView with questions := s.openQuestions - 1 }
  | .promptResponse _ _ drained => { s.toolView with live := false }.unseen drained
  | _ => s.toolView.unseen (s.drains a)

end Session

theorem ToolView.unseen_nil (v : ToolView) : v.unseen [] = v := by
  simp [ToolView.unseen]

theorem Session.toolView_receive (spec : Spec) (s : Session) (inc : Incoming) :
    (s.receive spec inc).toolView = s.take (.incoming inc) := by
  cases inc with
  | update turnEndCost events =>
      simp only [receive]
      split_ifs <;> exact toolView_stream _ events
  | notification events => exact toolView_stream _ events
  | turnEnded mine =>
      simp only [receive]
      split_ifs
      · exact (toolView_sendDone _ _).trans (ToolView.unseen_nil _).symm
      · exact (ToolView.unseen_nil _).symm
  | request asks events =>
      simp only [receive]
      rw [toolView_sendAll]
      cases asks <;> simp [take, drains, ToolView.unseen, Incoming.events, Incoming.asks, ask, toolView]

/-- What any branch does to the view. -/
theorem Session.settles_branch {spec : Spec} {s s' : Session} {a : Action}
    (h : s.branch spec a = some s') : (s.take a).Settles s'.toolView := by
  have hnil (v : ToolView) (hv : s.toolView.Settles v) : (s.toolView.unseen []).Settles v := by
    rwa [ToolView.unseen_nil]
  cases a with
  | tick ms =>
      cases h
      exact .of_eq (ToolView.unseen_nil _).symm
  | answer =>
      simp only [branch] at h
      split_ifs at h
      cases h
      exact .of_eq rfl
  | promptResponse res answer drained =>
      simp only [branch] at h
      split_ifs at h
      cases h
      exact settles_settleTurn s res answer drained
  | incoming inc =>
      cases h
      exact .of_eq (toolView_receive spec s inc)
  | eof response =>
      cases h
      exact hnil _ (settles_eof s response)
  | steeringResponse res drained =>
      obtain ⟨text, -, rfl⟩ := Option.map_eq_some_iff.mp h
      refine ToolView.Settles.trans ?_ (settles_nextFollower _)
      have hanswer := settles_answerCall s text res drained
      by_cases hinjects : s.injects res = true
      · rw [if_pos hinjects] at hanswer
        simpa [take, drains, hinjects] using hanswer
      · rw [if_neg hinjects] at hanswer
        simpa [take, drains, hinjects, ToolView.unseen_nil] using hanswer
  | cancelFlush =>
      simp only [branch] at h
      split_ifs at h
      cases h
      exact hnil _ (settles_flush s)
  | quietSettle =>
      simp only [branch] at h
      split_ifs at h
      cases h
      exact .of_eq (ToolView.unseen_nil _).symm
  | recovery =>
      simp only [branch] at h
      split_ifs at h
      cases h
      exact hnil _ (settles_recover s)
  | steer prompt =>
      simp only [branch] at h
      split_ifs at h
      cases h
      exact hnil _ (settles_steer s spec prompt)
  | mailboxClosed =>
      simp only [branch] at h
      split_ifs at h
      cases h
      exact hnil _ (settles_closeMailbox s)
  | interrupt =>
      simp only [branch] at h
      split_ifs at h
      cases h
      exact hnil _ (settles_interrupt s)
  | hangUp =>
      cases h
      exact .of_eq ((toolView_leave _ _).trans (ToolView.unseen_nil _).symm)

/-! ## The deadline -/

namespace Session

variable (s : Session)

theorem starveDeadline_drain (drained : List Incoming) :
    (s.drain drained).starveDeadline = s.starveDeadline := by
  induction drained generalizing s with
  | nil => rfl
  | cons inc drained ih =>
      cases inc with
      | request asks events =>
          rw [drain, ih]
          cases asks <;> rfl
      | _ =>
          rw [drain, ih]
          try rfl

theorem starveDeadline_leave (exit : Exit) :
    (s.leave exit).starveDeadline = s.starveDeadline := by
  simp only [leave]
  split_ifs <;> rfl

theorem starveDeadline_promptQueued : s.promptQueued.starveDeadline = s.starveDeadline := by
  unfold promptQueued
  split
  · rfl
  · split_ifs
    · rfl
    · exact starveDeadline_leave _ _

theorem starveDeadline_settleCall (answer : Option SteeringResult) :
    (s.settleCall answer).starveDeadline = s.starveDeadline := by
  simp only [settleCall]
  split
  · rfl
  · split_ifs <;> rfl

theorem starveDeadline_sendUsage (res : PromptResult) :
    (s.sendUsage res).starveDeadline = s.starveDeadline := by
  unfold sendUsage
  split <;> rfl

theorem starveDeadline_settleTurn (res : PromptResult) (answer : Option SteeringResult)
    (drained : List Incoming) : (s.settleTurn res answer drained).starveDeadline = none := by
  have hclose : (s.closeTurn res answer drained).starveDeadline = none := by
    simp only [closeTurn]
    change (sendUsage (completeMessage _) res).starveDeadline = none
    rw [starveDeadline_sendUsage]
    change (drain _ drained).starveDeadline = none
    rw [starveDeadline_drain, starveDeadline_settleCall]
  simp only [settleTurn]
  split_ifs
  · rw [starveDeadline_leave, hclose]
  · rw [starveDeadline_promptQueued, hclose]

theorem starveDeadline_nextFollower : s.nextFollower.starveDeadline = s.starveDeadline := by
  unfold nextFollower
  split
  · rfl
  · split_ifs <;> rfl

theorem starveDeadline_injects {res : SteeringResult} (h : s.injects res = true) (text : String)
    (drained : List Incoming) : (s.steeringAnswered text res drained).starveDeadline = none := by
  rw [steeringAnswered, starveDeadline_nextFollower, answerCall_injects s h]
  change (drain _ drained).starveDeadline = none
  rw [starveDeadline_drain]

end Session

/-! ## The watcher -/

structure Watch where
  session : Session
  /-- The armed deadline is that of the quiet settle. -/
  quiet : Bool
  asked : Nat
  answered : Nat

namespace Watch

variable (w : Watch)

def after (a : Action) (s : Session) : Watch where
  session := s
  quiet :=
    match a with
    | .quietSettle => true
    | _ => w.quiet && s.starveDeadline = w.session.starveDeadline
  asked := w.asked + (w.session.drains a).countP Incoming.asks
  answered := if a = .answer then w.answered + 1 else w.answered

/-- Every tool call announced since the last prompt has had its result. -/
def ToolsDone : Prop :=
  ∀ id, .toolCall id ∈ turnEvents w.session.log → HadResult id (turnEvents w.session.log)

end Watch

def watched (spec : Spec) : Machine Watch Action where
  init := fun w => (machine spec).init w.session ∧ w.quiet = false ∧ w.asked = 0 ∧ w.answered = 0
  step := fun w a => ((machine spec).step w.session a).map (w.after a)

theorem reachable_iff_watched {spec : Spec} {s : Session} :
    (machine spec).Reachable s ↔ ∃ w, (watched spec).Reachable w ∧ w.session = s := by
  constructor
  · intro h
    refine h.invariant (I := fun s => ∃ w, (watched spec).Reachable w ∧ w.session = s) ?_ ?_
    · intro s hs
      exact ⟨⟨s, false, 0, 0⟩, ⟨_, ⟨hs, rfl, rfl, rfl⟩, .refl _⟩, rfl⟩
    · rintro _ a s' ⟨w, hw, rfl⟩ - hstep
      have hwatched : (watched spec).step w a = some (w.after a s') :=
        Option.map_eq_some_iff.mpr ⟨s', hstep, rfl⟩
      exact ⟨w.after a s', hw.steps (.head trivial hwatched (.refl _)), rfl⟩
  · rintro ⟨w, h, rfl⟩
    refine h.invariant (I := fun w => (machine spec).Reachable w.session) ?_ ?_
    · intro w hw
      exact ⟨_, hw.1, .refl _⟩
    · intro w a w' hw _ hstep
      obtain ⟨s', hs', rfl⟩ := Option.map_eq_some_iff.mp hstep
      exact hw.steps (.head trivial hs' (.refl _))

/-- What is sent past the set changes nothing that it says, no call is left open once more after its
result, and while a quiet turn waits to be settled nothing is opened or asked. -/
def Noticed (w : Watch) : Action → Prop
  | .incoming (.update _ events) | .incoming (.notification events) =>
      (∀ id ∈ leftOpen events, ¬HadResult id (turnEvents w.session.log ++ events)) ∧
        (w.quiet = true → leftOpen events = [])
  | .incoming (.request asks events) =>
      Unnoticed w.session.openTools (turnEvents w.session.log) events w.session.turn.isSome ∧
        (w.quiet = true → asks = false)
  | .promptResponse _ _ drained =>
      Unnoticed w.session.openTools (turnEvents w.session.log) (drained.flatMap Incoming.events)
        false
  | .steeringResponse res drained =>
      w.session.injects res = true →
        Unnoticed w.session.openTools (turnEvents w.session.log)
          (drained.flatMap Incoming.events) true
  | _ => True

/-- The set keeps up with the turn, and an armed quiet settle still stands on what it saw. -/
structure Watch.Inv (w : Watch) : Prop where
  keepsUp : KeepsUp w.session.openTools (turnEvents w.session.log) w.session.turn.isSome
  counted : w.session.openQuestions + w.answered = w.asked
  calm : w.quiet = true → w.session.starveDeadline ≠ none ∧ w.session.openTools = [] ∧
    w.session.openQuestions = 0

section Steps

variable {spec : Spec} {w : Watch} {a : Action} {s' : Session}

theorem KeepsUp.settles {v v' : ToolView} (h : KeepsUp v.openTools v.events v.live)
    (hsettles : v.Settles v') : KeepsUp v'.openTools v'.events v'.live := by
  obtain ⟨-, ⟨htools, hevents, hlive⟩ | ⟨htools, hevents⟩⟩ := hsettles
  · rw [htools, hevents]
    exact h.weaken hlive
  · rw [htools, hevents]
    exact KeepsUp.fresh

theorem keepsUp_take
    (h : KeepsUp w.session.openTools (turnEvents w.session.log) w.session.turn.isSome)
    (hnoticed : Noticed w a) :
    KeepsUp (w.session.take a).openTools (w.session.take a).events (w.session.take a).live := by
  have hidle : KeepsUp (w.session.toolView.unseen []).openTools
      (w.session.toolView.unseen []).events w.session.turn.isSome := by
    rw [ToolView.unseen_nil]
    exact h
  cases a with
  | incoming inc =>
      cases inc with
      | update _ events | notification events => exact h.track hnoticed.1
      | turnEnded _ => exact hidle
      | request asks events =>
          change KeepsUp w.session.openTools
            (turnEvents w.session.log ++ [.request asks events].flatMap Incoming.events) _
          rw [List.flatMap_singleton]
          exact h.unnoticed hnoticed.1
  | promptResponse _ _ drained =>
      have hover : KeepsUp w.session.openTools (turnEvents w.session.log) false := h.weaken nofun
      exact hover.unnoticed hnoticed
  | answer => exact h
  | steeringResponse res drained =>
      by_cases hinjects : w.session.injects res = true
      · have hlive : w.session.turn.isSome = true := by
          unfold Session.injects at hinjects
          exact (Bool.and_eq_true_iff.mp hinjects).2
        have htake : w.session.take (.steeringResponse res drained) =
            w.session.toolView.unseen drained := by simp [Session.take, Session.drains, hinjects]
        have hunnoticed := hnoticed hinjects
        rw [← hlive] at hunnoticed
        rw [htake]
        exact h.unnoticed hunnoticed
      · have htake : w.session.take (.steeringResponse res drained) =
            w.session.toolView.unseen [] := by simp [Session.take, Session.drains, hinjects]
        rw [htake]
        exact hidle
  | _ => exact hidle

theorem questions_take (hanswer : a ≠ .answer) :
    (w.session.take a).questions =
      w.session.openQuestions + (w.session.drains a).countP Incoming.asks := by
  cases a with
  | answer => exact absurd rfl hanswer
  | incoming inc => cases inc <;> rfl
  | _ => rfl

theorem counted_after (h : w.session.openQuestions + w.answered = w.asked)
    (hstep : w.session.branch spec a = some s') :
    s'.openQuestions + (w.after a s').answered = (w.after a s').asked := by
  have hquestions : s'.openQuestions = (w.session.take a).questions :=
    (Session.settles_branch hstep).1
  by_cases hanswer : a = .answer
  · subst hanswer
    have hpos : 0 < w.session.openQuestions := by
      simp only [Session.branch] at hstep
      split_ifs at hstep with hpos
      exact hpos
    have htake : (w.session.take .answer).questions = w.session.openQuestions - 1 := rfl
    change s'.openQuestions + (w.answered + 1) = w.asked + 0
    omega
  · rw [questions_take hanswer] at hquestions
    simp only [Watch.after, if_neg hanswer]
    omega

/-- While a quiet turn waits to be settled, no step that keeps its deadline opens or asks anything. -/
theorem calm_take (htools : w.session.openTools = []) (hasked : w.session.openQuestions = 0)
    (hquiet : w.quiet = true) (hdeadline : w.session.starveDeadline ≠ none)
    (hnoticed : Noticed w a) (hstep : w.session.branch spec a = some s')
    (hkept : s'.starveDeadline = w.session.starveDeadline) :
    (w.session.take a).openTools = [] ∧ (w.session.take a).questions = 0 := by
  cases a with
  | incoming inc =>
      cases inc with
      | update _ events | notification events =>
          refine ⟨?_, hasked⟩
          change events.foldl track w.session.openTools = []
          rw [htools]
          exact hnoticed.2 hquiet
      | turnEnded _ => exact ⟨htools, hasked⟩
      | request asks events =>
          have hasks := hnoticed.2 hquiet
          subst hasks
          exact ⟨htools, hasked⟩
  | promptResponse res answer drained =>
      simp only [Session.branch] at hstep
      split_ifs at hstep
      cases hstep
      rw [Session.starveDeadline_settleTurn] at hkept
      exact absurd hkept.symm hdeadline
  | steeringResponse res drained =>
      by_cases hinjects : w.session.injects res = true
      · obtain ⟨text, -, rfl⟩ := Option.map_eq_some_iff.mp hstep
        rw [Session.starveDeadline_injects _ hinjects] at hkept
        exact absurd hkept.symm hdeadline
      · simpa [Session.take, Session.drains, hinjects, ToolView.unseen_nil] using ⟨htools, hasked⟩
  | answer =>
      refine ⟨htools, ?_⟩
      change w.session.openQuestions - 1 = 0
      rw [hasked]
  | _ => exact ⟨htools, hasked⟩

theorem Watch.Inv.after (h : w.Inv) (hnoticed : Noticed w a)
    (hstep : w.session.branch spec a = some s') : (w.after a s').Inv := by
  have hsettles := Session.settles_branch hstep
  refine ⟨(keepsUp_take h.keepsUp hnoticed).settles hsettles, counted_after h.counted hstep,
    fun hquiet => ?_⟩
  by_cases hsettle : a = .quietSettle
  · subst hsettle
    simp only [Session.branch] at hstep
    split_ifs at hstep with hdue
    cases hstep
    simp only [Session.quietDue, Bool.and_eq_true, decide_eq_true_eq, List.isEmpty_iff] at hdue
    exact ⟨nofun, hdue.1.2, hdue.2⟩
  · have hkept : w.quiet = true ∧ s'.starveDeadline = w.session.starveDeadline := by
      cases a with
      | quietSettle => exact absurd rfl hsettle
      | _ => simpa [Watch.after] using hquiet
    obtain ⟨hdeadline, htools, hasked⟩ := h.calm hkept.1
    obtain ⟨htools', hasked'⟩ :=
      calm_take htools hasked hkept.1 hdeadline hnoticed hstep hkept.2
    refine ⟨fun hnone => hdeadline (hkept.2.symm.trans hnone), ?_, hsettles.1.trans hasked'⟩
    obtain ⟨hsame, -⟩ | ⟨hfresh, -⟩ := hsettles.2
    · exact hsame.trans htools'
    · exact hfresh

end Steps

theorem inv_of_reachable {spec : Spec} {w : Watch} (h : (watched spec).ReachableWhen Noticed w) :
    w.Inv := by
  refine h.invariant (I := Watch.Inv) ?_ ?_
  · rintro ⟨s, quiet, asked, answered⟩ ⟨⟨prompt, rfl⟩, rfl, rfl, rfl⟩
    exact ⟨⟨nofun, nofun⟩, rfl, nofun⟩
  · intro w a w' hinv hnoticed hstep
    obtain ⟨s', hs', rfl⟩ := Option.map_eq_some_iff.mp hstep
    simp only [machine] at hs'
    split_ifs at hs'
    exact hinv.after hnoticed hs'

/-- **Quiet settles.** While every event that goes past the set leaves it right, a turn that is settled
as quiet has no tool call without a result and no question without an answer, and the set is empty
when every call of the turn has had its result. -/
theorem quiet_settle_tools_done (spec : Spec) {w : Watch}
    (h : (watched spec).ReachableWhen Noticed w) :
    (∀ w', w.quiet = true → (watched spec).step w .recovery = some w' →
      w.ToolsDone ∧ w.answered = w.asked) ∧
      (w.ToolsDone → w.session.openTools = []) := by
  have hinv := inv_of_reachable h
  constructor
  · intro w' hquiet hstep
    obtain ⟨-, htools, hasked⟩ := hinv.calm hquiet
    have hlive : w.session.turn.isSome = true := by
      obtain ⟨s', hs', -⟩ := Option.map_eq_some_iff.mp hstep
      simp only [machine, Session.branch] at hs'
      split_ifs at hs' with hexit hdue
      simp only [Bool.and_eq_true] at hdue
      exact hdue.1.2
    constructor
    · intro id hcall
      obtain hid | hhad := hinv.keepsUp.complete hlive id hcall
      · rw [htools] at hid
        cases hid
      · exact hhad
    · have hcounted := hinv.counted
      omega
  · intro hdone
    rw [List.eq_nil_iff_forall_not_mem]
    intro id hid
    obtain ⟨hcall, hopen⟩ := hinv.keepsUp.unsettled id hid
    exact hopen (hdone id hcall)

instance (tools : List String) (before events : List StreamEvent) (live : Bool) :
    Decidable (Unnoticed tools before events live) :=
  inferInstanceAs (Decidable (_ ∧ _))

instance (w : Watch) : (a : Action) → Decidable (Noticed w a)
  | .incoming (.update _ _) | .incoming (.notification _) | .incoming (.request _ _) =>
      inferInstanceAs (Decidable (_ ∧ _))
  | .promptResponse _ _ _ => inferInstanceAs (Decidable (Unnoticed _ _ _ _))
  | .steeringResponse _ _ => inferInstanceAs (Decidable (_ → _))
  | .incoming (.turnEnded _) | .tick _ | .answer | .eof _ | .cancelFlush | .quietSettle | .recovery
  | .steer _ | .mailboxClosed | .interrupt | .hangUp => .isTrue trivial

theorem toolsDone_of_events {w : Watch} (id : String)
    (h : turnEvents w.session.log = [.textDelta "x", .toolCall id, .toolResult id]) :
    w.ToolsDone := by
  intro other hcall
  rw [h] at hcall ⊢
  obtain rfl : other = id := by simpa using hcall
  exact .cons _ (.refl _)

/-- A steered turn with one call, whose response is lost. -/
theorem quiet_settle_tools_done_steered :
    ∃ w w' : Watch, (watched ⟨fun prompt => prompt, true, false, none⟩).step w .recovery = some w' ∧
      w.ToolsDone ∧ w.answered = w.asked ∧ w.session.openTools = [] := by
  obtain ⟨w, hsteps, hw⟩ := Machine.exists_steps_of_runWhen
    (watched ⟨fun prompt => prompt, true, false, none⟩) Noticed (s := ⟨.start "p", false, 0, 0⟩)
    [.incoming (.update false [.textDelta "x"]), .incoming (.update false [.toolCall "t"]),
      .steer "a", .incoming (.request true []), .incoming (.update false [.toolResult "t"]),
      .steeringResponse (.ok (some "injected") none) [.update false []], .answer, .tick 30000,
      .quietSettle]
    (p := fun w => w.quiet && ((watched ⟨fun prompt => prompt, true, false, none⟩).step w
      .recovery).isSome) (by decide +kernel)
  obtain ⟨hquiet, hsome⟩ := Bool.and_eq_true_iff.mp hw
  obtain ⟨w', hstep⟩ := Option.isSome_iff_exists.mp hsome
  have h := quiet_settle_tools_done ⟨fun prompt => prompt, true, false, none⟩
    ⟨_, ⟨⟨"p", rfl⟩, rfl, rfl, rfl⟩, hsteps⟩
  have hdone := h.1 w' hquiet hstep
  exact ⟨w, w', hstep, hdone.1, hdone.2, h.2 hdone.1⟩

/-- A call that is drained as a steer is injected is still running when the turn is settled as quiet,
and a result that is drained so leaves its call in the set. -/
theorem drained_call_settled :
    (∃ w w' : Watch, (watched ⟨fun prompt => prompt, true, false, none⟩).Reachable w ∧
      w.quiet = true ∧
        (watched ⟨fun prompt => prompt, true, false, none⟩).step w .recovery = some w' ∧
          ¬w.ToolsDone) ∧
      ∃ w : Watch, (watched ⟨fun prompt => prompt, true, false, none⟩).Reachable w ∧
        w.session.turn.isSome = true ∧ w.ToolsDone ∧ w.session.openTools ≠ [] := by
  constructor
  · obtain ⟨w, hsteps, hw⟩ := Machine.exists_steps_of_runWhen
      (watched ⟨fun prompt => prompt, true, false, none⟩) Machine.anyStep
      (s := ⟨.start "p", false, 0, 0⟩)
      [.incoming (.update false [.textDelta "x"]), .steer "a",
        .steeringResponse (.ok (some "injected") none) [.update false [.toolCall "t"]],
        .tick 30000, .quietSettle]
      (p := fun w => w.quiet && ((watched ⟨fun prompt => prompt, true, false, none⟩).step w
        .recovery).isSome && turnEvents w.session.log = [.textDelta "x", .toolCall "t"])
      (by decide +kernel)
    simp only [Bool.and_eq_true, decide_eq_true_eq] at hw
    obtain ⟨⟨hquiet, hsome⟩, hevents⟩ := hw
    obtain ⟨w', hstep⟩ := Option.isSome_iff_exists.mp hsome
    refine ⟨w, w', ⟨_, ⟨⟨"p", rfl⟩, rfl, rfl, rfl⟩, hsteps⟩, hquiet, hstep, fun hdone => ?_⟩
    have hhad := hdone "t" (by rw [hevents]; simp)
    rw [hevents] at hhad
    exact absurd hhad (by decide)
  · obtain ⟨w, hsteps, hw⟩ := Machine.exists_steps_of_runWhen
      (watched ⟨fun prompt => prompt, true, false, none⟩) Machine.anyStep
      (s := ⟨.start "p", false, 0, 0⟩)
      [.incoming (.update false [.textDelta "x", .toolCall "t"]), .steer "a",
        .steeringResponse (.ok (some "injected") none) [.update false [.toolResult "t"]]]
      (p := fun w => w.session.turn.isSome && !w.session.openTools.isEmpty &&
        turnEvents w.session.log = [.textDelta "x", .toolCall "t", .toolResult "t"])
      (by decide +kernel)
    simp only [Bool.and_eq_true, decide_eq_true_eq] at hw
    obtain ⟨⟨hlive, hopen⟩, hevents⟩ := hw
    refine ⟨w, ⟨_, ⟨⟨"p", rfl⟩, rfl, rfl, rfl⟩, hsteps⟩, hlive, toolsDone_of_events "t" hevents,
      fun hnil => ?_⟩
    rw [hnil] at hopen
    cases hopen

end Zeron.Harness
