import Zeron.Lib.Base64
import Zeron.Lib.Broadcast
import Zeron.Lib.Machine

/-!
# Terminals

One terminal of `crates/engine/src/terminals.rs`: the pump that stamps what the shell writes, the
replay window, and the subscribers. Operations hold the session while they wait for its lock, so one
that began before a close may run behind it.
-/

namespace Zeron.Engine.Terminals

open Zeron.Lib (Bytes Machine)
open Zeron.Lib.Broadcast (Channel evict fanOut total)

def maxReplayBytes : Nat := 1024 * 1024

inductive TerminalEvent where
  | data (seq : Nat) (data : List Char)
  | exit (seq : Nat) (exitCode : Int32) (signal : Option String)
deriving DecidableEq

namespace TerminalEvent

def seq : TerminalEvent → Nat
  | .data n _ => n
  | .exit n _ _ => n

def bytes : TerminalEvent → Nat
  | .data _ text => text.length
  | .exit _ _ _ => 16

def isExit : TerminalEvent → Bool
  | .data _ _ => false
  | .exit _ _ _ => true

end TerminalEvent

structure LiveTerminal where
  subscribers : List Nat := []
  replay : List TerminalEvent := []
  replayBytes : Nat := 0
  seq : Nat := 0
  exited : Bool := false
deriving DecidableEq

/-- A terminal, the channels of its subscribers, and every event so far, which no code reads. -/
structure Feed where
  session : LiveTerminal := {}
  channels : List (Channel TerminalEvent) := []
  emitted : List TerminalEvent := []
deriving DecidableEq

/-- What the pump has an event for. -/
inductive Output where
  | data (buffer : Bytes)
  | exit (exitCode : Int32)
deriving DecidableEq

def Output.stamp (seq : Nat) : Output → TerminalEvent
  | data buffer => .data seq (Lib.Base64.encode buffer)
  | exit exitCode => .exit seq exitCode none

namespace Feed

def emit (f : Feed) (event : TerminalEvent) : Feed :=
  let window := evict TerminalEvent.bytes maxReplayBytes (f.session.replay ++ [event])
    (f.session.replayBytes + event.bytes)
  let told := fanOut event f.session.subscribers f.channels
  { session :=
      { f.session with
        replay := window.1
        replayBytes := window.2
        subscribers := if event.isExit then [] else told.1
        exited := event.isExit || f.session.exited }
    channels := told.2
    emitted := f.emitted ++ [event] }

def nextSeq (f : Feed) : Feed := { f with session.seq := f.session.seq + 1 }

/-- `next_seq` and `emit`, under the lock of the session -/
def publish (f : Feed) (output : Output) : Feed :=
  f.nextSeq.emit (output.stamp f.nextSeq.session.seq)

def subscribe (f : Feed) (afterSeq : Option Nat) : Feed :=
  let tx := f.channels.length
  let sent := f.session.replay.filter fun event => afterSeq.getD 0 < event.seq
  { f with
    session.subscribers :=
      if f.session.exited then f.session.subscribers else f.session.subscribers ++ [tx]
    channels := f.channels ++ [{ sent }] }

def dispose (f : Feed) : Feed := { f with session.subscribers := [] }

def dropReceiver (f : Feed) (id : Nat) : Feed :=
  { f with channels := f.channels.modify id fun channel => { channel with receiver := false } }

end Feed

/-- `pump_output`; where it holds the session, it waits for the lock. -/
inductive Pump where
  | idle
  | filling (buffer : Bytes)
  | holding (output : Output) (eof : Bool)
  | waiting
  | done
deriving DecidableEq

def Pump.holds : Pump → Bool
  | holding _ _ => true
  | _ => false

/-- An operation that holds the session; `use` is a write or a resize. -/
inductive Call where
  | subscribe (afterSeq : Option Nat)
  | use
  | close
deriving DecidableEq

structure Host where
  feed : Feed := {}
  listed : Bool := true
  calls : List Call := []
  pump : Pump := .idle
deriving DecidableEq

inductive Action where
  | chunk (bytes : Bytes)
  | batchElapsed
  | readerGone
  | childGone (status : Option UInt32)
  | pumpLocks
  | call (call : Call)
  | lock (index : Nat)
  | reap
  | dropReceiver (id : Nat)

def exitCode : Option UInt32 → Int32
  | some status => status.toInt32
  | none => -1

namespace Host

/-- Someone holds the session, so that a weak handle upgrades. -/
def alive (s : Host) : Bool := s.listed || !s.calls.isEmpty || s.pump.holds

def perform (f : Feed) : Call → Feed
  | .subscribe afterSeq => f.subscribe afterSeq
  | .use => f
  | .close => f.dispose

def step (s : Host) : Action → Option Host
  | .chunk bytes =>
      match s.pump with
      | .idle => some { s with pump := .filling bytes }
      | .filling buffer => some { s with pump := .filling (buffer ++ bytes) }
      | _ => none
  | .batchElapsed =>
      match s.pump with
      | .filling buffer =>
          some { s with pump := if s.alive then .holding (.data buffer) false else .done }
      | _ => none
  | .readerGone =>
      match s.pump with
      | .idle => some { s with pump := .waiting }
      | .filling buffer =>
          some { s with pump := if s.alive then .holding (.data buffer) true else .waiting }
      | _ => none
  | .childGone status =>
      match s.pump with
      | .waiting =>
          some { s with
            pump := if s.alive then .holding (.exit (exitCode status)) true else .done }
      | _ => none
  | .pumpLocks =>
      match s.pump with
      | .holding (.data buffer) eof =>
          some { s with
            feed := s.feed.publish (.data buffer)
            pump := if eof then .waiting else .idle }
      | .holding (.exit exitCode) _ =>
          some { s with feed := s.feed.publish (.exit exitCode), pump := .done }
      | _ => none
  | .call call =>
      if s.listed then some { s with calls := s.calls ++ [call], listed := call ≠ .close }
      else none
  | .lock index =>
      s.calls[index]?.map fun call =>
        { s with feed := perform s.feed call, calls := s.calls.eraseIdx index }
  | .reap => if s.listed && s.feed.session.exited then some { s with listed := false } else none
  | .dropReceiver id => some { s with feed := s.feed.dropReceiver id }

end Host

def machine : Machine Host Action where
  init s := s = {}
  step := Host.step

namespace Feed

/-- Events in order of their numbers, without a repetition. -/
def Increasing (events : List TerminalEvent) : Prop := events.Pairwise fun a b => a.seq < b.seq

structure Inv (f : Feed) : Prop where
  seqs : f.emitted.map (·.seq) = List.range' 1 f.session.seq
  newest : f.session.replay <:+ f.emitted
  accounted : f.session.replayBytes = total TerminalEvent.bytes f.session.replay
  capped : f.session.replayBytes ≤ maxReplayBytes ∨ f.session.replay.length ≤ 1
  ended : f.session.exited = true → f.session.subscribers = []
  exited : ∀ event ∈ f.emitted, event.isExit = true → f.session.exited = true
  ids : ∀ id ∈ f.session.subscribers, id < f.channels.length
  nodup : f.session.subscribers.Nodup

theorem stamp_seq (seq : Nat) (output : Output) : (output.stamp seq).seq = seq := by
  cases output <;> rfl

variable {f : Feed}

theorem Inv.subscribe (h : f.Inv) (afterSeq : Option Nat) : (f.subscribe afterSeq).Inv where
  seqs := h.seqs
  newest := h.newest
  accounted := h.accounted
  capped := h.capped
  exited := h.exited
  ended hexited := (if_pos hexited).trans (h.ended hexited)
  ids id hid := by
    unfold Feed.subscribe at hid ⊢
    dsimp only at hid ⊢
    rw [List.length_append, List.length_singleton]
    split_ifs at hid
    · exact Nat.lt_succ_of_lt (h.ids id hid)
    · obtain hid | hid := List.mem_append.mp hid
      · exact Nat.lt_succ_of_lt (h.ids id hid)
      · exact Nat.lt_succ_of_le (Nat.le_of_eq (List.mem_singleton.mp hid))
  nodup := by
    unfold Feed.subscribe
    dsimp only
    split_ifs
    · exact h.nodup
    · have hfresh : f.channels.length ∉ f.session.subscribers :=
        fun hid => Nat.lt_irrefl _ (h.ids _ hid)
      simpa using h.nodup.concat hfresh

theorem Inv.dispose (h : f.Inv) : f.dispose.Inv where
  seqs := h.seqs
  newest := h.newest
  accounted := h.accounted
  capped := h.capped
  exited := h.exited
  ended _ := rfl
  ids _ hid := absurd hid List.not_mem_nil
  nodup := List.nodup_nil

theorem Inv.dropReceiver (h : f.Inv) (id : Nat) : (f.dropReceiver id).Inv where
  seqs := h.seqs
  newest := h.newest
  accounted := h.accounted
  capped := h.capped
  exited := h.exited
  ended := h.ended
  ids other hother := by
    unfold Feed.dropReceiver
    rw [List.length_modify]
    exact h.ids other hother
  nodup := h.nodup

def next (f : Feed) (output : Output) : TerminalEvent := output.stamp (f.session.seq + 1)

theorem publish_subscribers (f : Feed) (output : Output) :
    (f.publish output).session.subscribers =
      if (f.next output).isExit then []
      else (fanOut (f.next output) f.session.subscribers f.channels).1 := rfl

theorem publish_channels (f : Feed) (output : Output) :
    (f.publish output).channels =
      (fanOut (f.next output) f.session.subscribers f.channels).2 := rfl

theorem publish_emitted (f : Feed) (output : Output) :
    (f.publish output).emitted = f.emitted ++ [f.next output] := rfl

theorem publish_exited (f : Feed) (output : Output) :
    (f.publish output).session.exited = ((f.next output).isExit || f.session.exited) := rfl

/-- An event has the next number, and its weight enters the window with it. -/
theorem Inv.publish (h : f.Inv) (output : Output) : (f.publish output).Inv where
  seqs := by
    have hlast : (f.next output).seq = 1 + f.session.seq :=
      (stamp_seq _ output).trans (Nat.add_comm _ _)
    rw [publish_emitted, List.map_append, h.seqs, List.map_singleton, hlast]
    exact List.range'_1_concat.symm
  newest := by
    have hwindow := Lib.Broadcast.evict_suffix TerminalEvent.bytes maxReplayBytes
      (f.session.replay ++ [f.next output]) (f.session.replayBytes + (f.next output).bytes)
    exact hwindow.trans (List.suffix_append_self_iff.mpr h.newest)
  accounted := by
    have hbytes : f.session.replayBytes + (f.next output).bytes =
        total TerminalEvent.bytes (f.session.replay ++ [f.next output]) := by
      rw [h.accounted]
      simp [total]
    have htotal := Lib.Broadcast.evict_total TerminalEvent.bytes maxReplayBytes
      (f.session.replay ++ [f.next output])
    rw [← hbytes] at htotal
    exact htotal
  capped := Lib.Broadcast.evict_le _ _ _ _
  ended hexited := by
    rw [publish_exited, Bool.or_eq_true] at hexited
    rw [publish_subscribers]
    split_ifs with hexit
    · rfl
    · rw [h.ended (hexited.resolve_left hexit)]
      rfl
  exited event hevent hexit := by
    rw [publish_exited, Bool.or_eq_true]
    obtain hevent | hevent := List.mem_append.mp hevent
    · exact .inr (h.exited event hevent hexit)
    · rw [List.mem_singleton.mp hevent] at hexit
      exact .inl hexit
  ids id hid := by
    rw [publish_subscribers] at hid
    rw [publish_channels, Lib.Broadcast.fanOut_length]
    split_ifs at hid
    · exact absurd hid List.not_mem_nil
    · rw [Lib.Broadcast.fanOut_kept _ h.nodup] at hid
      exact h.ids id (List.mem_of_mem_filter hid)
  nodup := by
    rw [publish_subscribers]
    split_ifs
    · exact List.nodup_nil
    · rw [Lib.Broadcast.fanOut_kept _ h.nodup]
      exact h.nodup.filter _

theorem Inv.increasing (h : f.Inv) : Increasing f.emitted := by
  have hseqs : (f.emitted.map (·.seq)).Pairwise (· < ·) := by
    rw [h.seqs]
    exact List.pairwise_lt_range'
  exact List.pairwise_map.mp hseqs

/-! ### What a subscription receives -/

/-- What the subscriber was shown, and a front of what came after the first `n` events; all of it
while it is subscribed. -/
def Received (f : Feed) (id : Nat) (shown : List TerminalEvent) (n : Nat) : Prop :=
  ∃ channel front, f.channels[id]? = some channel ∧ channel.sent = shown ++ front ∧
    front <+: f.emitted.drop n ∧
    (id ∈ f.session.subscribers → channel.receiver = true → front = f.emitted.drop n)

/-- All that came after the first `n` events was received, and what comes next will be. -/
def ReceivedAll (f : Feed) (id : Nat) (shown : List TerminalEvent) (n : Nat) : Prop :=
  f.channels[id]? = some { sent := shown ++ f.emitted.drop n } ∧
    (f.session.exited = false → id ∈ f.session.subscribers)

variable {id n : Nat} {shown : List TerminalEvent}

theorem mem_of_mem_subscribe {afterSeq : Option Nat} (hlt : id < f.channels.length)
    (h : id ∈ (f.subscribe afterSeq).session.subscribers) : id ∈ f.session.subscribers := by
  unfold subscribe at h
  dsimp only at h
  split_ifs at h
  · exact h
  · obtain h | h := List.mem_append.mp h
    · exact h
    · exact absurd (List.mem_singleton.mp h) (Nat.ne_of_lt hlt)

theorem subscribe_channels_of_lt {afterSeq : Option Nat} (hlt : id < f.channels.length) :
    (f.subscribe afterSeq).channels[id]? = f.channels[id]? :=
  List.getElem?_append_left hlt

theorem receivedAll_subscribe (f : Feed) (afterSeq : Option Nat) :
    (f.subscribe afterSeq).ReceivedAll f.channels.length
      (f.session.replay.filter fun event => afterSeq.getD 0 < event.seq) f.emitted.length := by
  constructor
  · have hnone : (f.subscribe afterSeq).emitted.drop f.emitted.length = [] := List.drop_length
    rw [hnone, List.append_nil]
    exact List.getElem?_concat_length
  · intro hexited
    have hrunning : ¬ f.session.exited = true := by
      rw [show f.session.exited = false from hexited]
      exact Bool.false_ne_true
    unfold subscribe
    dsimp only
    rw [if_neg hrunning]
    exact List.mem_append_right _ (List.mem_singleton_self _)

theorem ReceivedAll.received (h : f.ReceivedAll id shown n) : f.Received id shown n :=
  ⟨_, f.emitted.drop n, h.1, rfl, List.prefix_refl _, fun _ _ => rfl⟩

theorem publish_drop (f : Feed) (output : Output) (hn : n ≤ f.emitted.length) :
    (f.publish output).emitted.drop n = f.emitted.drop n ++ [f.next output] := by
  rw [publish_emitted, List.drop_append_of_le_length hn]

theorem Received.publish (h : f.Received id shown n) (hinv : f.Inv) (hn : n ≤ f.emitted.length)
    (output : Output) : (f.publish output).Received id shown n := by
  obtain ⟨channel, front, hchannel, hsent, hfront, hall⟩ := h
  unfold Received
  rw [publish_drop f output hn, publish_channels]
  by_cases hid : id ∈ f.session.subscribers
  · rw [Lib.Broadcast.fanOut_of_mem _ hinv.nodup hid, hchannel]
    cases hreceiver : channel.receiver with
    | true =>
        have hafter : channel.after (f.next output) =
            { channel with sent := channel.sent ++ [f.next output] } := by
          simp [Channel.after, Channel.send, hreceiver]
        refine ⟨_, front ++ [f.next output], congrArg some hafter, ?_, ?_, ?_⟩
        · rw [hsent, List.append_assoc]
        · exact hall hid hreceiver ▸ List.prefix_refl _
        · intro _ _
          rw [hall hid hreceiver]
    | false =>
        have hafter : channel.after (f.next output) = channel := by
          simp [Channel.after, Channel.send, hreceiver]
        refine ⟨_, front, congrArg some hafter, hsent, hfront.trans (List.prefix_append _ _), ?_⟩
        intro _ htrue
        exact absurd (hreceiver.symm.trans htrue) Bool.false_ne_true
  · rw [Lib.Broadcast.fanOut_of_not_mem _ hid]
    refine ⟨channel, front, hchannel, hsent, hfront.trans (List.prefix_append _ _), ?_⟩
    intro hmem
    rw [publish_subscribers] at hmem
    split_ifs at hmem
    · exact absurd hmem List.not_mem_nil
    · rw [Lib.Broadcast.fanOut_kept _ hinv.nodup] at hmem
      exact absurd (List.mem_of_mem_filter hmem) hid

theorem Received.subscribe (h : f.Received id shown n) (afterSeq : Option Nat) :
    (f.subscribe afterSeq).Received id shown n := by
  obtain ⟨channel, front, hchannel, hsent, hfront, hall⟩ := h
  have hlt := (List.getElem?_eq_some_iff.mp hchannel).1
  exact ⟨channel, front, (subscribe_channels_of_lt hlt).trans hchannel, hsent, hfront,
    fun hid => hall (mem_of_mem_subscribe hlt hid)⟩

theorem Received.dispose (h : f.Received id shown n) : f.dispose.Received id shown n := by
  obtain ⟨channel, front, hchannel, hsent, hfront, -⟩ := h
  exact ⟨channel, front, hchannel, hsent, hfront, fun hid => absurd hid List.not_mem_nil⟩

theorem Received.dropReceiver (h : f.Received id shown n) (dropped : Nat) :
    (f.dropReceiver dropped).Received id shown n := by
  obtain ⟨channel, front, hchannel, hsent, hfront, hall⟩ := h
  unfold Received Feed.dropReceiver
  dsimp only
  by_cases heq : dropped = id
  · rw [heq, List.getElem?_modify_eq, hchannel]
    refine ⟨_, front, rfl, hsent, hfront, ?_⟩
    intro _ htrue
    exact absurd htrue Bool.false_ne_true
  · rw [List.getElem?_modify_ne _ _ heq]
    exact ⟨channel, front, hchannel, hsent, hfront, hall⟩

theorem ReceivedAll.publish (h : f.ReceivedAll id shown n) (hinv : f.Inv)
    (hn : n ≤ f.emitted.length) (hrunning : f.session.exited = false) (output : Output) :
    (f.publish output).ReceivedAll id shown n := by
  have hid := h.2 hrunning
  constructor
  · rw [publish_drop f output hn, publish_channels, Lib.Broadcast.fanOut_of_mem _ hinv.nodup hid,
      h.1, ← List.append_assoc]
    rfl
  · intro hexited
    rw [publish_exited, Bool.or_eq_false_iff] at hexited
    rw [publish_subscribers, if_neg (by simp [hexited.1]), Lib.Broadcast.fanOut_kept _ hinv.nodup]
    have hreceived : Channel.received f.channels id = true := by
      rw [Channel.received, h.1]
      rfl
    exact List.mem_filter.mpr ⟨hid, hreceived⟩

theorem ReceivedAll.subscribe (h : f.ReceivedAll id shown n) (afterSeq : Option Nat) :
    (f.subscribe afterSeq).ReceivedAll id shown n := by
  have hlt := (List.getElem?_eq_some_iff.mp h.1).1
  refine ⟨(subscribe_channels_of_lt hlt).trans h.1, fun hexited => ?_⟩
  have hid := h.2 hexited
  unfold Feed.subscribe
  dsimp only
  split_ifs
  · exact hid
  · exact List.mem_append_left _ hid

theorem ReceivedAll.dropReceiver (h : f.ReceivedAll id shown n) {dropped : Nat}
    (hne : dropped ≠ id) : (f.dropReceiver dropped).ReceivedAll id shown n :=
  ⟨(List.getElem?_modify_ne _ _ hne).trans h.1, h.2⟩

end Feed

variable {a : Action}

namespace Host

/-- **Step rule.** What a step can do to the feed, and where it leaves the pump. -/
theorem step_cases {s s' : Host} (h : s.step a = some s') :
    (s'.feed = s.feed ∧ (s.pump = .done → s'.pump = .done)) ∨
    (∃ output, s'.feed = s.feed.publish output ∧ s.pump ≠ .done ∧
      ((s.feed.next output).isExit = true → s'.pump = .done)) ∨
    (∃ index call, a = .lock index ∧ s.calls[index]? = some call ∧
      s'.feed = perform s.feed call ∧ s'.pump = s.pump) ∨
    (∃ id, a = .dropReceiver id ∧ s'.feed = s.feed.dropReceiver id ∧ s'.pump = s.pump) := by
  cases a with
  | chunk | batchElapsed | readerGone | childGone =>
      left
      simp only [step] at h
      split at h <;> cases h <;> simp_all
  | pumpLocks =>
      right; left
      simp only [step] at h
      split at h
      · rename_i buffer eof hpump
        cases h
        exact ⟨.data buffer, rfl, by simp [hpump], fun hexit => absurd hexit Bool.false_ne_true⟩
      · rename_i exitCode eof hpump
        cases h
        exact ⟨.exit exitCode, rfl, by simp [hpump], fun _ => rfl⟩
      · cases h
  | call | reap =>
      left
      simp only [step] at h
      split at h <;> cases h
      exact ⟨rfl, id⟩
  | lock index =>
      right; right; left
      obtain ⟨call, hcall, rfl⟩ := Option.map_eq_some_iff.mp h
      exact ⟨index, call, rfl, hcall, rfl, rfl⟩
  | dropReceiver id =>
      right; right; right
      cases h
      exact ⟨id, rfl, rfl, rfl⟩

/-- The pump stops behind the exit. -/
structure Inv (s : Host) : Prop where
  feed : s.feed.Inv
  stopped : s.feed.session.exited = true → s.pump = .done

theorem perform_inv {f : Feed} (h : f.Inv) (call : Call) : (perform f call).Inv := by
  cases call with
  | subscribe afterSeq => exact h.subscribe afterSeq
  | use => exact h
  | close => exact h.dispose

theorem perform_exited (f : Feed) (call : Call) :
    (perform f call).session.exited = f.session.exited := by
  cases call <;> rfl

theorem perform_emitted (f : Feed) (call : Call) : (perform f call).emitted = f.emitted := by
  cases call <;> rfl

variable {s s' : Host}

theorem Inv.step (h : s.Inv) (hstep : s.step a = some s') : s'.Inv := by
  obtain ⟨hfeed, hpump⟩ | ⟨output, hfeed, hrunning, hexit⟩ | ⟨_, call, -, -, hfeed, hpump⟩ |
    ⟨id, -, hfeed, hpump⟩ := step_cases hstep
  · exact ⟨hfeed ▸ h.feed, fun hexited => hpump (h.stopped (hfeed ▸ hexited))⟩
  · refine ⟨hfeed ▸ h.feed.publish output, fun hexited => ?_⟩
    rw [hfeed, Feed.publish_exited, Bool.or_eq_true] at hexited
    exact hexited.elim hexit fun hexited => absurd (h.stopped hexited) hrunning
  · refine ⟨hfeed ▸ perform_inv h.feed call, fun hexited => ?_⟩
    rw [hfeed, perform_exited] at hexited
    exact hpump.trans (h.stopped hexited)
  · refine ⟨hfeed ▸ h.feed.dropReceiver id, fun hexited => ?_⟩
    rw [hfeed] at hexited
    exact hpump.trans (h.stopped hexited)

theorem inv_of_init (h : machine.init s) : s.Inv := by
  rw [show s = {} from h]
  have hfeed : Feed.Inv {} :=
    { seqs := rfl
      newest := List.suffix_rfl
      accounted := rfl
      capped := .inl (Nat.zero_le _)
      ended := fun _ => rfl
      exited := fun _ hevent => absurd hevent List.not_mem_nil
      ids := fun _ hid => absurd hid List.not_mem_nil
      nodup := List.nodup_nil }
  exact ⟨hfeed, fun hexited => absurd hexited Bool.false_ne_true⟩

theorem inv_of_reachable (h : machine.Reachable s) : s.Inv :=
  h.invariant (fun _ => inv_of_init) fun _ _ _ hinv _ hstep => hinv.step hstep

theorem step_emitted (h : s.Inv) (hstep : s.step a = some s') :
    s'.feed.emitted = s.feed.emitted ∨
      s.feed.session.exited = false ∧ ∃ event, s'.feed.emitted = s.feed.emitted ++ [event] := by
  obtain ⟨hfeed, -⟩ | ⟨output, hfeed, hrunning, -⟩ | ⟨_, call, -, -, hfeed, -⟩ |
    ⟨id, -, hfeed, -⟩ := step_cases hstep
  · exact .inl (congrArg Feed.emitted hfeed)
  · have hexited : s.feed.session.exited = false :=
      Bool.eq_false_iff.mpr fun hexited => hrunning (h.stopped hexited)
    exact .inr ⟨hexited, _, congrArg Feed.emitted hfeed⟩
  · exact .inl ((congrArg Feed.emitted hfeed).trans (perform_emitted _ call))
  · exact .inl (by rw [hfeed]; rfl)

variable {guard : Host → Action → Prop}

theorem inv_of_steps (h : s.Inv) (hsteps : machine.Steps guard s s') : s'.Inv :=
  hsteps.invariant (I := Inv) (fun _ _ _ hinv _ hstep => hinv.step hstep) h

theorem step_exited (hstep : s.step a = some s') (hexited : s.feed.session.exited = true) :
    s'.feed.session.exited = true := by
  obtain ⟨hfeed, -⟩ | ⟨output, hfeed, -⟩ | ⟨_, call, -, -, hfeed, -⟩ | ⟨id, -, hfeed, -⟩ :=
    step_cases hstep
  · rw [hfeed, hexited]
  · rw [hfeed, Feed.publish_exited, hexited, Bool.or_true]
  · rw [hfeed, perform_exited, hexited]
  · rw [hfeed]
    exact hexited

theorem emitted_of_exited (h : s.Inv) (hexited : s.feed.session.exited = true)
    (hsteps : machine.Steps guard s s') : s'.feed.emitted = s.feed.emitted := by
  have hrun := hsteps.invariant (I := fun t => t.Inv ∧ t.feed.session.exited = true ∧
    t.feed.emitted = s.feed.emitted) ?_ ⟨h, hexited, rfl⟩
  · exact hrun.2.2
  · rintro t a t' ⟨hinv, hexited, hemitted⟩ - hstep
    refine ⟨hinv.step hstep, step_exited hstep hexited, ?_⟩
    obtain hsame | ⟨hrunning, -⟩ := step_emitted hinv hstep
    · exact hsame.trans hemitted
    · exact absurd (hexited.symm.trans hrunning) (by decide)

theorem step_extends (h : s.Inv) (hstep : s.step a = some s') :
    s.feed.emitted <+: s'.feed.emitted := by
  obtain hsame | ⟨-, event, hjoined⟩ := step_emitted h hstep
  · exact hsame ▸ List.prefix_refl _
  · rw [hjoined]
    exact List.prefix_append _ _

theorem emitted_extends (h : s.Inv) (hsteps : machine.Steps guard s s') :
    s.feed.emitted <+: s'.feed.emitted := by
  have hrun := hsteps.invariant (I := fun t => t.Inv ∧ s.feed.emitted <+: t.feed.emitted) ?_
    ⟨h, List.prefix_refl _⟩
  · exact hrun.2
  · rintro t a t' ⟨hinv, hemitted⟩ - hstep
    exact ⟨hinv.step hstep, hemitted.trans (step_extends hinv hstep)⟩

/-! ### Runs -/

variable {id n : Nat} {shown : List TerminalEvent}

/-- The subscriber keeps its receiver, and no close takes the lock. -/
def StaysAttached (id : Nat) (s : Host) : Action → Prop
  | .lock index => s.calls[index]? ≠ some .close
  | .dropReceiver dropped => dropped ≠ id
  | _ => True

instance (id : Nat) (s : Host) : ∀ a, Decidable (StaysAttached id s a)
  | .lock index => inferInstanceAs (Decidable (s.calls[index]? ≠ some .close))
  | .dropReceiver dropped => inferInstanceAs (Decidable (dropped ≠ id))
  | .chunk _ | .batchElapsed | .readerGone | .childGone _ | .pumpLocks | .call _ | .reap =>
      .isTrue trivial

theorem received_step (h : s.Inv) (hn : n ≤ s.feed.emitted.length)
    (hreceived : s.feed.Received id shown n) (hstep : s.step a = some s') :
    s'.feed.Received id shown n := by
  obtain ⟨hfeed, -⟩ | ⟨output, hfeed, -⟩ | ⟨_, call, -, -, hfeed, -⟩ | ⟨dropped, -, hfeed, -⟩ :=
    step_cases hstep <;> rw [hfeed]
  · exact hreceived
  · exact hreceived.publish h.feed hn output
  · cases call with
    | subscribe afterSeq => exact hreceived.subscribe afterSeq
    | use => exact hreceived
    | close => exact hreceived.dispose
  · exact hreceived.dropReceiver dropped

theorem receivedAll_step (h : s.Inv) (hn : n ≤ s.feed.emitted.length)
    (hreceived : s.feed.ReceivedAll id shown n) (hstays : StaysAttached id s a)
    (hstep : s.step a = some s') : s'.feed.ReceivedAll id shown n := by
  obtain ⟨hfeed, -⟩ | ⟨output, hfeed, hrunning, -⟩ | ⟨_, call, rfl, hcall, hfeed, -⟩ |
    ⟨dropped, rfl, hfeed, -⟩ := step_cases hstep <;> rw [hfeed]
  · exact hreceived
  · have hexited : s.feed.session.exited = false :=
      Bool.eq_false_iff.mpr fun hexited => hrunning (h.stopped hexited)
    exact hreceived.publish h.feed hn hexited output
  · cases call with
    | subscribe afterSeq => exact hreceived.subscribe afterSeq
    | use => exact hreceived
    | close => exact absurd hcall hstays
  · exact hreceived.dropReceiver hstays

theorem received_of_steps (h : s.Inv) (hn : n ≤ s.feed.emitted.length)
    (hreceived : s.feed.Received id shown n) (hsteps : machine.Steps guard s s') :
    s'.feed.Received id shown n := by
  have hrun := hsteps.invariant (I := fun t => t.Inv ∧ n ≤ t.feed.emitted.length ∧
    t.feed.Received id shown n) ?_ ⟨h, hn, hreceived⟩
  · exact hrun.2.2
  · rintro t a t' ⟨hinv, hlength, hreceived⟩ - hstep
    exact ⟨hinv.step hstep, Nat.le_trans hlength (step_extends hinv hstep).length_le,
      received_step hinv hlength hreceived hstep⟩

theorem receivedAll_of_steps (h : s.Inv) (hn : n ≤ s.feed.emitted.length)
    (hreceived : s.feed.ReceivedAll id shown n) (hsteps : machine.Steps (StaysAttached id) s s') :
    s'.feed.ReceivedAll id shown n := by
  have hrun := hsteps.invariant (I := fun t => t.Inv ∧ n ≤ t.feed.emitted.length ∧
    t.feed.ReceivedAll id shown n) ?_ ⟨h, hn, hreceived⟩
  · exact hrun.2.2
  · rintro t a t' ⟨hinv, hlength, hreceived⟩ hstays hstep
    exact ⟨hinv.step hstep, Nat.le_trans hlength (step_extends hinv hstep).length_le,
      receivedAll_step hinv hlength hreceived hstays hstep⟩

/-- The stream of the subscriber ends: no sender for it is left. -/
def Ended (s : Host) (id : Nat) : Prop := s.alive = true → id ∉ s.feed.session.subscribers

/-- The newest events, with the count of their bytes, which only a single event takes above the
cap. -/
def Windowed (f : Feed) : Prop :=
  f.session.replay <:+ f.emitted ∧
    f.session.replayBytes = (f.session.replay.map TerminalEvent.bytes).sum ∧
    (f.session.replayBytes ≤ maxReplayBytes ∨
      ∃ event, f.session.replay = [event] ∧ maxReplayBytes < event.bytes)

theorem windowed (h : s.Inv) : Windowed s.feed := by
  refine ⟨h.feed.newest, h.feed.accounted, ?_⟩
  obtain hcapped | hsingle := h.feed.capped
  · exact .inl hcapped
  · rw [h.feed.accounted]
    match hreplay : s.feed.session.replay, hsingle with
    | [], _ => exact .inl (Nat.zero_le _)
    | [event], _ =>
        have htotal : total TerminalEvent.bytes [event] = event.bytes := by simp [total]
        rw [htotal]
        obtain hlt | hle := Nat.lt_or_ge maxReplayBytes event.bytes
        · exact .inr ⟨event, rfl, hlt⟩
        · exact .inl hle
    | _ :: _ :: _, hsingle => exact absurd hsingle (by simp)

theorem increasing_of_received (h : s.Inv) (hshown : shown.Sublist (s.feed.emitted.take n))
    {front : List TerminalEvent} (hfront : front <+: s.feed.emitted.drop n) :
    Feed.Increasing (shown ++ front) := by
  have hsublist : (shown ++ front).Sublist s.feed.emitted := by
    conv_rhs => rw [← List.take_append_drop n s.feed.emitted]
    exact hshown.append hfront.sublist
  exact h.feed.increasing.sublist hsublist

/-- **Terminal replay.** The window holds the newest events. A subscriber receives what it was shown
of the window and then a front of the later events, in order; it misses none of them until a close
takes the lock. Nothing comes after the exit, and the exit and a close end every subscription. -/
theorem replay_has_no_gap (h : machine.Reachable s) :
    Windowed s.feed ∧
    ((∃ event ∈ s.feed.emitted, event.isExit = true) → (∀ id, s.Ended id) ∧
      ∀ s', machine.Steps Machine.anyStep s s' → s'.feed.emitted = s.feed.emitted) ∧
    (∀ index closed, s.calls[index]? = some .close → s.step (.lock index) = some closed →
      ∀ id, closed.Ended id) ∧
    ∀ index afterSeq attached, s.calls[index]? = some (.subscribe afterSeq) →
      s.step (.lock index) = some attached →
      let id := s.feed.channels.length
      let shown := s.feed.session.replay.filter fun event => afterSeq.getD 0 < event.seq
      let n := s.feed.emitted.length
      (∀ s', machine.Steps Machine.anyStep attached s' →
        ∃ channel front, s'.feed.channels[id]? = some channel ∧ channel.sent = shown ++ front ∧
          front <+: s'.feed.emitted.drop n ∧ Feed.Increasing channel.sent) ∧
      ∀ s', machine.Steps (StaysAttached id) attached s' →
        s'.feed.channels[id]? = some { sent := shown ++ s'.feed.emitted.drop n } := by
  have hinv := inv_of_reachable h
  refine ⟨windowed hinv, ?_, ?_, ?_⟩
  · rintro ⟨event, hevent, hexit⟩
    have hexited := hinv.feed.exited event hevent hexit
    refine ⟨fun id _ hid => ?_, fun s' => emitted_of_exited hinv hexited⟩
    rw [hinv.feed.ended hexited] at hid
    exact absurd hid List.not_mem_nil
  · intro index closed hcall hstep id _ hid
    simp only [step, hcall, Option.map_some, Option.some.injEq] at hstep
    rw [← hstep] at hid
    exact absurd hid List.not_mem_nil
  · intro index afterSeq attached hcall hstep
    dsimp only
    have hattached := hinv.step hstep
    simp only [step, hcall, Option.map_some, Option.some.injEq] at hstep
    have hfeed : attached.feed = s.feed.subscribe afterSeq := by
      rw [← hstep]
      rfl
    have hall := Feed.receivedAll_subscribe s.feed afterSeq
    rw [← hfeed] at hall
    have hn : s.feed.emitted.length ≤ attached.feed.emitted.length := by
      rw [hfeed]
      exact Nat.le_refl _
    refine ⟨fun s' hsteps => ?_, fun s' hsteps => ?_⟩
    · obtain ⟨channel, front, hchannel, hsent, hfront, -⟩ :=
        received_of_steps hattached hn hall.received hsteps
      refine ⟨channel, front, hchannel, hsent, hfront, hsent ▸ ?_⟩
      have hprefix := emitted_extends hattached hsteps
      rw [hfeed] at hprefix
      change s.feed.emitted <+: _ at hprefix
      refine increasing_of_received (inv_of_steps hattached hsteps) ?_ hfront
      rw [← List.prefix_iff_eq_take.mp hprefix]
      exact (List.filter_sublist).trans hinv.feed.newest.sublist
    · exact (receivedAll_of_steps hattached hn hall hsteps).1

/-- The shell wrote, and a subscriber waits for the lock. -/
def attaching : Host where
  feed :=
    { session := { replay := [.data 1 "aGk=".toList], replayBytes := 4, seq := 1 }
      emitted := [.data 1 "aGk=".toList] }
  calls := [.subscribe none]

def attached : Host := { attaching with feed := attaching.feed.subscribe none, calls := [] }

theorem attaching_reachable : machine.Reachable attaching := by
  have hrun : machine.run {} [.chunk [104, 105], .batchElapsed, .pumpLocks,
      .call (.subscribe none)] = some attaching := by decide
  exact Machine.reachable_of_run rfl hrun

def untilExit : List Action :=
  [.chunk [104], .chunk [111], .readerGone, .pumpLocks, .childGone (some 0), .pumpLocks]

theorem subscriber_receives_until_exit :
    ∃ s' : Host, machine.Steps (StaysAttached 0) attached s' ∧ s'.feed.channels[0]? =
      some { sent := [.data 1 "aGk=".toList, .data 2 "aG8=".toList, .exit 3 0 none] } := by
  obtain ⟨s', hsteps, hs'⟩ := Machine.exists_steps_of_runWhen machine (StaysAttached 0) untilExit
    (s := attached) (p := fun s => decide (s.feed.emitted =
      [.data 1 "aGk=".toList, .data 2 "aG8=".toList, .exit 3 0 none])) (by decide)
  obtain ⟨-, -, -, hattach⟩ := replay_has_no_gap attaching_reachable
  have hreceived := (hattach 0 none attached rfl rfl).2 s' hsteps
  rw [of_decide_eq_true hs'] at hreceived
  exact ⟨s', hsteps, hreceived⟩

/-- The pump holds the session, the terminal is closed, and then the pump has the lock. -/
def closedUnderPump : List Action :=
  [.chunk [104, 111], .batchElapsed, .call .close, .lock 0, .pumpLocks]

/-- Behind a close, an event is emitted that no subscriber receives. -/
theorem output_behind_close :
    ¬ ∀ (s attached s' : Host) (index : Nat) (afterSeq : Option Nat), machine.Reachable s →
      s.calls[index]? = some (.subscribe afterSeq) → s.step (.lock index) = some attached →
      machine.Steps Machine.anyStep attached s' →
      Channel.received s'.feed.channels s.feed.channels.length = true →
      s'.feed.channels[s.feed.channels.length]? = some
        { sent := (s.feed.session.replay.filter fun event => afterSeq.getD 0 < event.seq) ++
            s'.feed.emitted.drop s.feed.emitted.length } := by
  intro hall
  obtain ⟨s', hsteps, hs'⟩ := Machine.exists_steps_of_runWhen machine Machine.anyStep
    closedUnderPump (s := attached) (p := fun s => decide (s.feed.emitted =
      [.data 1 "aGk=".toList, .data 2 "aG8=".toList] ∧ s.feed.channels =
        [{ sent := [.data 1 "aGk=".toList] }])) (by decide)
  obtain ⟨hemitted, hchannels⟩ := of_decide_eq_true hs'
  have hreceived := hall attaching attached s' 0 none attaching_reachable rfl rfl hsteps
    (by rw [hchannels]; rfl)
  rw [hemitted, hchannels] at hreceived
  exact absurd hreceived (by decide)

end Host

end Zeron.Engine.Terminals
