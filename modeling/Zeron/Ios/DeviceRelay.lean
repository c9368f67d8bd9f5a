import Mathlib.Data.Finset.Basic
import Mathlib.Data.List.Nodup
import Zeron.Lib.Keyed
import Zeron.Lib.Machine

/-!
# Calls of the phone over a device's relay

`DeviceRelayClient.swift` as the actor it is: a task runs up to its next `await`. Sockets are
numbered as they are opened. When a token, a reply, a failure or a timer comes is an action; what a
socket carries besides replies and control frames does not matter here, and `close` has no caller.
-/

namespace Zeron.Ios.DeviceRelay

open Zeron.Lib (Machine)
open Zeron.Lib.Keyed (mem_eraseIdx_of_ne)

inductive RelayError where
  | notConnected
  | hostOffline
  | rpc (message : String)
  | timeout
deriving DecidableEq

/-- A link error: `call` tries again. -/
def RelayError.isLink : RelayError → Bool
  | notConnected | hostOffline => true
  | rpc _ | timeout => false

abbrev Data := List UInt8

/-- A line of a payload: the id is there if the line is an object with a numeric one, and `ok` if it
has that key. -/
structure ServerFrame where
  id : Option Nat
  err : Option String
  ok : Option Data
deriving DecidableEq

inductive Message where
  /-- A `pong`, an undecodable frame, or one of another kind. -/
  | ignored
  | rpc (lines : List ServerFrame)
  | relay
deriving DecidableEq

/-- What resumes an attempt. -/
inductive Cause where
  | reply (id : Nat)
  | timer
  | link
deriving DecidableEq

/-- A continuation in `pending`, with the socket its frame was sent on, or is to be sent on. -/
structure Waiter where
  id : Nat
  socket : Nat
deriving DecidableEq

structure Resumption where
  id : Nat
  result : Except RelayError Data
  cause : Cause
  socket : Nat
deriving DecidableEq

inductive Phase where
  | top
  /-- Not cancelled when it looked; it asks the actor for the socket. -/
  | asking
  | receiving (socket : Nat)
  | ended
deriving DecidableEq

structure ReceiveLoop where
  cancelled : Bool
  phase : Phase
deriving DecidableEq

/-- Where a call stands, with its attempt. -/
inductive Caller where
  /-- In `connect`, for the token. -/
  | connecting (attempt : Nat)
  | waiting (attempt id : Nat)
  | sleeping (attempt : Nat)
  | done
deriving DecidableEq

/-- `unsent` and `sends` are the tasks that send, before and in their `socket.send`. Kept for the
statements: what was resumed, and the sockets that failed, were cancelled or had a control frame. -/
structure DeviceRelayClient where
  socket : Option Nat
  connected : Bool
  nextSocket : Nat
  receiveTask : Option Nat
  loops : List ReceiveLoop
  nextId : Nat
  pending : List Waiter
  callers : List Caller
  unsent : List Nat
  sends : List (Nat × Nat)
  timers : List Nat
  resumed : List Resumption
  failed : Finset Nat
  cancelled : Finset Nat
  controlled : Finset Nat

inductive Action where
  | call
  /-- `currentToken` returns to a call that connects. -/
  | token (caller : Nat) (ok : Bool)
  /-- An attempt that was resumed goes on in its call. -/
  | goOn (caller : Nat)
  | wake (caller : Nat)
  | send (k : Nat)
  /-- `socket.send` returns or throws. -/
  | sent (k : Nat) (ok : Bool)
  | timeout (k : Nat)
  | fails (socket : Nat)
  | loop (j : Nat)
  | message (j : Nat) (message : Message)
  /-- `receive` throws, on a socket that has failed or was cancelled. -/
  | throws (j : Nat)
deriving DecidableEq

namespace DeviceRelayClient

def new : DeviceRelayClient where
  socket := none
  connected := false
  nextSocket := 0
  receiveTask := none
  loops := []
  nextId := 1
  pending := []
  callers := []
  unsent := []
  sends := []
  timers := []
  resumed := []
  failed := ∅
  cancelled := ∅
  controlled := ∅

variable (client : DeviceRelayClient)

/-! ## Waiters -/

def ids : List Nat := client.pending.map Waiter.id

/-- `pending.removeValue(forKey:)` and the resume of what was there. -/
def resume (id : Nat) (result : Except RelayError Data) (cause : Cause) : DeviceRelayClient :=
  match client.pending.find? fun waiter => waiter.id = id with
  | none => client
  | some waiter =>
      { client with
        pending := client.pending.filter fun waiter => waiter.id ≠ id
        resumed := client.resumed ++ [⟨id, result, cause, waiter.socket⟩] }

def failCall (id : Nat) (error : RelayError) (cause : Cause) : DeviceRelayClient :=
  client.resume id (.error error) cause

def cancelLoop : List ReceiveLoop :=
  client.receiveTask.elim client.loops fun j =>
    client.loops.modify j fun receiveLoop => { receiveLoop with cancelled := true }

def teardown (error : RelayError) : DeviceRelayClient :=
  { client with
    loops := client.cancelLoop
    cancelled := client.socket.elim client.cancelled fun socket => insert socket client.cancelled
    socket := none
    connected := false
    pending := []
    resumed := client.resumed ++
      client.pending.map fun waiter => .mk waiter.id (.error error) .link waiter.socket }

/-! ## Calls -/

def setCaller (i : Nat) (caller : Caller) : DeviceRelayClient :=
  { client with callers := client.callers.set i caller }

/-- `callOnce` from behind its `connect` up to the `await` of the reply. -/
def register (i attempt socket : Nat) : DeviceRelayClient :=
  { client with
    nextId := client.nextId + 1
    pending := client.pending ++ [Waiter.mk client.nextId socket]
    unsent := client.unsent ++ [client.nextId]
    timers := client.timers ++ [client.nextId] }.setCaller i (.waiting attempt client.nextId)

/-- `callOnce` up to its first `await`. -/
def callOnce (i attempt : Nat) : DeviceRelayClient :=
  match client.connected, client.socket with
  | true, some socket => client.register i attempt socket
  | _, _ => client.setCaller i (.connecting attempt)

/-- The socket before, if there is one, is not cancelled, and its loop goes on. -/
def openSocket : DeviceRelayClient :=
  { client with
    socket := some client.nextSocket
    connected := true
    nextSocket := client.nextSocket + 1
    receiveTask := some client.loops.length
    loops := client.loops ++ [⟨false, .top⟩] }

/-- `call` tears down and tries again. -/
def retries (attempt : Nat) (error : RelayError) : Bool := attempt < 2 && error.isLink

/-- The `catch` of `call`. -/
def caught (i attempt : Nat) (error : RelayError) : DeviceRelayClient :=
  if retries attempt error then
    (client.teardown error).setCaller i (.sleeping (attempt + 1))
  else client.setCaller i .done

/-! ## Inbound -/

def ServerFrame.result (line : ServerFrame) : Except RelayError Data :=
  match line.err, line.ok with
  | some err, _ => .error (.rpc err)
  | none, some ok => .ok ok
  | none, none => .error (.rpc "unexpected reply")

def handleLine (line : ServerFrame) : DeviceRelayClient :=
  match line.id with
  | none => client
  | some id => client.resume id (ServerFrame.result line) (.reply id)

def handleRpcPayload : List ServerFrame → DeviceRelayClient → DeviceRelayClient
  | [], client => client
  | line :: lines, client => handleRpcPayload lines (client.handleLine line)

def handleInbound (socket : Nat) : Message → DeviceRelayClient
  | .ignored => client
  | .rpc lines => handleRpcPayload lines client
  | .relay =>
      { client with controlled := insert socket client.controlled }.teardown .hostOffline

def setLoop (j : Nat) (phase : Phase) : DeviceRelayClient :=
  { client with loops := client.loops.modify j fun receiveLoop => { receiveLoop with phase } }

def receivingOn (j : Nat) : Option Nat :=
  match client.loops[j]? with
  | some ⟨_, .receiving socket⟩ => some socket
  | _ => none

def isDead (socket : Nat) : Prop := socket ∈ client.failed ∨ socket ∈ client.cancelled

instance (socket : Nat) : Decidable (client.isDead socket) := inferInstanceAs (Decidable (_ ∨ _))

def resultOf (id : Nat) : Option (Except RelayError Data) :=
  (client.resumed.find? fun resumption => resumption.id = id).map Resumption.result

def step : Action → Option DeviceRelayClient
  | .call =>
      some (callOnce { client with callers := client.callers ++ [Caller.done] }
        client.callers.length 0)
  | .token i ok =>
      match client.callers[i]? with
      | some (.connecting attempt) =>
          some (if ok then client.openSocket.register i attempt client.nextSocket
            else client.caught i attempt .notConnected)
      | _ => none
  | .goOn i =>
      match client.callers[i]? with
      | some (.waiting attempt id) =>
          (client.resultOf id).map fun
            | .ok _ => client.setCaller i .done
            | .error error => client.caught i attempt error
      | _ => none
  | .wake i =>
      match client.callers[i]? with
      | some (.sleeping attempt) => some (client.callOnce i attempt)
      | _ => none
  | .send k =>
      (client.unsent[k]?).map fun id =>
        let client := { client with unsent := client.unsent.eraseIdx k }
        match client.socket with
        | none => client.failCall id .notConnected .link
        | some socket =>
            { client with
              pending := client.pending.map fun waiter =>
                if waiter.id = id then { waiter with socket } else waiter
              sends := client.sends ++ [(id, socket)] }
  | .sent k ok =>
      match client.sends[k]? with
      | some (id, socket) =>
          let after := { client with sends := client.sends.eraseIdx k }
          if ok then some after
          else if client.isDead socket then
            some ((after.failCall id .notConnected .link).teardown .notConnected)
          else none
      | none => none
  | .timeout k =>
      (client.timers[k]?).map fun id =>
        { client with timers := client.timers.eraseIdx k }.failCall id .timeout .timer
  | .fails socket =>
      if socket < client.nextSocket then
        some { client with failed := insert socket client.failed }
      else none
  | .loop j =>
      match client.loops[j]? with
      | some ⟨cancelled, .top⟩ => some (client.setLoop j (if cancelled then .ended else .asking))
      | some ⟨_, .asking⟩ => some (client.setLoop j (client.socket.elim .ended .receiving))
      | _ => none
  | .message j message =>
      (client.receivingOn j).map fun socket => (client.handleInbound socket message).setLoop j .top
  | .throws j =>
      match client.receivingOn j with
      | some socket =>
          if client.isDead socket then some ((client.teardown .hostOffline).setLoop j .ended)
          else none
      | none => none

end DeviceRelayClient

def machine : Machine DeviceRelayClient Action where
  init := (· = .new)
  step := DeviceRelayClient.step

namespace DeviceRelayClient

/-! ## Every attempt is accounted for -/

/-- An id was given out to a waiter with a timer or to what was resumed, and to nothing twice. -/
structure Accounts (client : DeviceRelayClient) : Prop where
  started : 1 ≤ client.nextId
  nodup : (client.ids ++ client.resumed.map Resumption.id).Nodup
  counted : ∀ id, id ∈ client.ids ∨ id ∈ client.resumed.map Resumption.id ↔
    1 ≤ id ∧ id < client.nextId
  timed : ∀ id ∈ client.ids, id ∈ client.timers
  answered : ∀ resumption ∈ client.resumed, ∀ data, resumption.result = .ok data →
    resumption.cause = .reply resumption.id

variable {client client' : DeviceRelayClient}

theorem Accounts.congr (h : client.Accounts) (hids : client'.ids = client.ids)
    (hresumed : client'.resumed = client.resumed) (hnextId : client'.nextId = client.nextId)
    (htimers : client'.timers = client.timers) : client'.Accounts where
  started := by
    rw [hnextId]
    exact h.started
  nodup := by
    rw [hids, hresumed]
    exact h.nodup
  counted := by
    rw [hids, hresumed, hnextId]
    exact h.counted
  timed := by
    rw [hids, htimers]
    exact h.timed
  answered := by
    rw [hresumed]
    exact h.answered

theorem resume_cases (id : Nat) (result : Except RelayError Data) (cause : Cause) :
    (id ∉ client.ids ∧ client.resume id result cause = client) ∨
      ∃ waiter ∈ client.pending, waiter.id = id ∧ client.resume id result cause =
        { client with
          pending := client.pending.filter fun waiter => waiter.id ≠ id
          resumed := client.resumed ++ [⟨id, result, cause, waiter.socket⟩] } := by
  unfold resume
  split
  · rename_i hnone
    refine .inl ⟨fun hmem => ?_, rfl⟩
    obtain ⟨waiter, hwaiter, rfl⟩ := List.mem_map.mp hmem
    exact absurd (List.find?_eq_none.mp hnone waiter hwaiter) (by simp)
  · rename_i waiter hsome
    exact .inr ⟨waiter, List.mem_of_find?_eq_some hsome,
      by simpa using List.find?_some hsome, rfl⟩

theorem mem_ids_filter {id other : Nat} {pending : List Waiter} :
    other ∈ (pending.filter fun waiter => waiter.id ≠ id).map Waiter.id ↔
      other ∈ pending.map Waiter.id ∧ other ≠ id := by
  simp only [List.mem_map, List.mem_filter, decide_eq_true_eq]
  constructor
  · rintro ⟨waiter, ⟨hmem, hne⟩, rfl⟩
    exact ⟨⟨waiter, hmem, rfl⟩, hne⟩
  · rintro ⟨⟨waiter, hmem, rfl⟩, hne⟩
    exact ⟨waiter, ⟨hmem, hne⟩, rfl⟩

theorem Accounts.resume (h : client.Accounts) {id : Nat} {result : Except RelayError Data}
    {cause : Cause} (hresult : ∀ data, result = .ok data → cause = .reply id) :
    (client.resume id result cause).Accounts := by
  obtain ⟨-, heq⟩ | ⟨waiter, hwaiter, hid, heq⟩ := @resume_cases client id result cause
  · rw [heq]
    exact h
  · rw [heq]
    have hmem : id ∈ client.ids := List.mem_map.mpr ⟨waiter, hwaiter, hid⟩
    obtain ⟨hids, hresumed, hdisjoint⟩ := List.nodup_append'.mp h.nodup
    refine ⟨h.started, ?_, fun other => ?_, fun other hother => ?_, ?_⟩
    · rw [List.map_append, List.nodup_append']
      refine ⟨(List.filter_sublist.map Waiter.id).nodup hids, ?_, ?_⟩
      · exact List.nodup_append'.mpr ⟨hresumed, List.nodup_singleton id,
          List.disjoint_singleton.mpr (hdisjoint hmem)⟩
      · intro other hother hlater
        obtain ⟨hold, hne⟩ := mem_ids_filter.mp hother
        obtain hlater | hlast := List.mem_append.mp hlater
        · exact hdisjoint hold hlater
        · exact hne (List.mem_singleton.mp hlast)
    · rw [← h.counted other, List.map_append, List.mem_append, List.map_singleton,
        List.mem_singleton, ids, mem_ids_filter]
      by_cases heq : other = id
      · subst heq
        exact ⟨fun _ => .inl hmem, fun _ => .inr (.inr rfl)⟩
      · simp only [heq, or_false, ne_eq, not_false_eq_true, and_true]
        rfl
    · exact h.timed other (mem_ids_filter.mp hother).1
    · intro resumption hresumption data hdata
      obtain hold | hnew := List.mem_append.mp hresumption
      · exact h.answered resumption hold data hdata
      · cases List.mem_singleton.mp hnew
        exact hresult data hdata

theorem Accounts.failCall (h : client.Accounts) (id : Nat) (error : RelayError) (cause : Cause) :
    (client.failCall id error cause).Accounts :=
  h.resume nofun

theorem Accounts.teardown (h : client.Accounts) (error : RelayError) :
    (client.teardown error).Accounts := by
  have hids : (client.teardown error).resumed.map Resumption.id =
      client.resumed.map Resumption.id ++ client.ids := by
    rw [DeviceRelayClient.teardown, List.map_append, List.map_map]
    rfl
  refine ⟨h.started, ?_, fun id => ?_, nofun, ?_⟩
  · have hnone : (client.teardown error).ids = [] := rfl
    rw [hids, hnone, List.nil_append]
    exact List.nodup_append_comm.mp h.nodup
  · have hnone : id ∉ (client.teardown error).ids := List.not_mem_nil
    rw [hids, List.mem_append, or_iff_right hnone, or_comm]
    exact h.counted id
  · intro resumption hresumption data hdata
    obtain hold | hnew := List.mem_append.mp hresumption
    · exact h.answered resumption hold data hdata
    · obtain ⟨waiter, -, rfl⟩ := List.mem_map.mp hnew
      cases hdata

theorem Accounts.register (h : client.Accounts) (i attempt socket : Nat) :
    (client.register i attempt socket).Accounts := by
  have hids : (client.register i attempt socket).ids = client.ids ++ [client.nextId] := by
    rw [ids, DeviceRelayClient.register, setCaller, List.map_append]
    rfl
  have hfresh : client.nextId ∉ client.ids ∧ client.nextId ∉ client.resumed.map Resumption.id := by
    rw [← not_or, h.counted]
    omega
  obtain ⟨hnodup, hresumed, hdisjoint⟩ := List.nodup_append'.mp h.nodup
  refine ⟨Nat.le_succ_of_le h.started, ?_, fun id => ?_, fun id hid => ?_, h.answered⟩
  · rw [hids]
    refine List.nodup_append'.mpr ⟨List.nodup_append'.mpr ⟨hnodup, List.nodup_singleton _,
      List.disjoint_singleton.mpr hfresh.1⟩, hresumed, ?_⟩
    intro id hid hlater
    obtain hold | hnew := List.mem_append.mp hid
    · exact hdisjoint hold hlater
    · exact hfresh.2 (List.mem_singleton.mp hnew ▸ hlater)
  · have hnext : (client.register i attempt socket).nextId = client.nextId + 1 := rfl
    have hsame : (client.register i attempt socket).resumed = client.resumed := rfl
    have hcounted := h.counted id
    have hstarted := h.started
    rw [hids, hnext, hsame, List.mem_append, List.mem_singleton, or_right_comm, hcounted]
    omega
  · rw [hids] at hid
    obtain hold | hnew := List.mem_append.mp hid
    · exact List.mem_append_left _ (h.timed id hold)
    · exact List.mem_append_right _ hnew

theorem Accounts.callOnce (h : client.Accounts) (i attempt : Nat) :
    (client.callOnce i attempt).Accounts := by
  unfold DeviceRelayClient.callOnce
  split
  · exact h.register ..
  · exact h.congr rfl rfl rfl rfl

theorem Accounts.caught (h : client.Accounts) (i attempt : Nat) (error : RelayError) :
    (client.caught i attempt error).Accounts := by
  unfold DeviceRelayClient.caught
  split
  · exact (h.teardown error).congr rfl rfl rfl rfl
  · exact h.congr rfl rfl rfl rfl

theorem Accounts.handleRpcPayload (lines : List ServerFrame) (h : client.Accounts) :
    (handleRpcPayload lines client).Accounts := by
  induction lines generalizing client with
  | nil => exact h
  | cons line lines ih =>
      refine ih ?_
      unfold handleLine
      split
      · exact h
      · exact h.resume fun _ _ => rfl

theorem Accounts.handleInbound (h : client.Accounts) (socket : Nat) (message : Message) :
    (client.handleInbound socket message).Accounts := by
  cases message with
  | ignored => exact h
  | rpc lines => exact h.handleRpcPayload lines
  | relay =>
      have hcontrolled :
          Accounts { client with controlled := insert socket client.controlled } :=
        h.congr rfl rfl rfl rfl
      exact hcontrolled.teardown _

theorem mem_ids_resume {id other : Nat} (result : Except RelayError Data) (cause : Cause) :
    other ∈ (client.resume id result cause).ids ↔ other ∈ client.ids ∧ other ≠ id := by
  obtain ⟨hgone, heq⟩ | ⟨waiter, -, -, heq⟩ := @resume_cases client id result cause
  · rw [heq]
    exact ⟨fun h => ⟨h, ne_of_mem_of_not_mem h hgone⟩, And.left⟩
  · rw [heq]
    exact mem_ids_filter

theorem resume_timers (id : Nat) (result : Except RelayError Data) (cause : Cause)
    (timers : List Nat) :
    { client with timers }.resume id result cause =
      { client.resume id result cause with timers } := by
  unfold resume
  dsimp only
  split <;> rfl

theorem Accounts.timeout (h : client.Accounts) {k id : Nat} (hid : client.timers[k]? = some id) :
    ({ client with timers := client.timers.eraseIdx k }.failCall id .timeout .timer).Accounts := by
  have hfailed := h.failCall id .timeout .timer
  unfold DeviceRelayClient.failCall at hfailed ⊢
  rw [resume_timers]
  refine ⟨hfailed.started, hfailed.nodup, hfailed.counted, fun other hother => ?_, hfailed.answered⟩
  obtain ⟨hold, hne⟩ := (mem_ids_resume _ _).mp hother
  exact mem_eraseIdx_of_ne hid (h.timed other hold) hne

theorem ids_resend (pending : List Waiter) (id socket : Nat) :
    (pending.map fun waiter : Waiter =>
      if waiter.id = id then { waiter with socket } else waiter).map Waiter.id =
      pending.map Waiter.id := by
  rw [List.map_map]
  refine List.map_congr_left fun waiter _ => ?_
  rw [Function.comp_apply]
  split_ifs <;> rfl

theorem Accounts.step (h : client.Accounts) {action : Action}
    (hstep : client.step action = some client') : client'.Accounts := by
  cases action with
  | call =>
      cases hstep
      have hcallers : Accounts { client with callers := client.callers ++ [Caller.done] } :=
        h.congr rfl rfl rfl rfl
      exact hcallers.callOnce _ _
  | token i ok =>
      simp only [DeviceRelayClient.step] at hstep
      split at hstep
      · rename_i attempt hcaller
        cases ok with
        | true =>
            cases hstep
            have hopened : client.openSocket.Accounts := h.congr rfl rfl rfl rfl
            exact hopened.register ..
        | false =>
            cases hstep
            exact h.caught ..
      · cases hstep
  | goOn i =>
      simp only [DeviceRelayClient.step] at hstep
      split at hstep
      · obtain ⟨result, -, rfl⟩ := Option.map_eq_some_iff.mp hstep
        cases result with
        | ok data => exact h.congr rfl rfl rfl rfl
        | error error => exact h.caught ..
      · cases hstep
  | wake i =>
      simp only [DeviceRelayClient.step] at hstep
      split at hstep
      · cases hstep
        exact h.callOnce ..
      · cases hstep
  | send k =>
      obtain ⟨id, -, rfl⟩ := Option.map_eq_some_iff.mp hstep
      have htaken : Accounts { client with unsent := client.unsent.eraseIdx k } :=
        h.congr rfl rfl rfl rfl
      dsimp only
      split
      · exact htaken.failCall ..
      · refine h.congr ?_ rfl rfl rfl
        exact ids_resend client.pending id _
  | sent k ok =>
      simp only [DeviceRelayClient.step] at hstep
      split at hstep
      · rename_i id socket hsend
        have htaken : Accounts { client with sends := client.sends.eraseIdx k } :=
          h.congr rfl rfl rfl rfl
        split_ifs at hstep
        · cases hstep
          exact htaken
        · cases hstep
          exact (htaken.failCall ..).teardown _
      · cases hstep
  | timeout k =>
      obtain ⟨id, hid, rfl⟩ := Option.map_eq_some_iff.mp hstep
      exact h.timeout hid
  | fails socket =>
      simp only [DeviceRelayClient.step] at hstep
      split_ifs at hstep
      cases hstep
      exact h.congr rfl rfl rfl rfl
  | loop j =>
      simp only [DeviceRelayClient.step] at hstep
      split at hstep
      · cases hstep
        exact h.congr rfl rfl rfl rfl
      · cases hstep
        exact h.congr rfl rfl rfl rfl
      · cases hstep
  | message j message =>
      obtain ⟨socket, -, rfl⟩ := Option.map_eq_some_iff.mp hstep
      exact (h.handleInbound socket message).congr rfl rfl rfl rfl
  | throws j =>
      simp only [DeviceRelayClient.step] at hstep
      split at hstep
      · split_ifs at hstep
        cases hstep
        exact (h.teardown _).congr rfl rfl rfl rfl
      · cases hstep

theorem accounts_new : new.Accounts where
  started := Nat.le_refl 1
  nodup := List.nodup_nil
  counted := by
    intro id
    change id ∈ [] ∨ id ∈ [] ↔ 1 ≤ id ∧ id < 1
    simp
    omega
  timed := nofun
  answered := nofun

theorem accounts_of_reachable (h : machine.Reachable client) : client.Accounts := by
  refine h.invariant (fun client hinit => ?_) fun client action client' hinv _ hstep =>
    hinv.step hstep
  cases hinit
  exact accounts_new

/-! ## Teardowns in place -/

variable (client) in
/-- An action that tears down, with the socket it does so for: the one that failed or had a control
frame, and none for a call that tries again. -/
def tearsDown : Action → Option (Option Nat)
  | .token i false =>
      match client.callers[i]? with
      | some (.connecting attempt) => if retries attempt .notConnected then some none else none
      | _ => none
  | .goOn i =>
      match client.callers[i]? with
      | some (.waiting attempt id) =>
          (client.resultOf id).bind fun
            | .ok _ => none
            | .error error => if retries attempt error then some none else none
      | _ => none
  | .sent k false => (client.sends[k]?).map fun sent => some sent.2
  | .message j .relay => (client.receivingOn j).map some
  | .throws j => (client.receivingOn j).map some
  | _ => none

/-- The attempts that wait when an action tears down are all on the socket it does so for. -/
def InPlace (client : DeviceRelayClient) (action : Action) : Prop :=
  ((client.tearsDown action).all fun socket =>
    client.pending.all fun waiter => some waiter.socket = socket) = true

instance (action : Action) : Decidable (InPlace client action) :=
  inferInstanceAs (Decidable (_ = _))

theorem InPlace.socket_eq {action : Action} (h : InPlace client action) {socket : Option Nat}
    (htears : client.tearsDown action = some socket) :
    ∀ waiter ∈ client.pending, some waiter.socket = socket := by
  unfold InPlace at h
  rw [htears, Option.all_some, List.all_eq_true] at h
  exact fun waiter hwaiter => of_decide_eq_true (h waiter hwaiter)

def Resumption.isLink (resumption : Resumption) : Prop :=
  ∃ error, resumption.result = .error error ∧ error.isLink = true

variable (client) in
/-- The socket failed, or a control frame closed it. -/
def isDown (socket : Nat) : Prop := socket ∈ client.failed ∨ socket ∈ client.controlled

/-- Who waits, waits on a socket that was not cancelled. -/
structure Linked (client : DeviceRelayClient) : Prop where
  uncancelled : ∀ waiter ∈ client.pending, waiter.socket ∉ client.cancelled
  connected : client.socket = none → client.pending = []
  current : ∀ socket, client.socket = some socket →
    socket ∉ client.cancelled ∧ socket < client.nextSocket
  opened : ∀ socket ∈ client.cancelled, socket < client.nextSocket
  blamed : ∀ resumption ∈ client.resumed, Resumption.isLink resumption →
    client.isDown resumption.socket

theorem linked_new : new.Linked := ⟨nofun, fun _ => rfl, nofun, nofun, nofun⟩

theorem Linked.resume (h : client.Linked) {id : Nat} {result : Except RelayError Data}
    {cause : Cause}
    (hblame : ∀ waiter ∈ client.pending, waiter.id = id →
      ∀ error, result = .error error → error.isLink = true → client.isDown waiter.socket) :
    (client.resume id result cause).Linked := by
  obtain ⟨-, heq⟩ | ⟨waiter, hwaiter, hid, heq⟩ := @resume_cases client id result cause
  · rw [heq]
    exact h
  · rw [heq]
    refine ⟨fun other hother => ?_, fun hnone => ?_, h.current, h.opened, ?_⟩
    · exact h.uncancelled other (List.mem_of_mem_filter hother)
    · change client.pending.filter _ = []
      rw [h.connected hnone]
      rfl
    · intro resumption hresumption hlink
      obtain hold | hnew := List.mem_append.mp hresumption
      · exact h.blamed resumption hold hlink
      · cases List.mem_singleton.mp hnew
        obtain ⟨error, herror, hlink⟩ := hlink
        exact hblame waiter hwaiter hid error herror hlink

theorem Linked.teardown (h : client.Linked)
    (hblame : ∀ waiter ∈ client.pending, client.isDown waiter.socket) (error : RelayError) :
    (client.teardown error).Linked := by
  refine ⟨nofun, fun _ => rfl, nofun, fun socket hsocket => ?_, ?_⟩
  · unfold DeviceRelayClient.teardown at hsocket
    cases hcurrent : client.socket with
    | none =>
        rw [hcurrent] at hsocket
        exact h.opened socket hsocket
    | some current =>
        rw [hcurrent] at hsocket
        obtain rfl | hold := Finset.mem_insert.mp hsocket
        · exact (h.current _ hcurrent).2
        · exact h.opened socket hold
  · intro resumption hresumption hlink
    obtain hold | hnew := List.mem_append.mp hresumption
    · exact h.blamed resumption hold hlink
    · obtain ⟨waiter, hwaiter, rfl⟩ := List.mem_map.mp hnew
      exact hblame waiter hwaiter

theorem Linked.register (h : client.Linked) (i attempt : Nat) {socket : Nat}
    (hsocket : client.socket = some socket) : (client.register i attempt socket).Linked := by
  refine ⟨fun waiter hwaiter => ?_, fun hnone => ?_, h.current, h.opened, h.blamed⟩
  · obtain hold | hnew := List.mem_append.mp hwaiter
    · exact h.uncancelled waiter hold
    · cases List.mem_singleton.mp hnew
      exact (h.current socket hsocket).1
  · change client.socket = none at hnone
    rw [hsocket] at hnone
    cases hnone

theorem Linked.callOnce (h : client.Linked) (i attempt : Nat) :
    (client.callOnce i attempt).Linked := by
  unfold DeviceRelayClient.callOnce
  split
  · rename_i socket _ hsocket
    exact h.register i attempt hsocket
  · exact ⟨h.uncancelled, h.connected, h.current, h.opened, h.blamed⟩

theorem Linked.openSocket (h : client.Linked) : client.openSocket.Linked := by
  refine ⟨h.uncancelled, nofun, fun socket hsocket => ?_, fun socket hsocket => ?_, h.blamed⟩
  · cases hsocket
    exact ⟨fun hmem => absurd (h.opened _ hmem) (Nat.lt_irrefl _), Nat.lt_succ_self _⟩
  · exact Nat.lt_succ_of_lt (h.opened socket hsocket)

theorem Linked.caught (h : client.Linked) (i attempt : Nat) (error : RelayError)
    (hnone : retries attempt error = true → client.pending = []) :
    (client.caught i attempt error).Linked := by
  unfold DeviceRelayClient.caught
  split
  · rename_i hretries
    have hteardown := h.teardown (fun waiter hwaiter => by
      rw [hnone hretries] at hwaiter
      cases hwaiter) error
    exact ⟨hteardown.uncancelled, hteardown.connected, hteardown.current, hteardown.opened,
      hteardown.blamed⟩
  · exact ⟨h.uncancelled, h.connected, h.current, h.opened, h.blamed⟩

theorem Linked.handleRpcPayload (lines : List ServerFrame) (h : client.Linked) :
    (handleRpcPayload lines client).Linked := by
  induction lines generalizing client with
  | nil => exact h
  | cons line lines ih =>
      refine ih ?_
      unfold handleLine
      split
      · exact h
      · refine h.resume fun _ _ _ error herror hlink => ?_
        unfold ServerFrame.result at herror
        split at herror <;> cases herror <;> cases hlink

theorem Linked.handleInbound (h : client.Linked) {socket : Nat} {message : Message}
    (hrelay : message = .relay → ∀ waiter ∈ client.pending, some waiter.socket = some socket) :
    (client.handleInbound socket message).Linked := by
  cases message with
  | ignored => exact h
  | rpc lines => exact h.handleRpcPayload lines
  | relay =>
      have hcontrolled :
          Linked { client with controlled := insert socket client.controlled } := by
        refine ⟨h.uncancelled, h.connected, h.current, h.opened, fun resumption hmem hlink => ?_⟩
        exact (h.blamed resumption hmem hlink).imp id (Finset.mem_insert_of_mem ·)
      refine hcontrolled.teardown (fun waiter hwaiter => ?_) _
      cases hrelay rfl waiter hwaiter
      exact .inr (Finset.mem_insert_self _ _)

theorem Linked.isDown_of_isDead (h : client.Linked) {socket : Nat} (hdead : client.isDead socket)
    (hplace : ∀ waiter ∈ client.pending, some waiter.socket = some socket) :
    ∀ waiter ∈ client.pending, client.isDown waiter.socket := by
  intro waiter hwaiter
  cases hplace waiter hwaiter
  exact .inl (hdead.resolve_right (h.uncancelled waiter hwaiter))

theorem isDown_resume (hdown : ∀ waiter ∈ client.pending, client.isDown waiter.socket) (id : Nat)
    (result : Except RelayError Data) (cause : Cause) :
    ∀ waiter ∈ (client.resume id result cause).pending,
      (client.resume id result cause).isDown waiter.socket := by
  obtain ⟨-, heq⟩ | ⟨_, -, -, heq⟩ := @resume_cases client id result cause
  · rw [heq]
    exact hdown
  · rw [heq]
    exact fun waiter hwaiter => hdown waiter (List.mem_of_mem_filter hwaiter)

theorem Linked.step (h : client.Linked) {action : Action} (hplace : client.InPlace action)
    (hstep : client.step action = some client') : client'.Linked := by
  cases action with
  | call =>
      cases hstep
      have hcallers : Linked { client with callers := client.callers ++ [Caller.done] } :=
        ⟨h.uncancelled, h.connected, h.current, h.opened, h.blamed⟩
      exact hcallers.callOnce _ _
  | token i ok =>
      simp only [DeviceRelayClient.step] at hstep
      split at hstep
      · rename_i attempt hcaller
        cases ok with
        | true =>
            cases hstep
            exact h.openSocket.register _ _ rfl
        | false =>
            cases hstep
            refine h.caught _ _ _ fun hretries => ?_
            have htears : client.tearsDown (.token i false) = some none := by
              simp only [tearsDown, hcaller, hretries, if_true]
            refine List.eq_nil_iff_forall_not_mem.mpr fun waiter hwaiter => ?_
            cases hplace.socket_eq htears waiter hwaiter
      · cases hstep
  | goOn i =>
      simp only [DeviceRelayClient.step] at hstep
      split at hstep
      · rename_i attempt id hcaller
        obtain ⟨result, hresult, rfl⟩ := Option.map_eq_some_iff.mp hstep
        cases result with
        | ok data => exact ⟨h.uncancelled, h.connected, h.current, h.opened, h.blamed⟩
        | error error =>
            refine h.caught _ _ _ fun hretries => ?_
            have htears : client.tearsDown (.goOn i) = some none := by
              simp only [tearsDown, hcaller, hresult, hretries, Option.bind_some, if_true]
            refine List.eq_nil_iff_forall_not_mem.mpr fun waiter hwaiter => ?_
            cases hplace.socket_eq htears waiter hwaiter
      · cases hstep
  | wake i =>
      simp only [DeviceRelayClient.step] at hstep
      split at hstep
      · cases hstep
        exact h.callOnce ..
      · cases hstep
  | send k =>
      obtain ⟨id, -, rfl⟩ := Option.map_eq_some_iff.mp hstep
      have htaken : Linked { client with unsent := client.unsent.eraseIdx k } :=
        ⟨h.uncancelled, h.connected, h.current, h.opened, h.blamed⟩
      dsimp only
      split
      · rename_i hnone
        refine htaken.resume fun waiter hwaiter => ?_
        change waiter ∈ client.pending at hwaiter
        rw [h.connected hnone] at hwaiter
        cases hwaiter
      · rename_i socket hsocket
        refine ⟨fun waiter hwaiter => ?_, fun hnone => ?_, h.current, h.opened, h.blamed⟩
        · obtain ⟨before, hbefore, rfl⟩ := List.mem_map.mp hwaiter
          split_ifs
          · exact (h.current socket hsocket).1
          · exact h.uncancelled before hbefore
        · rw [hsocket] at hnone
          cases hnone
  | sent k ok =>
      simp only [DeviceRelayClient.step] at hstep
      split at hstep
      · rename_i id socket hsend
        have htaken : Linked { client with sends := client.sends.eraseIdx k } :=
          ⟨h.uncancelled, h.connected, h.current, h.opened, h.blamed⟩
        split_ifs at hstep with hok hdead
        · cases hstep
          exact htaken
        · cases hstep
          have htears : client.tearsDown (.sent k ok) = some (some socket) := by
            rw [eq_false_of_ne_true hok]
            simp only [tearsDown, hsend, Option.map_some]
          have hdown := h.isDown_of_isDead hdead (hplace.socket_eq htears)
          have hfailed := @Linked.resume _ htaken id (.error .notConnected) .link
            fun waiter hwaiter _ _ _ _ => hdown waiter hwaiter
          exact hfailed.teardown
            (@isDown_resume { client with sends := client.sends.eraseIdx k } hdown id _ _) _
      · cases hstep
  | timeout k =>
      obtain ⟨id, hid, rfl⟩ := Option.map_eq_some_iff.mp hstep
      have htaken : Linked { client with timers := client.timers.eraseIdx k } :=
        ⟨h.uncancelled, h.connected, h.current, h.opened, h.blamed⟩
      refine htaken.resume fun _ _ _ error herror hlink => ?_
      cases herror
      cases hlink
  | fails socket =>
      simp only [DeviceRelayClient.step] at hstep
      split_ifs at hstep
      cases hstep
      refine ⟨h.uncancelled, h.connected, h.current, h.opened, fun resumption hmem hlink => ?_⟩
      exact (h.blamed resumption hmem hlink).imp (Finset.mem_insert_of_mem ·) id
  | loop j =>
      simp only [DeviceRelayClient.step] at hstep
      split at hstep
      · cases hstep
        exact ⟨h.uncancelled, h.connected, h.current, h.opened, h.blamed⟩
      · cases hstep
        exact ⟨h.uncancelled, h.connected, h.current, h.opened, h.blamed⟩
      · cases hstep
  | message j message =>
      obtain ⟨socket, hsocket, rfl⟩ := Option.map_eq_some_iff.mp hstep
      have hinbound : (client.handleInbound socket message).Linked := by
        refine h.handleInbound fun hrelay => ?_
        subst hrelay
        refine hplace.socket_eq ?_
        simp only [tearsDown, hsocket, Option.map_some]
      exact ⟨hinbound.uncancelled, hinbound.connected, hinbound.current, hinbound.opened,
        hinbound.blamed⟩
  | throws j =>
      simp only [DeviceRelayClient.step] at hstep
      split at hstep
      · rename_i socket hsocket
        split_ifs at hstep with hdead
        cases hstep
        have htears : client.tearsDown (.throws j) = some (some socket) := by
          simp only [tearsDown, hsocket, Option.map_some]
        have hteardown :=
          h.teardown (h.isDown_of_isDead hdead (hplace.socket_eq htears)) .hostOffline
        exact ⟨hteardown.uncancelled, hteardown.connected, hteardown.current, hteardown.opened,
          hteardown.blamed⟩
      · cases hstep

theorem linked_of_reachable (h : machine.ReachableWhen InPlace client) : client.Linked := by
  refine h.invariant (fun client hinit => ?_) fun client action client' hinv hplace hstep =>
    hinv.step hplace hstep
  cases hinit
  exact linked_new

theorem Accounts.timeout_resumes (h : client.Accounts) {id : Nat} (hid : id ∈ client.ids) :
    ∃ k client', client.step (.timeout k) = some client' ∧
      id ∈ client'.resumed.map Resumption.id := by
  obtain ⟨k, hk⟩ := List.getElem?_of_mem (h.timed id hid)
  refine ⟨k, _, Option.map_eq_some_iff.mpr ⟨id, hk, rfl⟩, ?_⟩
  obtain ⟨hgone, -⟩ | ⟨waiter, -, -, heq⟩ := @resume_cases
    { client with timers := client.timers.eraseIdx k } id (.error .timeout) .timer
  · exact absurd hid hgone
  · unfold DeviceRelayClient.failCall
    rw [heq, List.map_append]
    exact List.mem_append_right _ List.mem_cons_self

theorem Accounts.once (h : client.Accounts) {id : Nat} (hpos : 1 ≤ id) (hlt : id < client.nextId) :
    (id ∈ client.ids ∧ id ∉ client.resumed.map Resumption.id ∧
      ∃ k client', client.step (.timeout k) = some client' ∧
        id ∈ client'.resumed.map Resumption.id) ∨
    (id ∉ client.ids ∧ (client.resumed.map Resumption.id).count id = 1) := by
  obtain ⟨-, hresumed, hdisjoint⟩ := List.nodup_append'.mp h.nodup
  obtain hid | hid := (h.counted id).mpr ⟨hpos, hlt⟩
  · exact .inl ⟨hid, hdisjoint hid, h.timeout_resumes hid⟩
  · exact .inr ⟨fun hwaits => hdisjoint hwaits hid, List.count_eq_one_of_mem hresumed hid⟩

/-- An attempt is resumed once, with a success by its own reply, and with a link error only if the
socket it was sent on went down. -/
theorem calls_fail_with_their_link (h : machine.ReachableWhen InPlace client) :
    (∀ id, 1 ≤ id → id < client.nextId →
      (id ∈ client.ids ∧ id ∉ client.resumed.map Resumption.id ∧
        ∃ k client', client.step (.timeout k) = some client' ∧
          id ∈ client'.resumed.map Resumption.id) ∨
      (id ∉ client.ids ∧ (client.resumed.map Resumption.id).count id = 1)) ∧
    (∀ resumption ∈ client.resumed, ∀ data, resumption.result = .ok data →
      resumption.cause = .reply resumption.id) ∧
    ∀ resumption ∈ client.resumed, Resumption.isLink resumption →
      client.isDown resumption.socket := by
  have haccounts : client.Accounts := accounts_of_reachable (h.mono fun _ _ _ => trivial)
  exact ⟨fun id => haccounts.once, haccounts.answered, (linked_of_reachable h).blamed⟩

def answered : List Action :=
  [.call, .token 0 true, .loop 0, .loop 0, .send 0, .sent 0 true,
    .message 0 (.rpc [⟨some 1, none, some []⟩]), .goOn 0, .call, .fails 0, .loop 0, .loop 0,
    .throws 0]

theorem calls_fail_with_their_link_answered :
    ∃ client : DeviceRelayClient,
      client.resumed = [⟨1, .ok [], .reply 1, 0⟩, ⟨2, .error .hostOffline, .link, 0⟩] ∧
      (∀ resumption ∈ client.resumed, ∀ data, resumption.result = .ok data →
        resumption.cause = .reply resumption.id) ∧
      ∀ resumption ∈ client.resumed, Resumption.isLink resumption →
        client.isDown resumption.socket := by
  obtain ⟨client, hsteps, hclient⟩ := Machine.exists_steps_of_runWhen machine InPlace
    (s := new) answered
    (p := fun client => decide (client.resumed =
      [⟨1, .ok [], .reply 1, 0⟩, ⟨2, .error .hostOffline, .link, 0⟩])) (by decide +kernel)
  exact ⟨client, of_decide_eq_true hclient,
    (calls_fail_with_their_link ⟨_, rfl, hsteps⟩).2⟩

/-- The send fails on the first socket and the call dials again; the loop of the first socket then
ends, and takes the second with it. -/
def replaced : List Action :=
  [.call, .token 0 true, .loop 0, .loop 0, .send 0, .fails 0, .sent 0 false, .goOn 0, .wake 0,
    .token 0 true, .send 0, .sent 0 true, .throws 0]

theorem replaced_loop_fails_call :
    ¬∀ client, machine.Reachable client → ∀ resumption ∈ client.resumed,
      Resumption.isLink resumption → client.isDown resumption.socket := by
  intro h
  obtain ⟨client, hsteps, hclient⟩ := Machine.exists_steps_of_runWhen machine Machine.anyStep
    (s := new) replaced
    (p := fun client => decide (client.failed = {0} ∧ client.controlled = ∅ ∧
      ⟨2, .error .hostOffline, .link, 1⟩ ∈ client.resumed)) (by decide +kernel)
  obtain ⟨hfailed, hcontrolled, hmem⟩ := of_decide_eq_true hclient
  obtain hdown | hdown := h client ⟨_, rfl, hsteps⟩ _ hmem ⟨_, rfl, rfl⟩
  · rw [hfailed] at hdown
    cases Finset.mem_singleton.mp hdown
  · rw [hcontrolled] at hdown
    cases hdown

end DeviceRelayClient

end Zeron.Ios.DeviceRelay
