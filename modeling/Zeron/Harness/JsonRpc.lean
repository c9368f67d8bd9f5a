import Mathlib.Data.Finset.Basic
import Zeron.Doc.Rebuild
import Zeron.Lib.Machine
import Zeron.Registry.Raw

/-!
# The JSON-RPC client of a child agent

`harness/src/jsonrpc.rs`: requests, notifications and answers go to the child's stdin through one
channel, and a task reads the child's stdout. Allocating an id, registering a request and sending its
line are separate steps. Lines are lists of characters; `none` is a line that is not UTF-8.
-/

namespace Zeron.Harness.JsonRpc

open Zeron.Doc (trim)
open Zeron.Lib (Machine)
open Zeron.Registry (JsonValue)

/-- `serde_json`; `whole` is `as i64` of a double without a fraction. -/
structure SerdeJson where
  parse : List Char → Option JsonValue
  render : JsonValue → String
  whole : String → Option Int

/-- `Value::get` -/
def get (key : String) : JsonValue → Option JsonValue
  | .object entries => entries.lookup key
  | _ => none

/-- A non-response line from the app server. -/
inductive Incoming where
  | notification (method : String) (params : JsonValue)
  | request (id : JsonValue) (method : String) (params : JsonValue)
  | eof
deriving DecidableEq

inductive HarnessError where
  | protocol (message : String)
deriving DecidableEq

def channelCap : Nat := 256

/-! ## Lines of the agent -/

def decimal (digits : List Char) : Option Nat :=
  if digits ≠ [] ∧ digits.all Char.isDigit = true then some (Nat.ofDigitChars 10 digits 0) else none

/-- `str::parse::<i64>` -/
def parseI64 : List Char → Option Int
  | '-' :: digits => (decimal digits).bind fun n => if n ≤ 2 ^ 63 then some (-n) else none
  | '+' :: digits | digits =>
      (decimal digits).bind fun n => if n < 2 ^ 63 then some (n : Int) else none

variable (lib : SerdeJson)

/-- An integer beyond `i64` goes through a double, and `as i64` saturates. -/
def responseId : JsonValue → Option Int
  | .int n => some (max (-2 ^ 63) (min n (2 ^ 63 - 1)))
  | .string text => parseI64 text.toList
  | .double text => lib.whole text
  | _ => none

def message (line : List Char) : Option JsonValue :=
  if trim line = [] then none else lib.parse (trim line)

def method (msg : JsonValue) : Option String := (get "method" msg).bind JsonValue.str?

def params (msg : JsonValue) : JsonValue := (get "params" msg).getD .null

def response (msg : JsonValue) : Option Int :=
  match method msg, get "id" msg with
  | none, some id => responseId lib id
  | _, _ => none

def forward (msg : JsonValue) : Option Incoming :=
  match method msg, get "id" msg with
  | some method, some id => some (.request id method (params msg))
  | some method, none => some (.notification method (params msg))
  | none, _ => none

def outcome (msg : JsonValue) : Except String JsonValue :=
  match get "error" msg with
  | some err => .error (((get "message" err).bind JsonValue.str?).getD (lib.render err))
  | none => .ok ((get "result" msg).getD .null)

def forwards (lines : List (Option (List Char))) : List Incoming :=
  lines.filterMap fun line => (line.bind (message lib)).bind forward

/-! ## Requests -/

/-- What becomes of the sender of a request. -/
inductive Fill where
  | outcome (msg : JsonValue)
  | dropped

def Fill.result (method : String) : Fill → Except HarnessError JsonValue
  | .outcome msg =>
      match JsonRpc.outcome lib msg with
      | .ok value => .ok value
      | .error text => .error (.protocol (method ++ ": " ++ text))
  | .dropped => .error (.protocol (method ++ ": app-server exited before responding"))

def stdinClosed (method : String) : HarnessError :=
  .protocol (method ++ ": app-server stdin closed")

inductive Phase where
  | allocated
  | inserted
  /-- In `rx.await`. -/
  | waiting
  /-- The writer is gone. -/
  | refused
  | returned
  | dropped
deriving DecidableEq

/-- One `request`. -/
structure Caller where
  method : String
  params : JsonValue
  phase : Phase
  fills : List Fill
  returns : List (Except HarnessError JsonValue)

inductive Reader where
  | reading
  /-- In `tx.send(incoming)`. -/
  | sending (incoming : Incoming)
  /-- In `tx.send(Eof)`. -/
  | cleared
  | ended
  /-- The receiver was gone before the end of the output. -/
  | returned
deriving DecidableEq

def Reader.hasCleared : Reader → Bool
  | .cleared | .ended => true
  | _ => false

inductive Stdout where
  | flowing
  | closed
  /-- Reading fails. -/
  | broken
deriving DecidableEq

structure RpcClient where
  nextId : Int
  callers : Int → Option Caller
  /-- The keys of the map. -/
  pending : Finset Int
  writer : List String
  writerOpen : Bool
  stdout : Stdout
  /-- The lines of the agent that the reader has taken, and the others. -/
  taken : List (Option (List Char))
  unread : List (Option (List Char))
  reader : Reader
  /-- All that went into the incoming channel, and how much of it came out. -/
  sent : List Incoming
  received : Nat
  receiverOpen : Bool

inductive Action where
  | call (method : String) (params : JsonValue)
  | insert (id : Int)
  | submit (id : Int)
  | remove (id : Int)
  | resume (id : Int)
  | drop (id : Int)
  | notify (method : String) (params : Option JsonValue)
  | respond (id result : JsonValue)
  | respondError (id : JsonValue) (code : Int) (text : String)
  | write
  | writeFails
  | print (line : Option (List Char))
  | close
  | break
  | read
  | clear
  | send
  | receive
  | hangUp

namespace RpcClient

def new : RpcClient where
  nextId := 0
  callers := fun _ => none
  pending := ∅
  writer := []
  writerOpen := true
  stdout := .flowing
  taken := []
  unread := []
  reader := .reading
  sent := []
  received := 0
  receiverOpen := true

variable (s : RpcClient)

def modify (id : Int) (f : Caller → Caller) : RpcClient :=
  { s with callers := Function.update s.callers id ((s.callers id).map f) }

/-- `writer.send`, with the failure ignored. -/
def post (line : JsonValue) : RpcClient :=
  if s.writerOpen then { s with writer := s.writer ++ [lib.render line] } else s

def requestLine (id : Int) (caller : Caller) : JsonValue :=
  .object [("jsonrpc", .string "2.0"), ("id", .int id), ("method", .string caller.method),
    ("params", caller.params)]

def notificationLine (method : String) (params : Option JsonValue) : JsonValue :=
  .object ([("jsonrpc", .string "2.0"), ("method", .string method)] ++
    (params.map fun params => ("params", params)).toList)

def responseLine (id result : JsonValue) : JsonValue :=
  .object [("jsonrpc", .string "2.0"), ("id", id), ("result", result)]

def errorLine (id : JsonValue) (code : Int) (text : String) : JsonValue :=
  .object [("jsonrpc", .string "2.0"), ("id", id),
    ("error", .object [("code", .int code), ("message", .string text)])]

/-- The sender of the request leaves the map with the response. -/
def settle (id : Int) (msg : JsonValue) : RpcClient :=
  if id ∈ s.pending then
    { s.modify id fun caller => { caller with fills := .outcome msg :: caller.fills } with
      pending := s.pending.erase id }
  else s

def route (msg : JsonValue) : RpcClient :=
  match response lib msg, forward msg with
  | some id, _ => s.settle id msg
  | none, some incoming => { s with reader := .sending incoming }
  | none, none => s

/-- The senders in the map are dropped. -/
def clear : RpcClient :=
  { s with
    callers := fun id =>
      if id ∈ s.pending then
        (s.callers id).map fun caller => { caller with fills := .dropped :: caller.fills }
      else s.callers id
    pending := ∅
    reader := .cleared }

/-- `next_line` finds no line. -/
def atEnd : Bool :=
  s.stdout = .broken ∨ s.unread = [] ∧ s.stdout = .closed ∨ s.unread.head? = some none

/-- The end of `tx.send`; `none` while the channel is full. -/
def deliver (incoming : Incoming) (next gone : Reader) : Option RpcClient :=
  if s.receiverOpen then
    if s.sent.length < s.received + channelCap then
      some { s with sent := s.sent ++ [incoming], reader := next }
    else none
  else some { s with reader := gone }

def step : Action → Option RpcClient
  | .call method params =>
      some { s with
        nextId := s.nextId + 1
        callers := Function.update s.callers (s.nextId + 1)
          (some ⟨method, params, .allocated, [], []⟩) }
  | .insert id =>
      (s.callers id).bind fun caller =>
        if caller.phase = .allocated then
          some { s.modify id fun caller => { caller with phase := .inserted } with
            pending := insert id s.pending }
        else none
  | .submit id =>
      (s.callers id).bind fun caller =>
        if caller.phase = .inserted then
          if s.writerOpen then
            some { s.modify id fun caller => { caller with phase := .waiting } with
              writer := s.writer ++ [lib.render (requestLine id caller)] }
          else some (s.modify id fun caller => { caller with phase := .refused })
        else none
  | .remove id =>
      (s.callers id).bind fun caller =>
        if caller.phase = .refused then
          some { s.modify id fun caller =>
              { caller with
                phase := .returned
                returns := .error (stdinClosed caller.method) :: caller.returns } with
            pending := s.pending.erase id }
        else none
  | .resume id =>
      (s.callers id).bind fun caller =>
        match caller.phase, caller.fills with
        | .waiting, fill :: _ =>
            some (s.modify id fun caller =>
              { caller with
                phase := .returned
                returns := fill.result lib caller.method :: caller.returns })
        | _, _ => none
  | .drop id =>
      (s.callers id).bind fun caller =>
        if caller.phase = .waiting then
          some (s.modify id fun caller => { caller with phase := .dropped })
        else none
  | .notify method params => some (s.post lib (notificationLine method params))
  | .respond id result => some (s.post lib (responseLine id result))
  | .respondError id code text => some (s.post lib (errorLine id code text))
  | .write => if s.writerOpen then some { s with writer := s.writer.tail } else none
  | .writeFails => some { s with writer := [], writerOpen := false }
  | .print line =>
      if s.stdout = .flowing then some { s with unread := s.unread ++ [line] } else none
  | .close => if s.stdout = .flowing then some { s with stdout := .closed } else none
  | .break => some { s with stdout := .broken }
  | .read =>
      match s.reader, s.unread with
      | .reading, some line :: rest =>
          let s' := { s with taken := s.taken ++ [some line], unread := rest }
          some ((message lib line).elim s' (s'.route lib))
      | _, _ => none
  | .clear => if s.reader = .reading ∧ s.atEnd = true then some s.clear else none
  | .send =>
      match s.reader with
      | .sending incoming => s.deliver incoming .reading .returned
      | .cleared => s.deliver .eof .ended .ended
      | _ => none
  | .receive =>
      if s.receiverOpen = true ∧ s.received < s.sent.length then
        some { s with received := s.received + 1 }
      else none
  | .hangUp => some { s with receiverOpen := false }

end RpcClient

def client : Machine RpcClient Action where
  init := (· = .new)
  step := fun s a => s.step lib a

/-! ## One request -/

def Arrived (lines : List (Option (List Char))) (id : Int) (msg : JsonValue) : Prop :=
  ∃ line, some line ∈ lines ∧ message lib line = some msg ∧ response lib msg = some id

/-- What holds of a request whose sender is `registered` in the map or not. -/
structure Caller.Sound (registered : Prop) (taken : List (Option (List Char))) (id : Int)
    (caller : Caller) : Prop where
  fills_le : caller.fills.length ≤ 1
  returns_le : caller.returns.length ≤ 1
  unreturned : caller.phase ≠ .returned → caller.returns = []
  unfilled : registered → caller.fills = []
  unregistered : caller.phase = .allocated ∨ caller.phase = .returned → ¬ registered
  untouched : caller.phase = .allocated → caller.fills = []
  owned : caller.phase = .inserted ∨ caller.phase = .waiting → caller.fills = [] → registered
  arrived : ∀ msg, .outcome msg ∈ caller.fills → Arrived lib taken id msg
  results : ∀ result ∈ caller.returns,
    (∃ fill ∈ caller.fills, result = fill.result lib caller.method) ∨
      result = .error (stdinClosed caller.method)

variable {lib}

variable {id : Int} {msg : JsonValue}

theorem Arrived.mono {lines lines' : List (Option (List Char))} (h : Arrived lib lines id msg)
    (hsub : ∀ line ∈ lines, line ∈ lines') :
    Arrived lib lines' id msg := by
  obtain ⟨line, hmem, hmsg⟩ := h
  exact ⟨line, hsub (some line) hmem, hmsg⟩

namespace Caller.Sound

variable {registered : Prop} {taken : List (Option (List Char))} {id : Int} {caller : Caller}

theorem mono (h : caller.Sound lib registered taken id) {taken' : List (Option (List Char))}
    (hsub : ∀ line ∈ taken, line ∈ taken') : caller.Sound lib registered taken' id :=
  { h with arrived := fun msg hmem => (h.arrived msg hmem).mono hsub }

theorem fill (h : caller.Sound lib registered taken id) (hregistered : registered) {fill : Fill}
    (hfill : ∀ msg, fill = .outcome msg → Arrived lib taken id msg) :
    ({ caller with fills := fill :: caller.fills }).Sound lib False taken id := by
  have hfills := h.unfilled hregistered
  refine { h with fills_le := by simp [hfills], unfilled := False.elim
                  unregistered := fun _ => not_false
                  untouched := fun hphase => absurd hregistered (h.unregistered (.inl hphase))
                  owned := nofun, arrived := ?_, results := ?_ }
  · intro msg hmem
    rw [hfills, List.mem_singleton] at hmem
    exact hfill msg hmem.symm
  · intro result hmem
    obtain ⟨other, hother, -⟩ | hclosed := h.results result hmem
    · rw [hfills] at hother
      cases hother
    · exact .inr hclosed

theorem resume (h : caller.Sound lib registered taken id) {fill : Fill} {fills : List Fill}
    (hphase : caller.phase = .waiting) (hfills : caller.fills = fill :: fills) :
    ({ caller with
        phase := .returned
        returns := fill.result lib caller.method :: caller.returns }).Sound lib registered taken
      id := by
  have hreturns := h.unreturned (by rw [hphase]; decide)
  refine { h with returns_le := by simp [hreturns], unreturned := by simp, owned := by simp
                  unregistered := ?_, untouched := by simp, results := ?_ }
  · intro _ hregistered
    rw [h.unfilled hregistered] at hfills
    cases hfills
  · intro result hmem
    rw [hreturns, List.mem_singleton] at hmem
    exact .inl ⟨fill, by simp [hfills], hmem⟩

theorem remove (h : caller.Sound lib registered taken id) (hphase : caller.phase = .refused) :
    ({ caller with
        phase := .returned
        returns := .error (stdinClosed caller.method) :: caller.returns }).Sound lib False taken
      id := by
  have hreturns := h.unreturned (by rw [hphase]; decide)
  refine { h with returns_le := by simp [hreturns], unreturned := by simp, owned := by simp
                  unfilled := False.elim, unregistered := fun _ => not_false, untouched := by simp
                  results := ?_ }
  intro result hmem
  rw [hreturns, List.mem_singleton] at hmem
  exact .inr hmem

theorem turn (h : caller.Sound lib registered taken id) (hreturned : caller.phase ≠ .returned)
    {phase : Phase} (hphase : phase ≠ .allocated ∧ phase ≠ .returned) {registered' : Prop}
    (hunfilled : registered' → caller.fills = [])
    (howned : phase = .inserted ∨ phase = .waiting → caller.fills = [] → registered') :
    ({ caller with phase := phase }).Sound lib registered' taken id :=
  { h with
    unreturned := fun _ => h.unreturned hreturned
    unfilled := hunfilled
    unregistered := fun heq => heq.elim (absurd · hphase.1) (absurd · hphase.2)
    untouched := fun heq => absurd heq hphase.1
    owned := howned }

end Caller.Sound

namespace RpcClient

variable {s s' : RpcClient}

variable (lib) in
def SoundAt (s : RpcClient) (id : Int) : Prop :=
  (s.callers id = none → id ∉ s.pending) ∧
    ∀ caller, s.callers id = some caller → caller.Sound lib (id ∈ s.pending) s.taken id

variable (lib) in
structure Sound (s : RpcClient) : Prop where
  fresh : ∀ id, s.nextId < id → s.callers id = none
  request : ∀ id, s.SoundAt lib id

@[simp]
theorem modify_callers_self (id : Int) (f : Caller → Caller) :
    (s.modify id f).callers id = (s.callers id).map f := by
  simp [modify]

theorem modify_callers_of_ne {id other : Int} (f : Caller → Caller) (hne : other ≠ id) :
    (s.modify id f).callers other = s.callers other :=
  Function.update_of_ne hne ..

theorem Sound.congr (h : s.Sound lib) (hcallers : s'.callers = s.callers)
    (hpending : s'.pending = s.pending) (hnext : s'.nextId = s.nextId)
    (htaken : ∀ line ∈ s.taken, line ∈ s'.taken) : s'.Sound lib where
  fresh := by
    rw [hcallers, hnext]
    exact h.fresh
  request := by
    intro id
    obtain ⟨habsent, hsound⟩ := h.request id
    unfold SoundAt
    rw [hcallers, hpending]
    exact ⟨habsent, fun caller hcaller => (hsound caller hcaller).mono htaken⟩

/-- The request of an id changes, and whether its sender is in the map. -/
theorem Sound.modify {f : Caller → Caller} {caller : Caller} (h : s.Sound lib)
    (hcaller : s.callers id = some caller) (hcallers : s'.callers = (s.modify id f).callers)
    (hpending : ∀ other, other ≠ id → (other ∈ s'.pending ↔ other ∈ s.pending))
    (hnext : s'.nextId = s.nextId) (htaken : s'.taken = s.taken)
    (hown : caller.Sound lib (id ∈ s.pending) s.taken id →
      (f caller).Sound lib (id ∈ s'.pending) s.taken id) : s'.Sound lib where
  fresh := by
    intro other hlt
    rw [hnext] at hlt
    have hnone := h.fresh other hlt
    by_cases heq : other = id
    · rw [heq, hcaller] at hnone
      cases hnone
    · rw [hcallers, modify_callers_of_ne f heq, hnone]
  request := by
    intro other
    by_cases heq : other = id
    · subst heq
      have hself : s'.callers other = some (f caller) := by
        rw [hcallers, modify_callers_self, hcaller, Option.map_some]
      constructor
      · intro hnone
        rw [hself] at hnone
        cases hnone
      · intro caller' hcaller'
        rw [hself] at hcaller'
        cases hcaller'
        rw [htaken]
        exact hown ((h.request other).2 caller hcaller)
    · unfold SoundAt
      rw [hcallers, modify_callers_of_ne f heq, hpending other heq, htaken]
      exact h.request other

theorem mem_erase_iff_of_ne {ids : Finset Int} {id other : Int} (hne : other ≠ id) :
    other ∈ ids.erase id ↔ other ∈ ids := by
  simp [hne]

theorem Sound.settle (h : s.Sound lib) (harrived : Arrived lib s.taken id msg) :
    (s.settle id msg).Sound lib := by
  unfold RpcClient.settle
  split_ifs with hmem
  · cases hcaller : s.callers id with
    | none => exact absurd hmem ((h.request id).1 hcaller)
    | some caller =>
        refine h.modify hcaller rfl (fun other hne => mem_erase_iff_of_ne hne) rfl rfl ?_
        intro hsound
        have hcause : ∀ other, Fill.outcome msg = .outcome other → Arrived lib s.taken id other := by
          rintro _ ⟨⟩
          exact harrived
        have hfilled := hsound.fill hmem hcause
        have hgone : id ∉ s.pending.erase id := Finset.notMem_erase id s.pending
        rw [eq_false hgone]
        exact hfilled
  · exact h

theorem Sound.route (h : s.Sound lib)
    (harrived : ∀ id, response lib msg = some id → Arrived lib s.taken id msg) :
    (s.route lib msg).Sound lib := by
  unfold RpcClient.route
  split
  · rename_i hresponse
    exact h.settle (harrived _ hresponse)
  · exact h.congr rfl rfl rfl fun _ hmem => hmem
  · exact h

theorem Sound.clear (h : s.Sound lib) : s.clear.Sound lib where
  fresh := by
    intro id hlt
    have hnone := h.fresh id hlt
    simp [RpcClient.clear, hnone]
  request := by
    intro id
    obtain ⟨-, hsound⟩ := h.request id
    refine ⟨fun _ => Finset.notMem_empty id, ?_⟩
    intro caller hcaller
    have hgone : id ∉ s.clear.pending := Finset.notMem_empty id
    rw [eq_false hgone]
    by_cases hmem : id ∈ s.pending
    · simp only [RpcClient.clear, if_pos hmem] at hcaller
      obtain ⟨before, hbefore, rfl⟩ := Option.map_eq_some_iff.mp hcaller
      exact (hsound before hbefore).fill hmem nofun
    · simp only [RpcClient.clear, if_neg hmem] at hcaller
      have := hsound caller hcaller
      rwa [eq_false hmem] at this

theorem callers_call (method : String) (params : JsonValue) (id : Int) :
    (Function.update s.callers (s.nextId + 1) (some ⟨method, params, .allocated, [], []⟩)) id =
      if id = s.nextId + 1 then some ⟨method, params, .allocated, [], []⟩ else s.callers id := by
  rw [Function.update_apply]

theorem Sound.call (h : s.Sound lib) (method : String) (params : JsonValue)
    (hstep : s.step lib (.call method params) = some s') : s'.Sound lib := by
  cases hstep
  have hnone := h.fresh (s.nextId + 1) (by omega)
  have hgone := (h.request (s.nextId + 1)).1 hnone
  constructor
  · intro id hlt
    change s.nextId + 1 < id at hlt
    simp only [callers_call, if_neg (show id ≠ s.nextId + 1 by omega)]
    exact h.fresh id (by omega)
  · intro id
    unfold SoundAt
    simp only [callers_call]
    by_cases heq : id = s.nextId + 1
    · subst heq
      simp only [if_true]
      refine ⟨nofun, ?_⟩
      intro caller hcaller
      cases hcaller
      exact { fills_le := by simp, returns_le := by simp, unreturned := by simp
              unfilled := by simp, unregistered := fun _ => hgone, untouched := by simp
              owned := nofun, arrived := by simp, results := by simp }
    · simp only [if_neg heq]
      exact h.request id

theorem sound_new : RpcClient.new.Sound lib where
  fresh := fun _ _ => rfl
  request := fun id => ⟨fun _ => Finset.notMem_empty id, nofun⟩

theorem Sound.post (h : s.Sound lib) (line : JsonValue) : (s.post lib line).Sound lib := by
  unfold RpcClient.post
  split_ifs
  · exact h.congr rfl rfl rfl fun _ hmem => hmem
  · exact h

theorem Sound.deliver (h : s.Sound lib) {incoming : Incoming} {next gone : Reader}
    (hdeliver : s.deliver incoming next gone = some s') : s'.Sound lib := by
  unfold RpcClient.deliver at hdeliver
  split_ifs at hdeliver
  all_goals
    cases hdeliver
    exact h.congr rfl rfl rfl fun _ hmem => hmem

theorem sound_step (h : s.Sound lib) {action : Action} (hstep : s.step lib action = some s') :
    s'.Sound lib := by
  cases action with
  | call method params => exact h.call method params hstep
  | insert id =>
      obtain ⟨caller, hcaller, hstep⟩ := Option.bind_eq_some_iff.mp hstep
      split_ifs at hstep with hphase
      cases hstep
      refine h.modify hcaller rfl (fun other hne => by simp [hne]) rfl rfl ?_
      intro hsound
      have hfills := hsound.untouched hphase
      exact hsound.turn (by simp [hphase]) (by decide) (fun _ => hfills)
        fun _ _ => Finset.mem_insert_self id s.pending
  | submit id =>
      obtain ⟨caller, hcaller, hstep⟩ := Option.bind_eq_some_iff.mp hstep
      split_ifs at hstep with hphase hopen
      · cases hstep
        refine h.modify hcaller rfl (fun _ _ => Iff.rfl) rfl rfl ?_
        intro hsound
        exact hsound.turn (by simp [hphase]) (by decide) hsound.unfilled
          fun _ => hsound.owned (.inl hphase)
      · cases hstep
        refine h.modify hcaller rfl (fun _ _ => Iff.rfl) rfl rfl ?_
        intro hsound
        exact hsound.turn (by simp [hphase]) (by decide) hsound.unfilled (by simp)
  | remove id =>
      obtain ⟨caller, hcaller, hstep⟩ := Option.bind_eq_some_iff.mp hstep
      split_ifs at hstep with hphase
      cases hstep
      refine h.modify hcaller rfl (fun other hne => mem_erase_iff_of_ne hne) rfl rfl ?_
      intro hsound
      have hgone : id ∉ s.pending.erase id := Finset.notMem_erase id s.pending
      rw [eq_false hgone]
      exact hsound.remove hphase
  | resume id =>
      obtain ⟨caller, hcaller, hstep⟩ := Option.bind_eq_some_iff.mp hstep
      split at hstep
      · rename_i hphase hfills
        cases hstep
        refine h.modify hcaller rfl (fun _ _ => Iff.rfl) rfl rfl ?_
        intro hsound
        have hresumed := hsound.resume hphase hfills
        exact hresumed
      · cases hstep
  | drop id =>
      obtain ⟨caller, hcaller, hstep⟩ := Option.bind_eq_some_iff.mp hstep
      split_ifs at hstep with hphase
      cases hstep
      refine h.modify hcaller rfl (fun _ _ => Iff.rfl) rfl rfl ?_
      intro hsound
      exact hsound.turn (by simp [hphase]) (by decide) hsound.unfilled (by simp)
  | notify _ _ | respond _ _ | respondError _ _ _ =>
      cases hstep
      exact h.post _
  | read =>
      simp only [step] at hstep
      split at hstep
      · rename_i line rest _ _
        cases hstep
        have htaken : ({ s with taken := s.taken ++ [some line], unread := rest }).Sound lib :=
          h.congr rfl rfl rfl fun _ => List.mem_append_left [some line]
        cases hmsg : message lib line with
        | none => exact htaken
        | some msg => exact htaken.route fun id hresponse => ⟨line, by simp, hmsg, hresponse⟩
      · cases hstep
  | clear =>
      simp only [step] at hstep
      split_ifs at hstep
      cases hstep
      exact h.clear
  | send =>
      simp only [step] at hstep
      split at hstep
      · exact h.deliver hstep
      · exact h.deliver hstep
      · cases hstep
  | writeFails | «break» | hangUp =>
      cases hstep
      exact h.congr rfl rfl rfl fun _ hmem => hmem
  | write | print line | close | receive =>
      simp only [step] at hstep
      split_ifs at hstep
      cases hstep
      exact h.congr rfl rfl rfl fun _ hmem => hmem

/-! ## What the session loop gets -/

variable (lib) in
/-- What went into the incoming channel, by where the reader is. -/
def Ordered (s : RpcClient) : Prop :=
  match s.reader with
  | .reading => s.sent = forwards lib s.taken
  | .sending incoming => s.sent ++ [incoming] = forwards lib s.taken
  | .cleared => s.sent = forwards lib s.taken ∧ s.atEnd = true
  | .ended =>
      (s.sent = forwards lib s.taken ++ [.eof] ∨
        s.receiverOpen = false ∧ s.sent = forwards lib s.taken) ∧ s.atEnd = true
  | .returned =>
      s.receiverOpen = false ∧ ∃ incoming, s.sent ++ [incoming] = forwards lib s.taken

theorem eof_notMem_forwards (lines : List (Option (List Char))) :
    Incoming.eof ∉ forwards lib lines := by
  intro hmem
  obtain ⟨line, -, hforward⟩ := List.mem_filterMap.mp hmem
  obtain ⟨msg, -, hforward⟩ := Option.bind_eq_some_iff.mp hforward
  unfold forward at hforward
  split at hforward <;> cases hforward

theorem forwards_concat (lines : List (Option (List Char))) (line : List Char) :
    forwards lib (lines ++ [some line]) =
      forwards lib lines ++ ((message lib line).bind forward).toList := by
  unfold forwards
  rw [List.filterMap_append]
  congr 1

theorem Ordered.congr (h : s.Ordered lib) (hreader : s'.reader = s.reader) (hsent : s'.sent = s.sent)
    (htaken : s'.taken = s.taken) (hreceiver : s.receiverOpen = false → s'.receiverOpen = false)
    (hend : s.atEnd = true → s'.atEnd = true) : s'.Ordered lib := by
  unfold Ordered at *
  rw [hreader, hsent, htaken]
  cases hcase : s.reader with
  | reading | sending incoming =>
      rw [hcase] at h
      exact h
  | cleared =>
      rw [hcase] at h
      exact ⟨h.1, hend h.2⟩
  | ended =>
      rw [hcase] at h
      exact ⟨h.1.imp_right (And.imp_left hreceiver), hend h.2⟩
  | returned =>
      rw [hcase] at h
      exact ⟨hreceiver h.1, h.2⟩

theorem forward_of_response (h : response lib msg = some id) :
    forward msg = none := by
  unfold response at h
  unfold forward
  split at h
  · rename_i hmethod _
    simp [hmethod]
  · cases h

theorem Ordered.route (hreader : s.reader = .reading)
    (h : s.sent ++ (forward msg).toList = forwards lib s.taken) :
    (s.route lib msg).Ordered lib := by
  unfold RpcClient.route
  split
  · rename_i id _ hresponse
    rw [forward_of_response hresponse] at h
    unfold RpcClient.settle
    split_ifs
    · simpa [Ordered, RpcClient.modify, hreader] using h
    · simpa [Ordered, hreader] using h
  · rename_i hforward
    rw [hforward] at h
    exact h
  · rename_i hforward
    rw [hforward] at h
    simpa [Ordered, hreader] using h

theorem ordered_step (h : s.Ordered lib) {action : Action} (hstep : s.step lib action = some s') :
    s'.Ordered lib := by
  cases action with
  | call _ _ | writeFails =>
      cases hstep
      exact h
  | insert id | drop id =>
      obtain ⟨caller, -, hstep⟩ := Option.bind_eq_some_iff.mp hstep
      split_ifs at hstep
      cases hstep
      exact h
  | submit id | remove id =>
      obtain ⟨caller, -, hstep⟩ := Option.bind_eq_some_iff.mp hstep
      split_ifs at hstep
      all_goals
        cases hstep
        exact h
  | resume id =>
      obtain ⟨caller, -, hstep⟩ := Option.bind_eq_some_iff.mp hstep
      split at hstep
      · cases hstep
        exact h
      · cases hstep
  | notify _ _ | respond _ _ | respondError _ _ _ =>
      cases hstep
      unfold RpcClient.post
      split_ifs <;> exact h
  | «break» =>
      cases hstep
      exact h.congr rfl rfl rfl (fun hclosed => hclosed) fun _ => by simp [atEnd]
  | hangUp =>
      cases hstep
      exact h.congr rfl rfl rfl (fun _ => rfl) fun hend => hend
  | write | receive =>
      simp only [step] at hstep
      split_ifs at hstep
      cases hstep
      exact h
  | print line =>
      simp only [step] at hstep
      split_ifs at hstep with hflowing
      cases hstep
      refine h.congr rfl rfl rfl (fun hclosed => hclosed) ?_
      intro hend
      simp only [atEnd, decide_eq_true_eq, hflowing] at hend ⊢
      obtain hbroken | ⟨-, hclosed⟩ | hhead := hend
      · cases hbroken
      · cases hclosed
      · exact .inr (.inr (by rw [List.head?_append, hhead, Option.some_or]))
  | close =>
      simp only [step] at hstep
      split_ifs at hstep with hflowing
      cases hstep
      refine h.congr rfl rfl rfl (fun hclosed => hclosed) ?_
      intro hend
      simp only [atEnd, decide_eq_true_eq, hflowing] at hend ⊢
      obtain hbroken | ⟨-, hclosed⟩ | hhead := hend
      · cases hbroken
      · cases hclosed
      · exact .inr (.inr hhead)
  | read =>
      simp only [step] at hstep
      split at hstep
      · rename_i line rest hreader _
        cases hstep
        have hsent : s.sent = forwards lib s.taken := by
          simpa [Ordered, hreader] using h
        cases hmsg : message lib line with
        | none =>
            have hsame := @forwards_concat lib s.taken line
            rw [hmsg, Option.bind_none, Option.toList_none, List.append_nil] at hsame
            simpa [Ordered, hreader, hsame] using hsent
        | some msg =>
            refine Ordered.route hreader ?_
            have hnext := @forwards_concat lib s.taken line
            rw [hmsg, Option.bind_some] at hnext
            rw [hnext, hsent]
      · cases hstep
  | clear =>
      simp only [step] at hstep
      split_ifs at hstep with hguard
      cases hstep
      have hsent : s.sent = forwards lib s.taken := by
        simpa [Ordered, hguard.1] using h
      exact ⟨hsent, hguard.2⟩
  | send =>
      simp only [step] at hstep
      split at hstep
      · rename_i incoming hreader
        have hsent : s.sent ++ [incoming] = forwards lib s.taken := by
          simpa [Ordered, hreader] using h
        unfold RpcClient.deliver at hstep
        split_ifs at hstep with hopen
        · cases hstep
          exact hsent
        · cases hstep
          exact ⟨eq_false_of_ne_true hopen, incoming, hsent⟩
      · rename_i hreader
        obtain ⟨hsent, hend⟩ : s.sent = forwards lib s.taken ∧ s.atEnd = true := by
          simpa [Ordered, hreader] using h
        unfold RpcClient.deliver at hstep
        split_ifs at hstep with hopen
        · cases hstep
          exact ⟨.inl (congrArg (· ++ [Incoming.eof]) hsent), hend⟩
        · cases hstep
          exact ⟨.inr ⟨eq_false_of_ne_true hopen, hsent⟩, hend⟩
      · cases hstep

/-! ## What is sent after the end -/

/-- No line of a request that was registered after the clearing goes to the writer. -/
def InTime (s : RpcClient) : Action → Prop
  | .submit id => ¬ (s.reader.hasCleared = true ∧ id ∈ s.pending ∧ s.writerOpen = true)
  | _ => True

instance (s : RpcClient) (action : Action) : Decidable (s.InTime action) := by
  unfold InTime
  split <;> infer_instance

/-- What is registered after the clearing does not wait. -/
def Late (s : RpcClient) : Prop :=
  s.reader.hasCleared = true → ∀ id ∈ s.pending, ∀ caller, s.callers id = some caller →
    caller.phase = .inserted ∨ caller.phase = .refused

theorem Late.of_not_cleared (h : s.reader.hasCleared = false) : s.Late := by
  intro hcleared
  rw [h] at hcleared
  cases hcleared

theorem Late.modify {f : Caller → Caller} {caller : Caller} (h : s.Late)
    (hcaller : s.callers id = some caller) (hcallers : s'.callers = (s.modify id f).callers)
    (hreader : s'.reader = s.reader)
    (hpending : ∀ other, other ≠ id → other ∈ s'.pending → other ∈ s.pending)
    (hown : s.reader.hasCleared = true → id ∈ s'.pending →
      (f caller).phase = .inserted ∨ (f caller).phase = .refused) : s'.Late := by
  intro hcleared other hmem caller' hcaller'
  rw [hreader] at hcleared
  rw [hcallers] at hcaller'
  by_cases heq : other = id
  · subst heq
    rw [modify_callers_self, hcaller] at hcaller'
    cases hcaller'
    exact hown hcleared hmem
  · rw [modify_callers_of_ne f heq] at hcaller'
    exact h hcleared other (hpending other heq hmem) caller' hcaller'

theorem reader_settle (id : Int) (msg : JsonValue) : (s.settle id msg).reader = s.reader := by
  unfold RpcClient.settle
  split_ifs <;> rfl

theorem not_cleared_route (msg : JsonValue) (hreader : s.reader = .reading) :
    (s.route lib msg).reader.hasCleared = false := by
  unfold RpcClient.route
  split
  · rw [reader_settle, hreader]
    rfl
  · rfl
  · rw [hreader]
    rfl

theorem not_cleared_read {line : List Char} {rest : List (Option (List Char))}
    (hreader : s.reader = .reading) :
    let s' := { s with taken := s.taken ++ [some line], unread := rest }
    ((message lib line).elim s' (s'.route lib)).reader.hasCleared = false := by
  cases message lib line with
  | none =>
      change s.reader.hasCleared = false
      rw [hreader]
      rfl
  | some msg => exact not_cleared_route msg hreader

theorem late_step (hsound : s.Sound lib) (h : s.Late) {action : Action} (hguard : s.InTime action)
    (hstep : s.step lib action = some s') : s'.Late := by
  cases action with
  | call method params =>
      cases hstep
      intro hcleared id hmem caller hcaller
      have hne : id ≠ s.nextId + 1 := by
        rintro rfl
        exact (hsound.request _).1 (hsound.fresh _ (by omega)) hmem
      simp only [callers_call, if_neg hne] at hcaller
      exact h hcleared id hmem caller hcaller
  | insert id =>
      obtain ⟨caller, hcaller, hstep⟩ := Option.bind_eq_some_iff.mp hstep
      split_ifs at hstep
      cases hstep
      refine h.modify hcaller rfl rfl ?_ fun _ _ => .inl rfl
      intro other hne hmem
      exact Finset.mem_of_mem_insert_of_ne hmem hne
  | submit id =>
      obtain ⟨caller, hcaller, hstep⟩ := Option.bind_eq_some_iff.mp hstep
      split_ifs at hstep with hphase hopen
      · cases hstep
        refine h.modify hcaller rfl rfl (fun _ _ hmem => hmem) ?_
        intro hcleared hmem
        exact absurd ⟨hcleared, hmem, hopen⟩ hguard
      · cases hstep
        exact h.modify hcaller rfl rfl (fun _ _ hmem => hmem) fun _ _ => .inr rfl
  | remove id =>
      obtain ⟨caller, hcaller, hstep⟩ := Option.bind_eq_some_iff.mp hstep
      split_ifs at hstep
      cases hstep
      refine h.modify hcaller rfl rfl (fun other _ => Finset.mem_of_mem_erase) ?_
      intro _ hmem
      exact absurd hmem (Finset.notMem_erase id s.pending)
  | resume id =>
      obtain ⟨caller, hcaller, hstep⟩ := Option.bind_eq_some_iff.mp hstep
      split at hstep
      · rename_i hphase _
        cases hstep
        refine h.modify hcaller rfl rfl (fun _ _ hmem => hmem) ?_
        intro hcleared hmem
        have hearly := h hcleared id hmem caller hcaller
        simp [hphase] at hearly
      · cases hstep
  | drop id =>
      obtain ⟨caller, hcaller, hstep⟩ := Option.bind_eq_some_iff.mp hstep
      split_ifs at hstep with hphase
      cases hstep
      refine h.modify hcaller rfl rfl (fun _ _ hmem => hmem) ?_
      intro hcleared hmem
      have hearly := h hcleared id hmem caller hcaller
      simp [hphase] at hearly
  | notify _ _ | respond _ _ | respondError _ _ _ =>
      cases hstep
      unfold RpcClient.post
      split_ifs <;> exact h
  | writeFails | «break» | hangUp =>
      cases hstep
      exact h
  | write | print _ | close | receive =>
      simp only [step] at hstep
      split_ifs at hstep
      cases hstep
      exact h
  | read =>
      simp only [step] at hstep
      split at hstep
      · rename_i hreader _
        cases hstep
        exact Late.of_not_cleared (not_cleared_read hreader)
      · cases hstep
  | clear =>
      simp only [step] at hstep
      split_ifs at hstep
      cases hstep
      intro _ id hmem
      exact absurd hmem (Finset.notMem_empty id)
  | send =>
      simp only [step] at hstep
      split at hstep
      · unfold RpcClient.deliver at hstep
        split_ifs at hstep
        all_goals
          cases hstep
          exact Late.of_not_cleared rfl
      · rename_i hreader
        have hearly := h (by rw [hreader]; rfl)
        unfold RpcClient.deliver at hstep
        split_ifs at hstep
        all_goals
          cases hstep
          exact fun _ => hearly
      · cases hstep

/-- The request was registered after the clearing, and its line is sent. -/
def Stuck (s : RpcClient) (id : Int) : Prop :=
  s.reader.hasCleared = true ∧ id ∈ s.pending ∧
    ∃ caller, s.callers id = some caller ∧ (caller.phase = .waiting ∨ caller.phase = .dropped)

theorem Stuck.modify {id other : Int} {f : Caller → Caller} {caller : Caller}
    (h : s.Stuck id) (hcaller : s.callers other = some caller)
    (hcallers : s'.callers = (s.modify other f).callers) (hreader : s'.reader = s.reader)
    (hpending : id ∈ s'.pending)
    (hown : other = id → caller.phase = .waiting ∨ caller.phase = .dropped →
      (f caller).phase = .waiting ∨ (f caller).phase = .dropped) : s'.Stuck id := by
  obtain ⟨hcleared, -, stuck, hstuck, hphase⟩ := h
  refine ⟨hreader ▸ hcleared, hpending, ?_⟩
  rw [hcallers]
  by_cases heq : other = id
  · subst heq
    rw [hcaller] at hstuck
    cases hstuck
    exact ⟨f caller, by rw [modify_callers_self, hcaller, Option.map_some], hown rfl hphase⟩
  · exact ⟨stuck, by rw [modify_callers_of_ne f (Ne.symm heq), hstuck], hphase⟩

theorem Stuck.phase {caller : Caller} (h : s.Stuck id) (hcaller : s.callers id = some caller) :
    caller.phase = .waiting ∨ caller.phase = .dropped := by
  obtain ⟨-, -, stuck, hstuck, hphase⟩ := h
  rw [hcaller] at hstuck
  cases hstuck
  exact hphase

theorem stuck_step (hsound : s.Sound lib) (h : s.Stuck id) {action : Action}
    (hstep : s.step lib action = some s') : s'.Stuck id := by
  have hcleared := h.1
  have hmem := h.2.1
  cases action with
  | call method params =>
      cases hstep
      have hne : id ≠ s.nextId + 1 := by
        rintro rfl
        exact (hsound.request _).1 (hsound.fresh _ (by omega)) hmem
      obtain ⟨-, -, caller, hcaller, hphase⟩ := h
      refine ⟨hcleared, hmem, caller, ?_, hphase⟩
      simp only [callers_call, if_neg hne]
      exact hcaller
  | insert other =>
      obtain ⟨caller, hcaller, hstep⟩ := Option.bind_eq_some_iff.mp hstep
      split_ifs at hstep with hallocated
      cases hstep
      refine h.modify hcaller rfl rfl (Finset.mem_insert_of_mem hmem) ?_
      rintro rfl hphase
      simp [hallocated] at hphase
  | submit other =>
      obtain ⟨caller, hcaller, hstep⟩ := Option.bind_eq_some_iff.mp hstep
      split_ifs at hstep with hinserted
      · cases hstep
        exact h.modify hcaller rfl rfl hmem fun _ _ => .inl rfl
      · cases hstep
        refine h.modify hcaller rfl rfl hmem ?_
        rintro rfl hphase
        simp [hinserted] at hphase
  | remove other =>
      obtain ⟨caller, hcaller, hstep⟩ := Option.bind_eq_some_iff.mp hstep
      split_ifs at hstep with hrefused
      cases hstep
      have hne : id ≠ other := by
        rintro rfl
        have hphase := h.phase hcaller
        simp [hrefused] at hphase
      exact h.modify hcaller rfl rfl (Finset.mem_erase_of_ne_of_mem hne hmem)
        fun heq => absurd heq.symm hne
  | resume other =>
      obtain ⟨caller, hcaller, hstep⟩ := Option.bind_eq_some_iff.mp hstep
      split at hstep
      · rename_i hfills
        cases hstep
        refine h.modify hcaller rfl rfl hmem ?_
        rintro rfl
        -- What is in the map has no answer.
        have hempty := ((hsound.request other).2 caller hcaller).unfilled hmem
        rw [hfills] at hempty
        cases hempty
      · cases hstep
  | drop other =>
      obtain ⟨caller, hcaller, hstep⟩ := Option.bind_eq_some_iff.mp hstep
      split_ifs at hstep
      cases hstep
      exact h.modify hcaller rfl rfl hmem fun _ _ => .inr rfl
  | notify _ _ | respond _ _ | respondError _ _ _ =>
      cases hstep
      unfold RpcClient.post
      split_ifs <;> exact h
  | writeFails | «break» | hangUp =>
      cases hstep
      exact h
  | write | print _ | close | receive =>
      simp only [step] at hstep
      split_ifs at hstep
      cases hstep
      exact h
  | read =>
      simp only [step] at hstep
      split at hstep
      · rename_i hreader _
        rw [hreader] at hcleared
        cases hcleared
      · cases hstep
  | clear =>
      simp only [step] at hstep
      split_ifs at hstep with hguard
      rw [hguard.1] at hcleared
      cases hcleared
  | send =>
      simp only [step] at hstep
      split at hstep
      · rename_i hreader
        rw [hreader] at hcleared
        cases hcleared
      · unfold RpcClient.deliver at hstep
        split_ifs at hstep
        all_goals
          cases hstep
          exact ⟨rfl, h.2⟩
      · cases hstep

theorem stuck_of_submit (hlate : ¬ s.InTime (.submit id))
    (hstep : s.step lib (.submit id) = some s') : s'.Stuck id := by
  obtain ⟨hcleared, hmem, hopen⟩ := not_not.mp hlate
  obtain ⟨caller, hcaller, hstep⟩ := Option.bind_eq_some_iff.mp hstep
  rw [if_pos hopen] at hstep
  split_ifs at hstep
  cases hstep
  refine ⟨hcleared, hmem, { caller with phase := .waiting }, ?_, .inl rfl⟩
  exact (modify_callers_self ..).trans (by rw [hcaller, Option.map_some])

/-! ## Every request settles -/

variable (lib) in
/-- A request returns at most once, and a value only from a response with its id and without an
error. The session loop is sent what the lines give, in their order, and then one end marker. -/
structure Answered (s : RpcClient) : Prop where
  once : ∀ id caller, s.callers id = some caller → caller.returns.length ≤ 1 ∧
    ∀ value, .ok value ∈ caller.returns → ∃ msg, Arrived lib s.taken id msg ∧
      get "error" msg = none ∧ value = (get "result" msg).getD .null
  sent : s.sent <+: forwards lib s.taken ++ [.eof]
  current : s.reader = .reading → s.sent = forwards lib s.taken
  ended : .eof ∈ s.sent → s.sent = forwards lib s.taken ++ [.eof] ∧
    .eof ∉ forwards lib s.taken ∧ s.atEnd = true

/-- Once the end marker is sent, no request in the map waits, and whoever waits has its answer. -/
structure NoneWaits (s : RpcClient) : Prop where
  pending : .eof ∈ s.sent → ∀ id ∈ s.pending, ∀ caller, s.callers id = some caller →
    caller.phase ≠ .waiting
  filled : .eof ∈ s.sent → ∀ id caller, s.callers id = some caller → caller.phase = .waiting →
    caller.fills ≠ []

theorem ok_of_result {method : String} {fill : Fill} {value : JsonValue}
    (h : .ok value = fill.result lib method) :
    ∃ msg, fill = .outcome msg ∧ get "error" msg = none ∧
      value = (get "result" msg).getD .null := by
  cases fill with
  | dropped => cases h
  | outcome msg =>
      refine ⟨msg, rfl, ?_⟩
      cases herror : get "error" msg with
      | some err => simp [Fill.result, JsonRpc.outcome, herror] at h
      | none =>
          refine ⟨rfl, ?_⟩
          simpa [Fill.result, JsonRpc.outcome, herror] using h

theorem Ordered.ended (h : s.Ordered lib) (heof : Incoming.eof ∈ s.sent) :
    s.reader = .ended ∧ s.sent = forwards lib s.taken ++ [Incoming.eof] ∧ s.atEnd = true := by
  have hnot := @eof_notMem_forwards lib s.taken
  unfold Ordered at h
  split at h
  · exact absurd (h ▸ heof) hnot
  · exact absurd (h ▸ List.mem_append_left _ heof) hnot
  · exact absurd (h.1 ▸ heof) hnot
  · rename_i hreader
    obtain ⟨hsent | ⟨-, hsent⟩, hend⟩ := h
    · exact ⟨hreader, hsent, hend⟩
    · exact absurd (hsent ▸ heof) hnot
  · obtain ⟨-, incoming, hsent⟩ := h
    exact absurd (hsent ▸ List.mem_append_left _ heof) hnot

theorem Ordered.isPrefix (h : s.Ordered lib) :
    s.sent <+: forwards lib s.taken ++ [Incoming.eof] := by
  have hpart : s.sent <+: forwards lib s.taken →
      s.sent <+: forwards lib s.taken ++ [Incoming.eof] :=
    fun hprefix => hprefix.trans (List.prefix_append ..)
  unfold Ordered at h
  split at h
  · exact h ▸ List.prefix_append ..
  · exact hpart (h ▸ List.prefix_append ..)
  · exact h.1 ▸ List.prefix_append ..
  · obtain ⟨hsent | ⟨-, hsent⟩, -⟩ := h
    · rw [hsent]
    · exact hsent ▸ List.prefix_append ..
  · obtain ⟨-, incoming, hsent⟩ := h
    exact hpart (hsent ▸ List.prefix_append ..)

theorem answered_of_ordered (hsound : s.Sound lib) (h : s.Ordered lib) : s.Answered lib where
  once := by
    intro id caller hcaller
    have hcall := (hsound.request id).2 caller hcaller
    refine ⟨hcall.returns_le, ?_⟩
    intro value hmem
    obtain ⟨fill, hfill, hresult⟩ | hclosed := hcall.results _ hmem
    · obtain ⟨msg, rfl, herror, hvalue⟩ := ok_of_result hresult
      exact ⟨msg, hcall.arrived msg hfill, herror, hvalue⟩
    · cases hclosed
  sent := h.isPrefix
  current := by
    intro hreader
    simpa [Ordered, hreader] using h
  ended := by
    intro heof
    obtain ⟨-, hsent, hend⟩ := h.ended heof
    exact ⟨hsent, eof_notMem_forwards s.taken, hend⟩

theorem none_waits_of_late (hsound : s.Sound lib) (h : s.Ordered lib) (hlate : s.Late) :
    s.NoneWaits := by
  have hpending : .eof ∈ s.sent → ∀ id ∈ s.pending, ∀ caller, s.callers id = some caller →
      caller.phase ≠ .waiting := by
    intro heof id hmem caller hcaller hphase
    have hearly := hlate (by rw [(h.ended heof).1]; rfl) id hmem caller hcaller
    simp [hphase] at hearly
  refine ⟨hpending, ?_⟩
  intro heof id caller hcaller hphase hfills
  have hmem := ((hsound.request id).2 caller hcaller).owned (.inr hphase) hfills
  exact hpending heof id hmem caller hcaller hphase

theorem sound_of_reachable {guard : RpcClient → Action → Prop}
    (h : (client lib).ReachableWhen guard s) : s.Sound lib := by
  apply h.invariant
  · rintro _ rfl
    exact sound_new
  · intro s action s' hsound _ hstep
    exact sound_step hsound hstep

theorem ordered_of_reachable {guard : RpcClient → Action → Prop}
    (h : (client lib).ReachableWhen guard s) : s.Ordered lib := by
  apply h.invariant
  · rintro _ rfl
    rfl
  · intro s action s' hordered _ hstep
    exact ordered_step hordered hstep

theorem late_of_reachable (h : (client lib).ReachableWhen InTime s) : s.Late := by
  have hlate : s.Sound lib ∧ s.Late := by
    apply h.invariant
    · rintro _ rfl
      exact ⟨sound_new, Late.of_not_cleared rfl⟩
    · rintro s action s' ⟨hsound, hlate⟩ hguard hstep
      exact ⟨sound_step hsound hstep, late_step hsound hlate hguard hstep⟩
  exact hlate.2

end RpcClient

/-- **Requests of an agent settle.** In every run a request is answered at most once, by a response
with its id, and the session loop is sent the other messages in their order and one end marker. Where
no line of a request that was registered after the clearing reached the writer, none waits after the
end marker. A request whose line did waits in every state from then on. -/
theorem agent_requests_settle (lib : SerdeJson) {s : RpcClient} (h : (client lib).Reachable s) :
    s.Answered lib ∧ ((client lib).ReachableWhen RpcClient.InTime s → s.NoneWaits) ∧
      ∀ id s', ¬ s.InTime (.submit id) → s.step lib (.submit id) = some s' →
        ∀ later, (client lib).Steps Machine.anyStep s' later →
          id ∈ later.pending ∧ ∃ caller, later.callers id = some caller ∧
            (caller.phase = .waiting ∨ caller.phase = .dropped) ∧ caller.fills = [] ∧
              caller.returns = [] := by
  have hsound := RpcClient.sound_of_reachable h
  have hordered := RpcClient.ordered_of_reachable h
  refine ⟨RpcClient.answered_of_ordered hsound hordered, ?_, ?_⟩
  · intro hguarded
    exact RpcClient.none_waits_of_late hsound hordered (RpcClient.late_of_reachable hguarded)
  · intro id s' hguard hstep later hsteps
    have hlater : later.Sound lib ∧ later.Stuck id := by
      apply hsteps.invariant
      · rintro s action s' ⟨hsound, hstuck⟩ _ hstep
        exact ⟨RpcClient.sound_step hsound hstep, RpcClient.stuck_step hsound hstuck hstep⟩
      · exact ⟨RpcClient.sound_step hsound hstep, RpcClient.stuck_of_submit hguard hstep⟩
    obtain ⟨hsound, -, hmem, caller, hcaller, hphase⟩ := hlater
    have hcall := (hsound.request id).2 caller hcaller
    refine ⟨hmem, caller, hcaller, hphase, hcall.unfilled hmem, hcall.unreturned ?_⟩
    obtain heq | heq := hphase
    · simp [heq]
    · simp [heq]

def updateText : String := "\x7b\"method\":\"session/update\"\x7d"

def stringIdText : String := "\x7b\"id\":\"1\",\"result\":true\x7d"

def nullErrorText : String := "\x7b\"id\":2,\"error\":null\x7d"

def threeMessages : SerdeJson where
  parse := fun line =>
    if line = updateText.toList then some (.object [("method", .string "session/update")])
    else if line = stringIdText.toList then
      some (.object [("id", .string "1"), ("result", .bool true)])
    else if line = nullErrorText.toList then some (.object [("id", .int 2), ("error", .null)])
    else none
  render := fun _ => "null"
  whole := fun _ => none

def register (id : Int) : List Action := [.call "a" .null, .insert id, .submit id]

/-- Two requests, a line of noise, a notification, both responses, the end, and a third request that
was registered before the end. -/
def answeredInTurn : List Action :=
  register 1 ++ register 2 ++ register 3 ++
    [.print (some "starting".toList), .print (some updateText.toList),
      .print (some stringIdText.toList), .print (some nullErrorText.toList), .read, .read, .send,
      .read, .read, .resume 1, .resume 2, .close, .clear, .send, .resume 3]

theorem answered_in_turn :
    ∃ s : RpcClient, s.Answered threeMessages ∧ s.NoneWaits ∧
      s.sent = [.notification "session/update" .null, .eof] ∧
      (s.callers 1).map (·.returns) = some [.ok (.bool true)] ∧
      (s.callers 2).map (·.returns) = some [.error (.protocol "a: null")] ∧
      (s.callers 3).map (·.returns) =
        some [.error (.protocol "a: app-server exited before responding")] := by
  obtain ⟨s, hsteps, hs⟩ := Machine.exists_steps_of_runWhen (client threeMessages)
    RpcClient.InTime answeredInTurn (s := .new) (p := fun s =>
      decide (s.sent = [.notification "session/update" .null, .eof] ∧
        (s.callers 1).map (·.returns) = some [.ok (.bool true)] ∧
        (s.callers 2).map (·.returns) = some [.error (.protocol "a: null")] ∧
        (s.callers 3).map (·.returns) =
          some [.error (.protocol "a: app-server exited before responding")])) (by decide +kernel)
  have hguarded : (client threeMessages).ReachableWhen RpcClient.InTime s := ⟨.new, rfl, hsteps⟩
  obtain ⟨hanswered, hwaits, -⟩ :=
    agent_requests_settle threeMessages (hguarded.mono fun _ _ _ => trivial)
  exact ⟨s, hanswered, hwaits hguarded, of_decide_eq_true hs⟩

/-- The agent has closed its output and not its input. -/
def requestedAfterClear : List Action := [.close, .clear] ++ register 1 ++ [.send]

/-- A request that is registered between the clearing and the end marker waits for ever. -/
theorem requested_after_clear_waits :
    ¬ ∀ (lib : SerdeJson) (s : RpcClient), (client lib).Reachable s → s.NoneWaits := by
  intro hall
  obtain ⟨s, hsteps, hs⟩ := Machine.exists_steps_of_runWhen (client threeMessages)
    Machine.anyStep requestedAfterClear (s := .new) (p := fun s =>
      decide (.eof ∈ s.sent ∧ 1 ∈ s.pending ∧ (s.callers 1).map (·.phase) = some .waiting))
    (by decide +kernel)
  obtain ⟨heof, hmem, hphase⟩ := of_decide_eq_true hs
  obtain ⟨caller, hcaller, hphase⟩ := Option.map_eq_some_iff.mp hphase
  exact (hall threeMessages s ⟨.new, rfl, hsteps⟩).pending heof 1 hmem caller hcaller hphase

end Zeron.Harness.JsonRpc
