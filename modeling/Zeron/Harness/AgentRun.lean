import Mathlib.Data.List.Infix
import Zeron.Harness.JsonRpc
import Zeron.Harness.OpenTools

/-!
# A run over its JSON-RPC client

`run_session` over its JSON-RPC client. Responses resolve requests past the channel that the other
messages go through, and the session loop drains that channel at the boundaries. The setup requests
drop what they drain. What the other tasks do before the last await of a branch is done before the
branch here; `during` is what they and the loop do while it drains.
-/

namespace Zeron.Harness.Agent

open Zeron.Lib (Machine)
open Zeron.Registry (JsonValue)
open JsonRpc (RpcClient SerdeJson HarnessError forwards)

/-! ## Responses -/

/-- `as_u64` of the first key that is there. -/
def count (usage : JsonValue) (keys : List String) : Option Int :=
  (keys.findSome? fun key => JsonRpc.get key usage).bind fun value =>
    match value with
    | .int n => if 0 ≤ n ∧ n < 2 ^ 64 then some n else none
    | _ => none

/-- Whether `usage_from_response` finds any. -/
def hasUsage (resp : JsonValue) : Bool :=
  (JsonRpc.get "usage" resp).any fun usage =>
    (count usage ["inputTokens", "input_tokens"]).isSome ||
      (count usage ["outputTokens", "output_tokens"]).isSome

def field (key : String) (resp : JsonValue) : Option String :=
  (JsonRpc.get key resp).bind JsonValue.str?

def promptResult : Except HarnessError JsonValue → PromptResult
  | .ok resp => .ok (field "stopReason" resp) (hasUsage resp)
  | .error _ => .error

def steeringResult : Except HarnessError JsonValue → SteeringResult
  | .ok resp => .ok (field "outcome" resp) (field "reason" resp)
  | .error _ => .error

/-! ## The run -/

inductive Stage where
  /-- `initialize` -/
  | handshake
  | load
  | new
  | config
  deriving DecidableEq

/-- Which future the run waits for; a request gets its id when it is first polled. -/
inductive Phase where
  | setup (stage : Stage) (id : Option Int)
  | live (session : Session) (turnId callId : Option Int)
  | over

structure Run where
  client : RpcClient
  phase : Phase
  /-- How many messages of the channel the setup has taken. -/
  dropped : Nat
  /-- For a request that a line has answered, how many lines came before that one. -/
  before : Int → Option Nat
  /-- The `session/load` and `session/new` that a line has answered, with the same. -/
  opened : List (Int × Nat)

/-- What a run is started with. -/
structure Setup where
  spec : Spec
  resume : Bool
  prompt : String

inductive RunAction where
  /-- A step of the agent, of the client's tasks, or of a request under way. -/
  | io (action : JsonRpc.Action)
  | poll (params : JsonValue)
  | pollSteering (params : JsonValue)
  | setupReceive
  /-- A setup request is answered; `more` when another option is set after it. -/
  | setupAnswered (during : List JsonRpc.Action) (more : Bool)
  | abandon
  | promptResponse (during : List JsonRpc.Action)
  | incoming
  | eof
  | steeringResponse (during : List JsonRpc.Action)
  /-- Any other branch of the loop. -/
  | other (action : Action)

def elsewhere : JsonRpc.Action → Bool
  | .call _ _ | .receive | .hangUp => false
  | _ => true

def drainStep (action : JsonRpc.Action) : Bool :=
  match action with
  | .receive => true
  | action => elsewhere action

def needsAgent : Action → Bool
  | .promptResponse _ _ _ | .incoming _ | .eof _ | .steeringResponse _ _ => true
  | _ => false

def Stage.method : Stage → String
  | .handshake => "initialize"
  | .load => "session/load"
  | .new => "session/new"
  | .config => "session/set_config_option"

def prompts (log : List Record) : Nat :=
  log.countP fun record =>
    match record with
    | .prompt _ => true
    | _ => false

section Steps

variable (lib : SerdeJson) (read : JsonRpc.Incoming → Incoming)

def messages (sent : List JsonRpc.Incoming) : List Incoming :=
  (sent.filter fun incoming => incoming ≠ .eof).map read

namespace Run

variable (r : Run)

def answers : JsonRpc.Action → Option Int
  | .read =>
      match r.client.reader, r.client.unread with
      | .reading, some line :: _ =>
          ((JsonRpc.message lib line).bind (JsonRpc.response lib)).filter fun id =>
            id ∈ r.client.pending
      | _, _ => none
  | _ => none

def noted : Option Int → Int → Option Nat
  | some id => Function.update r.before id (some r.client.taken.length)
  | none => r.before

def io (action : JsonRpc.Action) : Option Run :=
  (r.client.step lib action).map fun client =>
    { r with client, before := r.noted (r.answers lib action) }

/-- `try_recv` until it finds nothing. -/
def drain : Run → List JsonRpc.Action → Option Run
  | r, [] => if r.client.received = r.client.sent.length then some r else none
  | r, action :: during =>
      if drainStep action then (r.io lib action).bind fun r' => r'.drain during else none

def result (id : Option Int) : Option (Except HarnessError JsonValue) :=
  (id.bind r.client.callers).bind fun caller => caller.returns.head?

/-- The messages that a drain of `r` up to `r'` has taken. -/
def drained (r' : Run) : List Incoming :=
  messages read (r'.client.sent.drop r.client.received)

/-- The request that follows an answered one, or the first prompt. -/
def setupNext (setup : Setup) (stage : Stage) (ok more : Bool) : Phase :=
  match stage with
  | .handshake =>
      if ok then .setup (if setup.resume then .load else .new) none else .over
  | .load =>
      if ok then if more then .setup .config none else .live (.start setup.prompt) none none
      else .setup .new none
  | .new =>
      if ok then if more then .setup .config none else .live (.start setup.prompt) none none
      else .over
  | .config => if more then .setup .config none else .live (.start setup.prompt) none none

/-- The session goes on; a new prompt and a new steering call are not polled yet. -/
def goOn (s s' : Session) (turnId callId : Option Int) (answered : Bool) : Phase :=
  .live s'
    (if s'.turn.isSome && prompts s'.log = prompts s.log then turnId else none)
    (if s'.steeringCall.isSome && s.steeringCall.isSome && !answered then callId else none)

def branch (setup : Setup) (action : Action) : Option Run :=
  match r.phase with
  | .live s turnId callId =>
      ((machine setup.spec).step s action).map fun s' =>
        { r with phase := goOn s s' turnId callId (action matches .steeringResponse _ _) }
  | _ => none

def step (setup : Setup) : RunAction → Option Run
  | .io action => if elsewhere action then r.io lib action else none
  | .poll params =>
      match r.phase with
      | .setup stage none =>
          (r.io lib (.call stage.method params)).map fun r' =>
            { r' with phase := .setup stage (some r'.client.nextId) }
      | .live s none callId =>
          if s.turn.isSome then
            (r.io lib (.call "session/prompt" params)).map fun r' =>
              { r' with phase := .live s (some r'.client.nextId) callId }
          else none
      | _ => none
  | .pollSteering params =>
      match r.phase with
      | .live s turnId none =>
          if s.steeringCall.isSome then
            (r.io lib (.call "_session/steering" params)).map fun r' =>
              { r' with phase := .live s turnId (some r'.client.nextId) }
          else none
      | _ => none
  | .setupReceive =>
      match r.phase with
      | .setup .handshake _ => none
      | .setup _ _ =>
          (r.io lib .receive).map fun r' => { r' with dropped := r'.client.received }
      | _ => none
  | .setupAnswered during more =>
      match r.phase with
      | .setup .handshake id =>
          (r.result id).map fun result =>
            { r with phase := setupNext setup .handshake result.isOk more }
      | .setup stage id =>
          (r.result id).bind fun result =>
            (r.drain lib during).map fun r' =>
              { r' with
                dropped := r'.client.received
                opened :=
                  if stage = .config then r'.opened
                  else r'.opened ++ (id.bind fun id => (r.before id).map (id, ·)).toList
                phase := setupNext setup stage result.isOk more }
      | _ => none
  | .abandon =>
      match r.phase with
      | .setup _ _ => some { r with phase := .over }
      | _ => none
  | .promptResponse during =>
      match r.phase with
      | .live _ turnId callId =>
          (r.result turnId).bind fun result =>
            (r.drain lib during).bind fun r' =>
              r'.branch setup (.promptResponse (promptResult result)
                ((r.result callId).map steeringResult) (r.drained read r'))
      | _ => none
  | .incoming =>
      (r.client.sent[r.client.received]?).bind fun incoming =>
        if incoming = .eof then none
        else (r.io lib .receive).bind fun r' => r'.branch setup (.incoming (read incoming))
  | .eof =>
      match r.phase with
      | .live _ turnId _ =>
          if r.client.sent[r.client.received]? = some .eof ∨
              r.client.received = r.client.sent.length ∧
                (r.client.reader = .ended ∨ r.client.reader = .returned) then
            r.branch setup (.eof ((r.result turnId).map promptResult))
          else none
      | _ => none
  | .steeringResponse during =>
      match r.phase with
      | .live s _ callId =>
          (r.result callId).bind fun result =>
            if s.injects (steeringResult result) then
              (r.drain lib during).bind fun r' =>
                r'.branch setup (.steeringResponse (steeringResult result) (r.drained read r'))
            else r.branch setup (.steeringResponse (steeringResult result) [])
      | _ => none
  | .other action => if needsAgent action then none else r.branch setup action

def start : Run where
  client := .new
  phase := .setup .handshake none
  dropped := 0
  before := fun _ => none
  opened := []

end Run

def runs (setup : Setup) : Machine Run RunAction where
  init := (· = .start)
  step := fun r action => r.step lib read setup action

end Steps

/-! ## The client under the run -/

section Client

variable {lib : SerdeJson} {client client' : RpcClient} {action : JsonRpc.Action}

/-- The lines, the channel and what came out of it only grow. -/
structure Grows (client client' : RpcClient) : Prop where
  taken : client.taken <+: client'.taken
  sent : client.sent <+: client'.sent
  received : client.received ≤ client'.received

theorem Grows.of_eq (htaken : client'.taken = client.taken) (hsent : client'.sent = client.sent)
    (hreceived : client'.received = client.received) : Grows client client' :=
  ⟨by rw [htaken], by rw [hsent], hreceived.ge⟩

theorem Grows.trans {client'' : RpcClient} (h : Grows client client')
    (h' : Grows client' client'') : Grows client client'' :=
  ⟨h.taken.trans h'.taken, h.sent.trans h'.sent, h.received.trans h'.received⟩

theorem route_eq (msg : JsonValue) :
    (client.route lib msg).taken = client.taken ∧ (client.route lib msg).sent = client.sent ∧
      (client.route lib msg).received = client.received := by
  unfold RpcClient.route
  split
  · unfold RpcClient.settle
    split_ifs <;> exact ⟨rfl, rfl, rfl⟩
  · exact ⟨rfl, rfl, rfl⟩
  · exact ⟨rfl, rfl, rfl⟩

/-- Only the loop takes messages out of the channel. -/
theorem grows_step (h : client.step lib action = some client') :
    Grows client client' ∧ (elsewhere action = true → client'.received = client.received) := by
  have hsame (htaken : client'.taken = client.taken) (hsent : client'.sent = client.sent)
      (hreceived : client'.received = client.received) :
      Grows client client' ∧ (elsewhere action = true → client'.received = client.received) :=
    ⟨.of_eq htaken hsent hreceived, fun _ => hreceived⟩
  cases action with
  | call _ _ | writeFails | «break» | hangUp =>
      cases h
      exact hsame rfl rfl rfl
  | insert id | drop id =>
      obtain ⟨caller, -, h⟩ := Option.bind_eq_some_iff.mp h
      split_ifs at h
      cases h
      exact hsame rfl rfl rfl
  | submit id | remove id =>
      obtain ⟨caller, -, h⟩ := Option.bind_eq_some_iff.mp h
      split_ifs at h
      all_goals
        cases h
        exact hsame rfl rfl rfl
  | resume id =>
      obtain ⟨caller, -, h⟩ := Option.bind_eq_some_iff.mp h
      split at h
      · cases h
        exact hsame rfl rfl rfl
      · cases h
  | notify _ _ | respond _ _ | respondError _ _ _ =>
      cases h
      unfold RpcClient.post at hsame ⊢
      split_ifs at hsame ⊢ <;> exact hsame rfl rfl rfl
  | write | print _ | close | clear =>
      simp only [RpcClient.step] at h
      split_ifs at h
      cases h
      exact hsame rfl rfl rfl
  | receive =>
      simp only [RpcClient.step] at h
      split_ifs at h
      cases h
      exact ⟨⟨List.prefix_refl _, List.prefix_refl _, Nat.le_succ _⟩,
        fun helsewhere => absurd helsewhere Bool.false_ne_true⟩
  | read =>
      simp only [RpcClient.step] at h
      split at h
      · rename_i line rest hreader hunread
        cases h
        have htaken : Grows client
            { client with taken := client.taken ++ [some line], unread := rest } :=
          ⟨List.prefix_append _ _, List.prefix_refl _, le_rfl⟩
        cases JsonRpc.message lib line with
        | none => exact ⟨htaken, fun _ => rfl⟩
        | some msg =>
            obtain ⟨htaken', hsent, hreceived⟩ := @route_eq lib
              { client with taken := client.taken ++ [some line], unread := rest } msg
            exact ⟨htaken.trans (.of_eq htaken' hsent hreceived), fun _ => hreceived⟩
      · cases h
  | send =>
      simp only [RpcClient.step] at h
      split at h
      · unfold RpcClient.deliver at h
        split_ifs at h
        · cases h
          exact ⟨⟨List.prefix_refl _, List.prefix_append _ _, le_rfl⟩, fun _ => rfl⟩
        · cases h
          exact hsame rfl rfl rfl
      · unfold RpcClient.deliver at h
        split_ifs at h
        · cases h
          exact ⟨⟨List.prefix_refl _, List.prefix_append _ _, le_rfl⟩, fun _ => rfl⟩
        · cases h
          exact hsame rfl rfl rfl
      · cases h

theorem taken_read {line : List Char} {rest : List (Option (List Char))} {msg : JsonValue}
    (hunread : client.unread = some line :: rest) (hmsg : JsonRpc.message lib line = some msg)
    (h : client.step lib .read = some client') :
    client'.taken = client.taken ++ [some line] ∧ client'.sent = client.sent := by
  simp only [RpcClient.step] at h
  split at h
  · rename_i other others _ hothers
    rw [hunread] at hothers
    cases hothers
    cases h
    rw [hmsg]
    obtain ⟨htaken, hsent, -⟩ := @route_eq lib
      { client with taken := client.taken ++ [some line], unread := rest } msg
    exact ⟨htaken, hsent⟩
  · cases h

theorem received_receive (h : client.step lib .receive = some client') :
    client'.received = client.received + 1 ∧ client.received < client.sent.length ∧
      client'.sent = client.sent := by
  simp only [RpcClient.step] at h
  split_ifs at h with hopen
  cases h
  exact ⟨rfl, hopen.2, rfl⟩

/-- The line after the first `n` is a response to the request. -/
def AnsweredAt (lib : SerdeJson) (client : RpcClient) (id : Int) (n : Nat) : Prop :=
  ∃ line msg, client.taken[n]? = some (some line) ∧ JsonRpc.message lib line = some msg ∧
    JsonRpc.response lib msg = some id

/-- The messages of the first `n` lines have gone into the channel. -/
def Ahead (lib : SerdeJson) (client : RpcClient) (n : Nat) : Prop :=
  n ≤ client.taken.length ∧ forwards lib (client.taken.take n) <+: client.sent

theorem AnsweredAt.mono {id : Int} {n : Nat} (h : AnsweredAt lib client id n)
    (hgrows : Grows client client') : AnsweredAt lib client' id n := by
  obtain ⟨line, msg, hline, hmsg⟩ := h
  obtain ⟨more, hmore⟩ := hgrows.taken
  refine ⟨line, msg, ?_, hmsg⟩
  rw [← hmore, List.getElem?_append_left (List.getElem?_eq_some_iff.mp hline).1]
  exact hline

theorem take_of_grows {n : Nat} (hn : n ≤ client.taken.length) (hgrows : Grows client client') :
    client'.taken.take n = client.taken.take n := by
  obtain ⟨more, hmore⟩ := hgrows.taken
  rw [← hmore, List.take_append_of_le_length hn]

theorem Ahead.mono {n : Nat} (h : Ahead lib client n) (hgrows : Grows client client') :
    Ahead lib client' n := by
  refine ⟨h.1.trans hgrows.taken.length_le, ?_⟩
  rw [take_of_grows h.1 hgrows]
  exact h.2.trans hgrows.sent

end Client

/-! ## Steps outside the loop -/

section Outside

variable {lib : SerdeJson} {r r' r'' : Run} {action : JsonRpc.Action}

/-- What holds of the client and of the answered requests. -/
structure Sound (lib : SerdeJson) (r : Run) : Prop where
  client : r.client.Sound lib
  ordered : r.client.Ordered lib
  filled : ∀ id caller msg, r.client.callers id = some caller → .outcome msg ∈ caller.fills →
    r.before id ≠ none
  received_le : r.client.received ≤ r.client.sent.length
  answered : ∀ id n, r.before id = some n → AnsweredAt lib r.client id n
  ahead : ∀ id n, r.before id = some n → Ahead lib r.client n

/-- Only the client has gone on. -/
structure Moved (r r' : Run) : Prop where
  phase : r'.phase = r.phase
  dropped : r'.dropped = r.dropped
  opened : r'.opened = r.opened
  client : Grows r.client r'.client

theorem Moved.trans (h : Moved r r') (h' : Moved r' r'') : Moved r r'' :=
  ⟨h'.phase.trans h.phase, h'.dropped.trans h.dropped, h'.opened.trans h.opened,
    h.client.trans h'.client⟩

theorem answers_eq_some {id : Int} (h : r.answers lib action = some id) :
    ∃ line rest msg, action = .read ∧ r.client.reader = .reading ∧
      r.client.unread = some line :: rest ∧ JsonRpc.message lib line = some msg ∧
        JsonRpc.response lib msg = some id := by
  unfold Run.answers at h
  split at h
  · split at h
    · rename_i line rest hreader hunread
      obtain ⟨hid, -⟩ := Option.filter_eq_some_iff.mp h
      obtain ⟨msg, hmsg, hresponse⟩ := Option.bind_eq_some_iff.mp hid
      exact ⟨line, rest, msg, rfl, hreader, hunread, hmsg, hresponse⟩
    · cases h
  · cases h

theorem Sound.same (h : Sound lib r) {phase : Phase} {dropped : Nat} {opened : List (Int × Nat)} :
    Sound lib { r with phase, dropped, opened } :=
  ⟨h.client, h.ordered, h.filled, h.received_le, h.answered, h.ahead⟩

theorem Sound.before_of_ok (h : Sound lib r) {id? : Option Int} {value : JsonValue}
    (hresult : r.result id? = some (.ok value)) :
    ∃ id, id? = some id ∧ ∃ n, r.before id = some n := by
  obtain ⟨caller, hcaller, hhead⟩ := Option.bind_eq_some_iff.mp hresult
  obtain ⟨id, rfl, hcaller⟩ := Option.bind_eq_some_iff.mp hcaller
  refine ⟨id, rfl, ?_⟩
  have hmem : .ok value ∈ caller.returns := List.mem_of_head? hhead
  obtain ⟨fill, hfill, heq⟩ | hclosed := ((h.client.request id).2 caller hcaller).results _ hmem
  · obtain ⟨msg, rfl, -⟩ := RpcClient.ok_of_result heq
    exact Option.ne_none_iff_exists'.mp (h.filled id caller msg hcaller hfill)
  · cases hclosed

theorem io_moved (h : r.io lib action = some r') : Moved r r' := by
  obtain ⟨client, hclient, rfl⟩ := Option.map_eq_some_iff.mp h
  exact ⟨rfl, rfl, rfl, (grows_step hclient).1⟩

theorem fills_modify {client : RpcClient} {f : JsonRpc.Caller → JsonRpc.Caller}
    (hf : ∀ caller, (f caller).fills = caller.fills) {id other : Int} {caller' : JsonRpc.Caller}
    (hcaller' : (client.modify other f).callers id = some caller') :
    ∃ caller, client.callers id = some caller ∧ caller'.fills = caller.fills := by
  by_cases hid : id = other
  · subst hid
    rw [RpcClient.modify_callers_self] at hcaller'
    obtain ⟨caller, hcaller, rfl⟩ := Option.map_eq_some_iff.mp hcaller'
    exact ⟨caller, hcaller, hf caller⟩
  · rw [RpcClient.modify_callers_of_ne f hid] at hcaller'
    exact ⟨caller', hcaller', rfl⟩

/-- Only a line that is read gives a request its outcome. -/
theorem fills_step {client : RpcClient} (h : r.client.step lib action = some client) {id : Int}
    {caller' : JsonRpc.Caller} {msg : JsonValue} (hcaller' : client.callers id = some caller')
    (hfill : .outcome msg ∈ caller'.fills) :
    (∃ caller, r.client.callers id = some caller ∧ .outcome msg ∈ caller.fills) ∨
      r.answers lib action = some id := by
  have hmodify {f : JsonRpc.Caller → JsonRpc.Caller} {other : Int}
      (hf : ∀ caller, (f caller).fills = caller.fills)
      (hcaller' : (r.client.modify other f).callers id = some caller') :
      ∃ caller, r.client.callers id = some caller ∧ .outcome msg ∈ caller.fills := by
    obtain ⟨caller, hcaller, hfills⟩ := fills_modify hf hcaller'
    exact ⟨caller, hcaller, hfills ▸ hfill⟩
  cases action with
  | call method params =>
      cases h
      by_cases hid : id = r.client.nextId + 1
      · subst hid
        change Function.update _ _ _ _ = _ at hcaller'
        rw [Function.update_self] at hcaller'
        cases hcaller'
        cases hfill
      · change Function.update _ _ _ _ = _ at hcaller'
        rw [Function.update_of_ne hid] at hcaller'
        exact .inl ⟨caller', hcaller', hfill⟩
  | insert other | drop other =>
      obtain ⟨caller, -, h⟩ := Option.bind_eq_some_iff.mp h
      split_ifs at h
      cases h
      refine .inl (hmodify ?_ hcaller')
      exact fun _ => rfl
  | submit other | remove other =>
      obtain ⟨caller, -, h⟩ := Option.bind_eq_some_iff.mp h
      split_ifs at h
      all_goals
        cases h
        refine .inl (hmodify ?_ hcaller')
        exact fun _ => rfl
  | resume other =>
      obtain ⟨caller, -, h⟩ := Option.bind_eq_some_iff.mp h
      split at h
      · cases h
        refine .inl (hmodify ?_ hcaller')
        exact fun _ => rfl
      · cases h
  | notify _ _ | respond _ _ | respondError _ _ _ =>
      cases h
      unfold RpcClient.post at hcaller'
      split_ifs at hcaller' <;> exact .inl ⟨caller', hcaller', hfill⟩
  | writeFails | «break» | hangUp =>
      cases h
      exact .inl ⟨caller', hcaller', hfill⟩
  | write | print _ | close | receive =>
      simp only [RpcClient.step] at h
      split_ifs at h
      cases h
      exact .inl ⟨caller', hcaller', hfill⟩
  | clear =>
      simp only [RpcClient.step] at h
      split_ifs at h
      cases h
      simp only [RpcClient.clear] at hcaller'
      split_ifs at hcaller'
      · obtain ⟨caller, hcaller, rfl⟩ := Option.map_eq_some_iff.mp hcaller'
        obtain heq | hmem := List.mem_cons.mp hfill
        · cases heq
        · exact .inl ⟨caller, hcaller, hmem⟩
      · exact .inl ⟨caller', hcaller', hfill⟩
  | send =>
      simp only [RpcClient.step] at h
      split at h
      · unfold RpcClient.deliver at h
        split_ifs at h <;> cases h <;> exact .inl ⟨caller', hcaller', hfill⟩
      · unfold RpcClient.deliver at h
        split_ifs at h <;> cases h <;> exact .inl ⟨caller', hcaller', hfill⟩
      · cases h
  | read =>
      simp only [RpcClient.step] at h
      split at h
      · rename_i line rest hreader hunread
        cases h
        cases hmsg : JsonRpc.message lib line with
        | none =>
            rw [hmsg] at hcaller'
            exact .inl ⟨caller', hcaller', hfill⟩
        | some value =>
            rw [hmsg] at hcaller'
            change (RpcClient.route lib _ value).callers id = _ at hcaller'
            unfold RpcClient.route at hcaller'
            split at hcaller'
            · rename_i _ other hresponse
              unfold RpcClient.settle at hcaller'
              split_ifs at hcaller' with hpending
              · by_cases hid : id = other
                · subst hid
                  refine .inr ?_
                  simp only [Run.answers, hreader, hunread, hmsg, Option.bind_some, hresponse]
                  exact Option.filter_eq_some_iff.mpr ⟨rfl, decide_eq_true hpending⟩
                · change (RpcClient.modify _ _ _).callers id = _ at hcaller'
                  rw [RpcClient.modify_callers_of_ne _ hid] at hcaller'
                  exact .inl ⟨caller', hcaller', hfill⟩
              · exact .inl ⟨caller', hcaller', hfill⟩
            · exact .inl ⟨caller', hcaller', hfill⟩
            · exact .inl ⟨caller', hcaller', hfill⟩
      · cases h

theorem answers_ahead {id : Int} {client : RpcClient} (hsound : Sound lib r)
    (h : r.answers lib action = some id) (hclient : r.client.step lib action = some client) :
    AnsweredAt lib client id r.client.taken.length ∧ Ahead lib client r.client.taken.length := by
  obtain ⟨line, rest, msg, rfl, hreader, hunread, hmsg, hresponse⟩ := answers_eq_some h
  obtain ⟨htaken, hsent⟩ := taken_read hunread hmsg hclient
  have hforwards : r.client.sent = forwards lib r.client.taken := by
    simpa [RpcClient.Ordered, hreader] using hsound.ordered
  refine ⟨⟨line, msg, ?_, hmsg, hresponse⟩, ?_, ?_⟩
  · rw [htaken]
    simp
  · rw [htaken]
    simp
  · rw [htaken, hsent, List.take_left, ← hforwards]

theorem io_sound (hsound : Sound lib r) (h : r.io lib action = some r') : Sound lib r' := by
  obtain ⟨client, hclient, rfl⟩ := Option.map_eq_some_iff.mp h
  obtain ⟨hgrows, hreceived⟩ := grows_step hclient
  have hbefore (id : Int) (n : Nat) (hn : r.noted (r.answers lib action) id = some n) :
      AnsweredAt lib client id n ∧ Ahead lib client n := by
    have hkept (hn : r.before id = some n) : AnsweredAt lib client id n ∧ Ahead lib client n :=
      ⟨(hsound.answered id n hn).mono hgrows, (hsound.ahead id n hn).mono hgrows⟩
    cases hanswers : r.answers lib action with
    | none =>
        rw [hanswers] at hn
        exact hkept hn
    | some other =>
        rw [hanswers, Run.noted] at hn
        by_cases hid : id = other
        · subst hid
          rw [Function.update_self, Option.some.injEq] at hn
          rw [← hn]
          exact answers_ahead hsound hanswers hclient
        · rw [Function.update_of_ne hid] at hn
          exact hkept hn
  refine ⟨RpcClient.sound_step hsound.client hclient,
    RpcClient.ordered_step hsound.ordered hclient, fun id caller' msg hcaller' hfill => ?_, ?_,
    fun id n hn => (hbefore id n hn).1, fun id n hn => (hbefore id n hn).2⟩
  · change r.noted (r.answers lib action) id ≠ none
    obtain ⟨caller, hcaller, hfill⟩ | hanswers := fills_step hclient hcaller' hfill
    · have hnoted := hsound.filled id caller msg hcaller hfill
      cases r.answers lib action with
      | none => exact hnoted
      | some other =>
          rw [Run.noted]
          by_cases hid : id = other
          · rw [hid, Function.update_self]
            nofun
          · rwa [Function.update_of_ne hid]
    · rw [hanswers, Run.noted, Function.update_self]
      nofun
  cases action with
  | receive =>
      obtain ⟨hreceived, hlt, hsent⟩ := received_receive hclient
      rw [hreceived, hsent]
      exact hlt
  | hangUp | call _ _ =>
      cases hclient
      exact hsound.received_le
  | _ =>
      rw [hreceived rfl]
      exact hsound.received_le.trans hgrows.sent.length_le

theorem drain_moved {during : List JsonRpc.Action} (hsound : Sound lib r)
    (h : r.drain lib during = some r') :
    Sound lib r' ∧ Moved r r' ∧ r'.client.received = r'.client.sent.length := by
  induction during generalizing r with
  | nil =>
      unfold Run.drain at h
      split_ifs at h with hempty
      cases h
      exact ⟨hsound, ⟨rfl, rfl, rfl, .of_eq rfl rfl rfl⟩, hempty⟩
  | cons action during ih =>
      unfold Run.drain at h
      split_ifs at h
      obtain ⟨middle, hmiddle, h⟩ := Option.bind_eq_some_iff.mp h
      obtain ⟨hsound', hmoved, hempty⟩ := ih (io_sound hsound hmiddle) h
      exact ⟨hsound', (io_moved hmiddle).trans hmoved, hempty⟩

end Outside

end Zeron.Harness.Agent
