import Mathlib.Data.Finset.Basic
import Mathlib.Data.List.Infix
import Zeron.Ios.SessionStore

/-!
# The phone's push queue between awaits

`ChatRoomClient.swift` as the actor it is: a handler runs up to its next `await`, and there any other
handler may run. The state is that of the queue and of the connection; what a socket carries besides
pushes, and the deadlines, only matter where they end a connection or a catch-up.
-/

namespace Zeron.Ios.Reentrancy

open Zeron.Lib (Machine)

/-- Where a suspended handler goes on. -/
inductive Point where
  /-- The task of an `enqueue`, before its `pushPending`. -/
  | spawned
  /-- In the `send` of `pushPending`, with that many indices left; `gen` and the batches that were
  queued when the pass began are kept for the statements. -/
  | pass (gen left : Nat) (captured : List Nat)
  /-- After `rowsDone`, in `delegate.event`. -/
  | connected
  /-- After an ack, in `delegate.advanceCursor`. -/
  | acked
  /-- The quota task has woken. -/
  | retry (gen : Nat)
  /-- In a `send` with nothing behind it. -/
  | sending
  /-- In `delegate.event` of `onSocketError`. -/
  | dropping (gen : Nat)
  /-- In `handleState`. -/
  | planning (gen : Nat)
deriving DecidableEq

/-- For the statements: the pushes that went to each socket, and the batch that the quota task sent
alone. An index beyond the queue traps; `misnamed` when it names another batch than it did when the
pass began. -/
structure ChatRoomClient where
  pending : List (PendingPush UInt8)
  nextBatch : Nat
  joined : Bool
  closed : Bool
  generation : Nat
  /-- By the generation that opened it. -/
  socket : Option Nat
  /-- The current generation has opened its socket. -/
  opened : Bool
  helloSent : Bool
  backfilling : Bool
  quotaTask : Option Nat
  dialing : Finset Nat
  redials : Nat
  suspended : List Point
  sent : List (Nat × Nat)
  probe : Option Nat
  trapped : Bool
  misnamed : Bool

inductive Code where
  | verdict (code : ErrorCode)
  | helloFirst
  | other
deriving DecidableEq

inductive Frame where
  | state
  | rowsDone
  | ack (batchId : Nat)
  | error (code : Code) (batchId : Option Nat)
  | other
deriving DecidableEq

inductive Action where
  | start
  | stop
  | kick
  | enqueue (update : List UInt8)
  /-- A frame from the socket of the current generation. -/
  | receive (frame : Frame)
  /-- `onSocketError` of the receive task or a timer. -/
  | lose
  /-- The `i`-th suspended handler goes on; `ok` when what it awaited succeeded. -/
  | resume (i : Nat) (ok : Bool)
  /-- `urlProvider` returns. -/
  | dialed (gen : Nat) (url : Bool)
  | quotaWakes
  | redial
deriving DecidableEq

namespace ChatRoomClient

variable (client : ChatRoomClient)

def new : ChatRoomClient where
  pending := []
  nextBatch := 0
  joined := false
  closed := false
  generation := 0
  socket := none
  opened := false
  helloSent := false
  backfilling := false
  quotaTask := none
  dialing := ∅
  redials := 0
  suspended := []
  sent := []
  probe := none
  trapped := false
  misnamed := false

def ids : List Nat := client.pending.map PendingPush.batchId

def suspend (point : Point) : ChatRoomClient :=
  { client with suspended := client.suspended ++ [point] }

/-! ## Outbound -/

def flagAt (ix : Nat) (push : PendingPush UInt8) : ChatRoomClient :=
  { client with pending := client.pending.set ix { push with inFlight := true } }

/-- The loop of `pushPending` from the index with `left` to go, up to the next `send` that awaits;
without a socket a `send` returns at once. -/
def pushFrom (gen : Nat) (captured : List Nat) : (left : Nat) → ChatRoomClient → ChatRoomClient
  | 0, client => client
  | left + 1, client =>
      let ix := captured.length - (left + 1)
      match client.pending[ix]? with
      | none => { client with trapped := true }
      | some push =>
          let client :=
            if captured[ix]? = some push.batchId then client else { client with misnamed := true }
          if push.inFlight then pushFrom gen captured left client
          else
            let client := client.flagAt ix push
            match client.socket with
            | none => pushFrom gen captured left client
            | some socket =>
                { client with sent := client.sent ++ [(socket, push.batchId)] }.suspend
                  (.pass gen left captured)

def pushPending : ChatRoomClient :=
  if client.joined then
    client.pushFrom client.generation client.ids client.ids.length
  else client

def pushHead (gen : Nat) : ChatRoomClient :=
  match client.pending with
  | [] => client
  | head :: rest =>
      if gen = client.generation ∧ client.joined = true then
        let client :=
          { client with
            pending := { head with inFlight := true } :: rest, probe := some head.batchId }
        match client.socket with
        | none => client
        | some socket =>
            { client with sent := client.sent ++ [(socket, head.batchId)] }.suspend .sending
      else client

/-! ## Lifecycle -/

def unflag : ChatRoomClient :=
  { client with pending := client.pending.map fun push => { push with inFlight := false } }

def connect : ChatRoomClient :=
  if client.closed then client
  else
    { client.unflag with
      generation := client.generation + 1, joined := false, opened := false, helloSent := false
      backfilling := false, probe := none
      dialing := insert (client.generation + 1) client.dialing }

def stop : ChatRoomClient :=
  { client with
    closed := true, generation := client.generation + 1, opened := false, quotaTask := none
    socket := none, joined := false }

def onSocketError (gen : Nat) : ChatRoomClient :=
  if gen = client.generation ∧ client.closed = false then
    { client with joined := false }.suspend (.dropping gen)
  else client

/-- With `cancelTasks`. -/
def scheduleReconnect (gen : Nat) : ChatRoomClient :=
  if gen = client.generation ∧ client.closed = false then
    { client with socket := none, quotaTask := none, redials := client.redials + 1 }
  else client

def openSocket (gen : Nat) : ChatRoomClient :=
  if gen = client.generation ∧ client.closed = false then
    { client with socket := some gen, opened := true, helloSent := true }.suspend .sending
  else client

def kick : ChatRoomClient :=
  if client.closed then client
  else if client.socket = none then client.connect
  else if client.joined then client.suspend .sending
  else if client.helloSent || client.backfilling then client
  else client.connect

def enqueue (update : List UInt8) : ChatRoomClient :=
  if Zeron.Ios.ChatRoomClient.maxPushBytes < update.length then client
  else
    let client : ChatRoomClient :=
      { client with
        pending := client.pending ++
          [{ batchId := client.nextBatch, bytes := update, inFlight := false }]
        nextBatch := client.nextBatch + 1 }
    if client.joined then client.suspend .spawned else client

/-! ## Inbound -/

def retire (batchId : Nat) : ChatRoomClient :=
  { client with
    pending := client.pending.filter fun push => push.batchId ≠ batchId
    probe := if client.probe = some batchId then none else client.probe }

def handleErrorFrame (batchId : Option Nat) : Code → ChatRoomClient
  | .verdict .quota => { client.unflag with quotaTask := some client.generation, probe := none }
  | .verdict _ => batchId.elim client client.retire
  | .helloFirst => client.onSocketError client.generation
  | .other => client

def handleInbound : Frame → ChatRoomClient
  | .state =>
      if client.helloSent then
        { client with helloSent := false, backfilling := true }.suspend
          (.planning client.generation)
      else client
  | .rowsDone =>
      if client.backfilling then
        { client with backfilling := false, joined := true }.suspend .connected
      else client
  | .ack batchId => (client.retire batchId).suspend .acked
  | .error code batchId => client.handleErrorFrame batchId code
  | .other => client

def proceed (ok : Bool) : Point → ChatRoomClient
  | .spawned | .connected | .acked => client.pushPending
  | .pass gen left captured => client.pushFrom gen captured left
  | .retry gen => client.pushHead gen
  | .sending => client
  | .dropping gen => client.scheduleReconnect gen
  | .planning gen => if ok then client.suspend .sending else client.onSocketError gen

def turn : Action → Option ChatRoomClient
  | .start => some { client with closed := false }.connect
  | .stop => some client.stop
  | .kick => some client.kick
  | .enqueue update => some (client.enqueue update)
  | .receive frame => if client.opened then some (client.handleInbound frame) else none
  | .lose => if client.opened then some (client.onSocketError client.generation) else none
  | .resume i ok =>
      (client.suspended[i]?).map fun point =>
        { client with suspended := client.suspended.eraseIdx i }.proceed ok point
  | .dialed gen url =>
      if gen ∈ client.dialing then
        let client := { client with dialing := client.dialing.erase gen }
        some (if url then client.openSocket gen else client.scheduleReconnect gen)
      else none
  | .quotaWakes =>
      client.quotaTask.map fun gen => { client with quotaTask := none }.suspend (.retry gen)
  | .redial =>
      if 0 < client.redials then some { client with redials := client.redials - 1 }.connect
      else none

def step (action : Action) : Option ChatRoomClient :=
  if client.trapped then none else client.turn action

end ChatRoomClient

def machine : Machine ChatRoomClient Action where
  init := (· = .new)
  step := ChatRoomClient.step

variable {captured : List Nat} {push : PendingPush UInt8} {gen : Nat}

namespace ChatRoomClient

variable (client : ChatRoomClient)

/-! ## In turn -/

def Point.unfinished : Point → Bool
  | .pass _ left _ => 0 < left
  | _ => false

/-- The socket of the current generation, with no error on it. -/
def Intact : Prop :=
  client.socket = some client.generation ∧ .dropping client.generation ∉ client.suspended

instance : Decidable client.Intact := inferInstanceAs (Decidable (_ ∧ _))

/-- A batch leaves the queue while no pass has indices to go. -/
def retires (batchId : Nat) : Bool :=
  batchId ∈ client.ids → client.suspended.all fun point => !Point.unfinished point

/-- The batch was sent alone, and others wait for its grant. -/
def awaited (batchId : Nat) : Bool :=
  client.probe = some batchId ∧
    client.pending.any fun push => push.batchId ≠ batchId && !push.inFlight

/-- No handler is overtaken: the queue does not get shorter under a pass, a pass does not go on after
its connection, a connection is not joined after its error, and the batch that was sent alone is not
rejected for good. -/
def inTurn : Action → Bool
  | .receive (.ack batchId) => client.retires batchId
  | .receive (.error (.verdict code) (some batchId)) =>
      !code.permanent || client.retires batchId && !client.awaited batchId
  | .receive .rowsDone => client.Intact
  | .resume i _ =>
      match client.suspended[i]? with
      | some (.pass gen left _) => left = 0 || gen = client.generation
      | _ => true
  | _ => true

def InTurn (client : ChatRoomClient) (action : Action) : Prop := client.inTurn action = true

instance (client : ChatRoomClient) (action : Action) : Decidable (client.InTurn action) :=
  inferInstanceAs (Decidable (_ = true))

/-! ## What holds between awaits -/

/-- The first `k` batches are flagged as in flight. -/
def Flagged (k : Nat) : Prop :=
  ∀ (j : Nat) (push : PendingPush UInt8), j < k → client.pending[j]? = some push →
    push.inFlight = true

/-- What is flagged went to the socket of the current generation. -/
def Sent : Prop :=
  ∀ push ∈ client.pending, push.inFlight = true → (client.generation, push.batchId) ∈ client.sent

def Probing : Prop :=
  ∃ head rest, client.pending = head :: rest ∧ head.inFlight = true ∧
    client.probe = some head.batchId

/-- All is in flight, or a quota retry is armed, or the head was sent alone. -/
def Served : Prop :=
  (∀ push ∈ client.pending, push.inFlight = true) ∨
    client.quotaTask = some client.generation ∨ client.Probing

/-- Some handler will see to the queue. -/
def Pushing : Prop :=
  .retry client.generation ∈ client.suspended ∨ .spawned ∈ client.suspended ∨
    .connected ∈ client.suspended ∨ .acked ∈ client.suspended ∨
      ∃ left captured, .pass client.generation left captured ∈ client.suspended ∧ 0 < left ∧
        captured.length = client.pending.length ∧ client.Flagged (captured.length - left)

/-- A pass of the current generation has the queue before it that it began with. -/
def PassSound (gen left : Nat) (captured : List Nat) : Prop :=
  left ≤ captured.length ∧ gen ≤ client.generation ∧
    (gen = client.generation → 0 < left → captured <+: client.ids)

/-- Nothing was pushed on the current connection. -/
def Untouched : Prop :=
  (∀ push ∈ client.pending, push.inFlight = false) ∧
    ∀ left captured, .pass client.generation left captured ∈ client.suspended → left = 0

/-- What the awaits leave as it should be. -/
structure Sound : Prop where
  exact : client.trapped = false ∧ client.misnamed = false
  passes : ∀ gen left captured, .pass gen left captured ∈ client.suspended →
    client.PassSound gen left captured
  sockets : ∀ socket, client.socket = some socket → socket ≤ client.generation
  dials : ∀ gen ∈ client.dialing, gen ≤ client.generation
  errors : ∀ gen, .dropping gen ∈ client.suspended ∨ .planning gen ∈ client.suspended →
    gen ≤ client.generation ∧ (gen = client.generation → client.opened = true)
  stopped : client.closed = true → client.opened = false
  unopened : client.opened = false → client.socket ≠ some client.generation
  opened : client.opened = true → client.generation ∉ client.dialing
  dialed : client.generation ∈ client.dialing → client.Untouched
  joined : client.joined = true → client.opened = true ∧ client.Intact ∧ client.Sent
  unjoined : client.joined = false → client.Intact → client.Untouched

def Goes : Prop := client.joined = true → client.Served ∨ client.Pushing

/-! ## One step -/

variable {client} {client' : ChatRoomClient}

theorem mem_eraseIdx_of_ne {points : List Point} {i : Nat} {point other : Point}
    (hpoint : points[i]? = some point) (hmem : other ∈ points) (hne : other ≠ point) :
    other ∈ points.eraseIdx i := by
  rw [List.mem_eraseIdx_iff_getElem?]
  obtain ⟨j, hj⟩ := List.getElem?_of_mem hmem
  refine ⟨j, ?_, hj⟩
  rintro rfl
  rw [hpoint] at hj
  exact hne (Option.some.inj hj).symm

theorem Untouched.congr (h : client.Untouched) (hpending : client'.pending = client.pending)
    (hgeneration : client'.generation = client.generation)
    (hpasses : ∀ left captured, .pass client.generation left captured ∈ client'.suspended →
      left = 0 ∨ .pass client.generation left captured ∈ client.suspended) :
    client'.Untouched := by
  refine ⟨by rw [hpending]; exact h.1, ?_⟩
  intro left captured hmem
  rw [hgeneration] at hmem
  exact (hpasses left captured hmem).elim id (h.2 left captured)

/-- Only the connection, and what is suspended besides passes, changes. -/
theorem Sound.congr (h : client.Sound) (hpending : client'.pending = client.pending)
    (hgeneration : client'.generation = client.generation)
    (hexact : client'.trapped = client.trapped ∧ client'.misnamed = client.misnamed)
    (hpasses : ∀ gen left captured, .pass gen left captured ∈ client'.suspended →
      .pass gen left captured ∈ client.suspended)
    (hsockets : ∀ socket, client'.socket = some socket → socket ≤ client.generation)
    (hdialing : client'.dialing ⊆ client.dialing)
    (herrors : ∀ gen, .dropping gen ∈ client'.suspended ∨ .planning gen ∈ client'.suspended →
      gen ≤ client.generation ∧ (gen = client.generation → client'.opened = true))
    (hstopped : client'.closed = true → client'.opened = false)
    (hunopened : client'.opened = false → client'.socket ≠ some client.generation)
    (hopened : client'.opened = true → client.generation ∉ client'.dialing)
    (hjoined : client'.joined = true → client'.opened = true ∧ client'.Intact ∧ client'.Sent)
    (hunjoined : client'.joined = false → client'.Intact → client.Untouched) : client'.Sound where
  exact := by
    rw [hexact.1, hexact.2]
    exact h.exact
  passes := by
    intro gen left captured hmem
    have hpass := h.passes gen left captured (hpasses gen left captured hmem)
    unfold PassSound ids at *
    rw [hgeneration, hpending]
    exact hpass
  sockets := by
    rw [hgeneration]
    exact hsockets
  dials := by
    rw [hgeneration]
    exact fun gen hmem => h.dials gen (hdialing hmem)
  errors := by
    rw [hgeneration]
    exact herrors
  stopped := hstopped
  unopened := by
    rw [hgeneration]
    exact hunopened
  opened := by
    rw [hgeneration]
    exact hopened
  dialed := by
    rw [hgeneration]
    intro hmem
    exact (h.dialed (hdialing hmem)).congr hpending hgeneration
      fun left captured hpass => .inr (hpasses _ left captured hpass)
  joined := hjoined
  unjoined := by
    intro hno hintact
    exact (hunjoined hno hintact).congr hpending hgeneration
      fun left captured hpass => .inr (hpasses _ left captured hpass)

/-- A point after which only the queue may change. -/
def Point.plain : Point → Bool
  | .pass _ _ _ | .dropping _ | .planning _ => false
  | _ => true

theorem Intact.of_eq (h : client.Intact) (hgeneration : client'.generation = client.generation)
    (hsocket : client'.socket = client.socket)
    (hdropping : .dropping client.generation ∈ client'.suspended →
      .dropping client.generation ∈ client.suspended) : client'.Intact := by
  obtain ⟨hopen, hnot⟩ := h
  refine ⟨by rw [hsocket, hgeneration, hopen], ?_⟩
  rw [hgeneration]
  exact fun hmem => hnot (hdropping hmem)

theorem Sent.of_eq (h : client.Sent) (hpending : client'.pending = client.pending)
    (hgeneration : client'.generation = client.generation)
    (hsent : ∀ push ∈ client.sent, push ∈ client'.sent) : client'.Sent := by
  unfold Sent at *
  rw [hpending, hgeneration]
  exact fun push hmem hflag => hsent _ (h push hmem hflag)

theorem Sound.points (h : client.Sound) {points : List Point} {redials : Nat} {helloSent
    backfilling : Bool} {quotaTask : Option Nat}
    (hpoints : ∀ point ∈ points, Point.plain point = true ∨ point ∈ client.suspended)
    (hdropping : .dropping client.generation ∈ client.suspended →
      .dropping client.generation ∈ points) :
    ({ client with
      suspended := points, redials, helloSent, backfilling, quotaTask }).Sound := by
  have hkept : ∀ point ∈ points, Point.plain point = false → point ∈ client.suspended := by
    intro point hmem hplain
    obtain hyes | hold := hpoints point hmem
    · rw [hplain] at hyes
      cases hyes
    · exact hold
  refine h.congr rfl rfl ⟨rfl, rfl⟩ ?_ h.sockets (fun _ hmem => hmem) ?_ h.stopped h.unopened
    h.opened ?_ ?_
  · intro gen left captured hmem
    exact hkept _ hmem rfl
  · rintro gen (hmem | hmem)
    · exact h.errors gen (.inl (hkept _ hmem rfl))
    · exact h.errors gen (.inr (hkept _ hmem rfl))
  · intro hjoined
    obtain ⟨hopen, hintact, hsent⟩ := h.joined hjoined
    exact ⟨hopen, hintact.of_eq rfl rfl fun hmem => hkept _ hmem rfl,
      hsent.of_eq rfl rfl fun _ hmem => hmem⟩
  · intro hno hintact
    exact h.unjoined hno (hintact.of_eq rfl rfl hdropping)

theorem Sound.suspend (h : client.Sound) {point : Point} (hplain : Point.plain point = true) :
    (client.suspend point).Sound := by
  apply h.points
  · intro other hmem
    rw [List.mem_append, List.mem_singleton] at hmem
    exact hmem.elim .inr fun heq => .inl (heq ▸ hplain)
  · exact List.mem_append_left [point]

theorem Sound.erase (h : client.Sound) {i : Nat} {point : Point}
    (hpoint : client.suspended[i]? = some point) (hne : point ≠ .dropping client.generation) :
    ({ client with suspended := client.suspended.eraseIdx i }).Sound := by
  apply h.points
  · exact fun other hmem => .inr (List.mem_of_mem_eraseIdx hmem)
  · exact fun hmem => mem_eraseIdx_of_ne hpoint hmem (Ne.symm hne)

/-! ## The connection -/

theorem Untouched.unflag : ∀ push ∈ client.unflag.pending, push.inFlight = false := by
  intro push hmem
  obtain ⟨before, -, rfl⟩ := List.mem_map.mp hmem
  rfl

theorem ids_unflag : client.unflag.ids = client.ids := by
  simp [unflag, ids, Function.comp_def]

theorem Sound.not_pass (h : client.Sound) {gen left : Nat} (hgen : client.generation < gen) :
    .pass gen left captured ∉ client.suspended := by
  intro hmem
  have hle := (h.passes gen left captured hmem).2.1
  omega

theorem Sound.connect (h : client.Sound) : client.connect.Sound := by
  unfold ChatRoomClient.connect
  split_ifs
  · exact h
  · have huntouched : ({ client.unflag with
        generation := client.generation + 1, joined := false, opened := false, helloSent := false
        backfilling := false, probe := none
        dialing := insert (client.generation + 1) client.dialing } : ChatRoomClient).Untouched :=
      ⟨Untouched.unflag, fun _ _ hmem => absurd hmem (h.not_pass (Nat.lt_succ_self _))⟩
    have hsocket : client.socket ≠ some (client.generation + 1) := by
      intro heq
      have hle := h.sockets _ heq
      omega
    refine { exact := h.exact, passes := ?_, sockets := ?_, dials := ?_, errors := ?_
             stopped := fun _ => rfl, unopened := fun _ => hsocket, opened := nofun, dialed := fun _ => huntouched
             joined := nofun, unjoined := fun _ _ => huntouched }
    · intro gen left captured hmem
      obtain ⟨hle, hgen, -⟩ := h.passes gen left captured hmem
      refine ⟨hle, Nat.le_succ_of_le hgen, ?_⟩
      rintro rfl
      exact absurd hgen (Nat.not_succ_le_self _)
    · intro socket heq
      exact Nat.le_succ_of_le (h.sockets socket heq)
    · intro gen hmem
      obtain rfl | hmem := Finset.mem_insert.mp hmem
      · exact Nat.le_refl _
      · exact Nat.le_succ_of_le (h.dials gen hmem)
    · intro gen hmem
      obtain ⟨hle, -⟩ := h.errors gen hmem
      refine ⟨Nat.le_succ_of_le hle, ?_⟩
      rintro rfl
      exact absurd hle (Nat.not_succ_le_self _)

theorem Sound.stop (h : client.Sound) : client.stop.Sound where
  exact := h.exact
  passes := by
    intro gen left captured hmem
    obtain ⟨hle, hgen, -⟩ := h.passes gen left captured hmem
    refine ⟨hle, Nat.le_succ_of_le hgen, ?_⟩
    rintro rfl
    exact absurd hgen (Nat.not_succ_le_self _)
  sockets := nofun
  dials := fun gen hmem => Nat.le_succ_of_le (h.dials gen hmem)
  errors := by
    intro gen hmem
    obtain ⟨hle, -⟩ := h.errors gen hmem
    refine ⟨Nat.le_succ_of_le hle, ?_⟩
    rintro rfl
    exact absurd hle (Nat.not_succ_le_self _)
  stopped := fun _ => rfl
  unopened := nofun
  opened := nofun
  dialed := by
    intro hmem
    exact absurd (h.dials _ hmem) (Nat.not_succ_le_self _)
  joined := nofun
  unjoined := fun _ hintact => absurd hintact.1 nofun

theorem Sound.onSocketError (h : client.Sound)
    (hopen : gen = client.generation → client.opened = true) : (client.onSocketError gen).Sound := by
  unfold ChatRoomClient.onSocketError
  split_ifs with hcurrent
  · obtain ⟨rfl, -⟩ := hcurrent
    refine h.congr rfl rfl ⟨rfl, rfl⟩ ?_ h.sockets (fun _ hmem => hmem) ?_ h.stopped
      h.unopened h.opened nofun ?_
    · intro gen left captured hmem
      simpa [ChatRoomClient.suspend] using hmem
    · intro gen hmem
      simp only [ChatRoomClient.suspend, List.mem_append, List.mem_singleton, Point.dropping.injEq,
        reduceCtorEq, or_false] at hmem
      obtain (hmem | rfl) | hmem := hmem
      · exact h.errors gen (.inl hmem)
      · exact ⟨Nat.le_refl _, fun _ => hopen rfl⟩
      · exact h.errors gen (.inr hmem)
    · rintro - ⟨-, hnot⟩
      exact absurd (List.mem_append_right _ (List.mem_singleton_self _)) hnot
  · exact h

theorem Sound.scheduleReconnect (h : client.Sound) {i gen : Nat}
    (hpoint : client.suspended[i]? = some (.dropping gen)) :
    (ChatRoomClient.scheduleReconnect
      { client with suspended := client.suspended.eraseIdx i } gen).Sound := by
  unfold ChatRoomClient.scheduleReconnect
  split_ifs with hcurrent
  · obtain ⟨rfl, -⟩ := hcurrent
    have hmem : .dropping client.generation ∈ client.suspended := List.mem_of_getElem? hpoint
    refine h.congr rfl rfl ⟨rfl, rfl⟩ ?_ nofun (fun _ hmem => hmem) ?_ h.stopped nofun
      h.opened ?_ ?_
    · exact fun _ _ _ hpass => List.mem_of_mem_eraseIdx hpass
    · exact fun gen hgen => h.errors gen (hgen.imp List.mem_of_mem_eraseIdx List.mem_of_mem_eraseIdx)
    · intro hjoined
      exact absurd hmem (h.joined hjoined).2.1.2
    · exact fun _ hintact => absurd hintact.1 nofun
  · by_cases hgen : gen = client.generation
    · subst hgen
      -- A client that is closed has not opened its generation, which has no error then.
      have hclosed : client.closed = true := by simpa using hcurrent
      have hopen := (h.errors _ (.inl (List.mem_of_getElem? hpoint))).2 rfl
      rw [h.stopped hclosed] at hopen
      cases hopen
    · exact h.erase hpoint (by simpa using hgen)

/-- The token for a URL is there. -/
theorem Sound.openSocket (h : client.Sound) (hmem : gen ∈ client.dialing) :
    (ChatRoomClient.openSocket { client with dialing := client.dialing.erase gen } gen).Sound := by
  have hsub : client.dialing.erase gen ⊆ client.dialing := Finset.erase_subset gen client.dialing
  have hrest : ({ client with dialing := client.dialing.erase gen }).Sound := by
    refine h.congr rfl rfl ⟨rfl, rfl⟩ (fun _ _ _ hpass => hpass) h.sockets hsub h.errors h.stopped
      h.unopened (fun hopen hgen => h.opened hopen (hsub hgen)) ?_ h.unjoined
    exact fun hjoined => h.joined hjoined
  unfold ChatRoomClient.openSocket
  split_ifs with hcurrent
  · obtain ⟨hgen, hclosed⟩ := hcurrent
    change gen = client.generation at hgen
    subst hgen
    have hunopened : client.opened = false := by
      cases hopen : client.opened with
      | false => rfl
      | true => exact absurd hmem (h.opened hopen)
    have hunjoined : client.joined = false := by
      cases hjoined : client.joined with
      | false => rfl
      | true =>
          rw [(h.joined hjoined).1] at hunopened
          cases hunopened
    refine Sound.suspend ?_ (rfl : Point.plain .sending = true)
    refine h.congr rfl rfl ⟨rfl, rfl⟩ (fun _ _ _ hpass => hpass) ?_ hsub ?_ ?_ nofun
      (fun _ => Finset.notMem_erase _ _) ?_ ?_
    · intro socket heq
      cases heq
      exact Nat.le_refl _
    · exact fun gen hgen => ⟨(h.errors gen hgen).1, fun _ => rfl⟩
    · intro hyes
      rw [hclosed] at hyes
      cases hyes
    · intro hyes
      rw [hunjoined] at hyes
      cases hyes
    · exact fun _ _ => h.dialed hmem
  · exact hrest

theorem Sound.undialed (h : client.Sound) (hmem : gen ∈ client.dialing) :
    (ChatRoomClient.scheduleReconnect
      { client with dialing := client.dialing.erase gen } gen).Sound := by
  have hsub : client.dialing.erase gen ⊆ client.dialing := Finset.erase_subset gen client.dialing
  unfold ChatRoomClient.scheduleReconnect
  split_ifs with hcurrent
  · obtain ⟨hgen, -⟩ := hcurrent
    change gen = client.generation at hgen
    subst hgen
    refine h.congr rfl rfl ⟨rfl, rfl⟩ (fun _ _ _ hpass => hpass) nofun hsub h.errors h.stopped nofun
      (fun hopen hgen => h.opened hopen (hsub hgen)) ?_ ?_
    · intro hjoined
      exact absurd hmem (h.opened (h.joined hjoined).1)
    · exact fun _ hintact => absurd hintact.1 nofun
  · refine h.congr rfl rfl ⟨rfl, rfl⟩ (fun _ _ _ hpass => hpass) h.sockets hsub h.errors h.stopped
      h.unopened (fun hopen hgen => h.opened hopen (hsub hgen)) ?_ h.unjoined
    exact fun hjoined => h.joined hjoined

theorem Sound.planning (h : client.Sound) (hopen : client.opened = true) :
    (client.suspend (.planning client.generation)).Sound := by
  refine h.congr rfl rfl ⟨rfl, rfl⟩ ?_ h.sockets (fun _ hmem => hmem) ?_ h.stopped h.unopened h.opened
    ?_ ?_
  · intro gen left captured hmem
    simpa [ChatRoomClient.suspend] using hmem
  · intro gen hmem
    simp only [ChatRoomClient.suspend, List.mem_append, List.mem_singleton, Point.planning.injEq,
      reduceCtorEq, or_false] at hmem
    obtain hmem | hmem | rfl := hmem
    · exact h.errors gen (.inl hmem)
    · exact h.errors gen (.inr hmem)
    · exact ⟨Nat.le_refl _, fun _ => hopen⟩
  · intro hjoined
    obtain ⟨_, hintact, hsent⟩ := h.joined hjoined
    exact ⟨hopen, hintact.of_eq rfl rfl fun hmem => by simpa [ChatRoomClient.suspend] using hmem,
      hsent.of_eq rfl rfl fun _ hmem => hmem⟩
  · intro hno hintact
    exact h.unjoined hno (hintact.of_eq rfl rfl (List.mem_append_left _))

theorem Sound.join (h : client.Sound) (hintact : client.Intact) (hopen : client.opened = true) :
    ({ client with backfilling := false, joined := true }).Sound := by
  refine h.congr rfl rfl ⟨rfl, rfl⟩ (fun _ _ _ hpass => hpass) h.sockets (fun _ hmem => hmem) h.errors
    h.stopped h.unopened h.opened ?_ nofun
  intro _
  refine ⟨hopen, hintact, ?_⟩
  cases hjoined : client.joined with
  | true => exact (h.joined hjoined).2.2
  | false =>
      intro push hmem hflag
      rw [(h.unjoined hjoined hintact).1 push hmem] at hflag
      cases hflag

/-! ## The queue -/

/-- Another queue that has no new flags. -/
theorem Sound.requeue (h : client.Sound) {queue : List (PendingPush UInt8)} {nextBatch : Nat}
    {probe quotaTask : Option Nat}
    (hids : ∀ left captured, .pass client.generation left captured ∈ client.suspended → 0 < left →
      captured <+: queue.map PendingPush.batchId)
    (hflags : ∀ push ∈ queue, push.inFlight = true →
      ∃ old ∈ client.pending, old.batchId = push.batchId ∧ old.inFlight = true) :
    ({ client with pending := queue, nextBatch, probe, quotaTask }).Sound := by
  have huntouched : client.Untouched →
      ({ client with pending := queue, nextBatch, probe, quotaTask }).Untouched := by
    rintro ⟨hnone, hpasses⟩
    refine ⟨fun push hmem => ?_, hpasses⟩
    by_contra hflag
    obtain ⟨old, hold, -, hflag⟩ := hflags push hmem (by simpa using hflag)
    rw [hnone old hold] at hflag
    cases hflag
  refine { exact := h.exact, passes := ?_, sockets := h.sockets, dials := h.dials, errors := h.errors
           stopped := h.stopped, unopened := h.unopened, opened := h.opened
           dialed := fun hmem => huntouched (h.dialed hmem), joined := ?_
           unjoined := fun hno hintact => huntouched (h.unjoined hno hintact) }
  · intro gen left captured hmem
    obtain ⟨hle, hgen, -⟩ := h.passes gen left captured hmem
    refine ⟨hle, hgen, ?_⟩
    rintro rfl
    exact hids left captured hmem
  · intro hjoined
    obtain ⟨hopen, hintact, hsent⟩ := h.joined hjoined
    refine ⟨hopen, hintact, ?_⟩
    intro push hmem hflag
    obtain ⟨old, hold, heq, hflag⟩ := hflags push hmem hflag
    have hpush := hsent old hold hflag
    rwa [heq] at hpush

theorem Sound.prefix_ids (h : client.Sound) {left : Nat}
    (hmem : .pass client.generation left captured ∈ client.suspended) (hpos : 0 < left) :
    captured <+: client.ids :=
  (h.passes _ left captured hmem).2.2 rfl hpos

theorem Sound.enqueue (h : client.Sound) (update : List UInt8) : (client.enqueue update).Sound := by
  have hqueued : ({ client with
      pending := client.pending ++
        [{ batchId := client.nextBatch, bytes := update, inFlight := false }]
      nextBatch := client.nextBatch + 1 } : ChatRoomClient).Sound := by
    apply h.requeue
    · intro left captured hmem hpos
      rw [List.map_append]
      exact (h.prefix_ids hmem hpos).trans (List.prefix_append ..)
    · intro push hmem hflag
      rw [List.mem_append, List.mem_singleton] at hmem
      obtain hmem | rfl := hmem
      · exact ⟨push, hmem, rfl, hflag⟩
      · cases hflag
  unfold ChatRoomClient.enqueue
  split_ifs
  · exact h
  · dsimp only
    split_ifs
    · exact hqueued.suspend rfl
    · exact hqueued

theorem Sound.quota (h : client.Sound) (gen : Option Nat) :
    ({ client.unflag with quotaTask := gen, probe := none }).Sound := by
  apply h.requeue
  · intro left captured hmem hpos
    have hids := h.prefix_ids hmem hpos
    rwa [← ids_unflag] at hids
  · intro push hmem hflag
    rw [Untouched.unflag push hmem] at hflag
    cases hflag

theorem retire_of_notMem {batchId : Nat} (hnot : batchId ∉ client.ids) :
    (client.retire batchId).pending = client.pending := by
  apply List.filter_eq_self.mpr
  intro push hmem
  have hne : push.batchId ≠ batchId := fun heq => hnot (List.mem_map.mpr ⟨push, hmem, heq⟩)
  simpa using hne

theorem unfinished_of_retires {batchId : Nat} (hretires : client.retires batchId = true)
    (hmem : batchId ∈ client.ids) {point : Point} (hpoint : point ∈ client.suspended) :
    Point.unfinished point = false := by
  simp only [retires, decide_eq_true_eq] at hretires
  simpa using List.all_eq_true.mp (hretires hmem) point hpoint

theorem Sound.retire (h : client.Sound) {batchId : Nat}
    (hretires : client.retires batchId = true) : (client.retire batchId).Sound := by
  apply h.requeue
  · intro left captured hmem hpos
    by_cases hqueued : batchId ∈ client.ids
    · have hdone := unfinished_of_retires hretires hqueued hmem
      simp [Point.unfinished] at hdone
      omega
    · change captured <+: (client.retire batchId).pending.map PendingPush.batchId
      rw [retire_of_notMem hqueued]
      exact h.prefix_ids hmem hpos
  · intro push hmem hflag
    exact ⟨push, List.mem_of_mem_filter hmem, rfl, hflag⟩

theorem ids_set {ix : Nat} (hpush : client.pending[ix]? = some push) :
    (client.pending.set ix { push with inFlight := true }).map PendingPush.batchId = client.ids := by
  apply List.ext_getElem?
  intro j
  rw [ids, List.getElem?_map, List.getElem?_map, List.getElem?_set]
  by_cases heq : ix = j
  · subst heq
    obtain ⟨hlt, -⟩ := List.getElem?_eq_some_iff.mp hpush
    rw [if_pos rfl, if_pos hlt, hpush]
    rfl
  · rw [if_neg heq]

/-- A batch is flagged, where pushes are under way on the connection. -/
theorem Sound.flag (h : client.Sound) {ix : Nat} (hpush : client.pending[ix]? = some push)
    (hdialed : client.generation ∉ client.dialing)
    (hunjoined : client.joined = false → ¬ client.Intact) (sent : List (Nat × Nat)) (probe : Option Nat)
    (hsub : ∀ sending ∈ client.sent, sending ∈ sent)
    (hsent : client.joined = true → (client.generation, push.batchId) ∈ sent) :
    ({ client with pending := client.pending.set ix { push with inFlight := true }, sent, probe }).Sound
      where
  exact := h.exact
  passes := by
    intro gen left captured hmem
    obtain ⟨hle, hgen, hids⟩ := h.passes gen left captured hmem
    refine ⟨hle, hgen, fun heq hpos => ?_⟩
    change captured <+: (client.pending.set ix { push with inFlight := true }).map
      PendingPush.batchId
    rw [ids_set hpush]
    exact hids heq hpos
  sockets := h.sockets
  dials := h.dials
  errors := h.errors
  stopped := h.stopped
  unopened := h.unopened
  opened := h.opened
  dialed := fun hmem => absurd hmem hdialed
  joined := by
    intro hjoined
    obtain ⟨hopen, hintact, hall⟩ := h.joined hjoined
    refine ⟨hopen, hintact, ?_⟩
    intro other hmem hflag
    obtain hold | rfl := List.mem_or_eq_of_mem_set hmem
    · exact hsub _ (hall other hold hflag)
    · exact hsent hjoined
  unjoined := fun hno hintact => absurd hintact (hunjoined hno)

/-! ## A pass -/

/-- The loop of `pushPending` over a queue that begins as it did when the pass began. -/
inductive Pass (gen : Nat) (captured : List Nat) :
    (left : Nat) → ChatRoomClient → ChatRoomClient → Prop where
  | done {c} : Pass gen captured 0 c c
  | skip {left c c' push} (hpush : c.pending[captured.length - (left + 1)]? = some push)
      (hflag : push.inFlight = true) (hrest : Pass gen captured left c c') :
      Pass gen captured (left + 1) c c'
  | offline {left c c' push} (hpush : c.pending[captured.length - (left + 1)]? = some push)
      (hsocket : c.socket = none)
      (hrest : Pass gen captured left (c.flagAt (captured.length - (left + 1)) push) c') :
      Pass gen captured (left + 1) c c'
  | send {left c push socket} (hpush : c.pending[captured.length - (left + 1)]? = some push)
      (hsocket : c.socket = some socket) :
      Pass gen captured (left + 1) c
        (ChatRoomClient.suspend
          { c.flagAt (captured.length - (left + 1)) push with
            sent := c.sent ++ [(socket, push.batchId)] } (.pass gen left captured))

theorem ids_flagAt {ix : Nat} (hpush : client.pending[ix]? = some push) :
    (client.flagAt ix push).ids = client.ids :=
  ids_set hpush

theorem pass_pushFrom (gen : Nat) {left : Nat} (hleft : left ≤ captured.length)
    (hids : captured <+: client.ids) :
    Pass gen captured left client (client.pushFrom gen captured left) := by
  induction left generalizing client with
  | zero => exact .done
  | succ left ih =>
      have hlt : captured.length - (left + 1) < captured.length := by omega
      obtain ⟨rest, hrest⟩ := hids
      have hid : client.ids[captured.length - (left + 1)]? =
          captured[captured.length - (left + 1)]? := by
        rw [← hrest, List.getElem?_append_left hlt]
      rw [ids, List.getElem?_map] at hid
      cases hpush : client.pending[captured.length - (left + 1)]? with
      | none =>
          rw [hpush, Option.map_none] at hid
          exact absurd (List.getElem?_eq_none_iff.mp hid.symm) (Nat.not_le.mpr hlt)
      | some push =>
          rw [hpush, Option.map_some] at hid
          have hprefix : captured <+: client.ids := ⟨rest, hrest⟩
          simp only [pushFrom, hpush, if_pos hid.symm]
          by_cases hflag : push.inFlight = true
          · rw [if_pos hflag]
            exact .skip hpush hflag (ih (by omega) hprefix)
          · rw [if_neg hflag]
            split
            · rename_i hsocket
              refine .offline hpush hsocket (ih (by omega) ?_)
              rw [ids_flagAt hpush]
              exact hprefix
            · rename_i hsocket
              exact .send hpush hsocket

theorem Sound.passing (h : client.Sound) {left : Nat} (hdialed : client.generation ∉ client.dialing)
    (hunjoined : client.joined = false → ¬ client.Intact) (hleft : left ≤ captured.length)
    (hids : captured <+: client.ids) :
    (client.suspend (.pass client.generation left captured)).Sound := by
  have hold : ∀ {point : Point}, point ∈ (client.suspend
      (.pass client.generation left captured)).suspended →
        point ∈ client.suspended ∨ point = .pass client.generation left captured := by
    intro point hmem
    simpa [ChatRoomClient.suspend] using hmem
  have hintact : (client.suspend (.pass client.generation left captured)).Intact →
      client.Intact := fun hintact => hintact.of_eq rfl rfl (List.mem_append_left _)
  refine { exact := h.exact, passes := ?_, sockets := h.sockets, dials := h.dials, errors := ?_
           stopped := h.stopped, unopened := h.unopened, opened := h.opened
           dialed := fun hmem => absurd hmem hdialed, joined := ?_
           unjoined := fun hno hyes => absurd (hintact hyes) (hunjoined hno) }
  · intro gen left' captured' hmem
    obtain hmem | heq := hold hmem
    · exact h.passes gen left' captured' hmem
    · cases heq
      exact ⟨hleft, Nat.le_refl _, fun _ _ => hids⟩
  · rintro gen (hmem | hmem)
    · exact h.errors gen (.inl ((hold hmem).resolve_right nofun))
    · exact h.errors gen (.inr ((hold hmem).resolve_right nofun))
  · intro hjoined
    obtain ⟨hopen, hyes, hsent⟩ := h.joined hjoined
    exact ⟨hopen, hyes.of_eq rfl rfl fun hmem => (hold hmem).resolve_right nofun,
      hsent.of_eq rfl rfl fun _ hmem => hmem⟩

theorem Sound.pass {gen left : Nat} (hpass : Pass gen captured left client client')
    (h : client.Sound) (hgen : gen = client.generation) (hdialed : client.generation ∉ client.dialing)
    (hunjoined : client.joined = false → ¬ client.Intact) (hleft : left ≤ captured.length)
    (hids : captured <+: client.ids) : client'.Sound := by
  induction hpass with
  | done => exact h
  | skip hpush hflag hrest ih => exact ih h hgen hdialed hunjoined (by omega) hids
  | @offline left c c' push hpush hsocket hrest ih =>
      have hoffline : c.joined = true → False := by
        intro hjoined
        have hopen := (h.joined hjoined).2.1.1
        rw [hsocket] at hopen
        cases hopen
      refine ih ?_ hgen hdialed hunjoined (by omega) (by rwa [ids_flagAt hpush])
      exact h.flag hpush hdialed hunjoined c.sent c.probe
        (fun _ hmem => hmem) fun hjoined => (hoffline hjoined).elim
  | @send left c push socket hpush hsocket =>
      have hflag := h.flag hpush hdialed hunjoined (c.sent ++ [(socket, push.batchId)]) c.probe
        (fun _ hmem => List.mem_append_left _ hmem) (by
          intro hjoined
          have hopen := (h.joined hjoined).2.1.1
          rw [hsocket] at hopen
          rw [Option.some.inj hopen]
          exact List.mem_append_right _ (List.mem_singleton_self _))
      subst hgen
      refine hflag.passing hdialed hunjoined (by omega) ?_
      change captured <+: (c.flagAt (captured.length - (left + 1)) push).ids
      rwa [ids_flagAt hpush]

theorem Sound.pushPending (h : client.Sound) : client.pushPending.Sound := by
  unfold ChatRoomClient.pushPending
  split_ifs with hjoined
  · have hopen := (h.joined hjoined).1
    exact h.pass (pass_pushFrom client.generation (Nat.le_refl _) (List.prefix_refl _)) rfl
      (h.opened hopen) (fun hno => by rw [hjoined] at hno; cases hno) (Nat.le_refl _)
      (List.prefix_refl _)
  · exact h

theorem pushHead_eq (h : client.Sound) (hgen : gen = client.generation)
    (hjoined : client.joined = true) {head : PendingPush UInt8} {rest : List (PendingPush UInt8)}
    (hpending : client.pending = head :: rest) :
    client.pushHead gen = ChatRoomClient.suspend
      { client with
        pending := client.pending.set 0 { head with inFlight := true }
        sent := client.sent ++ [(client.generation, head.batchId)], probe := some head.batchId }
      .sending := by
  have hsocket := (h.joined hjoined).2.1.1
  unfold pushHead
  rw [hpending]
  dsimp only
  rw [if_pos ⟨hgen, hjoined⟩, hsocket]
  rfl

theorem pushHead_nil (hpending : client.pending = []) : client.pushHead gen = client := by
  unfold pushHead
  rw [hpending]

theorem pushHead_stale (hstale : ¬ (gen = client.generation ∧ client.joined = true)) :
    client.pushHead gen = client := by
  unfold pushHead
  split
  · rfl
  · rw [if_neg hstale]

theorem Sound.pushHead (h : client.Sound) (gen : Nat) : (client.pushHead gen).Sound := by
  by_cases hlive : gen = client.generation ∧ client.joined = true
  · cases hpending : client.pending with
    | nil =>
        rw [pushHead_nil hpending]
        exact h
    | cons head rest =>
        rw [pushHead_eq h hlive.1 hlive.2 hpending]
        refine Sound.suspend ?_ rfl
        refine h.flag (by rw [hpending]; rfl) (h.opened (h.joined hlive.2).1) ?_ _ _
          (fun _ hmem => List.mem_append_left _ hmem)
          fun _ => List.mem_append_right _ (List.mem_singleton_self _)
        intro hno
        rw [hlive.2] at hno
        cases hno
  · rw [pushHead_stale hlive]
    exact h

theorem turn_of_step {action : Action} (hstep : client.step action = some client') :
    client.turn action = some client' := by
  unfold step at hstep
  split_ifs at hstep
  exact hstep

theorem Sound.proceed (h : client.Sound) {i : Nat} {ok : Bool} {point : Point}
    (hguard : client.InTurn (.resume i ok)) (hpoint : client.suspended[i]? = some point) :
    (ChatRoomClient.proceed { client with suspended := client.suspended.eraseIdx i } ok point).Sound
      := by
  have hmem := List.mem_of_getElem? hpoint
  cases point with
  | spawned | connected | acked => exact (h.erase hpoint nofun).pushPending
  | sending => exact h.erase hpoint nofun
  | retry gen => exact (h.erase hpoint nofun).pushHead gen
  | dropping gen => exact h.scheduleReconnect hpoint
  | planning gen =>
      unfold ChatRoomClient.proceed
      split_ifs
      · exact (h.erase hpoint nofun).suspend rfl
      · exact (h.erase hpoint nofun).onSocketError (h.errors gen (.inr hmem)).2
  | pass gen left captured =>
      have herased := h.erase hpoint nofun
      obtain ⟨hle, -, hids⟩ := h.passes gen left captured hmem
      simp only [InTurn, inTurn, hpoint, Bool.or_eq_true, decide_eq_true_eq] at hguard
      obtain rfl | hpos := Nat.eq_zero_or_pos left
      · exact herased
      · obtain rfl := hguard.resolve_left (by omega)
        have hnot : ¬ client.Untouched := fun huntouched => by
          have hzero := huntouched.2 left captured hmem
          omega
        refine herased.pass (pass_pushFrom client.generation hle (hids rfl hpos)) rfl
          (fun hdialed => hnot (h.dialed hdialed)) ?_ hle (hids rfl hpos)
        intro hno hintact
        exact hnot (h.unjoined hno (hintact.of_eq rfl rfl fun hdropping =>
          mem_eraseIdx_of_ne hpoint hdropping nofun))

theorem Sound.handleInbound (h : client.Sound) {frame : Frame} (hopen : client.opened = true)
    (hguard : client.InTurn (.receive frame)) : (client.handleInbound frame).Sound := by
  have hsame : ∀ points : Bool × Bool, ({ client with
      helloSent := points.1, backfilling := points.2 } : ChatRoomClient).Sound := by
    intro points
    exact h.points (fun _ hmem => .inr hmem) id
  cases frame with
  | state =>
      simp only [ChatRoomClient.handleInbound]
      split_ifs
      · exact (hsame (false, true)).planning hopen
      · exact h
  | rowsDone =>
      simp only [ChatRoomClient.handleInbound]
      split_ifs
      · exact (h.join (of_decide_eq_true hguard) hopen).suspend rfl
      · exact h
  | ack batchId => exact (h.retire hguard).suspend rfl
  | other => exact h
  | error code batchId =>
      cases code with
      | helloFirst => exact h.onSocketError fun _ => hopen
      | other => exact h
      | verdict code =>
          cases batchId with
          | none => cases code <;> first | exact h | exact h.quota _
          | some batchId =>
              simp only [InTurn, inTurn, Bool.or_eq_true, Bool.not_eq_true', Bool.and_eq_true]
                at hguard
              cases code with
              | quota => exact h.quota _
              | tooLarge | empty | badPush =>
                  exact h.retire (hguard.resolve_left (by decide)).1

theorem sound_step (h : client.Sound) {action : Action} (hguard : client.InTurn action)
    (hstep : client.step action = some client') : client'.Sound := by
  replace hstep := turn_of_step hstep
  cases action with
  | start =>
      cases hstep
      refine Sound.connect ?_
      exact h.congr rfl rfl ⟨rfl, rfl⟩ (fun _ _ _ hpass => hpass) h.sockets (fun _ hmem => hmem)
        h.errors nofun h.unopened h.opened h.joined h.unjoined
  | stop =>
      cases hstep
      exact h.stop
  | kick =>
      cases hstep
      unfold kick
      split_ifs
      · exact h
      · exact h.connect
      · exact h.suspend rfl
      · exact h
      · exact h.connect
  | enqueue update =>
      cases hstep
      exact h.enqueue update
  | receive frame =>
      simp only [turn] at hstep
      split_ifs at hstep with hopen
      cases hstep
      exact h.handleInbound hopen hguard
  | lose =>
      simp only [turn] at hstep
      split_ifs at hstep with hopen
      cases hstep
      exact h.onSocketError fun _ => hopen
  | resume i ok =>
      obtain ⟨point, hpoint, rfl⟩ := Option.map_eq_some_iff.mp hstep
      exact h.proceed hguard hpoint
  | dialed gen url =>
      simp only [turn] at hstep
      split_ifs at hstep with hmem hurl
      · cases hstep
        exact h.openSocket hmem
      · cases hstep
        exact h.undialed hmem
  | quotaWakes =>
      obtain ⟨gen, -, rfl⟩ := Option.map_eq_some_iff.mp hstep
      refine Sound.suspend ?_ rfl
      exact h.points (fun _ hmem => .inr hmem) id
  | redial =>
      simp only [turn] at hstep
      split_ifs at hstep
      cases hstep
      refine Sound.connect ?_
      exact h.points (fun _ hmem => .inr hmem) id

/-! ## The queue goes on -/

/-- Flags stay, and so does what waits. -/
structure Grown (client client' : ChatRoomClient) : Prop where
  generation : client'.generation = client.generation
  quotaTask : client'.quotaTask = client.quotaTask
  probe : client'.probe = client.probe
  joined : client'.joined = client.joined
  suspended : ∀ point ∈ client.suspended, point ∈ client'.suspended
  length : client'.pending.length = client.pending.length
  flags : ∀ (j : Nat) (push : PendingPush UInt8), client.pending[j]? = some push →
    ∃ push', client'.pending[j]? = some push' ∧ push'.batchId = push.batchId ∧
      (push.inFlight = true → push'.inFlight = true)

theorem Grown.refl (client : ChatRoomClient) : Grown client client :=
  ⟨rfl, rfl, rfl, rfl, fun _ hmem => hmem, rfl, fun _ push hpush => ⟨push, hpush, rfl, id⟩⟩

theorem Grown.trans {client'' : ChatRoomClient} (h : Grown client client')
    (h' : Grown client' client'') : Grown client client'' where
  generation := h'.generation.trans h.generation
  quotaTask := h'.quotaTask.trans h.quotaTask
  probe := h'.probe.trans h.probe
  joined := h'.joined.trans h.joined
  suspended := fun point hmem => h'.suspended point (h.suspended point hmem)
  length := h'.length.trans h.length
  flags := by
    intro j push hpush
    obtain ⟨push', hpush', heq, hflag⟩ := h.flags j push hpush
    obtain ⟨push'', hpush'', heq', hflag'⟩ := h'.flags j push' hpush'
    exact ⟨push'', hpush'', heq'.trans heq, fun hyes => hflag' (hflag hyes)⟩

theorem Flagged.grown {k : Nat} (h : client.Flagged k) (hgrown : Grown client client') :
    client'.Flagged k := by
  intro j push' hlt hpush'
  have hj : j < client.pending.length := by
    rw [← hgrown.length]
    exact (List.getElem?_eq_some_iff.mp hpush').1
  obtain ⟨other, hother, -, hflag⟩ := hgrown.flags j _ (List.getElem?_eq_getElem hj)
  rw [hpush'] at hother
  cases hother
  exact hflag (h j _ hlt (List.getElem?_eq_getElem hj))

theorem flagged_iff {k : Nat} (hle : client.pending.length ≤ k) :
    client.Flagged k ↔ ∀ push ∈ client.pending, push.inFlight = true := by
  constructor
  · intro h push hmem
    obtain ⟨j, hj⟩ := List.getElem?_of_mem hmem
    have hlt := (List.getElem?_eq_some_iff.mp hj).1
    exact h j push (by omega) hj
  · exact fun h j push _ hj => h push (List.mem_of_getElem? hj)

theorem Served.grown (h : client.Served) (hgrown : Grown client client') : client'.Served := by
  obtain hall | hquota | ⟨head, rest, hpending, hflag, hprobe⟩ := h
  · rw [← flagged_iff (Nat.le_refl _)] at hall
    exact .inl ((flagged_iff (Nat.le_of_eq hgrown.length)).mp (hall.grown hgrown))
  · exact .inr (.inl (by rw [hgrown.quotaTask, hgrown.generation, hquota]))
  · obtain ⟨head', hhead, heq, hflag'⟩ := hgrown.flags 0 head (by rw [hpending]; rfl)
    obtain ⟨rest', hrest⟩ : ∃ rest', client'.pending = head' :: rest' := by
      cases hcases : client'.pending with
      | nil =>
          rw [hcases] at hhead
          cases hhead
      | cons first rest' =>
          rw [hcases] at hhead
          cases hhead
          exact ⟨rest', rfl⟩
    exact .inr (.inr ⟨head', rest', hrest, hflag' hflag, by rw [hgrown.probe, heq, hprobe]⟩)

theorem Pushing.grown (h : client.Pushing) (hgrown : Grown client client') : client'.Pushing := by
  obtain hretry | hspawned | hconnected | hacked | ⟨left, captured, hmem, hpos, hlength, hflagged⟩ := h
  · exact .inl (by rw [hgrown.generation]; exact hgrown.suspended _ hretry)
  · exact .inr (.inl (hgrown.suspended _ hspawned))
  · exact .inr (.inr (.inl (hgrown.suspended _ hconnected)))
  · exact .inr (.inr (.inr (.inl (hgrown.suspended _ hacked))))
  · refine .inr (.inr (.inr (.inr ⟨left, captured, ?_, hpos, ?_, hflagged.grown hgrown⟩)))
    · rw [hgrown.generation]
      exact hgrown.suspended _ hmem
    · rw [hlength, hgrown.length]

theorem grown_flagAt {ix : Nat} (hpush : client.pending[ix]? = some push)
    (sent : List (Nat × Nat)) : Grown client { client.flagAt ix push with sent := sent } := by
  refine ⟨rfl, rfl, rfl, rfl, fun _ hmem => hmem, List.length_set, ?_⟩
  intro j other hother
  by_cases heq : ix = j
  · subst heq
    rw [hpush] at hother
    cases hother
    refine ⟨{ push with inFlight := true }, ?_, rfl, fun _ => rfl⟩
    exact List.getElem?_set_self (List.getElem?_eq_some_iff.mp hpush).1
  · exact ⟨other, (List.getElem?_set_ne heq).trans hother, rfl, id⟩

theorem Grown.suspend (h : Grown client client') (point : Point) :
    Grown client (client'.suspend point) :=
  ⟨h.generation, h.quotaTask, h.probe, h.joined,
    fun other hmem => List.mem_append_left _ (h.suspended other hmem), h.length, h.flags⟩

theorem Pass.grown {gen left : Nat} (hpass : Pass gen captured left client client') :
    Grown client client' := by
  induction hpass with
  | done => exact Grown.refl _
  | skip hpush hflag hrest ih => exact ih
  | offline hpush hsocket hrest ih => exact (grown_flagAt hpush _).trans ih
  | send hpush hsocket => exact (grown_flagAt hpush _).suspend _

theorem Flagged.succ {k : Nat} (h : client.Flagged k)
    (hk : ∀ push, client.pending[k]? = some push → push.inFlight = true) : client.Flagged (k + 1) := by
  intro j push hlt hpush
  obtain hlt | rfl := Nat.lt_succ_iff_lt_or_eq.mp hlt
  · exact h j push hlt hpush
  · exact hk push hpush

theorem flagged_flagAt {k : Nat} (h : client.Flagged k) (hpush : client.pending[k]? = some push) :
    (client.flagAt k push).Flagged (k + 1) := by
  refine Flagged.succ (h.grown (grown_flagAt hpush client.sent)) ?_
  intro other hother
  have hself : (client.flagAt k push).pending[k]? = some { push with inFlight := true } :=
    List.getElem?_set_self (List.getElem?_eq_some_iff.mp hpush).1
  rw [hself] at hother
  cases hother
  rfl

theorem Pass.flagged {gen left : Nat} (hpass : Pass gen captured left client client')
    (hleft : left ≤ captured.length)
    (h : client.Flagged (captured.length - left)) :
    client'.Flagged captured.length ∨ ∃ left', .pass gen left' captured ∈ client'.suspended ∧
      client'.Flagged (captured.length - left') := by
  induction hpass with
  | done => exact .inl h
  | @skip left c c' push hpush hflag hrest ih =>
      refine ih (by omega) ?_
      rw [show captured.length - left = captured.length - (left + 1) + 1 by omega]
      refine h.succ fun other hother => ?_
      rw [hpush] at hother
      cases hother
      exact hflag
  | @offline left c c' push hpush hsocket hrest ih =>
      refine ih (by omega) ?_
      rw [show captured.length - left = captured.length - (left + 1) + 1 by omega]
      exact flagged_flagAt h hpush
  | @send left c push socket hpush hsocket =>
      refine .inr ⟨left, List.mem_append_right _ (List.mem_singleton_self _), ?_⟩
      rw [show captured.length - left = captured.length - (left + 1) + 1 by omega]
      exact flagged_flagAt h hpush

theorem Pass.goes {left : Nat} (hpass : Pass client.generation captured left client client')
    (hleft : left ≤ captured.length)
    (hlength : captured.length = client.pending.length)
    (h : client.Flagged (captured.length - left)) : client'.Served ∨ client'.Pushing := by
  have hgrown := hpass.grown
  obtain hall | ⟨left', hmem, hflagged⟩ := hpass.flagged hleft h
  · exact .inl (.inl ((flagged_iff (by rw [hgrown.length, hlength])).mp hall))
  · obtain rfl | hpos := Nat.eq_zero_or_pos left'
    · exact .inl (.inl ((flagged_iff (by rw [hgrown.length, ← hlength]; omega)).mp hflagged))
    · refine .inr (.inr (.inr (.inr (.inr ⟨left', captured, ?_, hpos, ?_, hflagged⟩))))
      · rw [hgrown.generation]
        exact hmem
      · rw [hgrown.length, hlength]

theorem goes_pushPending : client.pushPending.Goes := by
  intro hjoined
  unfold ChatRoomClient.pushPending at hjoined ⊢
  split_ifs at hjoined ⊢
  · refine Pass.goes (pass_pushFrom client.generation (Nat.le_refl _) (List.prefix_refl _))
      (Nat.le_refl _) (by simp [ids]) ?_
    intro j _ hlt
    omega
  · contradiction

theorem Goes.grown (h : client.Goes) (hgrown : Grown client client') : client'.Goes := by
  intro hjoined
  rw [hgrown.joined] at hjoined
  exact (h hjoined).imp (·.grown hgrown) (·.grown hgrown)

theorem Goes.of_unjoined (hjoined : client.joined = false) : client.Goes := by
  intro hyes
  rw [hjoined] at hyes
  cases hyes

theorem goes_connect (h : client.Goes) : client.connect.Goes := by
  unfold connect
  split_ifs
  · exact h
  · exact Goes.of_unjoined rfl

theorem goes_onSocketError (h : client.Goes) (gen : Nat) : (client.onSocketError gen).Goes := by
  unfold onSocketError
  split_ifs
  · exact Goes.of_unjoined rfl
  · exact h

theorem goes_scheduleReconnect (h : client.Goes)
    (hunjoined : gen = client.generation → client.joined = false) :
    (client.scheduleReconnect gen).Goes := by
  unfold scheduleReconnect
  split_ifs with hcurrent
  · exact Goes.of_unjoined (hunjoined hcurrent.1)
  · exact h

theorem goes_suspend (h : client.Goes) (point : Point) : (client.suspend point).Goes :=
  h.grown ((Grown.refl client).suspend point)

theorem Goes.erase (h : client.Goes) {i : Nat} {point : Point}
    (hpoint : client.suspended[i]? = some point)
    (hretry : point ≠ .retry client.generation)
    (hpushes : point ≠ .spawned ∧ point ≠ .connected ∧ point ≠ .acked)
    (hpass : ∀ left captured, 0 < left → captured.length = client.pending.length →
      client.Flagged (captured.length - left) → point ≠ .pass client.generation left captured) :
    ({ client with suspended := client.suspended.eraseIdx i } : ChatRoomClient).Goes := by
  intro hjoined
  refine (h hjoined).imp id ?_
  rintro (hmem | hmem | hmem | hmem | ⟨left, captured, hmem, hpos, hlength, hflagged⟩)
  · exact .inl (mem_eraseIdx_of_ne hpoint hmem (Ne.symm hretry))
  · exact .inr (.inl (mem_eraseIdx_of_ne hpoint hmem (Ne.symm hpushes.1)))
  · exact .inr (.inr (.inl (mem_eraseIdx_of_ne hpoint hmem (Ne.symm hpushes.2.1))))
  · exact .inr (.inr (.inr (.inl (mem_eraseIdx_of_ne hpoint hmem (Ne.symm hpushes.2.2)))))
  · have hne := hpass left captured hpos hlength hflagged
    exact .inr (.inr (.inr (.inr ⟨left, captured, mem_eraseIdx_of_ne hpoint hmem (Ne.symm hne), hpos,
      hlength, hflagged⟩)))

theorem goes_pushHead (h : client.Sound) (hgoes : gen ≠ client.generation → client.Goes) :
    (client.pushHead gen).Goes := by
  by_cases hlive : gen = client.generation ∧ client.joined = true
  · intro _
    cases hpending : client.pending with
    | nil =>
        rw [pushHead_nil hpending]
        exact .inl (.inl (by simp [hpending]))
    | cons head rest =>
        rw [pushHead_eq h hlive.1 hlive.2 hpending]
        refine .inl (.inr (.inr ⟨{ head with inFlight := true }, rest, ?_, rfl, rfl⟩))
        change client.pending.set 0 { head with inFlight := true } = _
        rw [hpending]
        rfl
  · rw [pushHead_stale hlive]
    by_cases hgen : gen = client.generation
    · exact Goes.of_unjoined (by simpa [hgen] using hlive)
    · exact hgoes hgen

theorem Goes.retire (h : client.Goes) {batchId : Nat} (hretires : client.retires batchId = true)
    (hawaited : client.awaited batchId = false) : (client.retire batchId).Goes := by
  intro hjoined
  by_cases hqueued : batchId ∈ client.ids
  · have hkeep : ∀ push, push ∈ (client.retire batchId).pending ↔
        push ∈ client.pending ∧ push.batchId ≠ batchId := by
      intro push
      simp [ChatRoomClient.retire, List.mem_filter]
    obtain (hall | hquota | ⟨head, rest, hpending, hflag, hprobe⟩) | hpushing := h hjoined
    · exact .inl (.inl fun push hmem => hall push ((hkeep push).mp hmem).1)
    · exact .inl (.inr (.inl hquota))
    · by_cases hhead : head.batchId = batchId
      · -- The batch that was sent alone: no other waits for it.
        rw [hhead] at hprobe
        have hothers : ∀ push ∈ client.pending, push.batchId ≠ batchId → push.inFlight = true := by
          simpa [awaited, hprobe] using hawaited
        exact .inl (.inl fun push hmem => hothers push ((hkeep push).mp hmem).1 ((hkeep push).mp hmem).2)
      · refine .inl (.inr (.inr ⟨head, rest.filter fun push => push.batchId ≠ batchId, ?_, hflag, ?_⟩))
        · simp [ChatRoomClient.retire, hpending, hhead]
        · simp [ChatRoomClient.retire, hprobe, hhead]
    · obtain hmem | hmem | hmem | hmem | ⟨left, captured, hmem, hpos, -⟩ := hpushing
      · exact .inr (.inl hmem)
      · exact .inr (.inr (.inl hmem))
      · exact .inr (.inr (.inr (.inl hmem)))
      · exact .inr (.inr (.inr (.inr (.inl hmem))))
      · have hdone := unfinished_of_retires hretires hqueued hmem
        simp [Point.unfinished] at hdone
        omega
  · have hpending := retire_of_notMem hqueued
    refine (h hjoined).imp ?_ ?_
    · rintro (hall | hquota | ⟨head, rest, hcons, hflag, hprobe⟩)
      · exact .inl (by rwa [hpending])
      · exact .inr (.inl hquota)
      · have hne : head.batchId ≠ batchId := by
          rintro rfl
          exact hqueued (List.mem_map.mpr ⟨head, by simp [hcons], rfl⟩)
        refine .inr (.inr ⟨head, rest, hpending.trans hcons, hflag, ?_⟩)
        simp [ChatRoomClient.retire, hprobe, hne]
    · rintro (hmem | hmem | hmem | hmem | ⟨left, captured, hmem, hpos, hlength, hflagged⟩)
      · exact .inl hmem
      · exact .inr (.inl hmem)
      · exact .inr (.inr (.inl hmem))
      · exact .inr (.inr (.inr (.inl hmem)))
      · refine .inr (.inr (.inr (.inr ⟨left, captured, hmem, hpos, by rw [hpending, hlength], ?_⟩)))
        unfold Flagged
        rwa [hpending]

theorem goes_proceed (hsound : client.Sound) (h : client.Goes) {i : Nat} {ok : Bool} {point : Point}
    (hguard : client.InTurn (.resume i ok)) (hpoint : client.suspended[i]? = some point) :
    (ChatRoomClient.proceed { client with suspended := client.suspended.eraseIdx i } ok point).Goes
      := by
  have hmem := List.mem_of_getElem? hpoint
  cases point with
  | spawned | connected | acked => exact goes_pushPending
  | sending => exact h.erase hpoint nofun (by decide) nofun
  | retry gen =>
      refine goes_pushHead (hsound.erase hpoint nofun) ?_
      intro hgen
      refine h.erase hpoint ?_ (by simp) nofun
      exact fun heq => hgen (Point.retry.inj heq)
  | dropping gen =>
      refine goes_scheduleReconnect (h.erase hpoint nofun (by simp) nofun) ?_
      rintro rfl
      by_contra hjoined
      exact (hsound.joined (by simpa using hjoined)).2.1.2 hmem
  | planning gen =>
      have herased := h.erase hpoint nofun (by simp) nofun
      unfold ChatRoomClient.proceed
      split_ifs
      · exact goes_suspend herased .sending
      · exact goes_onSocketError herased gen
  | pass gen left captured =>
      obtain ⟨hle, -, hids⟩ := hsound.passes gen left captured hmem
      simp only [InTurn, inTurn, hpoint, Bool.or_eq_true, decide_eq_true_eq] at hguard
      obtain rfl | hpos := Nat.eq_zero_or_pos left
      · refine h.erase hpoint nofun (by simp) ?_
        rintro left captured' hpos - - heq
        cases heq
        omega
      · obtain rfl := hguard.resolve_left (by omega)
        have hpass : Pass client.generation captured left
            { client with suspended := client.suspended.eraseIdx i }
            (ChatRoomClient.pushFrom client.generation captured left
              { client with suspended := client.suspended.eraseIdx i }) :=
          pass_pushFrom client.generation hle (hids rfl hpos)
        by_cases hwhole : captured.length = client.pending.length ∧
            client.Flagged (captured.length - left)
        · intro _
          exact @Pass.goes captured { client with suspended := client.suspended.eraseIdx i } _ left
            hpass hle hwhole.1 hwhole.2
        · have herased : ({ client with
              suspended := client.suspended.eraseIdx i } : ChatRoomClient).Goes := by
            refine h.erase hpoint nofun (by simp) ?_
            rintro left' captured' - hlength hflagged heq
            cases heq
            exact hwhole ⟨hlength, hflagged⟩
          exact herased.grown hpass.grown

theorem goes_handleInbound (h : client.Goes) {frame : Frame}
    (hguard : client.InTurn (.receive frame)) : (client.handleInbound frame).Goes := by
  have hquota : ∀ probe, ({ client.unflag with
      quotaTask := some client.generation, probe := probe } : ChatRoomClient).Goes :=
    fun _ _ => .inl (.inr (.inl rfl))
  have hlast : ∀ {points : List Point} {point : Point}, point ∈ points ++ [point] :=
    List.mem_append_right _ (List.mem_singleton_self _)
  cases frame with
  | state =>
      simp only [handleInbound]
      split_ifs
      · exact @goes_suspend { client with helloSent := false, backfilling := true } h _
      · exact h
  | rowsDone =>
      simp only [handleInbound]
      split_ifs
      · exact fun _ => .inr (.inr (.inr (.inl hlast)))
      · exact h
  | ack batchId => exact fun _ => .inr (.inr (.inr (.inr (.inl hlast))))
  | other => exact h
  | error code batchId =>
      cases code with
      | helloFirst => exact goes_onSocketError h client.generation
      | other => exact h
      | verdict code =>
          cases batchId with
          | none => cases code <;> first | exact h | exact hquota none
          | some batchId =>
              simp only [InTurn, inTurn, Bool.or_eq_true, Bool.not_eq_true', Bool.and_eq_true]
                at hguard
              cases code with
              | quota => exact hquota none
              | tooLarge | empty | badPush =>
                  obtain ⟨hretires, hawaited⟩ := hguard.resolve_left (by decide)
                  exact h.retire hretires hawaited

theorem goes_step (hsound : client.Sound) (h : client.Goes) {action : Action}
    (hguard : client.InTurn action) (hstep : client.step action = some client') : client'.Goes := by
  replace hstep := turn_of_step hstep
  cases action with
  | start =>
      cases hstep
      exact @goes_connect { client with closed := false } h
  | stop =>
      cases hstep
      exact Goes.of_unjoined rfl
  | kick =>
      cases hstep
      unfold kick
      split_ifs
      · exact h
      · exact goes_connect h
      · exact goes_suspend h .sending
      · exact h
      · exact goes_connect h
  | enqueue update =>
      cases hstep
      unfold enqueue
      split_ifs
      · exact h
      · dsimp only
        split_ifs with hjoined
        · exact fun _ => .inr (.inr (.inl (List.mem_append_right _ (List.mem_singleton_self _))))
        · exact Goes.of_unjoined (eq_false_of_ne_true hjoined)
  | receive frame =>
      simp only [turn] at hstep
      split_ifs at hstep
      cases hstep
      exact goes_handleInbound h hguard
  | lose =>
      simp only [turn] at hstep
      split_ifs at hstep
      cases hstep
      exact goes_onSocketError h client.generation
  | resume i ok =>
      obtain ⟨point, hpoint, rfl⟩ := Option.map_eq_some_iff.mp hstep
      exact goes_proceed hsound h hguard hpoint
  | dialed gen url =>
      simp only [turn] at hstep
      split_ifs at hstep with hmem hurl
      · cases hstep
        unfold openSocket
        split_ifs
        · exact @goes_suspend { client with
            dialing := client.dialing.erase gen, socket := some gen, opened := true
            helloSent := true } h .sending
        · exact h
      · cases hstep
        refine @goes_scheduleReconnect gen { client with
          dialing := client.dialing.erase gen } h ?_
        intro hgen
        change gen = client.generation at hgen
        subst hgen
        by_contra hjoined
        exact hsound.opened (hsound.joined (by simpa using hjoined)).1 hmem
  | quotaWakes =>
      obtain ⟨gen, hgen, rfl⟩ := Option.map_eq_some_iff.mp hstep
      have hkept : ∀ point ∈ client.suspended, point ∈ client.suspended ++ [Point.retry gen] :=
        fun _ hmem => List.mem_append_left _ hmem
      intro hjoined
      obtain (hall | hquota | hprobing) | hpushing := h hjoined
      · exact .inl (.inl hall)
      · rw [hgen] at hquota
        cases hquota
        exact .inr (.inl (List.mem_append_right _ (List.mem_singleton_self _)))
      · exact .inl (.inr (.inr hprobing))
      · right
        obtain hmem | hmem | hmem | hmem | ⟨left, captured, hmem, hrest⟩ := hpushing
        · exact .inl (hkept _ hmem)
        · exact .inr (.inl (hkept _ hmem))
        · exact .inr (.inr (.inl (hkept _ hmem)))
        · exact .inr (.inr (.inr (.inl (hkept _ hmem))))
        · exact .inr (.inr (.inr (.inr ⟨left, captured, hkept _ hmem, hrest⟩)))
  | redial =>
      simp only [turn] at hstep
      split_ifs at hstep
      cases hstep
      exact @goes_connect { client with redials := client.redials - 1 } h

theorem sound_new : ChatRoomClient.new.Sound where
  exact := ⟨rfl, rfl⟩
  passes := nofun
  sockets := nofun
  dials := nofun
  errors := nofun
  stopped := nofun
  unopened := nofun
  opened := nofun
  dialed := nofun
  joined := nofun
  unjoined := nofun

theorem sound_goes_of_reachable (h : machine.ReachableWhen InTurn client) :
    client.Sound ∧ client.Goes := by
  apply h.invariant
  · rintro _ rfl
    exact ⟨sound_new, Goes.of_unjoined rfl⟩
  · rintro client action client' ⟨hsound, hgoes⟩ hguard hstep
    exact ⟨sound_step hsound hguard hstep, goes_step hsound hgoes hguard hstep⟩

/-! ## What leaves the queue -/

/-- The batch that an ack or a permanent rejection is about. -/
def settles : Action → Option Nat
  | .receive (.ack batchId) => some batchId
  | .receive (.error (.verdict code) batchId) => if code.permanent then batchId else none
  | _ => none

theorem ids_pushFrom (gen : Nat) (captured : List Nat) (left : Nat) :
    (client.pushFrom gen captured left).ids = client.ids := by
  induction left generalizing client with
  | zero => rfl
  | succ left ih =>
      simp only [pushFrom]
      split
      · rfl
      · rename_i push hpush
        have hids : ∀ other : ChatRoomClient, other.pending = client.pending →
            (other.flagAt (captured.length - (left + 1)) push).ids = client.ids := by
          intro other heq
          rw [ids_flagAt (by rw [heq, hpush]), ids, ids, heq]
        split_ifs
        · exact ih
        · rw [ih]
          rfl
        · split
          · rw [ih]
            exact hids _ rfl
          · exact hids _ rfl
        · split
          · rw [ih]
            exact hids _ rfl
          · exact hids _ rfl

theorem ids_pushPending : client.pushPending.ids = client.ids := by
  unfold pushPending
  split_ifs
  · exact ids_pushFrom ..
  · rfl

theorem ids_pushHead (gen : Nat) : (client.pushHead gen).ids = client.ids := by
  unfold pushHead
  split
  · rfl
  · rename_i head rest hpending
    split_ifs
    · dsimp only
      split <;> simp [ids, ChatRoomClient.suspend, hpending]
    · rfl

theorem ids_connect : client.connect.ids = client.ids := by
  unfold connect
  split_ifs
  · rfl
  · exact ids_unflag

theorem ids_onSocketError (gen : Nat) : (client.onSocketError gen).ids = client.ids := by
  unfold onSocketError
  split_ifs <;> rfl

theorem ids_scheduleReconnect (gen : Nat) : (client.scheduleReconnect gen).ids = client.ids := by
  unfold scheduleReconnect
  split_ifs <;> rfl

theorem mem_ids_retire {batchId id : Nat} (hmem : id ∈ client.ids) (hne : id ≠ batchId) :
    id ∈ (client.retire batchId).ids := by
  obtain ⟨push, hpush, rfl⟩ := List.mem_map.mp hmem
  exact List.mem_map.mpr ⟨push, List.mem_filter.mpr ⟨hpush, by simpa using hne⟩, rfl⟩

theorem settled_of_handleInbound {frame : Frame} {id : Nat} (hmem : id ∈ client.ids)
    (hgone : id ∉ (client.handleInbound frame).ids) : settles (.receive frame) = some id := by
  cases frame with
  | state | rowsDone =>
      simp only [handleInbound] at hgone
      split_ifs at hgone <;> exact absurd hmem hgone
  | other => exact absurd hmem hgone
  | ack batchId =>
      by_contra hne
      exact hgone (mem_ids_retire hmem fun heq => hne (congrArg some heq.symm))
  | error code batchId =>
      have hquota : ∀ gen probe, ({ client.unflag with
          quotaTask := gen, probe := probe } : ChatRoomClient).ids = client.ids :=
        fun _ _ => ids_unflag
      cases code with
      | helloFirst =>
          refine absurd hmem ?_
          rw [← ids_onSocketError client.generation]
          exact hgone
      | other => exact absurd hmem hgone
      | verdict code =>
          cases batchId with
          | none =>
              cases code with
              | quota => exact absurd ((hquota _ none).symm ▸ hmem) hgone
              | tooLarge | empty | badPush => exact absurd hmem hgone
          | some batchId =>
              cases code with
              | quota => exact absurd ((hquota _ none).symm ▸ hmem) hgone
              | tooLarge | empty | badPush =>
                  by_contra hne
                  exact hgone (mem_ids_retire hmem fun heq => hne (congrArg some heq.symm))

/-- **Kept.** A batch leaves the queue by its own ack or permanent rejection. -/
theorem settled_of_step {action : Action} (hstep : client.step action = some client') {id : Nat}
    (hmem : id ∈ client.ids) (hgone : id ∉ client'.ids) : settles action = some id := by
  replace hstep := turn_of_step hstep
  have hsame : client'.ids = client.ids → settles action = some id := fun heq =>
    absurd (heq.symm ▸ hmem) hgone
  cases action with
  | start =>
      cases hstep
      exact hsame ids_connect
  | stop =>
      cases hstep
      exact hsame rfl
  | kick =>
      cases hstep
      apply hsame
      unfold kick
      split_ifs <;> first | rfl | exact ids_connect
  | enqueue update =>
      cases hstep
      refine absurd ?_ hgone
      unfold enqueue
      have hqueued (push : PendingPush UInt8) :
          id ∈ (client.pending ++ [push]).map PendingPush.batchId := by
        rw [List.map_append]
        exact List.mem_append_left _ hmem
      split_ifs
      · exact hmem
      · dsimp only
        split_ifs <;> exact hqueued _
  | receive frame =>
      simp only [turn] at hstep
      split_ifs at hstep
      cases hstep
      exact settled_of_handleInbound hmem hgone
  | lose =>
      simp only [turn] at hstep
      split_ifs at hstep
      cases hstep
      exact hsame (ids_onSocketError _)
  | resume i ok =>
      obtain ⟨point, -, rfl⟩ := Option.map_eq_some_iff.mp hstep
      apply hsame
      cases point with
      | spawned | connected | acked => exact ids_pushPending
      | pass gen left captured => exact ids_pushFrom ..
      | retry gen => exact ids_pushHead gen
      | sending => rfl
      | dropping gen => exact ids_scheduleReconnect gen
      | planning gen =>
          cases ok with
          | true => rfl
          | false => exact ids_onSocketError gen
  | dialed gen url =>
      simp only [turn] at hstep
      split_ifs at hstep
      · cases hstep
        apply hsame
        unfold openSocket
        split_ifs <;> rfl
      · cases hstep
        exact hsame (ids_scheduleReconnect gen)
  | quotaWakes =>
      obtain ⟨gen, -, rfl⟩ := Option.map_eq_some_iff.mp hstep
      exact hsame rfl
  | redial =>
      simp only [turn] at hstep
      split_ifs at hstep
      cases hstep
      exact hsame ids_connect

/-- **In turn.** A batch leaves the queue by its own ack or permanent rejection, in any interleaving.
In a run in which no handler is overtaken, an index used after an await is in range and names the
batch it did, and when nothing is suspended in a joined state, every batch is in flight on the current
socket, or a quota retry is armed, or the head that the retry sent alone is in flight on it. -/
theorem push_queue_in_turn :
    (∀ client : ChatRoomClient, machine.Reachable client →
      ∀ action client', client.step action = some client' →
        ∀ id ∈ client.ids, id ∈ client'.ids ∨ settles action = some id) ∧
    ∀ client : ChatRoomClient, machine.ReachableWhen InTurn client →
      client.trapped = false ∧ client.misnamed = false ∧
        (client.joined = true → client.suspended = [] → client.pending ≠ [] →
          (∀ push ∈ client.pending, push.inFlight = true ∧
            client.socket = some client.generation ∧
              (client.generation, push.batchId) ∈ client.sent) ∨
          client.quotaTask = some client.generation ∨
          ∃ head rest, client.pending = head :: rest ∧ head.inFlight = true ∧
            client.socket = some client.generation ∧
              (client.generation, head.batchId) ∈ client.sent ∧
                client.probe = some head.batchId) := by
  constructor
  · intro client _ action client' hstep id hmem
    by_cases hkept : id ∈ client'.ids
    · exact .inl hkept
    · exact .inr (settled_of_step hstep hmem hkept)
  · intro client h
    obtain ⟨hsound, hgoes⟩ := sound_goes_of_reachable h
    refine ⟨hsound.exact.1, hsound.exact.2, fun hjoined hidle _ => ?_⟩
    obtain ⟨-, ⟨hsocket, -⟩, hsent⟩ := hsound.joined hjoined
    have hserved : client.Served := by
      apply (hgoes hjoined).resolve_right
      simp [Pushing, hidle]
    obtain hall | harmed | ⟨head, rest, hpending, hflight, hprobe⟩ := hserved
    · exact .inl fun push hpush =>
        ⟨hall push hpush, hsocket, hsent push hpush (hall push hpush)⟩
    · exact .inr (.inl harmed)
    · have hmem : head ∈ client.pending := hpending ▸ List.mem_cons_self
      exact .inr (.inr ⟨head, rest, hpending, hflight, hsocket, hsent head hmem hflight, hprobe⟩)

/-- Two batches, joined and rejected for quota; the retry sends the first one alone. -/
def retried : List Action :=
  [.start, .dialed 1 true, .resume 0 true, .receive .state, .resume 0 true, .resume 0 true,
    .receive .rowsDone, .resume 0 true, .enqueue [1], .resume 0 true, .resume 0 true,
    .enqueue [2], .resume 0 true, .resume 0 true, .receive (.error (.verdict .quota) (some 0)),
    .quotaWakes, .resume 0 true, .resume 0 true]

theorem retried_in_turn :
    ∃ client : ChatRoomClient, machine.ReachableWhen InTurn client ∧ client.joined = true ∧
      client.suspended = [] ∧ client.pending.map PendingPush.inFlight = [true, false] ∧
        client.quotaTask = none := by
  obtain ⟨client, hsteps, hclient⟩ := Machine.exists_steps_of_runWhen machine InTurn
    (s := ChatRoomClient.new) retried
    (p := fun client => decide (client.joined = true ∧ client.suspended = [] ∧
      client.pending.map PendingPush.inFlight = [true, false] ∧ client.quotaTask = none))
    (by decide +kernel)
  exact ⟨client, ⟨_, rfl, hsteps⟩, of_decide_eq_true hclient⟩

theorem push_queue_in_turn_retried :
    ∃ client : ChatRoomClient, client.pending.map PendingPush.inFlight = [true, false] ∧
      client.trapped = false ∧ client.misnamed = false ∧
        ∃ head rest, client.pending = head :: rest ∧ client.probe = some head.batchId := by
  obtain ⟨client, hreach, hjoined, hidle, hflags, hquota⟩ := retried_in_turn
  have hqueued : client.pending ≠ [] := by
    rintro heq
    simp [heq] at hflags
  obtain ⟨htrapped, hnamed, hserved⟩ := push_queue_in_turn.2 client hreach
  refine ⟨client, hflags, htrapped, hnamed, ?_⟩
  obtain hall | harmed | ⟨head, rest, hpending, -, -, -, hprobe⟩ := hserved hjoined hidle hqueued
  · have hfalse : false ∈ client.pending.map PendingPush.inFlight := by simp [hflags]
    obtain ⟨push, hpush, hnot⟩ := List.mem_map.mp hfalse
    exact absurd (hall push hpush).1 (by simp [hnot])
  · rw [hquota] at harmed
    cases harmed
  · exact ⟨head, rest, hpending, hprobe⟩

/-- Left out above: the ack of the batch that the pass of an enqueue is sending makes its next index
one too far. -/
example :
    (machine.run .new [.start, .dialed 1 true, .resume 0 true, .receive .state, .resume 0 true,
      .resume 0 true, .receive .rowsDone, .resume 0 true, .enqueue [1], .enqueue [2],
      .resume 0 true, .receive (.ack 0), .resume 1 true]).map trapped = some true := by
  decide

/-- The second batch waits in a joined state with nothing suspended and no retry armed. -/
theorem second_batch_waits :
    ¬ ∀ client : ChatRoomClient, machine.Reachable client → client.joined = true →
      client.suspended = [] → client.pending ≠ [] →
        (∀ push ∈ client.pending, push.inFlight = true) ∨
          client.quotaTask = some client.generation := by
  intro h
  obtain ⟨client, hreach, hjoined, hidle, hflags, hquota⟩ := retried_in_turn
  have hqueued : client.pending ≠ [] := by
    rintro heq
    simp [heq] at hflags
  obtain hall | harmed := h client (hreach.mono fun _ _ _ => trivial) hjoined hidle hqueued
  · have hfalse : false ∈ client.pending.map PendingPush.inFlight := by simp [hflags]
    obtain ⟨push, hpush, hnot⟩ := List.mem_map.mp hfalse
    exact absurd (hall push hpush) (by simp [hnot])
  · rw [hquota] at harmed
    cases harmed

end ChatRoomClient

end Zeron.Ios.Reentrancy
