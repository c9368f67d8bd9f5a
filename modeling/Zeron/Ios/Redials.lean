import Mathlib.Data.Finset.Card
import Zeron.Lib.Machine

/-!
# Connections of the phone's rooms

What `ChatRoomClient.swift` and `RegistryClient.swift` have in common, as the actors they are: dialing,
the deadlines, what ends a session, and the timers that dial again. A handler runs up to its next
`await`. A socket goes by the generation that opened it; `live` are those that the client has not
cancelled and that have not failed.
-/

namespace Zeron.Ios.Redials

open Zeron.Lib (Machine)

inductive Room where
  | chat
  | registry
deriving DecidableEq

/-- Where a suspended handler goes on. -/
inductive Point where
  /-- `onSocketError`, whose `.disconnected` the main actor has yet to handle. -/
  | leaving (gen : Nat)
  /-- `onSocketError`, behind its `delegate.event`. -/
  | left (gen : Nat)
  /-- In `handleState` of a chat. -/
  | planning (gen : Nat)
deriving DecidableEq

structure RoomClient where
  closed : Bool
  generation : Nat
  joined : Bool
  socket : Option Nat
  helloSent : Bool
  backfilling : Bool
  probing : Bool
  dialing : Finset Nat
  timers : Nat
  suspended : List Point
  opened : Finset Nat
  live : Finset Nat

inductive Frame where
  | state
  | rowsDone
  | unparseable
  /-- A malformed state header or `hello_first`, which end a chat's session only. -/
  | desynced
  | other
deriving DecidableEq

inductive Action where
  | start
  | stop
  | kick
  /-- `urlProvider` returns. -/
  | dialed (gen : Nat) (url : Bool)
  /-- A socket fails, or its peer closes it. -/
  | fails (gen : Nat)
  /-- The receive task of a socket that is not live any more. -/
  | lost (gen : Nat)
  | receive (gen : Nat) (frame : Frame)
  /-- Past the silence lease. -/
  | pingTick (gen : Nat)
  /-- Past a deadline, or after a long silence. -/
  | livenessTick (gen : Nat) (late : Bool)
  /-- The `i`-th suspended handler goes on; `ok` when what it awaited succeeded. -/
  | resume (i : Nat) (ok : Bool)
  /-- A reconnect timer has slept. -/
  | redial
deriving DecidableEq

namespace RoomClient

def new : RoomClient where
  closed := false
  generation := 0
  joined := false
  socket := none
  helloSent := false
  backfilling := false
  probing := false
  dialing := ∅
  timers := 0
  suspended := []
  opened := ∅
  live := ∅

variable (room : Room) (client : RoomClient)

def suspend (point : Point) : RoomClient :=
  { client with suspended := client.suspended ++ [point] }

/-- `socket?.cancel()`, and the socket is forgotten. -/
def cancel : RoomClient :=
  { client with
    live := client.socket.elim client.live client.live.erase
    socket := none }

def connect : RoomClient :=
  if client.closed then client
  else
    { client with
      generation := client.generation + 1, joined := false, helloSent := false
      backfilling := false, probing := false
      dialing := insert (client.generation + 1) client.dialing }

def start : RoomClient := { client with closed := false }.connect

def stop : RoomClient :=
  { client.cancel with closed := true, generation := client.generation + 1, joined := false }

def kickDials : Bool :=
  match room with
  | .registry => client.socket.isNone || !client.joined
  | .chat =>
      client.socket.isNone ||
        (!client.joined && !client.helloSent && !client.backfilling)

def kick : RoomClient :=
  if client.closed then client
  else if client.kickDials room then client.connect
  else if client.joined && !client.probing && !(room = .registry && client.helloSent) then
    { client with probing := true }
  else client

/-- The socket before, if there is one, is not cancelled. -/
def openSocket (gen : Nat) : RoomClient :=
  if gen = client.generation ∧ client.closed = false then
    { client with
      socket := some gen, helloSent := true
      opened := insert gen client.opened, live := insert gen client.live }
  else client

def onSocketError (gen : Nat) : RoomClient :=
  if gen = client.generation ∧ client.closed = false then
    { client with joined := false }.suspend (.leaving gen)
  else client

def scheduleReconnect (gen : Nat) : RoomClient :=
  if gen = client.generation ∧ client.closed = false then
    { client.cancel with timers := client.timers + 1 }
  else client

def pingTick (gen : Nat) : RoomClient :=
  if gen = client.generation ∧ client.socket.isSome then client.onSocketError gen else client

def livenessTick (gen : Nat) (late : Bool) : RoomClient :=
  if gen = client.generation ∧ client.socket.isSome ∧ client.closed = false then
    if late then
      if client.helloSent || client.backfilling || client.probing then client.onSocketError gen
      else client
    else if client.joined && !client.probing && !(room = .registry && client.helloSent) then
      { client with probing := true }
    else client
  else client

def handleInbound (gen : Nat) (frame : Frame) : RoomClient :=
  if gen = client.generation then
    match frame, room with
    | .unparseable, _ => client.onSocketError gen
    | .desynced, .chat => { client with probing := false }.onSocketError gen
    | .state, .registry => { client with probing := false, helloSent := false, joined := true }
    | .state, .chat =>
        if client.helloSent then
          { client with probing := false, helloSent := false, backfilling := true }.suspend
            (.planning gen)
        else { client with probing := false }
    | .rowsDone, .chat =>
        if client.backfilling then
          { client with probing := false, backfilling := false, joined := true }
        else { client with probing := false }
    | .desynced, .registry | .rowsDone, .registry | .other, _ => { client with probing := false }
  else client

def proceed (ok : Bool) : Point → RoomClient
  | .leaving gen => client.suspend (.left gen)
  | .left gen => client.scheduleReconnect gen
  | .planning gen => if ok then client else client.onSocketError gen

def step : Action → Option RoomClient
  | .start => some client.start
  | .stop => some client.stop
  | .kick => some (client.kick room)
  | .dialed gen url =>
      if gen ∈ client.dialing then
        let client := { client with dialing := client.dialing.erase gen }
        some (if url then client.openSocket gen else client.scheduleReconnect gen)
      else none
  | .fails gen => some { client with live := client.live.erase gen }
  | .lost gen =>
      if gen ∈ client.opened ∧ gen ∉ client.live then some (client.onSocketError gen) else none
  | .receive gen frame =>
      if gen ∈ client.opened then some (client.handleInbound room gen frame) else none
  | .pingTick gen => if gen ∈ client.opened then some (client.pingTick gen) else none
  | .livenessTick gen late =>
      if gen ∈ client.opened then some (client.livenessTick room gen late) else none
  | .resume i ok =>
      (client.suspended[i]?).map fun point =>
        { client with suspended := client.suspended.eraseIdx i }.proceed ok point
  | .redial =>
      if 0 < client.timers then some { client with timers := client.timers - 1 }.connect else none

end RoomClient

def machine (room : Room) : Machine RoomClient Action where
  init := (· = .new)
  step := RoomClient.step room

namespace RoomClient

variable (room : Room) (client : RoomClient)

def dials : Action → Bool
  | .start => true
  | .kick => !client.closed && client.kickDials room
  | .redial => !client.closed
  | _ => false

/-- What dials finds the client without a socket. -/
def Alone (room : Room) (client : RoomClient) (action : Action) : Prop :=
  client.dials room action = true → client.socket = none

instance (action : Action) : Decidable (Alone room client action) :=
  inferInstanceAs (Decidable (_ → _))

/-- Joined over a socket that was neither cancelled nor failed. -/
def Healthy : Prop := client.joined = true ∧ ∃ gen ∈ client.live, client.socket = some gen

/-! ## The kinds of steps -/

/-- The connection stays, or its socket fails. -/
structure Keeps (client' : RoomClient) : Prop where
  generation : client'.generation = client.generation
  socket : client'.socket = client.socket
  closed : client'.closed = client.closed
  opened : client'.opened = client.opened
  dialing : client'.dialing ⊆ client.dialing
  live : client'.live ⊆ client.live

structure Dials (client' : RoomClient) : Prop where
  generation : client'.generation = client.generation + 1
  socket : client'.socket = client.socket
  dialing : client'.dialing = insert (client.generation + 1) client.dialing
  live : client'.live = client.live

structure Opens (client' : RoomClient) : Prop where
  current : client.generation ∈ client.dialing
  generation : client'.generation = client.generation
  socket : client'.socket = some client.generation
  dialing : client'.dialing = client.dialing.erase client.generation
  live : client'.live = insert client.generation client.live

structure Drops (client' : RoomClient) : Prop where
  generation : client.generation ≤ client'.generation
  current : client'.generation = client.generation ∨ client'.generation = client.generation + 1
  socket : client'.socket = none
  closed : client.closed = true → client'.closed = true
  opened : client'.opened = client.opened
  dialing : client'.dialing ⊆ client.dialing
  live : client'.live = client.cancel.live

variable {room client} {client' : RoomClient}

theorem Keeps.refl (client : RoomClient) : client.Keeps client :=
  ⟨rfl, rfl, rfl, rfl, subset_rfl, subset_rfl⟩

theorem keeps_onSocketError (gen : Nat) : client.Keeps (client.onSocketError gen) := by
  unfold onSocketError
  split_ifs <;> exact ⟨rfl, rfl, rfl, rfl, subset_rfl, subset_rfl⟩

theorem keeps_pingTick (gen : Nat) : client.Keeps (client.pingTick gen) := by
  unfold pingTick
  split_ifs
  · exact keeps_onSocketError gen
  · exact .refl client

theorem keeps_livenessTick (gen : Nat) (late : Bool) :
    client.Keeps (client.livenessTick room gen late) := by
  unfold livenessTick
  split_ifs
  · exact keeps_onSocketError gen
  · exact .refl client
  · exact ⟨rfl, rfl, rfl, rfl, subset_rfl, subset_rfl⟩
  · exact .refl client
  · exact .refl client

theorem keeps_handleInbound (gen : Nat) (frame : Frame) :
    client.Keeps (client.handleInbound room gen frame) := by
  have hflags (probing helloSent backfilling joined : Bool) (suspended : List Point) :
      client.Keeps { client with probing, helloSent, backfilling, joined, suspended } :=
    ⟨rfl, rfl, rfl, rfl, subset_rfl, subset_rfl⟩
  unfold handleInbound
  by_cases hcurrent : gen = client.generation
  · rw [if_pos hcurrent]
    split
    · exact keeps_onSocketError gen
    · have h := @keeps_onSocketError { client with probing := false } gen
      exact ⟨h.generation, h.socket, h.closed, h.opened, h.dialing, h.live⟩
    · exact hflags ..
    · split_ifs <;> exact hflags ..
    · split_ifs <;> exact hflags ..
    · exact hflags ..
    · exact hflags ..
    · exact hflags ..
  · rw [if_neg hcurrent]
    exact .refl client

theorem dials_connect (hopen : client.closed = false) : client.Dials client.connect := by
  unfold connect
  rw [hopen, if_neg Bool.false_ne_true]
  exact ⟨rfl, rfl, rfl, rfl⟩

theorem keeps_or_drops_scheduleReconnect (gen : Nat) :
    client.Keeps (client.scheduleReconnect gen) ∨ client.Drops (client.scheduleReconnect gen) := by
  unfold scheduleReconnect
  split_ifs with h
  · exact .inr ⟨Nat.le_refl _, .inl rfl, rfl, id, rfl, subset_rfl, rfl⟩
  · exact .inl (.refl client)

/-- A step keeps the connection, dials, opens the socket of the current dial, or drops the socket. -/
theorem step_cases {action : Action} (h : client.step room action = some client') :
    client.Keeps client' ∨ (client.dials room action = true ∧ client.Dials client') ∨
      (client.closed = false ∧ client.Opens client') ∨ client.Drops client' := by
  cases action with
  | start =>
      cases h
      have hdials := @dials_connect { client with closed := false } rfl
      exact .inr (.inl ⟨rfl, hdials.generation, hdials.socket, hdials.dialing, hdials.live⟩)
  | stop =>
      cases h
      exact .inr (.inr (.inr ⟨Nat.le_succ _, .inr rfl, rfl, fun _ => rfl, rfl, subset_rfl, rfl⟩))
  | kick =>
      cases h
      unfold kick
      split_ifs with hclosed hdials
      · exact .inl (.refl client)
      · have hopen : client.closed = false := eq_false_of_ne_true hclosed
        exact .inr (.inl ⟨by simp [dials, hopen, hdials], dials_connect hopen⟩)
      · exact .inl ⟨rfl, rfl, rfl, rfl, subset_rfl, subset_rfl⟩
      · exact .inl (.refl client)
  | dialed gen url =>
      simp only [step] at h
      split_ifs at h with hmem hurl
      · cases h
        unfold openSocket
        split_ifs with hcurrent
        · obtain ⟨hgen, hopen⟩ := hcurrent
          change gen = client.generation at hgen
          subst hgen
          exact .inr (.inr (.inl ⟨hopen, hmem, rfl, rfl, rfl, rfl⟩))
        · exact .inl ⟨rfl, rfl, rfl, rfl, Finset.erase_subset _ _, subset_rfl⟩
      · cases h
        obtain hkeeps | hdrops :=
          @keeps_or_drops_scheduleReconnect { client with dialing := client.dialing.erase gen } gen
        · exact .inl ⟨hkeeps.generation, hkeeps.socket, hkeeps.closed, hkeeps.opened,
            hkeeps.dialing.trans (Finset.erase_subset _ _), hkeeps.live⟩
        · exact .inr (.inr (.inr ⟨hdrops.generation, hdrops.current, hdrops.socket, hdrops.closed,
            hdrops.opened, hdrops.dialing.trans (Finset.erase_subset _ _), hdrops.live⟩))
  | fails gen =>
      cases h
      exact .inl ⟨rfl, rfl, rfl, rfl, subset_rfl, Finset.erase_subset _ _⟩
  | lost gen =>
      simp only [step] at h
      split_ifs at h
      cases h
      exact .inl (keeps_onSocketError gen)
  | receive gen frame =>
      simp only [step] at h
      split_ifs at h
      cases h
      exact .inl (keeps_handleInbound gen frame)
  | pingTick gen =>
      simp only [step] at h
      split_ifs at h
      cases h
      exact .inl (keeps_pingTick gen)
  | livenessTick gen late =>
      simp only [step] at h
      split_ifs at h
      cases h
      exact .inl (keeps_livenessTick gen late)
  | resume i ok =>
      obtain ⟨point, -, rfl⟩ := Option.map_eq_some_iff.mp h
      have hkeeps {suspended : List Point} {after : RoomClient}
          (h : Keeps { client with suspended } after) : client.Keeps after :=
        ⟨h.generation, h.socket, h.closed, h.opened, h.dialing, h.live⟩
      cases point with
      | leaving gen => exact .inl ⟨rfl, rfl, rfl, rfl, subset_rfl, subset_rfl⟩
      | left gen =>
          obtain h | h := @keeps_or_drops_scheduleReconnect
            { client with suspended := client.suspended.eraseIdx i } gen
          · exact .inl (hkeeps h)
          · exact .inr (.inr (.inr ⟨h.generation, h.current, h.socket, h.closed, h.opened,
              h.dialing, h.live⟩))
      | planning gen =>
          cases ok with
          | true => exact .inl (hkeeps (.refl _))
          | false => exact .inl (hkeeps (keeps_onSocketError gen))
  | redial =>
      simp only [step] at h
      split_ifs at h
      cases h
      by_cases hclosed : client.closed = true
      · left
        unfold connect
        rw [if_pos hclosed]
        exact ⟨rfl, rfl, rfl, rfl, subset_rfl, subset_rfl⟩
      · have hopen : client.closed = false := eq_false_of_ne_true hclosed
        have h := @dials_connect { client with timers := client.timers - 1 } hopen
        exact .inr (.inl ⟨by simp [dials, hopen],
          h.generation, h.socket, h.dialing, h.live⟩)

/-! ## What dialing alone keeps -/

/-- The one socket that may be live is the client's, and there is none while a dial is on its way. -/
structure Sound (client : RoomClient) : Prop where
  live : ∀ gen ∈ client.live, client.socket = some gen
  dials : ∀ gen ∈ client.dialing, gen ≤ client.generation
  dialing : client.generation ∈ client.dialing → client.socket = none

theorem sound_new : new.Sound := ⟨nofun, nofun, nofun⟩

theorem Sound.live_eq_empty (h : client.Sound) (hsocket : client.socket = none) :
    client.live = ∅ := by
  apply Finset.eq_empty_of_forall_notMem
  intro gen hgen
  cases hsocket.symm.trans (h.live gen hgen)

theorem Sound.live_cancel (h : client.Sound) : client.cancel.live = ∅ := by
  cases hsocket : client.socket with
  | none =>
      have hsame : client.cancel.live = client.live := by simp [cancel, hsocket]
      rw [hsame]
      exact h.live_eq_empty hsocket
  | some socket =>
      have hsame : client.cancel.live = client.live.erase socket := by simp [cancel, hsocket]
      rw [hsame]
      apply Finset.eq_empty_of_forall_notMem
      intro gen hgen
      obtain ⟨hne, hlive⟩ := Finset.mem_erase.mp hgen
      have hgen' := h.live gen hlive
      rw [hsocket] at hgen'
      exact hne (Option.some.inj hgen').symm

theorem Sound.step (h : client.Sound) {action : Action} (hguard : Alone room client action)
    (hstep : client.step room action = some client') : client'.Sound := by
  obtain hkeeps | ⟨hdials, hdialed⟩ | ⟨-, hopens⟩ | hdrops := step_cases hstep
  · refine ⟨fun gen hgen => ?_, fun gen hgen => ?_, fun hgen => ?_⟩
    · rw [hkeeps.socket]
      exact h.live gen (hkeeps.live hgen)
    · rw [hkeeps.generation]
      exact h.dials gen (hkeeps.dialing hgen)
    · rw [hkeeps.socket]
      exact h.dialing (hkeeps.generation ▸ hkeeps.dialing hgen)
  · have hsocket : client.socket = none := hguard hdials
    refine ⟨fun gen hgen => ?_, fun gen hgen => ?_, fun _ => hdialed.socket.trans hsocket⟩
    · rw [hdialed.live, h.live_eq_empty hsocket] at hgen
      exact absurd hgen (Finset.notMem_empty gen)
    · rw [hdialed.generation]
      rw [hdialed.dialing, Finset.mem_insert] at hgen
      obtain rfl | hgen := hgen
      · exact Nat.le_refl _
      · exact Nat.le_succ_of_le (h.dials gen hgen)
  · refine ⟨fun gen hgen => ?_, fun gen hgen => ?_, fun hgen => ?_⟩
    · rw [hopens.live, h.live_eq_empty (h.dialing hopens.current), Finset.mem_insert] at hgen
      obtain rfl | hgen := hgen
      · exact hopens.socket
      · exact absurd hgen (Finset.notMem_empty gen)
    · rw [hopens.generation]
      rw [hopens.dialing] at hgen
      exact h.dials gen (Finset.mem_of_mem_erase hgen)
    · rw [hopens.generation, hopens.dialing] at hgen
      exact absurd hgen (Finset.notMem_erase _ _)
  · refine ⟨fun gen hgen => ?_, fun gen hgen => ?_, fun _ => hdrops.socket⟩
    · rw [hdrops.live, h.live_cancel] at hgen
      exact absurd hgen (Finset.notMem_empty gen)
    · exact (h.dials gen (hdrops.dialing hgen)).trans hdrops.generation

theorem sound_of_reachable (h : (machine room).ReachableWhen (Alone room) client) :
    client.Sound := by
  apply h.invariant
  · rintro _ rfl
    exact sound_new
  · exact fun _ _ _ hsound hguard hstep => hsound.step hguard hstep

/-- No address is asked for and no socket is opened. -/
def Undialed (client client' : RoomClient) : Prop :=
  client'.dialing ⊆ client.dialing ∧ client'.opened = client.opened

theorem Undialed.trans {client₁ client₂ client₃ : RoomClient} (h₁ : Undialed client₁ client₂)
    (h₂ : Undialed client₂ client₃) : Undialed client₁ client₃ :=
  ⟨h₂.1.trans h₁.1, h₂.2.trans h₁.2⟩

theorem undialed_of_closed (hclosed : client.closed = true) {action : Action}
    (hne : action ≠ .start) (hstep : client.step room action = some client') :
    client'.closed = true ∧ Undialed client client' := by
  obtain h | ⟨hdials, -⟩ | ⟨hopen, -⟩ | h := step_cases hstep
  · exact ⟨h.closed.trans hclosed, h.dialing, h.opened⟩
  · cases action <;> first | exact absurd rfl hne | simp [dials, hclosed] at hdials
  · cases hclosed.symm.trans hopen
  · exact ⟨h.closed hclosed, h.dialing, h.opened⟩

theorem undialed_of_steps (hclosed : client.closed = true)
    (h : (machine room).Steps (fun _ action => action ≠ .start) client client') :
    Undialed client client' := by
  have hinv := h.invariant (I := fun later => later.closed = true ∧ Undialed client later)
    (fun later action later' hlater hne hstep => by
      obtain ⟨hclosed', hundialed⟩ := undialed_of_closed hlater.1 hne hstep
      exact ⟨hclosed', hlater.2.trans hundialed⟩)
    ⟨hclosed, subset_rfl, rfl⟩
  exact hinv.2

/-- **One session.** After a stop nothing is dialed until the next start. In a run in which a start, a
kick or a reconnect timer dials only while the client has no socket, at most one of its sockets is
live, and nothing is dialed while it is joined over it. -/
theorem sessions_dial_alone (room : Room) :
    (∀ client client', (machine room).Steps (fun _ action => action ≠ .start)
        (RoomClient.stop client) client' → Undialed client client') ∧
      ∀ client, (machine room).ReachableWhen (Alone room) client →
        client.live.card ≤ 1 ∧
          (client.Healthy → ∀ action client', Alone room client action →
            client.step room action = some client' → Undialed client client') := by
  refine ⟨fun client client' h =>
    @undialed_of_steps room client.stop client' rfl h, fun client hreach => ?_⟩
  have h := sound_of_reachable hreach
  constructor
  · rw [Finset.card_le_one]
    intro gen hgen gen' hgen'
    exact Option.some.inj ((h.live gen hgen).symm.trans (h.live gen' hgen'))
  · rintro ⟨-, gen, -, hsocket⟩ action client' hguard hstep
    obtain hkeeps | ⟨hdials, -⟩ | ⟨-, hopens⟩ | hdrops := step_cases hstep
    · exact ⟨hkeeps.dialing, hkeeps.opened⟩
    · cases hsocket.symm.trans (hguard hdials)
    · cases hsocket.symm.trans (h.dialing hopens.current)
    · exact ⟨hdrops.dialing, hdrops.opened⟩

/-- A registry session that is dialed and joined, fails, and is joined again by a kick. -/
def kicked : List Action :=
  [.start, .dialed 1 true, .receive 1 .state, .fails 1, .lost 1, .resume 0 true, .resume 0 true,
    .kick, .dialed 2 true, .receive 2 .state]

theorem kicked_alone :
    ∃ client, (machine .registry).ReachableWhen (Alone .registry) client ∧ client.Healthy ∧
      2 ∈ client.opened ∧ client.live = {2} ∧ client.dialing = ∅ ∧
        client.closed = false ∧ client.timers = 1 := by
  obtain ⟨client, hsteps, hclient⟩ := Machine.exists_steps_of_runWhen (machine .registry)
    (Alone .registry) (s := new) kicked
    (p := fun client => decide ((client.joined = true ∧ client.socket = some 2) ∧
      2 ∈ client.opened ∧ client.live = {2} ∧ client.dialing = ∅ ∧
        client.closed = false ∧ client.timers = 1)) (by decide +kernel)
  obtain ⟨⟨hjoined, hsocket⟩, hopened, hlive, hrest⟩ := of_decide_eq_true hclient
  exact ⟨client, ⟨_, rfl, hsteps⟩, ⟨hjoined, 2, by simp [hlive], hsocket⟩, hopened, hlive, hrest⟩

theorem sessions_dial_alone_kicked :
    ∃ client, client.live = {2} ∧ client.live.card ≤ 1 ∧
      Undialed client (client.pingTick 2) ∧ Undialed client client.stop := by
  obtain ⟨client, hreach, hhealthy, hopened, hlive, -⟩ := kicked_alone
  obtain ⟨hstopped, hsessions⟩ := sessions_dial_alone .registry
  obtain ⟨hcard, hundialed⟩ := hsessions client hreach
  have hstep : client.step .registry (.pingTick 2) = some (client.pingTick 2) := if_pos hopened
  exact ⟨client, hlive, hcard, hundialed hhealthy (.pingTick 2) _ nofun hstep,
    hstopped client _ (.refl _)⟩

/-- The timer of the outage that the kick has overcome dials all the same, over the live session, and
the socket of that session stays open. -/
theorem outage_dials_twice :
    (¬∀ room client, (machine room).Reachable client → client.Healthy →
      ∀ client', client.step room .redial = some client' → Undialed client client') ∧
        ¬∀ room client, (machine room).Reachable client → client.live.card ≤ 1 := by
  constructor
  · intro h
    obtain ⟨client, hreach, hhealthy, -, -, hdialing, hopen, htimers⟩ := kicked_alone
    have hstep : client.step .registry .redial =
        some { client with timers := client.timers - 1 }.connect :=
      if_pos (by rw [htimers]; exact Nat.one_pos)
    have hundialed := h .registry client (hreach.mono fun _ _ _ => trivial) hhealthy _ hstep
    have hdials := @dials_connect { client with timers := client.timers - 1 } hopen
    have hmem := hundialed.1 (hdials.dialing ▸ Finset.mem_insert_self _ _)
    rw [hdialing] at hmem
    exact absurd hmem (Finset.notMem_empty _)
  · intro h
    obtain ⟨client, hsteps, hclient⟩ := Machine.exists_steps_of_runWhen (machine .registry)
      Machine.anyStep (s := new) (kicked ++ [.redial, .dialed 3 true])
      (p := fun client => decide (client.live.card = 2)) (by decide +kernel)
    have hcard := h .registry client ⟨_, rfl, hsteps⟩
    rw [of_decide_eq_true hclient] at hcard
    exact absurd hcard (by decide)

end RoomClient

end Zeron.Ios.Redials
