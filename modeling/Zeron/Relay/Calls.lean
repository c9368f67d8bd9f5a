import Zeron.Lib.Machine
import Zeron.Relay.Room
import Mathlib.Logic.Function.Basic

/-!
# Calls over the relay

A `DeviceLink` and the successive host sessions of a device, on the two sides of the device's room:
who has a call that is neither answered nor failed. Sockets are numbered as they join. A socket can
die at any moment; what its session does from then on reaches nobody.
-/

namespace Zeron.Relay

open Zeron.Lib

/-- What the room sends a host. -/
inductive HostFrame where
  | request (call : Nat)
  | clientClosed
  | clientGone

/-- What the room sends the link. -/
inductive LinkFrame where
  | response (call : Nat)
  | relay (code : String)
deriving DecidableEq

/-- A host's socket, listed by the room, with its session. `conn` are the calls in the virtual
connection of the link. -/
structure HostSession where
  joinedAt : Nat
  pongAt : Nat
  alive : Bool
  /-- The room has closed the socket for a successor. -/
  superseded : Bool
  inbound : List HostFrame
  conn : List Nat
  outbound : List Nat

/-- `handle_host_frame`. -/
def HostSession.receive (session : HostSession) : HostFrame → HostSession
  | .request call => { session with conn := session.conn ++ [call] }
  | .clientClosed | .clientGone => { session with conn := [] }

structure System where
  now : Nat
  nextSocket : Nat
  sessions : Nat → Option HostSession
  /-- The room lists the link's socket. -/
  clientListed : Bool
  linkUp : Bool
  nextCall : Nat
  pending : List Nat
  toRoom : List Nat
  toClient : List LinkFrame

variable {session : HostSession}

namespace System

def start : System :=
  { now := 0, nextSocket := 0, sessions := fun _ => none, clientListed := true, linkUp := true
    nextCall := 0, pending := [], toRoom := [], toClient := [] }

variable (s : System)

/-- `getWebSockets(HOST_TAG)`. -/
def sockets : List RoomSocket :=
  (List.range s.nextSocket).filterMap fun id => (s.sessions id).map fun session =>
    { id, role := .host, connId := "", joinedAt := session.joinedAt, pongAt := session.pongAt }

def setSession (id : Nat) (session : HostSession) : System :=
  { s with sessions := Function.update s.sessions id (some session) }

/-- A send to a socket that is dead, or closed by the room, is lost. -/
def deliver (id : Nat) (frame : HostFrame) : System :=
  match s.sessions id with
  | none => s
  | some session =>
      if session.alive && !session.superseded then
        s.setSession id { session with inbound := session.inbound ++ [frame] }
      else s

/-- The pump of the link ends, and every call fails. -/
def dropLink : System := { s with linkUp := false, pending := [] }

/-- `webSocketMessage` for a frame of the link. -/
def clientMessage (call : Nat) : System :=
  match liveHost s.sockets s.now none with
  | none => { s with toClient := s.toClient ++ [.relay "host_offline"] }
  | some host => s.deliver host.id (.request call)

/-- `webSocketMessage` for a response of a host. -/
def hostMessage (id call : Nat) : System :=
  if s.clientListed then { s with toClient := s.toClient ++ [.response call] }
  else s.deliver id .clientGone

/-- `webSocketClose` for the socket of a host. -/
def hostClose (id : Nat) : System :=
  let closed := { s with sessions := Function.update s.sessions id none }
  if (liveHost s.sockets s.now (some id)).isSome then closed
  else if s.clientListed then { closed with toClient := s.toClient ++ [.relay "host_closed"] }
  else closed

/-- `webSocketClose` for the socket of the link. -/
def clientClose : System :=
  let closed := { s with clientListed := false, toRoom := [] }
  match liveHost s.sockets s.now none with
  | none => closed
  | some host => closed.deliver host.id .clientClosed

/-- A host joins: the room closes its predecessors. -/
def hostJoin : System :=
  { s with
    nextSocket := s.nextSocket + 1
    sessions := fun id =>
      if id = s.nextSocket then
        some { joinedAt := s.now, pongAt := 0, alive := true, superseded := false
               inbound := [], conn := [], outbound := [] }
      else (s.sessions id).map fun session => { session with superseded := true } }

inductive Action where
  | call
  | clientMessage
  | hostMessage (id : Nat)
  | hostReceives (id : Nat)
  | answer (id call : Nat)
  | linkReceives
  | linkDrops
  | clientClose
  | hostJoin
  /-- The socket dies, and with it what it carried, but for the first frames to the room. -/
  | hostDies (id kept : Nat)
  | hostClose (id : Nat)
  | pong (id : Nat)
  | tick (ms : Nat)
deriving DecidableEq

def step (s : System) : Action → Option System
  | .call =>
      if s.linkUp then
        some { s with
          nextCall := s.nextCall + 1
          pending := s.pending ++ [s.nextCall]
          toRoom := s.toRoom ++ [s.nextCall] }
      else none
  | .clientMessage =>
      match s.toRoom with
      | [] => none
      | call :: rest => some ({ s with toRoom := rest }.clientMessage call)
  | .hostMessage id =>
      match s.sessions id with
      | none => none
      | some session =>
          match session.outbound with
          | [] => none
          | call :: rest =>
              some ((s.setSession id { session with outbound := rest }).hostMessage id call)
  | .hostReceives id =>
      match s.sessions id with
      | none => none
      | some session =>
          match session.alive, session.inbound with
          | true, frame :: rest =>
              some (s.setSession id ({ session with inbound := rest }.receive frame))
          | _, _ => none
  | .answer id call =>
      match s.sessions id with
      | none => none
      | some session =>
          if session.alive && session.conn.contains call then
            some (s.setSession id { session with
              conn := session.conn.filter (· != call)
              outbound := session.outbound ++ [call] })
          else none
  | .linkReceives =>
      match s.linkUp, s.toClient with
      | true, .response call :: rest =>
          some { s with pending := s.pending.filter (· != call), toClient := rest }
      | true, .relay _ :: rest => some { s with toClient := rest }.dropLink
      | _, _ => none
  | .linkDrops => if s.linkUp then some s.dropLink else none
  | .clientClose => if !s.linkUp && s.clientListed then some s.clientClose else none
  | .hostJoin => some s.hostJoin
  | .hostDies id kept =>
      match s.sessions id with
      | none => none
      | some session =>
          if session.alive then
            some (s.setSession id { session with
              alive := false, inbound := [], conn := [], outbound := session.outbound.take kept })
          else none
  | .hostClose id =>
      match s.sessions id with
      | none => none
      | some session =>
          if !session.alive && session.outbound.isEmpty then some (s.hostClose id) else none
  | .pong id =>
      match s.sessions id with
      | none => none
      | some session =>
          if session.alive then some (s.setSession id { session with pongAt := s.now }) else none
  | .tick ms => some { s with now := s.now + ms }

def machine : Machine System Action :=
  { init := fun s => s = start, step := step }

/-! ## Where a call is -/

/-- The call is on its way to the room, or its response or a control frame is on its way back. -/
def Settled (s : System) (call : Nat) : Prop :=
  call ∈ s.toRoom ∨ (∃ id session, s.sessions id = some session ∧ call ∈ session.outbound) ∨
    .response call ∈ s.toClient ∨ ∃ code, .relay code ∈ s.toClient

/-- The session has the call, on its way or in the virtual connection. -/
def Holds (session : HostSession) (call : Nat) : Prop :=
  .request call ∈ session.inbound ∨ call ∈ session.conn

/-- The call is settled, or the current host session has it; if that session's socket is dead, its
close is on its way to the room, which will answer with the control frame. -/
def Placed (s : System) (call : Nat) : Prop :=
  s.Settled call ∨ ∃ id session, s.sessions id = some session ∧ session.superseded = false ∧
    (session.alive = true → Holds session call)

/-- What the room, the sessions and the link do of themselves, and the time. -/
def Action.progress : Action → Bool
  | .clientMessage | .hostMessage _ | .hostReceives _ | .answer _ _ | .linkReceives | .hostClose _
  | .tick _ => true
  | .call | .linkDrops | .clientClose | .hostJoin | .hostDies _ _ | .pong _ => false

def CanEnd (s : System) (call : Nat) : Prop :=
  ∃ s', machine.Steps (fun _ a => a.progress = true) s s' ∧ call ∉ s'.pending

/-- `Settled`, evaluated. -/
def settled (s : System) (call : Nat) : Bool :=
  s.toRoom.contains call
    || (List.range s.nextSocket).any (fun id => (s.sessions id).any (·.outbound.contains call))
    || s.toClient.any fun
      | .response answered => answered == call
      | .relay _ => true

def allSettled (s : System) : Bool := !s.linkUp || s.pending.all s.settled

/-- The link's frames go to the current session or bounce; a host joins, or the close of a host's
socket is passed over for another host, only when no call is with a session; the last frames of a
superseded session are no responses that a call waits for. -/
def sound (s : System) : Action → Bool
  | .clientMessage =>
      match liveHost s.sockets s.now none with
      | none => true
      | some host => (s.sessions host.id).any (!·.superseded)
  | .hostJoin => s.allSettled
  | .hostDies id kept =>
      match s.sessions id with
      | none => true
      | some session =>
          !session.superseded || (session.outbound.drop kept).all (!s.pending.contains ·)
  | .hostClose id =>
      (s.sessions id).any (·.superseded) || (liveHost s.sockets s.now (some id)).isNone
        || s.allSettled
  | _ => true

def Sound (s : System) (a : Action) : Prop := s.sound a = true

instance (s : System) (a : Action) : Decidable (Sound s a) :=
  inferInstanceAs (Decidable (s.sound a = true))

/-! ## The sockets -/

variable {s : System}

@[simp]
theorem setSession_self (s : System) (id : Nat) (session : HostSession) :
    (s.setSession id session).sessions id = some session := by
  simp [setSession]

theorem setSession_of_ne (s : System) {id other : Nat} (h : other ≠ id) (session : HostSession) :
    (s.setSession id session).sessions other = s.sessions other := by
  simp [setSession, h]

@[simp]
theorem deliver_linkUp (s : System) (id : Nat) (frame : HostFrame) :
    (s.deliver id frame).linkUp = s.linkUp := by
  unfold deliver
  split
  · rfl
  · split <;> rfl

@[simp]
theorem deliver_pending (s : System) (id : Nat) (frame : HostFrame) :
    (s.deliver id frame).pending = s.pending := by
  unfold deliver
  split
  · rfl
  · split <;> rfl

theorem setSession_cases {id other : Nat} {session found : HostSession}
    (h : (s.setSession id session).sessions other = some found) :
    (other = id ∧ found = session) ∨ (other ≠ id ∧ s.sessions other = some found) := by
  by_cases hother : other = id
  · subst hother
    rw [setSession_self] at h
    exact .inl ⟨rfl, (Option.some.inj h).symm⟩
  · rw [setSession_of_ne s hother] at h
    exact .inr ⟨hother, h⟩

/-- What holds whether the link is up or not. -/
structure Listed (s : System) : Prop where
  fresh : ∀ id session, s.sessions id = some session → id < s.nextSocket
  seen : ∀ id session, s.sessions id = some session →
    session.joinedAt ≤ s.now ∧ session.pongAt ≤ s.now
  client : s.linkUp = true → s.clientListed = true

theorem Listed.setSession (h : Listed s) {id : Nat} {session session' : HostSession}
    (hsession : s.sessions id = some session) (hjoined : session'.joinedAt = session.joinedAt)
    (hpong : session'.pongAt = session.pongAt ∨ session'.pongAt = s.now) :
    Listed (s.setSession id session') := by
  refine ⟨fun other found hfound => ?_, fun other found hfound => ?_, h.client⟩
  · obtain ⟨rfl, -⟩ | ⟨-, hfound⟩ := setSession_cases hfound
    · exact h.fresh other session hsession
    · exact h.fresh other found hfound
  · obtain ⟨rfl, rfl⟩ | ⟨-, hfound⟩ := setSession_cases hfound
    · obtain ⟨hjoin, hpong'⟩ := h.seen other session hsession
      refine ⟨hjoined ▸ hjoin, ?_⟩
      obtain hsame | hnow := hpong
      · exact hsame ▸ hpong'
      · exact Nat.le_of_eq hnow
    · exact h.seen other found hfound

theorem Listed.deliver (h : Listed s) (id : Nat) (frame : HostFrame) :
    Listed (s.deliver id frame) := by
  unfold System.deliver
  split
  · exact h
  · rename_i session hsession
    split
    · exact h.setSession hsession rfl (.inl rfl)
    · exact h

theorem Listed.of_sessions {s' : System} (h : Listed s) (hsessions : s'.sessions = s.sessions)
    (hnext : s'.nextSocket = s.nextSocket) (hnow : s.now ≤ s'.now)
    (hclient : s'.linkUp = true → s'.clientListed = true) : Listed s' := by
  refine ⟨fun id session hsession => ?_, fun id session hsession => ?_, hclient⟩
  · rw [hsessions] at hsession
    exact hnext ▸ h.fresh id session hsession
  · rw [hsessions] at hsession
    obtain ⟨hjoin, hpong⟩ := h.seen id session hsession
    exact ⟨Nat.le_trans hjoin hnow, Nat.le_trans hpong hnow⟩

theorem erase_eq_some {id other : Nat} {found : HostSession} :
    Function.update s.sessions id none other = some found ↔
      other ≠ id ∧ s.sessions other = some found := by
  by_cases hother : other = id
  · simp [hother]
  · simp [hother]

theorem Listed.erase (h : Listed s) (id : Nat) :
    Listed { s with sessions := Function.update s.sessions id none } :=
  ⟨fun other found hfound => h.fresh other found (erase_eq_some.mp hfound).2,
    fun other found hfound => h.seen other found (erase_eq_some.mp hfound).2, h.client⟩

theorem Listed.hostJoin (h : Listed s) : Listed s.hostJoin := by
  refine ⟨fun id session hsession => ?_, fun id session hsession => ?_, h.client⟩
  · simp only [System.hostJoin] at hsession ⊢
    split at hsession
    · omega
    · obtain ⟨found, hfound, -⟩ := Option.map_eq_some_iff.mp hsession
      have hlt := h.fresh id found hfound
      omega
  · simp only [System.hostJoin] at hsession ⊢
    split at hsession
    · cases hsession
      exact ⟨Nat.le_refl _, Nat.zero_le _⟩
    · obtain ⟨found, hfound, rfl⟩ := Option.map_eq_some_iff.mp hsession
      exact h.seen id found hfound

theorem Listed.step (h : Listed s) {a : Action} {s' : System} (hstep : s.step a = some s') :
    Listed s' := by
  cases a with
  | call =>
      simp only [System.step] at hstep
      split at hstep <;> cases hstep
      exact h.of_sessions rfl rfl (Nat.le_refl _) h.client
  | clientMessage =>
      simp only [System.step] at hstep
      split at hstep <;> cases hstep
      rename_i call rest _
      have hrest : Listed { s with toRoom := rest } :=
        h.of_sessions rfl rfl (Nat.le_refl _) h.client
      unfold System.clientMessage
      split
      · exact h.of_sessions rfl rfl (Nat.le_refl _) h.client
      · exact hrest.deliver _ _
  | hostMessage id =>
      simp only [System.step] at hstep
      split at hstep
      · cases hstep
      · rename_i session hsession
        split at hstep <;> cases hstep
        rename_i call rest _
        have hrest : Listed (s.setSession id { session with outbound := rest }) :=
          h.setSession hsession rfl (.inl rfl)
        unfold System.hostMessage
        split
        · exact hrest.of_sessions rfl rfl (Nat.le_refl _) hrest.client
        · exact hrest.deliver _ _
  | hostReceives id =>
      simp only [System.step] at hstep
      split at hstep
      · cases hstep
      · rename_i session hsession
        split at hstep <;> cases hstep
        rename_i frame rest _ _
        cases frame <;> exact h.setSession hsession rfl (.inl rfl)
  | answer id call | hostDies id kept =>
      simp only [System.step] at hstep
      split at hstep
      · cases hstep
      · rename_i session hsession
        split at hstep <;> cases hstep
        exact h.setSession hsession rfl (.inl rfl)
  | linkReceives =>
      simp only [System.step] at hstep
      split at hstep <;> cases hstep
      · exact h.of_sessions rfl rfl (Nat.le_refl _) h.client
      · exact h.of_sessions rfl rfl (Nat.le_refl _) nofun
  | linkDrops =>
      simp only [System.step] at hstep
      split at hstep <;> cases hstep
      exact h.of_sessions rfl rfl (Nat.le_refl _) nofun
  | clientClose =>
      simp only [System.step] at hstep
      split at hstep <;> cases hstep
      rename_i hdown
      simp only [Bool.and_eq_true, Bool.not_eq_true'] at hdown
      have hclosed : Listed { s with clientListed := false, toRoom := [] } :=
        h.of_sessions rfl rfl (Nat.le_refl _) fun hup => absurd (hdown.1.symm.trans hup) nofun
      unfold System.clientClose
      dsimp only
      split
      · exact hclosed
      · exact hclosed.deliver _ _
  | hostJoin =>
      cases hstep
      exact h.hostJoin
  | hostClose id =>
      simp only [System.step] at hstep
      split at hstep
      · cases hstep
      · split at hstep <;> cases hstep
        unfold System.hostClose
        dsimp only
        split
        · exact h.erase id
        · split
          · exact (h.erase id).of_sessions rfl rfl (Nat.le_refl _) h.client
          · exact h.erase id
  | pong id =>
      simp only [System.step] at hstep
      split at hstep
      · cases hstep
      · rename_i session hsession
        split at hstep <;> cases hstep
        exact h.setSession hsession rfl (.inr rfl)
  | tick ms =>
      cases hstep
      exact h.of_sessions rfl rfl (Nat.le_add_right _ _) h.client

/-! ## The calls -/

/-- While the link is up the hosts are sent nothing but its requests. -/
def Requests (s : System) : Prop :=
  ∀ id session, s.sessions id = some session → ∀ frame ∈ session.inbound, ∃ call,
    frame = .request call

theorem Requests.setSession (h : Requests s) (id : Nat)
    (hinbound : ∀ frame ∈ session.inbound, ∃ call, frame = .request call) :
    Requests (s.setSession id session) := by
  intro other found hfound
  obtain ⟨-, rfl⟩ | ⟨-, hfound⟩ := setSession_cases hfound
  · exact hinbound
  · exact h other found hfound

theorem Requests.deliver (h : Requests s) (id call : Nat) :
    Requests (s.deliver id (.request call)) := by
  unfold System.deliver
  split
  · exact h
  · rename_i session hsession
    split
    · refine h.setSession id fun frame hframe => ?_
      obtain hframe | hframe := List.mem_append.mp hframe
      · exact h id session hsession frame hframe
      · exact ⟨call, List.mem_singleton.mp hframe⟩
    · exact h

theorem Settled.setSession {id call : Nat} {session session' : HostSession} (h : s.Settled call)
    (hsession : s.sessions id = some session)
    (houtbound : call ∈ session.outbound → call ∈ session'.outbound) :
    (s.setSession id session').Settled call := by
  obtain hroom | ⟨other, found, hfound, hcall⟩ | hclient := h
  · exact .inl hroom
  · refine .inr (.inl ?_)
    by_cases hother : other = id
    · subst hother
      cases hsession.symm.trans hfound
      exact ⟨other, session', setSession_self .., houtbound hcall⟩
    · exact ⟨other, found, (setSession_of_ne s hother session').trans hfound, hcall⟩
  · exact .inr (.inr hclient)

theorem Placed.setSession {id call : Nat} {session session' : HostSession} (h : s.Placed call)
    (hsession : s.sessions id = some session)
    (houtbound : call ∈ session.outbound → call ∈ session'.outbound)
    (hsuperseded : session'.superseded = session.superseded)
    (hholds : session.superseded = false → (session.alive = true → Holds session call) →
      session'.alive = true → Holds session' call) :
    (s.setSession id session').Placed call := by
  obtain hsettled | ⟨other, found, hfound, hcurrent, hcall⟩ := h
  · exact .inl (hsettled.setSession hsession houtbound)
  · right
    by_cases hother : other = id
    · subst hother
      cases hsession.symm.trans hfound
      exact ⟨other, session', setSession_self .., hsuperseded.trans hcurrent,
        hholds hcurrent hcall⟩
    · exact ⟨other, found, (setSession_of_ne s hother session').trans hfound, hcurrent, hcall⟩

theorem Placed.of_queues {s' : System} {call : Nat} (h : s.Placed call)
    (hsessions : s'.sessions = s.sessions) (hroom : call ∈ s.toRoom → call ∈ s'.toRoom)
    (hresponse : .response call ∈ s.toClient → .response call ∈ s'.toClient)
    (hrelay : ∀ code, .relay code ∈ s.toClient → .relay code ∈ s'.toClient) : s'.Placed call := by
  unfold Placed Settled
  rw [hsessions]
  refine h.imp_left (Or.imp hroom (Or.imp_right (Or.imp hresponse ?_)))
  exact fun ⟨code, hcode⟩ => ⟨code, hrelay code hcode⟩

theorem settled_of_relay {code : String} (h : .relay code ∈ s.toClient) (call : Nat) :
    s.Settled call := .inr (.inr (.inr ⟨code, h⟩))

theorem settled_of_response {call : Nat} (h : .response call ∈ s.toClient) : s.Settled call :=
  .inr (.inr (.inl h))

theorem settled_of_outbound {id call : Nat} (hsession : s.sessions id = some session)
    (h : call ∈ session.outbound) : s.Settled call :=
  .inr (.inl ⟨id, session, hsession, h⟩)

theorem Settled.of_settled {call : Nat} (h : s.settled call = true) : s.Settled call := by
  simp only [settled, Bool.or_eq_true, List.contains_iff_mem, List.any_eq_true,
    Option.any_eq_true] at h
  obtain (hroom | ⟨id, -, session, hsession, hcall⟩) | ⟨frame, hframe, hcall⟩ := h
  · exact .inl hroom
  · exact settled_of_outbound hsession hcall
  · cases frame with
    | response answered =>
        rw [beq_iff_eq] at hcall
        exact settled_of_response (hcall ▸ hframe)
    | relay code => exact settled_of_relay hframe call

theorem settled_of_allSettled (h : s.allSettled = true) (hup : s.linkUp = true) :
    ∀ call ∈ s.pending, s.Settled call := by
  simp only [allSettled, hup, Bool.not_true, Bool.false_or, List.all_eq_true] at h
  exact fun call hcall => Settled.of_settled (h call hcall)

theorem placed_deliver {call : Nat} {id : Nat} (hsession : s.sessions id = some session)
    (hcurrent : session.superseded = false) :
    (s.deliver id (.request call)).Placed call := by
  unfold System.deliver
  simp only [hsession, hcurrent, Bool.not_false, Bool.and_true]
  split
  · exact .inr ⟨id, _, setSession_self .., rfl, fun _ => .inl (by simp)⟩
  · rename_i hdead
    exact .inr ⟨id, session, hsession, hcurrent, fun halive => absurd halive hdead⟩

theorem Placed.deliver {call : Nat} (h : s.Placed call) (id : Nat) (frame : HostFrame) :
    (s.deliver id frame).Placed call := by
  unfold System.deliver
  split
  · exact h
  · rename_i session hsession
    split
    · refine h.setSession hsession (fun hcall => hcall) rfl fun _ hholds halive => ?_
      exact (hholds halive).imp_left (List.mem_append_left _)
    · exact h

structure Served (s : System) : Prop where
  requests : s.linkUp = true → Requests s
  placed : s.linkUp = true → ∀ call ∈ s.pending, s.Placed call

section

variable (h : Served s)

include h

theorem Served.call : Served { s with
    nextCall := s.nextCall + 1
    pending := s.pending ++ [s.nextCall]
    toRoom := s.toRoom ++ [s.nextCall] } := by
  refine ⟨h.requests, fun hup call hcall => ?_⟩
  obtain hcall | hcall := List.mem_append.mp hcall
  · exact (h.placed hup call hcall).of_queues rfl (List.mem_append_left _) id fun _ => id
  · exact .inl (.inl (List.mem_append_right _ hcall))

theorem Served.clientMessage {call : Nat} {rest : List Nat} (hroom : s.toRoom = call :: rest)
    (hsound : Sound s .clientMessage) : Served ({ s with toRoom := rest }.clientMessage call) := by
  have hrest : ∀ other ∈ s.toRoom, other ≠ call → other ∈ rest := by
    intro other hother hne
    rw [hroom] at hother
    exact (List.mem_cons.mp hother).resolve_left hne
  have hsockets : { s with toRoom := rest }.sockets = s.sockets := rfl
  simp only [Sound, sound] at hsound
  unfold System.clientMessage
  rw [hsockets]
  split
  · exact ⟨h.requests, fun _ other _ =>
      .inl (settled_of_relay (List.mem_append_right _ (List.mem_singleton.mpr rfl)) other)⟩
  · rename_i host hhost
    simp only [hhost, Option.any_eq_true, Bool.not_eq_true'] at hsound
    obtain ⟨session, hsession, hcurrent⟩ := hsound
    refine ⟨fun hup => ?_, fun hup other hother => ?_⟩
    all_goals rw [deliver_linkUp] at hup
    · have hrequests : Requests { s with toRoom := rest } := h.requests hup
      exact hrequests.deliver _ _
    rw [deliver_pending] at hother
    by_cases heq : other = call
    · rw [heq]
      exact placed_deliver hsession hcurrent
    · refine Placed.deliver ?_ _ _
      exact (h.placed hup other hother).of_queues rfl (hrest other · heq) id fun _ => id

theorem Served.hostMessage (hlisted : Listed s) {id call : Nat} {rest : List Nat}
    (hsession : s.sessions id = some session)
    (hout : session.outbound = call :: rest) :
    Served ((s.setSession id { session with outbound := rest }).hostMessage id call) := by
  unfold System.hostMessage
  split
  · refine ⟨fun hup => (h.requests hup).setSession id (h.requests hup id session hsession),
      fun hup other hother => ?_⟩
    by_cases heq : other = call
    · rw [heq]
      exact .inl (settled_of_response (List.mem_append_right _ (List.mem_singleton.mpr rfl)))
    · have hplaced : (s.setSession id { session with outbound := rest }).Placed other :=
        (h.placed hup other hother).setSession hsession
          (fun hmem => (List.mem_cons.mp (hout ▸ hmem)).resolve_left heq) rfl
          fun _ hholds halive => hholds halive
      exact hplaced.of_queues rfl (fun hmem => hmem) (List.mem_append_left _)
        fun _ => List.mem_append_left _
  · rename_i hunlisted
    have hdown : ¬s.linkUp = true := fun hup => hunlisted (hlisted.client hup)
    refine ⟨fun hup => ?_, fun hup => ?_⟩
    all_goals
      rw [deliver_linkUp] at hup
      exact absurd hup hdown

theorem Served.hostReceives {id : Nat} {frame : HostFrame} {rest : List HostFrame}
    (hsession : s.sessions id = some session)
    (halive : session.alive = true) (hin : session.inbound = frame :: rest) :
    Served (s.setSession id ({ session with inbound := rest }.receive frame)) := by
  have hsub : ∀ other ∈ rest, other ∈ session.inbound := by
    intro other hother
    rw [hin]
    exact List.mem_cons_of_mem _ hother
  refine ⟨fun hup => (h.requests hup).setSession id fun other hother => ?_,
    fun hup other hother => ?_⟩
  · refine h.requests hup id session hsession other (hsub other ?_)
    cases frame <;> exact hother
  · obtain ⟨call, rfl⟩ := h.requests hup id session hsession frame (hin ▸ List.mem_cons_self)
    refine (h.placed hup other hother).setSession hsession (fun hcall => hcall) rfl
      fun _ hholds _ => ?_
    obtain hmem | hmem := hholds halive
    · obtain heq | hmem := List.mem_cons.mp (hin ▸ hmem)
      · cases heq
        exact .inr (List.mem_append_right _ (List.mem_singleton.mpr rfl))
      · exact .inl hmem
    · exact .inr (List.mem_append_left _ hmem)

theorem Served.answer {id call : Nat} (hsession : s.sessions id = some session) :
    Served (s.setSession id { session with
      conn := session.conn.filter (· != call)
      outbound := session.outbound ++ [call] }) := by
  refine ⟨fun hup => (h.requests hup).setSession id (h.requests hup id session hsession),
    fun hup other hother => ?_⟩
  by_cases heq : other = call
  · rw [heq]
    exact .inl (settled_of_outbound (setSession_self ..)
      (List.mem_append_right _ (List.mem_singleton.mpr rfl)))
  · refine (h.placed hup other hother).setSession hsession (List.mem_append_left _) rfl
      fun _ hholds halive => (hholds halive).imp_right fun hmem => ?_
    exact List.mem_filter.mpr ⟨hmem, by simpa using heq⟩

theorem Served.linkResponse {call : Nat} {rest : List LinkFrame}
    (hclient : s.toClient = .response call :: rest) :
    Served { s with pending := s.pending.filter (· != call), toClient := rest } := by
  refine ⟨h.requests, fun hup other hother => ?_⟩
  obtain ⟨hmem, hne⟩ := List.mem_filter.mp hother
  have hne : other ≠ call := by simpa using hne
  refine (h.placed hup other hmem).of_queues rfl (fun hmem => hmem) (fun hmem => ?_)
    fun code hmem => ?_
  · rw [hclient] at hmem
    exact (List.mem_cons.mp hmem).resolve_left fun heq => hne (LinkFrame.response.inj heq)
  · rw [hclient] at hmem
    exact (List.mem_cons.mp hmem).resolve_left nofun

theorem Served.hostJoin (hlisted : Listed s) (hsound : Sound s .hostJoin) : Served s.hostJoin := by
  refine ⟨fun hup id session hsession => ?_, fun hup call hcall => .inl ?_⟩
  · simp only [System.hostJoin] at hsession
    split at hsession
    · cases hsession
      simp
    · obtain ⟨found, hfound, rfl⟩ := Option.map_eq_some_iff.mp hsession
      exact h.requests hup id found hfound
  · obtain hroom | ⟨id, session, hsession, hout⟩ | hclient :=
      settled_of_allSettled hsound hup call hcall
    · exact .inl hroom
    · have hne : id ≠ s.nextSocket := Nat.ne_of_lt (hlisted.fresh id session hsession)
      have hkept : s.hostJoin.sessions id = some { session with superseded := true } := by
        simp [System.hostJoin, hne, hsession]
      exact settled_of_outbound hkept hout
    · exact .inr (.inr hclient)

theorem Served.hostDies {id kept : Nat} (hsession : s.sessions id = some session)
    (hsound : Sound s (.hostDies id kept)) :
    Served (s.setSession id { session with
      alive := false, inbound := [], conn := [], outbound := session.outbound.take kept }) := by
  refine ⟨fun hup => (h.requests hup).setSession id (by simp), fun hup call hcall => ?_⟩
  simp only [Sound, sound, hsession, Bool.or_eq_true, Bool.not_eq_true'] at hsound
  obtain hcurrent | hkept := hsound
  · exact .inr ⟨id, _, setSession_self .., hcurrent, nofun⟩
  · refine (h.placed hup call hcall).setSession hsession (fun hmem => ?_) rfl fun _ _ => nofun
    rw [← List.take_append_drop kept session.outbound] at hmem
    refine (List.mem_append.mp hmem).resolve_right fun hdrop => ?_
    have hnot : call ∉ s.pending := by simpa using List.all_eq_true.mp hkept call hdrop
    exact hnot hcall

theorem Served.hostClose (hlisted : Listed s) {id : Nat} (hsession : s.sessions id = some session)
    (hempty : session.outbound = [])
    (hsound : Sound s (.hostClose id)) : Served (s.hostClose id) := by
  have hrequests : s.linkUp = true →
      Requests { s with sessions := Function.update s.sessions id none } :=
    fun hup other found hfound => h.requests hup other found (erase_eq_some.mp hfound).2
  have hsettled : ∀ call, s.Settled call →
      Settled { s with sessions := Function.update s.sessions id none } call := by
    intro call hcall
    obtain hroom | ⟨other, found, hfound, hout⟩ | hclient := hcall
    · exact .inl hroom
    · refine settled_of_outbound (erase_eq_some.mpr ⟨?_, hfound⟩) hout
      rintro rfl
      cases hsession.symm.trans hfound
      exact absurd (hempty ▸ hout) List.not_mem_nil
    · exact .inr (.inr hclient)
  simp only [Sound, sound, Bool.or_eq_true, Option.isNone_iff_eq_none] at hsound
  unfold System.hostClose
  dsimp only
  split
  · rename_i hlive
    refine ⟨hrequests, fun hup call hcall => ?_⟩
    obtain (hsuperseded | hnone) | hall := hsound
    · rw [hsession, Option.any_some] at hsuperseded
      obtain hcall | ⟨other, found, hfound, hcurrent, hholds⟩ := h.placed hup call hcall
      · exact .inl (hsettled call hcall)
      · refine .inr ⟨other, found, erase_eq_some.mpr ⟨?_, hfound⟩, hcurrent, hholds⟩
        rintro rfl
        cases hsession.symm.trans hfound
        exact absurd (hsuperseded.symm.trans hcurrent) nofun
    · rw [hnone] at hlive
      cases hlive
    · exact .inl (hsettled call (settled_of_allSettled hall hup call hcall))
  · split
    · exact ⟨hrequests, fun _ call _ => .inl
        (settled_of_relay (List.mem_append_right _ (List.mem_singleton.mpr rfl)) call)⟩
    · rename_i hunlisted
      exact ⟨hrequests, fun hup => absurd (hlisted.client hup) hunlisted⟩

theorem Served.step (hlisted : Listed s) {a : Action} (hsound : Sound s a) {s' : System}
    (hstep : s.step a = some s') : Served s' := by
  cases a with
  | call =>
      simp only [System.step] at hstep
      split at hstep <;> cases hstep
      exact h.call
  | clientMessage =>
      simp only [System.step] at hstep
      split at hstep <;> cases hstep
      rename_i hroom
      exact h.clientMessage hroom hsound
  | hostMessage id =>
      simp only [System.step] at hstep
      split at hstep
      · cases hstep
      · rename_i hsession
        split at hstep <;> cases hstep
        rename_i hout
        exact h.hostMessage hlisted hsession hout
  | hostReceives id =>
      simp only [System.step] at hstep
      split at hstep
      · cases hstep
      · rename_i hsession
        split at hstep <;> cases hstep
        rename_i halive hin
        exact h.hostReceives hsession halive hin
  | answer id call =>
      simp only [System.step] at hstep
      split at hstep
      · cases hstep
      · rename_i hsession
        split at hstep <;> cases hstep
        exact h.answer hsession
  | linkReceives =>
      simp only [System.step] at hstep
      split at hstep <;> cases hstep
      · rename_i hclient
        exact h.linkResponse hclient
      · exact ⟨nofun, nofun⟩
  | linkDrops =>
      simp only [System.step] at hstep
      split at hstep <;> cases hstep
      exact ⟨nofun, nofun⟩
  | clientClose =>
      simp only [System.step] at hstep
      split at hstep <;> cases hstep
      rename_i hdown
      simp only [Bool.and_eq_true, Bool.not_eq_true'] at hdown
      have hclosed : s.clientClose.linkUp = s.linkUp := by
        unfold System.clientClose
        dsimp only
        split
        · rfl
        · exact deliver_linkUp _ _ _
      refine ⟨fun hup => ?_, fun hup => ?_⟩
      all_goals
        rw [hclosed, hdown.1] at hup
        cases hup
  | hostJoin =>
      cases hstep
      exact h.hostJoin hlisted hsound
  | hostDies id kept =>
      simp only [System.step] at hstep
      split at hstep
      · cases hstep
      · rename_i hsession
        split at hstep <;> cases hstep
        exact h.hostDies hsession hsound
  | hostClose id =>
      simp only [System.step] at hstep
      split at hstep
      · cases hstep
      · rename_i session hsession
        split at hstep <;> cases hstep
        rename_i hdead
        simp only [Bool.and_eq_true, List.isEmpty_iff] at hdead
        exact h.hostClose hlisted hsession hdead.2 hsound
  | pong id =>
      simp only [System.step] at hstep
      split at hstep
      · cases hstep
      · rename_i session hsession
        split at hstep <;> cases hstep
        refine ⟨fun hup => (h.requests hup).setSession id (h.requests hup id session hsession),
          fun hup call hcall => ?_⟩
        exact (h.placed hup call hcall).setSession hsession (fun hmem => hmem) rfl
          fun _ hholds => hholds
  | tick ms =>
      cases hstep
      exact ⟨h.requests, h.placed⟩

end

/-! ## The steps that are left -/

theorem CanEnd.of_step {a : Action} {s' : System} {call : Nat} (hstep : s.step a = some s')
    (ha : a.progress = true) (h : s'.CanEnd call) : s.CanEnd call := by
  obtain ⟨last, hsteps, hcall⟩ := h
  exact ⟨last, Machine.Steps.head ha hstep hsteps, hcall⟩

theorem canEnd_of_not_mem {call : Nat} (h : call ∉ s.pending) : s.CanEnd call :=
  ⟨s, Machine.Steps.refl s, h⟩

theorem canEnd_of_client {call : Nat} {frames : List LinkFrame} (hup : s.linkUp = true)
    (hclient : s.toClient = frames)
    (h : .response call ∈ frames ∨ ∃ code, .relay code ∈ frames) : s.CanEnd call := by
  induction frames generalizing s with
  | nil => simp at h
  | cons frame rest ih =>
      cases frame with
      | relay code =>
          refine CanEnd.of_step (a := .linkReceives) ?_ rfl
            (canEnd_of_not_mem (s := { s with toClient := rest }.dropLink) List.not_mem_nil)
          simp [step, hup, hclient]
      | response answered =>
          have hstep : s.step .linkReceives = some { s with
              pending := s.pending.filter (· != answered), toClient := rest } := by
            simp [step, hup, hclient]
          refine CanEnd.of_step hstep rfl ?_
          by_cases heq : answered = call
          · refine canEnd_of_not_mem ?_
            simp [heq]
          · refine ih hup rfl ?_
            obtain h | ⟨code, h⟩ := h
            · refine .inl ((List.mem_cons.mp h).resolve_left fun h => heq ?_)
              exact (LinkFrame.response.inj h).symm
            · exact .inr ⟨code, (List.mem_cons.mp h).resolve_left nofun⟩

theorem step_hostMessage (hclient : s.clientListed = true) {id call : Nat} {rest : List Nat}
    (hsession : s.sessions id = some session)
    (hout : session.outbound = call :: rest) :
    s.step (.hostMessage id) = some { s.setSession id { session with outbound := rest } with
      toClient := s.toClient ++ [.response call] } := by
  simp [step, hsession, hout, hostMessage, setSession, hclient]

theorem canEnd_of_outbound {id call : Nat} {calls : List Nat} (hup : s.linkUp = true)
    (hlisted : s.clientListed = true)
    (hsession : s.sessions id = some session) (hout : session.outbound = calls)
    (h : call ∈ calls) : s.CanEnd call := by
  induction calls generalizing s session with
  | nil => cases h
  | cons answered rest ih =>
      refine CanEnd.of_step (step_hostMessage hlisted hsession hout) rfl ?_
      by_cases heq : answered = call
      · exact canEnd_of_client hup rfl (.inl (by simp [heq]))
      · exact ih hup hlisted (setSession_self ..) rfl
          ((List.mem_cons.mp h).resolve_left fun h => heq h.symm)

theorem canEnd_of_conn {id call : Nat} (hup : s.linkUp = true) (hlisted : s.clientListed = true)
    (hsession : s.sessions id = some session)
    (halive : session.alive = true) (h : call ∈ session.conn) : s.CanEnd call := by
  have hstep : s.step (.answer id call) = some (s.setSession id { session with
      conn := session.conn.filter (· != call), outbound := session.outbound ++ [call] }) := by
    simp [step, hsession, halive, h]
  exact CanEnd.of_step hstep rfl
    (canEnd_of_outbound hup hlisted (setSession_self ..) rfl (by simp))

theorem canEnd_of_inbound {id call : Nat} {frames : List HostFrame} (hup : s.linkUp = true)
    (hlisted : s.clientListed = true)
    (hsession : s.sessions id = some session) (halive : session.alive = true)
    (hin : session.inbound = frames) (h : .request call ∈ frames) : s.CanEnd call := by
  induction frames generalizing s session with
  | nil => cases h
  | cons frame rest ih =>
      have hstep : s.step (.hostReceives id) =
          some (s.setSession id ({ session with inbound := rest }.receive frame)) := by
        simp [step, hsession, halive, hin]
      refine CanEnd.of_step hstep rfl ?_
      obtain heq | hmem := List.mem_cons.mp h
      · subst heq
        exact canEnd_of_conn hup hlisted (setSession_self ..) halive (by simp [HostSession.receive])
      · cases frame <;> exact ih hup hlisted (setSession_self ..) halive rfl hmem

theorem liveHost_tick (hlisted : Listed s) (exclude : Option Nat) :
    liveHost s.sockets (s.now + (hostLivenessMs + 1)) exclude = none := by
  cases hlive : liveHost s.sockets (s.now + (hostLivenessMs + 1)) exclude with
  | none => rfl
  | some host =>
      obtain ⟨hmem, -, -, hwindow⟩ := liveHost_spec hlive
      obtain ⟨id, -, hhost⟩ := List.mem_filterMap.mp hmem
      obtain ⟨session, hsession, rfl⟩ := Option.map_eq_some_iff.mp hhost
      obtain ⟨hjoined, hpong⟩ := hlisted.seen id session hsession
      simp only [RoomSocket.lastSeenAt] at hwindow
      omega

theorem canEnd_of_room (h : Listed s) {call : Nat} (hup : s.linkUp = true)
    (hroom : call ∈ s.toRoom) : s.CanEnd call := by
  refine CanEnd.of_step (a := .tick (hostLivenessMs + 1)) rfl rfl ?_
  obtain ⟨first, rest, hcalls⟩ := List.exists_cons_of_ne_nil (List.ne_nil_of_mem hroom)
  have hnone : liveHost { s with now := s.now + (hostLivenessMs + 1), toRoom := rest }.sockets
      (s.now + (hostLivenessMs + 1)) none = none := liveHost_tick h none
  have hstep : { s with now := s.now + (hostLivenessMs + 1) }.step .clientMessage = some { s with
      now := s.now + (hostLivenessMs + 1)
      toRoom := rest
      toClient := s.toClient ++ [LinkFrame.relay "host_offline"] } := by
    simp only [step, hcalls, clientMessage, hnone]
  exact CanEnd.of_step hstep rfl (canEnd_of_client hup rfl
    (.inr ⟨_, List.mem_append_right _ (List.mem_singleton.mpr rfl)⟩))

theorem canEnd_of_dead (h : Listed s) {id call : Nat} {calls : List Nat} (hup : s.linkUp = true)
    (hsession : s.sessions id = some session)
    (hdead : session.alive = false) (hout : session.outbound = calls) : s.CanEnd call := by
  induction calls generalizing s session with
  | cons answered rest ih =>
      have hstep := step_hostMessage (h.client hup) hsession hout
      exact CanEnd.of_step hstep rfl (ih (h.step hstep) hup (setSession_self ..) hdead rfl)
  | nil =>
      refine CanEnd.of_step (a := .tick (hostLivenessMs + 1)) rfl rfl ?_
      have hnone : liveHost { s with now := s.now + (hostLivenessMs + 1) }.sockets
          (s.now + (hostLivenessMs + 1)) (some id) = none := liveHost_tick h (some id)
      have hstep : { s with now := s.now + (hostLivenessMs + 1) }.step (.hostClose id) = some {
          s with
          now := s.now + (hostLivenessMs + 1)
          sessions := Function.update s.sessions id none
          toClient := s.toClient ++ [LinkFrame.relay "host_closed"] } := by
        simp [step, hsession, hdead, hout, hostClose, h.client hup]
        exact hnone
      exact CanEnd.of_step hstep rfl (canEnd_of_client hup rfl
        (.inr ⟨_, List.mem_append_right _ (List.mem_singleton.mpr rfl)⟩))

theorem canEnd_of_placed (h : Listed s) {call : Nat} (hup : s.linkUp = true)
    (hplaced : s.Placed call) : s.CanEnd call := by
  obtain (hroom | ⟨id, session, hsession, hout⟩ | hclient) | ⟨id, session, hsession, -, hholds⟩ :=
    hplaced
  · exact canEnd_of_room h hup hroom
  · exact canEnd_of_outbound hup (h.client hup) hsession rfl hout
  · exact canEnd_of_client hup rfl hclient
  · cases halive : session.alive with
    | false => exact canEnd_of_dead h hup hsession halive rfl
    | true =>
        obtain hin | hconn := hholds halive
        · exact canEnd_of_inbound hup (h.client hup) hsession halive rfl hin
        · exact canEnd_of_conn hup (h.client hup) hsession halive hconn

/-- **No call is stranded.** A call that is neither answered nor failed is on its way, with the
current host session, or about to be answered or failed, and some of the steps that are left end it.
This holds while no host joins, and no host's close is passed over for another host, when a call is
with a session. -/
theorem calls_not_stranded (h : machine.ReachableWhen Sound s) (hup : s.linkUp = true) :
    ∀ call ∈ s.pending, s.Placed call ∧ s.CanEnd call := by
  have hinv : Listed s ∧ Served s := by
    refine h.invariant (I := fun s => Listed s ∧ Served s) ?_ ?_
    · rintro _ rfl
      refine ⟨⟨nofun, nofun, fun _ => rfl⟩, fun _ => nofun, fun _ call hcall => ?_⟩
      exact absurd hcall List.not_mem_nil
    · rintro s a s' ⟨hlisted, hserved⟩ hsound hstep
      exact ⟨hlisted.step hstep, hserved.step hlisted hsound hstep⟩
  intro call hcall
  have hplaced := hinv.2.placed hup call hcall
  exact ⟨hplaced, canEnd_of_placed hinv.1 hup hplaced⟩

/-- The host's socket dies with the call in its session, and the room tells the link. -/
theorem call_failed_on_close :
    ∃ s : System, 0 ∈ s.pending ∧ s.toClient = [.relay "host_closed"] ∧ s.Placed 0 ∧
      s.CanEnd 0 := by
  obtain ⟨s, hsteps, hs⟩ := Machine.exists_steps_of_runWhen machine Sound (s := start)
    [.hostJoin, .call, .clientMessage, .hostReceives 0, .hostDies 0 0, .hostClose 0]
    (p := fun s => s.linkUp && s.pending.contains 0 && s.toClient == [.relay "host_closed"])
    (by decide)
  simp only [Bool.and_eq_true, List.contains_iff_mem, beq_iff_eq] at hs
  exact ⟨s, hs.1.2, hs.2, calls_not_stranded ⟨_, rfl, hsteps⟩ hs.1.1 0 hs.1.2⟩

/-- Nothing is under way, and every listed session is alive and idle. -/
structure Quiet (s : System) : Prop where
  room : s.toRoom = []
  client : s.toClient = []
  idle : ∀ id session, s.sessions id = some session →
    session.alive = true ∧ session.inbound = [] ∧ session.conn = [] ∧ session.outbound = []

theorem Quiet.step (h : Quiet s) {a : Action} (ha : a.progress = true) {s' : System}
    (hstep : s.step a = some s') : Quiet s' ∧ s'.pending = s.pending := by
  cases a with
  | clientMessage => simp [System.step, h.room] at hstep
  | hostMessage id | hostReceives id | answer id call | hostClose id =>
      cases hsession : s.sessions id with
      | none => simp [System.step, hsession] at hstep
      | some session => simp [System.step, hsession, h.idle id session hsession] at hstep
  | linkReceives => simp [System.step, h.client] at hstep
  | tick ms =>
      cases hstep
      exact ⟨⟨h.room, h.client, h.idle⟩, rfl⟩
  | call | linkDrops | clientClose | hostJoin | hostDies | pong => cases ha

theorem Quiet.not_canEnd (h : Quiet s) {call : Nat} (hcall : call ∈ s.pending) :
    ¬s.CanEnd call := by
  rintro ⟨last, hsteps, hlast⟩
  have hkept : Quiet last ∧ last.pending = s.pending :=
    hsteps.invariant (I := fun other => Quiet other ∧ other.pending = s.pending)
      (fun other a next hother ha hstep => by
        obtain ⟨hquiet, hpending⟩ := hother.1.step ha hstep
        exact ⟨hquiet, hpending.trans hother.2⟩) ⟨h, rfl⟩
  exact hlast (hkept.2 ▸ hcall)

theorem Quiet.not_placed (h : Quiet s) (call : Nat) : ¬s.Placed call := by
  rintro ((hroom | ⟨id, session, hsession, hout⟩ | hclient | ⟨code, hclient⟩) |
    ⟨id, session, hsession, -, hholds⟩)
  · simp [h.room] at hroom
  · simp [(h.idle id session hsession).2.2.2] at hout
  · simp [h.client] at hclient
  · simp [h.client] at hclient
  · obtain ⟨halive, hin, hconn, -⟩ := h.idle id session hsession
    obtain hmem | hmem := hholds halive
    · simp [hin] at hmem
    · simp [hconn] at hmem

/-- The host's successor joins before the room handles the close: the room tells nobody, and the
successor has no connection of the link. -/
theorem successor_strands_call :
    ∃ s : System, machine.Reachable s ∧ s.linkUp = true ∧ 0 ∈ s.pending ∧ ¬s.Placed 0 ∧
      ¬s.CanEnd 0 := by
  obtain ⟨s, hsteps, hs⟩ := Machine.exists_steps_of_runWhen machine Machine.anyStep (s := start)
    [.hostJoin, .call, .clientMessage, .hostReceives 0, .hostDies 0 0, .hostJoin, .hostClose 0]
    (p := fun s => s.linkUp && s.pending.contains 0 && s.toRoom.isEmpty && s.toClient.isEmpty
      && (List.range s.nextSocket).all fun id => (s.sessions id).all fun session =>
        session.alive && session.inbound.isEmpty && session.conn.isEmpty
          && session.outbound.isEmpty) (by decide)
  have hreachable : machine.Reachable s := ⟨_, rfl, hsteps⟩
  have hlisted : Listed s := by
    refine hreachable.invariant (I := Listed) ?_ fun s a s' hlisted _ hstep => hlisted.step hstep
    rintro _ rfl
    exact ⟨nofun, nofun, fun _ => rfl⟩
  simp only [Bool.and_eq_true, List.contains_iff_mem, List.isEmpty_iff, List.all_eq_true,
    List.mem_range, Option.all_eq_true] at hs
  obtain ⟨⟨⟨⟨hup, hcall⟩, hroom⟩, hclient⟩, hidle⟩ := hs
  have hquiet : Quiet s := by
    refine ⟨hroom, hclient, fun id session hsession => ?_⟩
    obtain ⟨⟨⟨halive, hin⟩, hconn⟩, hout⟩ :=
      hidle id (hlisted.fresh id session hsession) session hsession
    exact ⟨halive, hin, hconn, hout⟩
  exact ⟨s, hreachable, hup, hcall, hquiet.not_placed 0, hquiet.not_canEnd hcall⟩

end System

end Zeron.Relay
