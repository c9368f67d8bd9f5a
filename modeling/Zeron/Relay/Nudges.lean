import Zeron.Lib.Machine
import Zeron.Relay.Room
import Mathlib.Data.List.Sort

/-!
# Nudges

The durable queue of `edge/src/device-room.ts`: the routes `/ws` and `/nudge`, `replayNudges` and
`deliver`, over every run of a device's room. A host can die without a close: its socket stays
listed, and what is sent to it is lost. The trace says for each frame whether its target was a host
that was still there.
-/

namespace Zeron.Relay

open Zeron.Lib
open Zeron.Lib.Utf8 (encode)
open Zeron.Wire (EdgeLibraries members)
open Zeron.Wire.FlatJson (libraries)

def nudgeKind : String := "nudge"

def nudgeMaxPending : Nat := 256

/-- `CHAT_ID_RE`. -/
def isChatId (chatId : String) : Bool :=
  1 ≤ chatId.length && chatId.length ≤ 64 &&
    chatId.toList.all fun c => c.isAlphanum || c == '_' || c == '-'

def nudgeFrame (lib : EdgeLibraries) (chatId : String) : Bytes :=
  lib.encodeDeviceFrame (members (text chatId) (text nudgeKind) none none)
    (encode (lib.stringify [("chatId", .string chatId)]))

/-- `webSocketClose`. The runtime still lists `ws`. -/
def webSocketClose (lib : EdgeLibraries) (sockets : List RoomSocket) (now : Nat)
    (ws : RoomSocket) : List Effect :=
  match ws.role with
  | .client =>
      match liveHost sockets now none with
      | none => []
      | some host =>
          [.send host.id (lib.encodeDeviceFrame
            (members (text "") (text relayKind) none (text ws.connId))
            (relayError lib "client_closed"))]
  | .host =>
      if (liveHost sockets now (some ws.id)).isSome then []
      else
        (sockets.filter fun socket => socket.role = .client).map fun client =>
          .send client.id (lib.encodeDeviceFrame (members (text "") (text relayKind) none none)
            (relayError lib "host_closed"))

/-! ## The queue -/

/-- A row of `pending_nudges`. -/
structure PendingNudge where
  chatId : String
  queuedAt : Nat

namespace PendingNudge

variable (rows : List PendingNudge)

/-- `INSERT … ON CONFLICT(chat_id) DO UPDATE`. -/
def upsert (chatId : String) (now : Nat) : List PendingNudge :=
  if rows.any fun row => row.chatId == chatId then
    rows.map fun row => if row.chatId = chatId then { row with queuedAt := now } else row
  else rows ++ [{ chatId, queuedAt := now }]

/-- `SELECT … ORDER BY queued_at DESC LIMIT ?`. -/
def newest : List PendingNudge :=
  (rows.insertionSort fun a b => b.queuedAt ≤ a.queuedAt).take nudgeMaxPending

/-- `DELETE … WHERE chat_id NOT IN newest`. -/
def trim : List PendingNudge :=
  rows.filter fun row => (newest rows).any fun kept => kept.chatId == row.chatId

/-- `SELECT … ORDER BY queued_at ASC`. -/
def oldestFirst : List PendingNudge := rows.insertionSort fun a b => a.queuedAt ≤ b.queuedAt

end PendingNudge

/-! ## The room -/

inductive RoomEvent where
  | accepted (chatId : String)
  | sent (target : Nat) (frame : Bytes) (aliveHost : Bool)

structure DeviceRoom where
  owner : Option String
  sockets : List RoomSocket
  pendingNudges : List PendingNudge
  /-- The sockets that deliver nothing any more: dead, or closed by the room. -/
  gone : List Nat
  /-- The last event first. -/
  trace : List RoomEvent

inductive Reply where
  | unauthenticated
  | forbidden (status : Nat)
  | badChatId
  | delivered
  | queued
  | upgraded

namespace DeviceRoom

def empty : DeviceRoom :=
  { owner := none, sockets := [], pendingNudges := [], gone := [], trace := [] }

variable (lib : EdgeLibraries) (room : DeviceRoom)

def find (id : Nat) : Option RoomSocket := room.sockets.find? fun socket => socket.id = id

def aliveHost (id : Nat) : Bool :=
  (room.sockets.any fun socket => socket.id = id && socket.role = .host) && !room.gone.contains id

def isQueued (chatId : String) : Prop := chatId ∈ room.pendingNudges.map (·.chatId)

instance (chatId : String) : Decidable (room.isQueued chatId) :=
  inferInstanceAs (Decidable (chatId ∈ room.pendingNudges.map (·.chatId)))

def perform : Effect → DeviceRoom
  | .send target frame =>
      { room with trace := .sent target frame (room.aliveHost target) :: room.trace }
  | .close target _ => { room with gone := target :: room.gone }

def performAll (effects : List Effect) : DeviceRoom := effects.foldl perform room

def replayNudges (host : Nat) : DeviceRoom :=
  let rows := PendingNudge.oldestFirst room.pendingNudges
  { room.performAll (rows.map fun row => .send host (nudgeFrame lib row.chatId)) with
    pendingNudges := [] }

/-- `stale.close` for every host that is listed. -/
def supersede : List Effect :=
  (room.sockets.filter fun socket => socket.role = .host).map fun stale => .close stale.id 4409

/-- The user may join as host, or as client of the room's owner. -/
def admits (role : Role) (userId : String) : Bool :=
  userId != "" && (room.owner == some userId || (room.owner == none && role == .host))

/-- The accepted socket; one that died before its upgrade was answered is not `alive`. -/
def accept (role : Role) (userId connId : String) (id now : Nat) (alive : Bool) : DeviceRoom :=
  { room with
    owner := some userId
    sockets := room.sockets ++ [{ id, role, connId, joinedAt := now, pongAt := 0 }]
    gone := if alive then room.gone else id :: room.gone }

/-- `fetch` on `/ws`. -/
def fetchWs (role : Role) (userId connId : String) (id now : Nat) (alive : Bool) :
    Reply × DeviceRoom :=
  if userId = "" then (.unauthenticated, room)
  else if room.admits role userId then
    match role with
    | .host =>
        let superseded := room.performAll room.supersede
        (.upgraded, (superseded.accept .host userId connId id now alive).replayNudges lib id)
    | .client => (.upgraded, room.accept .client userId connId id now alive)
  else (.forbidden 403, room)

/-- `fetch` on `/nudge`. -/
def fetchNudge (userId : String) (chatId : Option String) (now : Nat) : Reply × DeviceRoom :=
  if userId = "" then (.unauthenticated, room)
  else if room.owner ≠ some userId then
    (.forbidden (if room.owner.isSome then 403 else 404), room)
  else
    match chatId.filter isChatId with
    | none => (.badChatId, room)
    | some chatId =>
        let accepted := { room with trace := .accepted chatId :: room.trace }
        match liveHost room.sockets now none with
        | some host => (.delivered, accepted.perform (.send host.id (nudgeFrame lib chatId)))
        | none =>
            let rows := PendingNudge.upsert room.pendingNudges chatId now
            (.queued, { accepted with pendingNudges := PendingNudge.trim rows })

end DeviceRoom

inductive RoomAction where
  | join (role : Role) (userId connId : String) (id now : Nat) (alive : Bool)
  | pong (id now : Nat)
  /-- The network behind the socket is gone, and no close is seen. -/
  | die (id : Nat)
  | close (id now : Nat)
  | message (id : Nat) (bytes : Bytes) (now : Nat)
  | nudge (userId : String) (chatId : Option String) (now : Nat)

namespace DeviceRoom

variable (lib : EdgeLibraries) (room : DeviceRoom)

def step : RoomAction → Option DeviceRoom
  | .join role userId connId id now alive =>
      if (room.find id).isSome || room.gone.contains id then none
      else some (room.fetchWs lib role userId connId id now alive).2
  | .pong id now =>
      if room.gone.contains id then none
      else
        some { room with
          sockets := room.sockets.map fun socket =>
            if socket.id = id then { socket with pongAt := now } else socket }
  | .die id => (room.find id).map fun _ => { room with gone := id :: room.gone }
  | .close id now =>
      (room.find id).map fun ws =>
        let told := room.performAll (webSocketClose lib room.sockets now ws)
        { told with sockets := told.sockets.filter fun socket => socket.id ≠ id }
  | .message id bytes now =>
      (room.find id).map fun ws => room.performAll (webSocketMessage lib room.sockets now ws bytes)
  | .nudge userId chatId now => some (room.fetchNudge lib userId chatId now).2

end DeviceRoom

def deviceRoom (lib : EdgeLibraries) : Machine DeviceRoom RoomAction where
  init := (· = .empty)
  step := DeviceRoom.step lib

namespace DeviceRoom

/-- A nudge that is queued leaves at most as many chats outstanding as the queue has room for. -/
def WithinCap (room : DeviceRoom) : RoomAction → Prop
  | .nudge userId (some chatId) now =>
      room.owner = some userId → isChatId chatId = true → liveHost room.sockets now none = none →
        (PendingNudge.upsert room.pendingNudges chatId now).length ≤ nudgeMaxPending
  | _ => True

/-- A nudge that finds a live host finds one that is there, or its chat is queued already; a host
that joins while nudges are queued is there. -/
def Intact (room : DeviceRoom) : RoomAction → Prop
  | .nudge userId (some chatId) now =>
      room.owner = some userId → isChatId chatId = true →
        ∀ host ∈ liveHost room.sockets now none, room.aliveHost host.id = true ∨ room.isQueued chatId
  | .join .host userId _ _ _ alive =>
      room.admits .host userId = true → room.pendingNudges = [] ∨ alive = true
  | _ => True

/-- Every accepted nudge was followed by a nudge frame for its chat to a host that was there, or its
chat is `queued`. -/
def Answered (lib : EdgeLibraries) (trace : List RoomEvent) (queued : String → Prop) : Prop :=
  ∀ later chatId earlier, trace = later ++ .accepted chatId :: earlier →
    (∃ target, .sent target (nudgeFrame lib chatId) true ∈ later) ∨ queued chatId

end DeviceRoom

/-! ## The queue keeps what fits -/

namespace PendingNudge

variable {rows : List PendingNudge}

theorem mem_newest (hcap : rows.length ≤ nudgeMaxPending) {row : PendingNudge} (h : row ∈ rows) :
    row ∈ newest rows := by
  have hperm := List.perm_insertionSort (fun a b : PendingNudge => b.queuedAt ≤ a.queuedAt) rows
  rw [newest, List.take_of_length_le (by rw [hperm.length_eq]; exact hcap)]
  exact hperm.mem_iff.mpr h

theorem trim_eq (hcap : rows.length ≤ nudgeMaxPending) : trim rows = rows := by
  apply List.filter_eq_self.mpr
  intro row hrow
  exact List.any_eq_true.mpr ⟨row, mem_newest hcap hrow, beq_self_eq_true _⟩

theorem mem_oldestFirst {row : PendingNudge} : row ∈ oldestFirst rows ↔ row ∈ rows :=
  (List.perm_insertionSort _ rows).mem_iff

theorem chatIds_upsert (rows : List PendingNudge) (chatId : String) (now : Nat) (other : String) :
    other ∈ (upsert rows chatId now).map (·.chatId) ↔
      other ∈ rows.map (·.chatId) ∨ other = chatId := by
  unfold upsert
  split_ifs with hany
  · have hkeys : (rows.map fun row =>
        if row.chatId = chatId then { row with queuedAt := now } else row).map (·.chatId) =
          rows.map (·.chatId) := by
      rw [List.map_map]
      apply List.map_congr_left
      intro row _
      simp only [Function.comp_apply]
      split_ifs <;> rfl
    rw [hkeys]
    constructor
    · exact Or.inl
    · rintro (hmem | rfl)
      · exact hmem
      · obtain ⟨row, hrow, heq⟩ := List.any_eq_true.mp hany
        exact List.mem_map.mpr ⟨row, hrow, by simpa using heq⟩
  · simp

end PendingNudge

/-! ## What the trace shows -/

namespace DeviceRoom

variable {lib : EdgeLibraries} {trace : List RoomEvent} {queued queued' : String → Prop}

theorem Answered.mono (h : Answered lib trace queued) (hle : ∀ c, queued c → queued' c) :
    Answered lib trace queued' := by
  intro later chatId earlier htrace
  exact (h later chatId earlier htrace).imp_right (hle chatId)

theorem Answered.accept (chatId : String) (h : Answered lib trace queued) :
    Answered lib (.accepted chatId :: trace) fun c => queued c ∨ c = chatId := by
  intro later c earlier htrace
  cases later with
  | nil =>
      obtain ⟨heq, -⟩ := List.cons.inj htrace
      cases heq
      exact .inr (.inr rfl)
  | cons event later =>
      obtain ⟨-, hrest⟩ := List.cons.inj htrace
      obtain ⟨target, hsent⟩ | hqueued := h later c earlier hrest
      · exact .inl ⟨target, List.mem_cons_of_mem _ hsent⟩
      · exact .inr (.inl hqueued)

theorem Answered.send {target : Nat} {frame : Bytes} {aliveHost : Bool}
    (h : Answered lib trace queued)
    (hle : ∀ c, queued c → queued' c ∨ (frame = nudgeFrame lib c ∧ aliveHost = true)) :
    Answered lib (.sent target frame aliveHost :: trace) queued' := by
  intro later c earlier htrace
  cases later with
  | nil =>
      obtain ⟨heq, -⟩ := List.cons.inj htrace
      cases heq
  | cons event later =>
      obtain ⟨heq, hrest⟩ := List.cons.inj htrace
      obtain ⟨other, hsent⟩ | hqueued := h later c earlier hrest
      · exact .inl ⟨other, List.mem_cons_of_mem _ hsent⟩
      · obtain hqueued' | ⟨rfl, rfl⟩ := hle c hqueued
        · exact .inr hqueued'
        · exact .inl ⟨target, heq ▸ List.mem_cons_self⟩

/-- The law of the room. -/
def Kept (lib : EdgeLibraries) (room : DeviceRoom) : Prop :=
  Answered lib room.trace room.isQueued

/-! ## What the effects leave alone -/

variable (room : DeviceRoom)

theorem perform_pendingNudges (effect : Effect) :
    (room.perform effect).pendingNudges = room.pendingNudges := by
  cases effect <;> rfl

theorem performAll_pendingNudges (effects : List Effect) :
    (room.performAll effects).pendingNudges = room.pendingNudges := by
  induction effects generalizing room with
  | nil => rfl
  | cons effect effects ih => exact (ih _).trans (room.perform_pendingNudges effect)

variable {room}

theorem answered_perform (effect : Effect) (h : Answered lib room.trace queued) :
    Answered lib (room.perform effect).trace queued := by
  cases effect with
  | send target frame => exact h.send fun _ hqueued => .inl hqueued
  | close target code => exact h

theorem answered_performAll (effects : List Effect) (h : Answered lib room.trace queued) :
    Answered lib (room.performAll effects).trace queued := by
  induction effects generalizing room with
  | nil => exact h
  | cons effect effects ih => exact ih (answered_perform effect h)

theorem kept_performAll (effects : List Effect) (h : Kept lib room) :
    Kept lib (room.performAll effects) := by
  unfold Kept isQueued at *
  rw [performAll_pendingNudges]
  exact answered_performAll effects h

/-! ## Replay -/

theorem aliveHost_perform_send (target : Nat) (frame : Bytes) (id : Nat) :
    (room.perform (.send target frame)).aliveHost id = room.aliveHost id := rfl

theorem answered_replay {host : Nat} (halive : room.aliveHost host = true)
    (rows : List PendingNudge)
    (h : Answered lib room.trace fun c => c ∈ rows.map (·.chatId)) :
    Answered lib (room.performAll (rows.map fun row =>
      .send host (nudgeFrame lib row.chatId))).trace fun _ => False := by
  induction rows generalizing room with
  | nil => exact h.mono fun c hc => by simp at hc
  | cons row rows ih =>
      change Answered lib ((room.perform (.send host (nudgeFrame lib row.chatId))).performAll _).trace _
      apply ih
      · rwa [aliveHost_perform_send]
      · apply h.send
        intro c hc
        rw [List.map_cons, List.mem_cons] at hc
        obtain rfl | hc := hc
        · exact .inr ⟨rfl, halive⟩
        · exact .inl hc

theorem sent_performAll {event : RoomEvent} (effects : List Effect) (h : event ∈ room.trace) :
    event ∈ (room.performAll effects).trace := by
  induction effects generalizing room with
  | nil => exact h
  | cons effect effects ih =>
      apply ih
      cases effect with
      | send target frame => exact List.mem_cons_of_mem _ h
      | close target code => exact h

theorem sent_of_mem_rows {host : Nat} {alive : Bool} (halive : room.aliveHost host = alive)
    {rows : List PendingNudge} {row : PendingNudge} (h : row ∈ rows) :
    .sent host (nudgeFrame lib row.chatId) alive ∈ (room.performAll
      (rows.map fun row => .send host (nudgeFrame lib row.chatId))).trace := by
  induction rows generalizing room with
  | nil => cases h
  | cons head rows ih =>
      change _ ∈ ((room.perform (.send host (nudgeFrame lib head.chatId))).performAll _).trace
      obtain rfl | h := List.mem_cons.mp h
      · apply sent_performAll
        rw [← halive]
        exact List.mem_cons_self
      · exact ih halive h

/-! ## The handlers -/

theorem mem_gone_performAll_close {stale : List RoomSocket} {id : Nat}
    (h : id ∈ (room.performAll (stale.map fun socket => .close socket.id 4409)).gone) :
    id ∈ stale.map (·.id) ∨ id ∈ room.gone := by
  induction stale generalizing room with
  | nil => exact .inr h
  | cons socket stale ih =>
      obtain hmem | hmem := @ih (room.perform (.close socket.id 4409)) h
      · exact .inl (List.mem_cons_of_mem _ hmem)
      · obtain rfl | hmem := List.mem_cons.mp hmem
        · exact .inl List.mem_cons_self
        · exact .inr hmem

theorem aliveHost_accept {userId connId : String} {id now : Nat} (alive : Bool)
    (hfresh : room.find id = none) (hgone : id ∉ room.gone) :
    ((room.performAll room.supersede).accept .host userId connId id now alive).aliveHost id =
      alive := by
  have hother : id ∉ (room.performAll room.supersede).gone := by
    intro hmem
    obtain hstale | hmem := mem_gone_performAll_close hmem
    · obtain ⟨socket, hsocket, rfl⟩ := List.mem_map.mp hstale
      have hne := List.find?_eq_none.mp hfresh socket (List.mem_of_mem_filter hsocket)
      simp at hne
    · exact hgone hmem
  cases alive with
  | true => simp [aliveHost, accept, hother]
  | false => simp [aliveHost, accept]

theorem kept_replayNudges {host : Nat} (h : Kept lib room)
    (hhost : room.pendingNudges = [] ∨ room.aliveHost host = true) :
    Kept lib (room.replayNudges lib host) := by
  have hrows : Answered lib room.trace fun c =>
      c ∈ (PendingNudge.oldestFirst room.pendingNudges).map (·.chatId) := by
    apply h.mono
    intro c hc
    obtain ⟨row, hrow, rfl⟩ := List.mem_map.mp hc
    exact List.mem_map_of_mem (PendingNudge.mem_oldestFirst.mpr hrow)
  have hnone : Answered lib (room.replayNudges lib host).trace fun _ => False := by
    obtain hempty | halive := hhost
    · unfold replayNudges
      rw [hempty] at hrows ⊢
      exact hrows.mono fun c hc => by cases hc
    · exact answered_replay halive _ hrows
  exact hnone.mono fun _ => False.elim

theorem kept_fetchNudge {userId : String} {chatId : Option String} {now : Nat}
    (h : Kept lib room) (hcap : WithinCap room (.nudge userId chatId now))
    (hintact : Intact room (.nudge userId chatId now)) :
    Kept lib (room.fetchNudge lib userId chatId now).2 := by
  unfold fetchNudge
  split_ifs with huser howner hclaimed
  · exact h
  · exact h
  · exact h
  cases hchat : chatId.filter isChatId with
  | none => exact h
  | some chat =>
      obtain ⟨rfl, hvalid⟩ := Option.filter_eq_some_iff.mp hchat
      have howner := not_not.mp howner
      have haccepted := h.accept chat
      cases hlive : liveHost room.sockets now none with
      | some host =>
          -- Sent: the host is there, or the queue has the chat.
          apply haccepted.send
          rintro c (hqueued | rfl)
          · exact .inl hqueued
          · obtain halive | hqueued := hintact howner hvalid host hlive
            · exact .inr ⟨rfl, halive⟩
            · exact .inl hqueued
      | none =>
          change Answered lib _ fun c => c ∈ (PendingNudge.trim _).map (·.chatId)
          rw [PendingNudge.trim_eq (hcap howner hvalid hlive)]
          apply haccepted.mono
          intro c hc
          exact (PendingNudge.chatIds_upsert ..).mpr hc

theorem kept_fetchWs {role : Role} {userId connId : String} {id now : Nat} {alive : Bool}
    (h : Kept lib room) (hfresh : room.find id = none) (hgone : id ∉ room.gone)
    (hintact : Intact room (.join role userId connId id now alive)) :
    Kept lib (room.fetchWs lib role userId connId id now alive).2 := by
  unfold fetchWs
  split_ifs with huser hadmits
  · exact h
  · cases role with
    | client => exact h
    | host =>
        have hclosed : Kept lib (room.performAll room.supersede) := kept_performAll _ h
        have haccepted : Kept lib ((room.performAll room.supersede).accept .host userId connId id
          now alive) := hclosed
        apply kept_replayNudges haccepted
        obtain hempty | rfl := hintact hadmits
        · exact .inl ((room.performAll_pendingNudges _).trans hempty)
        · exact .inr (aliveHost_accept true hfresh hgone)
  · exact h

theorem kept_step {action : RoomAction} {room' : DeviceRoom} (h : Kept lib room)
    (hcap : WithinCap room action) (hintact : Intact room action)
    (hstep : room.step lib action = some room') : Kept lib room' := by
  cases action with
  | join role userId connId id now alive =>
      simp only [step] at hstep
      split_ifs at hstep with hknown
      cases hstep
      simp only [Bool.or_eq_true, Option.isSome_iff_ne_none, List.contains_eq_mem, not_or,
        decide_eq_true_eq, not_not] at hknown
      exact kept_fetchWs h hknown.1 hknown.2 hintact
  | pong id now =>
      simp only [step] at hstep
      split_ifs at hstep
      cases hstep
      exact h
  | die id =>
      obtain ⟨ws, -, rfl⟩ := Option.map_eq_some_iff.mp hstep
      exact h
  | close id now =>
      obtain ⟨ws, -, rfl⟩ := Option.map_eq_some_iff.mp hstep
      have htold := kept_performAll (webSocketClose lib room.sockets now ws) h
      exact htold
  | message id bytes now =>
      obtain ⟨ws, -, rfl⟩ := Option.map_eq_some_iff.mp hstep
      exact kept_performAll _ h
  | nudge userId chatId now =>
      cases hstep
      exact kept_fetchNudge h hcap hintact

theorem kept_empty : Kept lib .empty := by
  intro later chatId earlier htrace
  simp [empty] at htrace

theorem step_join {userId connId : String} {id now : Nat} {alive : Bool} {room' : DeviceRoom}
    (hadmits : room.admits .host userId = true)
    (hstep : room.step lib (.join .host userId connId id now alive) = some room') :
    room.find id = none ∧ id ∉ room.gone ∧
      room' = ((room.performAll room.supersede).accept .host userId connId id now
        alive).replayNudges lib id := by
  simp only [step] at hstep
  split_ifs at hstep with hknown
  simp only [Bool.or_eq_true, Option.isSome_iff_ne_none, List.contains_eq_mem, not_or,
    decide_eq_true_eq, not_not] at hknown
  have huser : userId ≠ "" := by
    rintro rfl
    simp [admits] at hadmits
  simp only [fetchWs, if_neg huser, hadmits, if_true] at hstep
  exact ⟨hknown.1, hknown.2, (Option.some.inj hstep).symm⟩

theorem sent_of_join {userId connId : String} {id now : Nat} {alive : Bool}
    {room' : DeviceRoom} (hadmits : room.admits .host userId = true)
    (hstep : room.step lib (.join .host userId connId id now alive) = some room')
    {chatId : String} (hqueued : room.isQueued chatId) :
    .sent id (nudgeFrame lib chatId) alive ∈ room'.trace := by
  obtain ⟨hfresh, hgone, rfl⟩ := step_join hadmits hstep
  obtain ⟨row, hrow, rfl⟩ := List.mem_map.mp hqueued
  have halive : ((room.performAll room.supersede).accept .host userId connId id now
      alive).aliveHost id = alive := aliveHost_accept alive hfresh hgone
  apply sent_of_mem_rows halive
  apply PendingNudge.mem_oldestFirst.mpr
  change row ∈ (room.performAll room.supersede).pendingNudges
  rwa [performAll_pendingNudges]

end DeviceRoom

/-- The runs whose nudges fit in the queue, and whose nudges and joins find live hosts. -/
def intactRuns (room : DeviceRoom) (action : RoomAction) : Prop :=
  room.WithinCap action ∧ room.Intact action

/-- **No nudge is lost.** Where a nudge that finds a live host finds one that is there, and a host
that joins a room with queued nudges is there, every accepted nudge was followed by a frame to a
host that was there, or is queued for the next host that joins. -/
theorem nudges_answered (lib : EdgeLibraries) {room : DeviceRoom}
    (h : (deviceRoom lib).ReachableWhen intactRuns room) :
    room.Kept lib ∧
      ∀ chatId, room.isQueued chatId → ∀ userId connId id now alive room',
        room.admits .host userId = true →
          room.step lib (.join .host userId connId id now alive) = some room' →
            .sent id (nudgeFrame lib chatId) alive ∈ room'.trace := by
  constructor
  · apply h.invariant
    · rintro _ rfl
      exact DeviceRoom.kept_empty
    · intro s action s' hkept hguard hstep
      exact DeviceRoom.kept_step hkept hguard.1 hguard.2 hstep
  · intro chatId hqueued userId connId id now alive room' hadmits hstep
    exact DeviceRoom.sent_of_join hadmits hstep hqueued

/-- A host dies, a chat is nudged after the liveness window, and the next host is sent it. -/
theorem nudge_over_outage :
    ∃ room : DeviceRoom, (deviceRoom libraries).ReachableWhen intactRuns room ∧
      room.Kept libraries ∧ .accepted "chat" ∈ room.trace := by
  have hreach : (deviceRoom libraries).ReachableWhen intactRuns
      { owner := some "owner"
        sockets := [{ id := 0, role := .host, connId := "", joinedAt := 1000, pongAt := 0 },
          { id := 1, role := .host, connId := "", joinedAt := 95000, pongAt := 0 }]
        pendingNudges := [], gone := [0, 0]
        trace := [.sent 1 (nudgeFrame libraries "chat") true, .accepted "chat"] } := by
    refine ⟨.empty, rfl, ?_⟩
    apply Machine.Steps.head (a := .join .host "owner" "" 0 1000 true)
      ⟨trivial, fun _ => .inl rfl⟩ rfl
    apply Machine.Steps.head (a := .die 0) ⟨trivial, trivial⟩ rfl
    apply Machine.Steps.head (a := .nudge "owner" (some "chat") 90000) _ rfl
    · apply Machine.Steps.head (a := .join .host "owner" "" 1 95000 true)
        ⟨trivial, fun _ => .inr rfl⟩ rfl
      exact Machine.Steps.refl _
    · refine ⟨fun _ _ _ => by decide, ?_⟩
      intro _ _ host hhost
      cases hhost
  exact ⟨_, hreach, (nudges_answered libraries hreach).1, by simp⟩

/-- A nudge within 75 s of the death of the host is sent to the dead socket, and not queued. -/
theorem nudge_to_dead_host_lost :
    ¬ ∀ lib room, (deviceRoom lib).ReachableWhen DeviceRoom.WithinCap room → room.Kept lib := by
  intro hall
  have hreach : (deviceRoom libraries).ReachableWhen DeviceRoom.WithinCap
      { owner := some "owner"
        sockets := [{ id := 0, role := .host, connId := "", joinedAt := 1000, pongAt := 0 }]
        pendingNudges := [], gone := [0]
        trace := [.sent 0 (nudgeFrame libraries "chat") false, .accepted "chat"] } := by
    refine ⟨.empty, rfl, ?_⟩
    apply Machine.Steps.head (a := .join .host "owner" "" 0 1000 true) trivial rfl
    apply Machine.Steps.head (a := .die 0) trivial rfl
    apply Machine.Steps.head (a := .nudge "owner" (some "chat") 2000) _ rfl
    · exact Machine.Steps.refl _
    · intro _ _ hnone
      cases hnone
  obtain ⟨target, hsent⟩ | hqueued := hall libraries _ hreach [.sent 0 _ false] "chat" [] rfl
  · simp at hsent
  · cases hqueued

end Zeron.Relay
