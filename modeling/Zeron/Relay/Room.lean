import Zeron.Wire.DeviceFrames

/-!
# The relay of a device

The routing of `edge/src/device-room.ts`: `webSocketMessage`, `webSocketClose`, `liveHost` and
`pickLiveHost`. What a handler does is a list of effects on sockets; a send to a socket that is gone
is swallowed.
-/

namespace Zeron.Relay

open Zeron.Lib (Bytes)
open Zeron.Lib.Utf8 (encode)
open Zeron.Registry (JsonValue)
open Zeron.Wire (EdgeLibraries members property)

inductive Role where
  | host
  | client
  deriving DecidableEq

/-- A socket the runtime lists, with its attachment. -/
structure RoomSocket where
  id : Nat
  role : Role
  connId : String
  joinedAt : Nat
  /-- The last automatic pong; 0 before the first. -/
  pongAt : Nat
  deriving DecidableEq

inductive Effect where
  | send (target : Nat) (frame : Bytes)
  | close (target : Nat) (code : Nat)
  deriving DecidableEq

def hostLivenessMs : Nat := 75000

/-- `RELAY_KIND`, with its leading space. -/
def relayKind : String := " relay"

namespace RoomSocket

def lastSeenAt (socket : RoomSocket) : Nat := max socket.pongAt socket.joinedAt

/-- `getWebSockets(clientTag(conn))`. -/
def hasClientTag (socket : RoomSocket) (conn : String) : Bool :=
  socket.role == .client && "client:" ++ socket.connId == "client:" ++ conn

end RoomSocket

def freshest : List RoomSocket → Option RoomSocket
  | [] => none
  | socket :: rest =>
      match freshest rest with
      | none => some socket
      | some best => if socket.lastSeenAt < best.lastSeenAt then some best else some socket

/-- `pickLiveHost`. -/
def pickLiveHost (hosts : List RoomSocket) (now : Nat) (exclude : Option Nat) :
    Option RoomSocket :=
  (freshest (hosts.filter fun host => some host.id != exclude)).filter fun best =>
    now - best.lastSeenAt ≤ hostLivenessMs

def liveHost (room : List RoomSocket) (now : Nat) (exclude : Option Nat) : Option RoomSocket :=
  pickLiveHost (room.filter fun socket => socket.role = .host) now exclude

/-! ## Values as text -/

/-- The conditions under which `!to` holds. -/
def isFalsy : Option JsonValue → Bool
  | none | some .null | some (.bool false) | some (.int 0) | some (.string "") => true
  | _ => false

mutual

/-- A value in a template literal. -/
def templateText : JsonValue → String
  | .null => "null"
  | .bool true => "true"
  | .bool false => "false"
  | .int n => toString n
  | .double text => text
  | .string s => s
  | .array items => ",".intercalate (templateItems items)
  | .object _ => "[object Object]"

/-- The items of an array in a template literal; `null` is left empty. -/
def templateItems : List JsonValue → List String
  | [] => []
  | .null :: items => "" :: templateItems items
  | item :: items => templateText item :: templateItems items

end

/-! ## The handlers -/

/-- `encodeRelayError`. -/
def relayError (lib : EdgeLibraries) (code : String) : Bytes :=
  encode (lib.stringify [("error", .string code)])

def text (s : String) : Option JsonValue := some (.string s)

/-- The handler of a binary message. Reading a property of `null` throws, and nothing is sent. -/
def webSocketMessage (lib : EdgeLibraries) (room : List RoomSocket) (now : Nat) (ws : RoomSocket)
    (message : Bytes) : List Effect :=
  match lib.decodeDeviceFrame message with
  | none => [.close ws.id 1002]
  | some (.null, _) => []
  | some (header, payload) =>
      let s := property header "s"
      let k := property header "k"
      match ws.role with
      | .client =>
          match liveHost room now none with
          | none =>
              [.send ws.id (lib.encodeDeviceFrame (members s (text relayKind) none none)
                (relayError lib "host_offline"))]
          | some host =>
              [.send host.id (lib.encodeDeviceFrame (members s k none (text ws.connId)) payload)]
      | .host =>
          let toConn := property header "to"
          if isFalsy toConn then []
          else
            let conn := (toConn.map templateText).getD ""
            match room.find? fun socket => socket.hasClientTag conn with
            | none =>
                [.send ws.id (lib.encodeDeviceFrame (members s (text relayKind) toConn none)
                  (relayError lib "client_gone"))]
            | some target =>
                [.send target.id (lib.encodeDeviceFrame (members s k none none) payload)]

/-! ## Who receives what -/

theorem mem_of_freshest {sockets : List RoomSocket} {best : RoomSocket}
    (h : freshest sockets = some best) : best ∈ sockets := by
  induction sockets generalizing best with
  | nil => cases h
  | cons socket rest ih =>
      rw [freshest] at h
      cases hrest : freshest rest with
      | none =>
          rw [hrest] at h
          cases h
          exact List.mem_cons_self
      | some other =>
          simp only [hrest] at h
          split_ifs at h
          · cases h
            exact List.mem_cons_of_mem _ (ih hrest)
          · cases h
            exact List.mem_cons_self

theorem liveHost_spec {room : List RoomSocket} {now : Nat} {exclude : Option Nat}
    {host : RoomSocket} (h : liveHost room now exclude = some host) :
    host ∈ room ∧ host.role = .host ∧ some host.id ≠ exclude ∧
      now - host.lastSeenAt ≤ hostLivenessMs := by
  obtain ⟨hfresh, hlive⟩ := Option.filter_eq_some_iff.mp h
  have hmem := mem_of_freshest hfresh
  simp only [List.mem_filter, bne_iff_ne, decide_eq_true_eq] at hmem
  exact ⟨hmem.1.1, hmem.1.2, hmem.2, by simpa using hlive⟩

theorem connId_of_hasClientTag {socket : RoomSocket} (conn : String)
    (h : socket.hasClientTag conn = true) : socket.role = .client ∧ socket.connId = conn := by
  simp only [RoomSocket.hasClientTag, Bool.and_eq_true, beq_iff_eq] at h
  obtain ⟨hrole, htag⟩ := h
  refine ⟨hrole, ?_⟩
  apply String.toList_inj.mp
  have hlist := congrArg String.toList htag
  rw [String.toList_append, String.toList_append] at hlist
  exact List.append_cancel_left hlist

/-- What the receiver `target` of `frame` is to the sender `ws` of the decoded message. -/
structure Forwarded (lib : EdgeLibraries) (room : List RoomSocket) (now : Nat) (ws : RoomSocket)
    (header received : JsonValue) (target : Nat) : Prop where
  stream : property received "s" = (property header "s").map lib.rewritten
  kind : property received "k" = (property header "k").map lib.rewritten
  no_target : property received "to" = none
  from_client : ws.role = .client → property received "from" = some (.string ws.connId) ∧
    ∃ host, liveHost room now none = some host ∧ host ∈ room ∧ host.role = .host ∧
      target = host.id
  from_host : ws.role = .host → property received "from" = none ∧
    ∃ client ∈ room, client.role = .client ∧ target = client.id ∧
      ∃ toConn, property header "to" = some toConn ∧ client.connId = templateText toConn

section

variable (lib : EdgeLibraries) (room : List RoomSocket) (now : Nat) (ws : RoomSocket)

theorem webSocketMessage_length (message : Bytes) :
    (webSocketMessage lib room now ws message).length ≤ 1 := by
  unfold webSocketMessage
  split
  · simp
  · simp
  · dsimp only
    split
    · split <;> simp
    · split_ifs
      · simp
      · split <;> simp

theorem forwarded_of_send {message : Bytes} {target : Nat} {frame : Bytes}
    (h : .send target frame ∈ webSocketMessage lib room now ws message) (hother : target ≠ ws.id) :
    ∃ header payload received, lib.decodeDeviceFrame message = some (header, payload) ∧
      lib.decodeDeviceFrame frame = some (received, payload) ∧
        Forwarded lib room now ws header received target := by
  unfold webSocketMessage at h
  split at h
  · simp at h
  · simp at h
  · rename_i header payload _ hdecode
    dsimp only at h
    cases hrole : ws.role with
    | client =>
        rw [hrole] at h
        cases hhost : liveHost room now none with
        | none =>
            -- The bounce goes to the sender.
            simp only [hhost, List.mem_singleton, Effect.send.injEq] at h
            exact absurd h.1 hother
        | some host =>
            simp only [hhost, List.mem_singleton, Effect.send.injEq] at h
            obtain ⟨rfl, rfl⟩ := h
            obtain ⟨hs, hk, hto, hfrom⟩ := lib.property_members (property header "s")
              (property header "k") none (text ws.connId)
            obtain ⟨hmem, hhostRole, -, -⟩ := liveHost_spec hhost
            refine ⟨header, payload, _, hdecode,
              lib.decodeDeviceFrame_encode (EdgeLibraries.members_nodup ..) _, hs, hk, hto, ?_, ?_⟩
            · intro _
              refine ⟨?_, host, hhost, hmem, hhostRole, rfl⟩
              rw [hfrom, text, Option.map_some, lib.rewritten_string]
            · intro hhostSender
              rw [hrole] at hhostSender
              cases hhostSender
    | host =>
        rw [hrole] at h
        dsimp only at h
        split_ifs at h with hfalsy
        · simp at h
        · cases htarget : room.find? fun socket =>
              socket.hasClientTag (((property header "to").map templateText).getD "") with
          | none =>
              simp only [htarget, List.mem_singleton, Effect.send.injEq] at h
              exact absurd h.1 hother
          | some client =>
              simp only [htarget, List.mem_singleton, Effect.send.injEq] at h
              obtain ⟨rfl, rfl⟩ := h
              obtain ⟨hs, hk, hto, hfrom⟩ := lib.property_members (property header "s")
                (property header "k") none none
              obtain ⟨hclient, hconn⟩ := connId_of_hasClientTag
                (((property header "to").map templateText).getD "")
                (by simpa using List.find?_some htarget)
              refine ⟨header, payload, _, hdecode,
              lib.decodeDeviceFrame_encode (EdgeLibraries.members_nodup ..) _, hs, hk, hto, ?_, ?_⟩
              · intro hclientSender
                rw [hrole] at hclientSender
                cases hclientSender
              · intro _
                refine ⟨hfrom, client, List.mem_of_find?_eq_some htarget, hclient, rfl, ?_⟩
                cases hproperty : property header "to" with
                | none =>
                    rw [hproperty] at hfalsy
                    exact absurd rfl hfalsy
                | some toConn =>
                    rw [hproperty] at hconn
                    exact ⟨toConn, rfl, hconn⟩

end

/-- **Isolation.** A message causes at most one send. One that does not decode is forwarded to
nobody. What reaches another socket than the sender's is `Forwarded`: a client's frame goes to the
live host under the sender's connection id and without target, a host's frame to a client with the
target's connection id and without routing keys; stream id, kind and payload are the sender's. In
Rust, a header whose JSON is shorter than 32 GiB is read back with its payload, and every proper part
of a length and header is refused. -/
theorem relay_isolates (lib : EdgeLibraries) (json : Zeron.Wire.HeaderJson) :
    (∀ room now ws message,
      (webSocketMessage lib room now ws message).length ≤ 1 ∧
      (lib.decodeDeviceFrame message = none →
        webSocketMessage lib room now ws message = [.close ws.id 1002]) ∧
      ∀ target frame, .send target frame ∈ webSocketMessage lib room now ws message →
        target ≠ ws.id →
          ∃ header payload received, lib.decodeDeviceFrame message = some (header, payload) ∧
            lib.decodeDeviceFrame frame = some (received, payload) ∧
              Forwarded lib room now ws header received target) ∧
    ∀ header,
      ((encode (json.toVec header)).length < 2 ^ 35 → ∀ payload,
        json.decodeDeviceFrame (json.encodeDeviceFrame header payload) = .ok (header, payload)) ∧
      ∀ i < (json.headerPart header).length,
        ∃ err, json.decodeDeviceFrame ((json.headerPart header).take i) = .error err := by
  constructor
  · intro room now ws message
    refine ⟨webSocketMessage_length lib room now ws message, ?_, ?_⟩
    · intro hdecode
      rw [webSocketMessage, hdecode]
    · intro target frame hsend hother
      exact forwarded_of_send lib room now ws hsend hother
  · intro header
    constructor
    · intro hlength payload
      rw [json.decodeDeviceFrame_encode, if_pos hlength]
    · intro i hi
      exact json.decodeDeviceFrame_take header hi

end Zeron.Relay
