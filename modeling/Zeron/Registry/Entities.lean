import Zeron.Registry.Core

/-!
# The entities behind the rows

What `crates/proto/src/entities.rs` keeps of a device, a space, a chat and a session, and the fields
each is written as. A time is its milliseconds; a chat's configuration is the JSON it serializes to.
-/

namespace Zeron.Registry

structure Device where
  id : String
  name : String
  platform : String
  lastSeenAt : Option Int
  createdAt : Option Int
  version : Option String

structure Space where
  id : String
  deviceId : String
  path : String
  name : Option String
  gitDetected : Bool
  gitCheckedAt : Option Int
  checkoutId : Option String
  createdAt : Int

structure Chat where
  id : String
  deviceId : String
  title : Option String
  archived : Bool
  cwd : Option String
  branch : Option String
  checkoutId : Option String
  config : Option JsonValue
  lastMessagePreview : Option String
  lastMessageAt : Option Int
  createdAt : Int
  harnessSessionId : Option String
  harnessSessionCwd : Option String
  spaceId : Option String
  lastSeenAt : Option Int
  roomGen : Option Nat

inductive SessionStatus where
  | idle
  | working
  | awaitingInput
  | errored

def SessionStatus.text : SessionStatus → String
  | .idle => "idle"
  | .working => "working"
  | .awaitingInput => "awaitingInput"
  | .errored => "errored"

structure Session where
  chatId : String
  deviceId : String
  status : SessionStatus
  startedAt : Option Int
  updatedAt : Int

structure WorkspaceState where
  devices : List Device
  spaces : List Space
  chats : List Chat
  sessions : List Session

/-- What `derive(Deserialize)` makes of the fields of a row; none where the row is malformed. -/
structure Serde where
  space : FieldMap JsonValue → Option Space
  chat : FieldMap JsonValue → Option Chat
  session : FieldMap JsonValue → Option Session

def kindDevices : String := "devices"

def kindSpaces : String := "spaces"

def kindChats : String := "chats"

def kindSessions : String := "sessions"

section Fields

def optStr (value : Option String) : JsonValue := value.elim .null .string

def optMs (value : Option Int) : JsonValue := value.elim .null .int

def newest (candidates : List (Option Int)) : Int := (candidates.filterMap id).max?.getD 1

def Device.set (device : Device) : FieldMap JsonValue :=
  fields [("id", .string device.id), ("name", .string device.name),
    ("platform", .string device.platform), ("lastSeenAt", optMs device.lastSeenAt),
    ("createdAt", optMs device.createdAt), ("version", optStr device.version)]

def Space.set (space : Space) : FieldMap JsonValue :=
  fields [("id", .string space.id), ("deviceId", .string space.deviceId),
    ("path", .string space.path), ("name", optStr space.name),
    ("gitDetected", .bool space.gitDetected), ("gitCheckedAt", optMs space.gitCheckedAt),
    ("checkoutId", optStr space.checkoutId), ("createdAt", .int space.createdAt)]

/-- The fields of a chat as the migration writes them: all but the room generation. -/
def Chat.seedSet (chat : Chat) : FieldMap JsonValue :=
  fields [("id", .string chat.id), ("deviceId", .string chat.deviceId),
    ("title", optStr chat.title), ("archived", .bool chat.archived), ("cwd", optStr chat.cwd),
    ("branch", optStr chat.branch), ("checkoutId", optStr chat.checkoutId),
    ("config", chat.config.getD .null), ("lastMessagePreview", optStr chat.lastMessagePreview),
    ("lastMessageAt", optMs chat.lastMessageAt), ("createdAt", .int chat.createdAt),
    ("harnessSessionId", optStr chat.harnessSessionId),
    ("harnessSessionCwd", optStr chat.harnessSessionCwd), ("spaceId", optStr chat.spaceId),
    ("lastSeenAt", optMs chat.lastSeenAt)]

def Chat.set (chat : Chat) : FieldMap JsonValue :=
  chat.seedSet.insert "roomGen" (optMs (chat.roomGen.map Int.ofNat))

def Session.set (session : Session) : FieldMap JsonValue :=
  fields [("chatId", .string session.chatId), ("deviceId", .string session.deviceId),
    ("status", .string session.status.text), ("startedAt", optMs session.startedAt),
    ("updatedAt", .int session.updatedAt)]

end Fields

end Zeron.Registry
