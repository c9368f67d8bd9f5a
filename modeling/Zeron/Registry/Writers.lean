import Zeron.Registry.Doc
import Zeron.Registry.Entities

/-!
# The writing methods

Every method of `RegistryDoc` that enqueues ops, in the source's order. `wall` is what the wall
clock shows at each reading of the call.
-/

namespace Zeron.Registry.RegistryDoc

section Reads

variable (serde : Serde) (doc : RegistryDoc) (order : HashOrder)

def rowExists (kind id : String) : Bool := (doc.overlayRow { kind, id }).isSome

/-- `read_kind`: malformed rows are skipped. -/
def readKind {α : Type} (kind : String) (parse : FieldMap JsonValue → Option α) : List α :=
  (doc.overlayRows order kind).filterMap fun row => parse row.fields

def readSpaces : List Space :=
  (doc.readKind order kindSpaces serde.space).mergeSort fun a b => a.id ≤ b.id

def readChats : List Chat :=
  (doc.readKind order kindChats serde.chat).mergeSort fun a b => a.id ≤ b.id

def readSessions : List Session :=
  (doc.readKind order kindSessions serde.session).mergeSort fun a b => a.chatId ≤ b.chatId

end Reads

section Devices

variable (doc : RegistryDoc) (wall : Nat → Int)

def upsertDevice (device : Device) : RegistryDoc :=
  doc.write wall kindDevices device.id .upsert device.set

/-- What the setters share: they write to a row that is there, and to no other. -/
def updateRow (kind id : String) (set : FieldMap JsonValue) : RegistryDoc × Bool :=
  if doc.rowExists kind id then (doc.write wall kind id .update set, true) else (doc, false)

def renameDevice (deviceId name : String) : RegistryDoc × Bool :=
  doc.updateRow wall kindDevices deviceId (fields [("name", .string name)])

def setDeviceLastSeen (deviceId : String) (at' : Int) : RegistryDoc × Bool :=
  doc.updateRow wall kindDevices deviceId (fields [("lastSeenAt", .int at')])

end Devices

section Merge

/-- The last entry wins, as where a map is collected. -/
def lastWith {α : Type} (p : α → Bool) (entries : List α) : Option α := entries.reverse.find? p

/-- The fields that bring a chat of the source device over to the target. -/
def rehomedChat (sourceSpaces targetSpaces : List Space) (target : String) (chat : Chat) :
    FieldMap JsonValue :=
  let sourceSpace := chat.spaceId.bind fun id => lastWith (·.id = id) sourceSpaces
  let matching := sourceSpace.bind fun space => lastWith (·.path = space.path) targetSpaces
  let set := fields [("deviceId", .string target)]
  match matching with
  | some space =>
      (set.insert "spaceId" (.string space.id)).insert "checkoutId" (optStr space.checkoutId)
  | none => if sourceSpace.isSome then set.insert "checkoutId" .null else set

/-- The checkout is left for the target's engine to probe. -/
def rehomedSpace (target : String) : FieldMap JsonValue :=
  fields [("deviceId", .string target), ("gitCheckedAt", .null), ("checkoutId", .null)]

variable (serde : Serde) (doc : RegistryDoc) (order : HashOrder) (wall : Nat → Int)

/-- A row that `merge_device` touches: the fields it sets, or none where it deletes the row. -/
structure Touched where
  key : RowKey
  set : Option (FieldMap JsonValue)

def Touched.stamped (touched : Touched) (hlc : Hlc) : RowOp :=
  { kind := touched.key.kind, id := touched.key.id,
    op := if touched.set.isSome then .update else .delete, set := touched.set, hlc, clocks := none }

def mergeTouches (source target : String) : List Touched :=
  let sourceSpaces := (doc.readSpaces serde order).filter (·.deviceId = source)
  let targetSpaces := (doc.readSpaces serde order).filter (·.deviceId = target)
  let chats := (doc.readChats serde order).filter (·.deviceId = source)
  let sessions := (doc.readSessions serde order).filter (·.deviceId = source)
  (chats.map fun chat =>
      { key := { kind := kindChats, id := chat.id }
        set := some (rehomedChat sourceSpaces targetSpaces target chat) }) ++
    (sourceSpaces.map fun space =>
      { key := { kind := kindSpaces, id := space.id }
        set := if (lastWith (·.path = space.path) targetSpaces).isSome then none
          else some (rehomedSpace target) }) ++
    (sessions.map fun session => { key := { kind := kindSessions, id := session.chatId }, set := none }) ++
    [{ key := { kind := kindDevices, id := source }, set := none }]

def mergeDevice (source target : String) : RegistryDoc × Bool :=
  if source = target ∨ ¬ doc.rowExists kindDevices source ∨ ¬ doc.rowExists kindDevices target then
    (doc, false)
  else
    let touches := doc.mergeTouches serde order source target
    let (hlc, doc) := doc.nextHlc (wall 0)
    (doc.enqueueOps (fun i => wall (i + 1)) (touches.map (·.stamped hlc)), true)

end Merge

section Spaces

variable (serde : Serde) (doc : RegistryDoc) (order : HashOrder) (wall : Nat → Int)

def upsertSpace (space : Space) : RegistryDoc :=
  doc.write wall kindSpaces space.id .upsert space.set

def renameSpace (spaceId : String) (name : Option String) : RegistryDoc × Bool :=
  doc.updateRow wall kindSpaces spaceId (fields [("name", optStr name)])

def setSpaceGit (spaceId : String) (detected : Bool) (checkoutId : Option String)
    (checkedAt : Int) : RegistryDoc × Bool :=
  doc.updateRow wall kindSpaces spaceId
    (fields [("gitDetected", .bool detected), ("checkoutId", optStr checkoutId),
      ("gitCheckedAt", .int checkedAt)])

def chatIdsOf (spaceId : String) : List String :=
  ((doc.readChats serde order).filter (·.spaceId = some spaceId)).map (·.id)

structure DeletedSpace where
  existed : Bool
  chatIds : List String

def deleteSpace (spaceId : String) : RegistryDoc × DeletedSpace :=
  let existed := doc.rowExists kindSpaces spaceId
  let chatIds := doc.chatIdsOf serde order spaceId
  let keys := (chatIds.flatMap fun id => [{ kind := kindChats, id }, { kind := kindSessions, id }]) ++
    [{ kind := kindSpaces, id := spaceId }]
  (doc.deleteRowOps wall keys, { existed, chatIds })

end Spaces

section Chats

variable (doc : RegistryDoc) (wall : Nat → Int)

def upsertChat (chat : Chat) : RegistryDoc :=
  doc.write wall kindChats chat.id .upsert chat.set

/-- Only the fields the claim knows: an absent one carries no clocked write. -/
def claimSet (deviceId chatId : String) (cwd spaceId : Option String) (createdAt : Int) :
    FieldMap JsonValue :=
  let set := fields [("id", .string chatId), ("deviceId", .string deviceId),
    ("createdAt", .int createdAt)]
  let set := cwd.elim set fun cwd => set.insert "cwd" (.string cwd)
  spaceId.elim set fun spaceId => set.insert "spaceId" (.string spaceId)

def claimChat (chatId : String) (cwd spaceId : Option String) (createdAt : Int) : RegistryDoc :=
  doc.write wall kindChats chatId .upsert (claimSet doc.deviceId chatId cwd spaceId createdAt)

def seenBy (row : RegistryRow) (at' : Int) : Bool :=
  match row.fields["lastSeenAt"]? with
  | some (.int ms) => ms < 2 ^ 63 ∧ at' ≤ ms
  | _ => false

def setChatSeen (chatId : String) (at' : Int) : RegistryDoc × Bool :=
  match doc.overlayRow { kind := kindChats, id := chatId } with
  | none => (doc, false)
  | some row =>
      if seenBy row at' then (doc, true)
      else (doc.write wall kindChats chatId .update (fields [("lastSeenAt", .int at')]), true)

def renameChat (chatId title : String) : RegistryDoc × Bool :=
  doc.updateRow wall kindChats chatId (fields [("title", .string title)])

def setChatArchived (chatId : String) (archived : Bool) : RegistryDoc × Bool :=
  doc.updateRow wall kindChats chatId (fields [("archived", .bool archived)])

def setChatRoomGen (chatId : String) (roomGen : Nat) : RegistryDoc × Bool :=
  doc.updateRow wall kindChats chatId (fields [("roomGen", .int roomGen)])

def setChatBranch (chatId branch : String) : RegistryDoc × Bool :=
  doc.updateRow wall kindChats chatId (fields [("branch", .string branch)])

def setChatCwd (chatId cwd : String) : RegistryDoc × Bool :=
  doc.updateRow wall kindChats chatId (fields [("cwd", .string cwd)])

def setChatCheckout (chatId checkoutId : String) : RegistryDoc × Bool :=
  doc.updateRow wall kindChats chatId (fields [("checkoutId", .string checkoutId)])

def setChatConfig (chatId : String) (config : JsonValue) : RegistryDoc × Bool :=
  doc.updateRow wall kindChats chatId (fields [("config", config)])

def setChatHarnessSession (chatId sessionId cwd : String) : RegistryDoc × Bool :=
  doc.updateRow wall kindChats chatId
    (fields [("harnessSessionId", .string sessionId), ("harnessSessionCwd", .string cwd)])

def setChatLastMessage (chatId preview : String) (at' : Int) : RegistryDoc × Bool :=
  doc.updateRow wall kindChats chatId
    (fields [("lastMessagePreview", .string preview), ("lastMessageAt", .int at')])

def deleteChat (chatId : String) : RegistryDoc × Bool :=
  (doc.deleteRowOps wall
    [{ kind := kindChats, id := chatId }, { kind := kindSessions, id := chatId }],
    doc.rowExists kindChats chatId)

def upsertSession (session : Session) : RegistryDoc :=
  doc.write wall kindSessions session.chatId .upsert session.set

end Chats

section Migration

/-- A row of the legacy document: its clock is its own newest time, so a live write beats it. -/
structure Migrated where
  key : RowKey
  ms : Int
  set : FieldMap JsonValue

def Migrated.op (row : Migrated) : RowOp :=
  { kind := row.key.kind, id := row.key.id, op := .upsert, set := some row.set,
    hlc := encodeHlc (max row.ms 1) 0 "migration", clocks := none }

def migratedRows (state : WorkspaceState) : List Migrated :=
  (state.devices.map fun device =>
      { key := { kind := kindDevices, id := device.id }
        ms := newest [device.lastSeenAt, device.createdAt], set := device.set }) ++
    (state.spaces.map fun space =>
      { key := { kind := kindSpaces, id := space.id }
        ms := newest [space.gitCheckedAt, some space.createdAt], set := space.set }) ++
    (state.chats.map fun chat =>
      { key := { kind := kindChats, id := chat.id }
        ms := newest [chat.lastMessageAt, chat.lastSeenAt, some chat.createdAt]
        set := chat.seedSet }) ++
    (state.sessions.map fun session =>
      { key := { kind := kindSessions, id := session.chatId }
        ms := newest [some session.updatedAt, session.startedAt], set := session.set })

/-- The chunks of `seed_from_workspace`, each enqueued by a call of its own. -/
def enqueueChunks (doc : RegistryDoc) (wall : Nat → Int) : List (List RowOp) → RegistryDoc
  | [] => doc
  | ops :: chunks => (doc.enqueueOps (fun _ => wall 0) ops).enqueueChunks (fun i => wall (i + 1)) chunks

def seedFromWorkspace (doc : RegistryDoc) (wall : Nat → Int) (state : WorkspaceState) :
    RegistryDoc × Nat :=
  let ops := (migratedRows state).map (·.op)
  (doc.enqueueChunks wall (chunkOps ops.length ops), ops.length)

end Migration

section Calls

/-- A call of a writing method. -/
inductive Call where
  | upsertDevice (device : Device)
  | renameDevice (deviceId name : String)
  | mergeDevice (source target : String)
  | setDeviceLastSeen (deviceId : String) (at' : Int)
  | upsertSpace (space : Space)
  | renameSpace (spaceId : String) (name : Option String)
  | setSpaceGit (spaceId : String) (detected : Bool) (checkoutId : Option String) (checkedAt : Int)
  | deleteSpace (spaceId : String)
  | upsertChat (chat : Chat)
  | claimChat (chatId : String) (cwd spaceId : Option String) (createdAt : Int)
  | setChatSeen (chatId : String) (at' : Int)
  | renameChat (chatId title : String)
  | setChatArchived (chatId : String) (archived : Bool)
  | setChatRoomGen (chatId : String) (roomGen : Nat)
  | setChatBranch (chatId branch : String)
  | setChatCwd (chatId cwd : String)
  | setChatCheckout (chatId checkoutId : String)
  | setChatConfig (chatId : String) (config : JsonValue)
  | setChatHarnessSession (chatId sessionId cwd : String)
  | setChatLastMessage (chatId preview : String) (at' : Int)
  | deleteChat (chatId : String)
  | upsertSession (session : Session)
  | seedFromWorkspace (state : WorkspaceState)
  | applyState (seq : Nat) (full : Bool) (gcFloor : Nat) (rows : List RegistryRow)

def Call.run (serde : Serde) (order : HashOrder) (wall : Nat → Int) (doc : RegistryDoc) :
    Call → RegistryDoc
  | .upsertDevice device => doc.upsertDevice wall device
  | .renameDevice deviceId name => (doc.renameDevice wall deviceId name).1
  | .mergeDevice source target => (doc.mergeDevice serde order wall source target).1
  | .setDeviceLastSeen deviceId at' => (doc.setDeviceLastSeen wall deviceId at').1
  | .upsertSpace space => doc.upsertSpace wall space
  | .renameSpace spaceId name => (doc.renameSpace wall spaceId name).1
  | .setSpaceGit spaceId detected checkoutId checkedAt =>
      (doc.setSpaceGit wall spaceId detected checkoutId checkedAt).1
  | .deleteSpace spaceId => (doc.deleteSpace serde order wall spaceId).1
  | .upsertChat chat => doc.upsertChat wall chat
  | .claimChat chatId cwd spaceId createdAt => doc.claimChat wall chatId cwd spaceId createdAt
  | .setChatSeen chatId at' => (doc.setChatSeen wall chatId at').1
  | .renameChat chatId title => (doc.renameChat wall chatId title).1
  | .setChatArchived chatId archived => (doc.setChatArchived wall chatId archived).1
  | .setChatRoomGen chatId roomGen => (doc.setChatRoomGen wall chatId roomGen).1
  | .setChatBranch chatId branch => (doc.setChatBranch wall chatId branch).1
  | .setChatCwd chatId cwd => (doc.setChatCwd wall chatId cwd).1
  | .setChatCheckout chatId checkoutId => (doc.setChatCheckout wall chatId checkoutId).1
  | .setChatConfig chatId config => (doc.setChatConfig wall chatId config).1
  | .setChatHarnessSession chatId sessionId cwd =>
      (doc.setChatHarnessSession wall chatId sessionId cwd).1
  | .setChatLastMessage chatId preview at' => (doc.setChatLastMessage wall chatId preview at').1
  | .deleteChat chatId => (doc.deleteChat wall chatId).1
  | .upsertSession session => doc.upsertSession wall session
  | .seedFromWorkspace state => (doc.seedFromWorkspace wall state).1
  | .applyState seq full gcFloor rows => (doc.applyState order wall seq full gcFloor rows).1

end Calls

end Zeron.Registry.RegistryDoc
