import Zeron.Lib.Machine
import Zeron.Registry.DeviceMerge

/-!
# Creating rows

`claim_chat`, `create_chat`, `create_space` and the setters of a chat in
`crates/engine/src/workspace_host.rs`. A creator checks under one acquisition of the registry's lock
and writes under another, and every acquisition is a step. `root` is `linked_worktree_root`, of
folders that do not change. `note_message` is a claim and a setter.
-/

namespace Zeron.Engine.RowCreation

open Zeron.Lib (Machine)
open Zeron.Registry
open Zeron.Registry.RegistryDoc (Call)

/-- A call before its next acquisition of the lock. -/
inductive Task where
  /-- `space_for_path` of a claim, before it reads the spaces. -/
  | resolving (chatId cwd : String)
  /-- It has found none. -/
  | minting (chatId cwd : String)
  | claiming (chatId : String) (cwd spaceId : Option String)
  /-- `create_chat` before it reads its space. -/
  | placing (chatId spaceId : String) (config : Option JsonValue) (cwd : Option String)
  | creating (chat : Chat)
  /-- `create_space` before its write. -/
  | adding (space : Space)
  /-- `set_chat_activity` or `set_chat_host` before the write of the chat that it has changed. -/
  | rewriting (chat : Chat)

/-- Kept for the statements: the folders of the claims that have a space, with its id, and the row
before and after each write of a `create_chat`. -/
structure Host where
  deviceId : String
  reg : RegistryDoc
  tasks : List Task
  resolved : List (String × String)
  creates : List (Option RegistryRow × Option RegistryRow)

/-- What a step takes from outside: the order of the rows it reads, the wall clock, and a new id. -/
structure Input where
  order : HashOrder
  wall : Nat → Int
  now : Int
  now_range : -2 ^ 63 ≤ now ∧ now < 2 ^ 63
  newId : String

inductive Action where
  | claimChat (chatId : String) (cwd : Option String)
  | createChat (chatId : String) (spaceId deviceId : Option String) (config : Option JsonValue)
      (cwd : Option String)
  | createSpace (spaceId deviceId path : String) (name : Option String) (gitDetected : Bool)
  /-- A setter that checks and writes under one acquisition. -/
  | set (call : Call)
  | setChatActivity (chatId : String) (lastMessageAt : Option (Option Int)) (createdAt : Option Int)
  | setChatHost (chatId deviceId : String)
  /-- A call goes on. -/
  | goOn (k : Nat)

def setsChat : Call → Bool
  | .setChatSeen _ _ | .renameChat _ _ | .setChatArchived _ _ | .setChatRoomGen _ _
  | .setChatBranch _ _ | .setChatCwd _ _ | .setChatCheckout _ _ | .setChatConfig _ _
  | .setChatHarnessSession _ _ _ | .setChatLastMessage _ _ _ => true
  | _ => false

def chatKey (chatId : String) : RowKey := { kind := kindChats, id := chatId }

def spaceKey (spaceId : String) : RowKey := { kind := kindSpaces, id := spaceId }

section Model

variable (config : JsonValue → Option JsonValue) (dt : Int → Int) (root : String → Option String)

def chat (doc : RegistryDoc) (chatId : String) : Option Chat :=
  (doc.overlayRow (chatKey chatId)).bind fun row => rawChat config dt row.fields

def space (doc : RegistryDoc) (spaceId : String) : Option Space :=
  (doc.overlayRow (spaceKey spaceId)).bind fun row => rawSpace dt row.fields

/-- The row of a `create_chat`. -/
def newChat (chatId deviceId cwd : String) (spaceId : Option String) (config : Option JsonValue) :
    Chat where
  id := chatId
  deviceId := deviceId
  title := none
  archived := false
  cwd := some cwd
  branch := none
  checkoutId := none
  config := config
  lastMessagePreview := none
  lastMessageAt := none
  createdAt := 0
  harnessSessionId := none
  harnessSessionCwd := none
  spaceId := spaceId
  lastSeenAt := none
  roomGen := some 2

namespace Host

variable (host : Host)

def spawn (task : Task) : Host := { host with tasks := host.tasks ++ [task] }

/-- The space of this device at the path, in what is read. -/
def spaceAt (order : HashOrder) (path : String) : Option Space :=
  (host.reg.readSpaces (raw config dt) order).find? fun space =>
    space.deviceId = host.deviceId && space.path = path

def settle (chatId cwd spaceId : String) : Host :=
  { host with resolved := host.resolved ++ [(cwd, spaceId)] }.spawn
    (.claiming chatId (some cwd) (some spaceId))

/-- The new space of `space_for_path`. -/
def mintedSpace (input : Input) (cwd : String) : Space where
  id := input.newId
  deviceId := host.deviceId
  path := (root cwd).getD cwd
  name := none
  gitDetected := false
  gitCheckedAt := none
  checkoutId := none
  createdAt := input.now

/-- A call goes on behind its acquisition. No row has a new id. -/
def proceed (input : Input) : Task → Option Host
  | .resolving chatId cwd =>
      some (match (host.spaceAt config dt input.order cwd).or
          ((root cwd).bind (host.spaceAt config dt input.order)) with
        | some space => host.settle chatId cwd space.id
        | none => host.spawn (.minting chatId cwd))
  | .minting chatId cwd =>
      if (host.reg.shownRow (spaceKey input.newId)).isNone then
        some ({ host with
            reg := host.reg.upsertSpace input.wall (host.mintedSpace root input cwd) }.settle
          chatId cwd input.newId)
      else none
  | .claiming chatId cwd spaceId =>
      some { host with reg := host.reg.claimChat input.wall chatId cwd spaceId input.now }
  | .placing chatId spaceId config cwd =>
      some ((space dt host.reg spaceId).elim host fun space =>
        host.spawn
          (.creating (newChat chatId space.deviceId (cwd.getD space.path) (some space.id) config)))
  | .creating chat =>
      let reg := host.reg.upsertChat input.wall { chat with createdAt := input.now }
      some { host with
        reg
        creates := host.creates ++
          [(host.reg.overlayRow (chatKey chat.id), reg.overlayRow (chatKey chat.id))] }
  | .adding space =>
      some { host with
        reg := host.reg.upsertSpace input.wall { space with createdAt := input.now } }
  | .rewriting chat => some { host with reg := host.reg.upsertChat input.wall chat }

def step (action : Action × Input) : Option Host :=
  match action with
  | (.claimChat chatId cwd, _) =>
      some ((chat config dt host.reg chatId).elim
        (host.spawn (cwd.elim (.claiming chatId none none) (.resolving chatId))) fun _ => host)
  | (.createChat chatId spaceId deviceId chatConfig cwd, _) =>
      some (match chat config dt host.reg chatId, spaceId, deviceId with
        | some _, _, _ => host
        | none, some spaceId, _ => host.spawn (.placing chatId spaceId chatConfig cwd)
        | none, none, some deviceId =>
            host.spawn (.creating (newChat chatId deviceId (cwd.getD "~") none chatConfig))
        | none, none, none => host)
  | (.createSpace spaceId deviceId path name gitDetected, input) =>
      some (if (host.reg.readSpaces (raw config dt) input.order).any fun space =>
          space.id = spaceId || (space.deviceId = deviceId && space.path = path) then host
        else
          host.spawn (.adding
            { id := spaceId, deviceId, path, name, gitDetected, gitCheckedAt := none
              checkoutId := none, createdAt := 0 }))
  | (.set call, input) =>
      if setsChat call then
        some { host with reg := call.run (raw config dt) input.order input.wall host.reg }
      else none
  | (.setChatActivity chatId lastMessageAt createdAt, _) =>
      some ((chat config dt host.reg chatId).elim host fun chat =>
        host.spawn (.rewriting
          { chat with
            lastMessageAt := lastMessageAt.getD chat.lastMessageAt
            createdAt := createdAt.getD chat.createdAt }))
  | (.setChatHost chatId deviceId, _) =>
      some ((chat config dt host.reg chatId).elim host fun chat =>
        host.spawn (.rewriting { chat with deviceId }))
  | (.goOn k, input) =>
      (host.tasks[k]?).bind fun task =>
        { host with tasks := host.tasks.eraseIdx k }.proceed config dt root input task

end Host

/-! ## What is to hold -/

namespace Host

variable (host : Host)

def Free (path : String) : Prop :=
  ∀ id found, space dt host.reg id = some found → found.deviceId = host.deviceId → found.path ≠ path

/-- No two spaces of this device are shown at one path. -/
def Unique : Prop :=
  ∀ id id' found found', space dt host.reg id = some found → space dt host.reg id' = some found' →
    found.deviceId = host.deviceId → found'.deviceId = host.deviceId → found.path = found'.path →
    id = id'

/-- The folder has no claim that found its space. -/
def Unclaimed (path : String) : Prop := ∀ entry ∈ host.resolved, entry.1 ≠ path

/-- At its write the check of a creator would come out as it did, and no space comes to a folder
whose claims have gone to the checkout's root. -/
def InPlace (action : Action × Input) : Prop :=
  match action with
  | (.goOn k, _) =>
      match host.tasks[k]? with
      | some (.minting _ cwd) =>
          host.Free dt cwd ∧ (∀ folder ∈ root cwd, host.Free dt folder) ∧
            host.Unclaimed ((root cwd).getD cwd)
      | some (.adding added) =>
          host.reg.overlayRow (spaceKey added.id) = none ∧
            (added.deviceId = host.deviceId → host.Free dt added.path ∧ host.Unclaimed added.path)
      | some (.creating chat) => host.reg.overlayRow (chatKey chat.id) = none
      | _ => True
  | _ => True

end Host

def machine : Machine Host (Action × Input) where
  init host := host.reg.authoritative.Keyed ∧ host.Unique dt ∧ host.tasks = [] ∧
    host.resolved = [] ∧ host.creates = []
  step := Host.step config dt root

/-! ## Writes of a row -/

section Writes

variable {doc doc' : RegistryDoc} {ops : List RowOp} {op : RowOp}

theorem overlayRow_spaceKey (h : doc.Enqueued ops doc') (hops : ∀ op ∈ ops, op.kind = kindChats)
    (id : String) : doc'.overlayRow (spaceKey id) = doc.overlayRow (spaceKey id) := by
  refine h.overlayRow_of_not_mem fun op hop heq => ?_
  have hkind : op.kind = kindSpaces := congrArg RowKey.kind heq
  rw [hops op hop] at hkind
  exact absurd hkind (by decide)

theorem kind_of_setsChat {serde : Serde} {order : HashOrder} {hlc : Hlc} {call : Call}
    (h : setsChat call = true) : ∀ op ∈ call.ops serde order doc hlc, op.kind = kindChats := by
  have hupdate (id : String) (set : FieldMap JsonValue) :
      ∀ op ∈ doc.updateOps kindChats id set hlc, op.kind = kindChats := by
    intro op hop
    unfold RegistryDoc.updateOps at hop
    split at hop
    · cases List.mem_singleton.mp hop
      rfl
    · cases hop
  cases call with
  | renameChat _ _ | setChatArchived _ _ | setChatRoomGen _ _ | setChatBranch _ _ | setChatCwd _ _
  | setChatCheckout _ _ | setChatConfig _ _ | setChatHarnessSession _ _ _
  | setChatLastMessage _ _ _ => exact hupdate _ _
  | setChatSeen chatId at' =>
      intro op hop
      simp only [Call.ops] at hop
      split at hop
      · cases List.mem_singleton.mp hop
        rfl
      · cases hop
  | upsertDevice _ | renameDevice _ _ | mergeDevice _ _ | setDeviceLastSeen _ _ | upsertSpace _
  | renameSpace _ _ | setSpaceGit _ _ _ _ | deleteSpace _ | upsertChat _ | claimChat _ _ _ _
  | deleteChat _ | upsertSession _ | seedFromWorkspace _ | applyState _ _ _ _ => cases h

theorem overlayRow_upsert (h : doc.Enqueued [op] doc') (hop : op.op = .upsert)
    (hclocks : op.clocks = none) {key : RowKey} (hkey : op.key = key)
    (hnone : doc.overlayRow key = none) :
    (doc'.overlayRow key = none ∧ (doc.shownRow key).isSome) ∨
      op.ReadsBack (doc'.overlayRow key) := by
  subst hkey
  have huniform : RegistryDoc.Uniform [op] := by
    refine ⟨fun other hother => ?_, fun one hone other hother _ => ?_⟩
    · rw [List.mem_singleton.mp hother]
      exact hclocks
    · rw [List.mem_singleton.mp hone, List.mem_singleton.mp hother]
  have hnot : op.op ≠ .delete := by
    rw [hop]
    decide
  rw [h.overlayRow_of_mem huniform List.mem_cons_self]
  by_cases hprevails : op.Prevails (doc.shownRow op.key)
  · exact .inr ((readsBack_iff hclocks _).mpr hprevails)
  · left
    rw [RegistryDoc.overlayRow_shownRow] at hnone
    cases hshown : doc.shownRow op.key with
    | none =>
        rw [hshown] at hprevails
        exact absurd (by simp [RowOp.Prevails, hop]) hprevails
    | some row =>
        rw [hshown] at hnone hprevails
        have hdeleted : row.deleted = true := by simpa [Option.filter] using hnone
        have hold : hlcNewer op.hlc row.delHlc ≠ true := fun hnewer =>
          hprevails (by simp [RowOp.Prevails, hop, hdeleted, hnewer])
        rw [applyOp_eq_finishWrites hnot]
        simp [RowOp.startsFrom, hop, hdeleted, hold, Option.filter]

/-- The fields that a space written anew is shown with. -/
theorem fields_of_readsBack {id : String} {set : Space} {hlc : Hlc} {shown : Option RegistryRow}
    (h : (RegistryDoc.writeOp kindSpaces id .upsert set.set hlc).ReadsBack shown) :
    ∃ row, shown = some row ∧ row.fields["id"]? = some (.string set.id) ∧
      row.fields["deviceId"]? = some (.string set.deviceId) ∧
      row.fields["path"]? = some (.string set.path) ∧
      row.fields["name"]? = set.name.map .string ∧
      row.fields["gitDetected"]? = some (.bool set.gitDetected) ∧
      row.fields["gitCheckedAt"]? = set.gitCheckedAt.map .int ∧
      row.fields["checkoutId"]? = set.checkoutId.map .string ∧
      row.fields["createdAt"]? = some (.int set.createdAt) := by
  unfold RowOp.ReadsBack RegistryDoc.writeOp at h
  rw [if_neg (by simp)] at h
  simp only [Option.getD_some] at h
  obtain ⟨row, hrow, hfields⟩ := h
  refine ⟨row, hrow, ?_⟩
  have hnames : ["id", "deviceId", "path", "name", "gitDetected", "gitCheckedAt", "checkoutId",
      "createdAt"].Nodup := by decide
  have hfield (i : Nat) {name : String} {value : JsonValue}
      (hi : [("id", .string set.id), ("deviceId", .string set.deviceId),
        ("path", .string set.path), ("name", optStr set.name),
        ("gitDetected", .bool set.gitDetected), ("gitCheckedAt", optMs set.gitCheckedAt),
        ("checkoutId", optStr set.checkoutId), ("createdAt", .int set.createdAt)][i]? =
          some (name, value)) :
      row.fields[name]? = if value.isNull then none else some value := by
    have hat : set.set[name]? = some value := by
      unfold Space.set
      refine fields_of_mem ?_ (List.mem_of_getElem? hi)
      exact hnames
    exact hfields (name, value) (Std.ExtTreeMap.mem_toList_iff_getElem?_eq_some.mpr hat)
  have hstr (value : Option String) :
      (if (optStr value).isNull then none else some (optStr value)) = value.map .string := by
    cases value <;> rfl
  have hms (value : Option Int) :
      (if (optMs value).isNull then none else some (optMs value)) = value.map .int := by
    cases value <;> rfl
  exact ⟨hfield 0 rfl, hfield 1 rfl, hfield 2 rfl, (hfield 3 rfl).trans (hstr _), hfield 4 rfl,
    (hfield 5 rfl).trans (hms _), (hfield 6 rfl).trans (hstr _), hfield 7 rfl⟩

theorem isNull_of_claimSet {deviceId chatId : String} {cwd spaceId : Option String}
    {createdAt : Int} {name : String} {value : JsonValue}
    (h : (RegistryDoc.claimSet deviceId chatId cwd spaceId createdAt)[name]? = some value) :
    value.isNull = false := by
  have hinsert {set : FieldMap JsonValue} {key : String} {new : JsonValue}
      (hset : ∀ value, set[name]? = some value → value.isNull = false) (hnew : new.isNull = false)
      (value : JsonValue) (hvalue : (set.insert key new)[name]? = some value) :
      value.isNull = false := by
    rw [Std.ExtTreeMap.getElem?_insert] at hvalue
    split at hvalue
    · cases hvalue
      exact hnew
    · exact hset value hvalue
  have hempty (value : JsonValue) (hvalue : (∅ : FieldMap JsonValue)[name]? = some value) :
      value.isNull = false := by
    simp at hvalue
  have hset (value : JsonValue) (hvalue : (fields [("id", .string chatId),
      ("deviceId", .string deviceId), ("createdAt", .int createdAt)])[name]? = some value) :
      value.isNull = false := by
    unfold fields at hvalue
    exact hinsert (hinsert (hinsert hempty rfl) rfl) rfl value hvalue
  unfold RegistryDoc.claimSet at h
  cases cwd with
  | none =>
      cases spaceId with
      | none => exact hset value h
      | some spaceId => exact hinsert hset rfl value h
  | some cwd =>
      cases spaceId with
      | none => exact hinsert hset rfl value h
      | some spaceId => exact hinsert (hinsert hset rfl) rfl value h

/-- A claim clears no field. -/
theorem claimChat_keeps (doc : RegistryDoc) (wall : Nat → Int) (chatId : String)
    (cwd spaceId : Option String) (createdAt : Int) {row : RegistryRow}
    (hrow : doc.overlayRow (chatKey chatId) = some row) :
    ∃ row', (doc.claimChat wall chatId cwd spaceId createdAt).overlayRow (chatKey chatId) =
        some row' ∧
      ∀ (name : String) (value : JsonValue), row.fields[name]? = some value →
        (row'.fields[name]?).isSome := by
  let op := RegistryDoc.writeOp kindChats chatId .upsert
    (RegistryDoc.claimSet doc.deviceId chatId cwd spaceId createdAt) (doc.nextHlc (wall 0)).1
  have henqueued : doc.Enqueued [op] (doc.claimChat wall chatId cwd spaceId createdAt) :=
    RegistryDoc.enqueued_write ..
  have hop : op.op ≠ .delete := by
    change OpKind.upsert ≠ .delete
    decide
  obtain ⟨hshown, hlive⟩ := Option.filter_eq_some_iff.mp hrow
  have hlive : row.deleted = false := by simpa using hlive
  refine ⟨(writeSet op row false).1, ?_, fun name value hvalue => ?_⟩
  · have hafter := henqueued.overlayRow_of_mem (RegistryDoc.uniform_writeOp ..) List.mem_cons_self
    rw [show doc.shownRow op.key = some row from hshown, applyOp_live hlive hop] at hafter
    have hframe := (writeSet_frame op row false).2.1
    exact hafter.trans (filter_live (hframe.trans hlive))
  · have hat := congrArg Prod.fst (writeSet_at op row false name)
    change (writeSet op row false).1.fields[name]? = _ at hat
    rw [hat]
    split
    · exact Option.isSome_of_eq_some hvalue
    · rename_i written hwritten
      have hnull : written.isNull = false := isNull_of_claimSet hwritten
      unfold Registry.written
      split
      · rw [hnull]
        rfl
      · exact Option.isSome_of_eq_some hvalue

end Writes

variable {config dt root}

section Spaces

variable {doc : RegistryDoc} {wall : Nat → Int} {added found : Space}

theorem space_congr {doc' : RegistryDoc} {id : String}
    (h : doc'.overlayRow (spaceKey id) = doc.overlayRow (spaceKey id)) :
    space dt doc' id = space dt doc id := by
  unfold space
  rw [h]

theorem space_upsertSpace_of_ne {id : String} (hne : id ≠ added.id) :
    space dt (doc.upsertSpace wall added) id = space dt doc id := by
  have henqueued : doc.Enqueued _ (doc.upsertSpace wall added) := RegistryDoc.enqueued_write ..
  refine space_congr (henqueued.overlayRow_of_not_mem fun op hop heq => hne ?_)
  cases List.mem_singleton.mp hop
  exact (congrArg RowKey.id heq).symm

theorem space_upsertSpace (hnone : doc.overlayRow (spaceKey added.id) = none)
    (h : space dt (doc.upsertSpace wall added) added.id = some found) :
    found.id = added.id ∧ found.deviceId = added.deviceId ∧ found.path = added.path := by
  have henqueued : doc.Enqueued _ (doc.upsertSpace wall added) := RegistryDoc.enqueued_write ..
  obtain ⟨row, hrow, hfound⟩ := Option.bind_eq_some_iff.mp h
  obtain ⟨hhidden, -⟩ | hread := overlayRow_upsert henqueued rfl rfl rfl hnone
  · cases hhidden.symm.trans hrow
  · obtain ⟨row', hrow', hid, hdevice, hpath, -⟩ := fields_of_readsBack hread
    cases hrow.symm.trans hrow'
    obtain ⟨hid', hdevice', hpath'⟩ := rawSpace_fields hfound
    exact ⟨by simpa using hid'.symm.trans hid, by simpa using hdevice'.symm.trans hdevice,
      by simpa using hpath'.symm.trans hpath⟩

theorem space_mintedSpace {host : Host} {input : Input} {cwd : String}
    (hfresh : host.reg.shownRow (spaceKey input.newId) = none) :
    ∃ found, space dt (host.reg.upsertSpace input.wall (host.mintedSpace root input cwd))
      input.newId = some found := by
  have henqueued : host.reg.Enqueued _
      (host.reg.upsertSpace input.wall (host.mintedSpace root input cwd)) :=
    RegistryDoc.enqueued_write ..
  have hnone : host.reg.overlayRow (spaceKey input.newId) = none := by
    rw [RegistryDoc.overlayRow_shownRow, hfresh]
    rfl
  obtain ⟨-, hshown⟩ | hread :=
    overlayRow_upsert henqueued rfl rfl (rfl : _ = spaceKey input.newId) hnone
  · rw [hfresh] at hshown
    cases hshown
  · obtain ⟨row, hrow, hid, hdevice, hpath, hname, hgit, hchecked, hcheckout, hcreated⟩ :=
      fields_of_readsBack hread
    have hname : row.fields["name"]? = none := hname
    have hchecked : row.fields["gitCheckedAt"]? = none := hchecked
    have hcheckout : row.fields["checkoutId"]? = none := hcheckout
    have hcreated : row.fields["createdAt"]? = some (.int input.now) := hcreated
    have hnow : (JsonValue.int input.now).i64? = some input.now := if_pos input.now_range
    unfold space rawSpace needed Registry.optional defaulted
    rw [hrow]
    simp [hid, hdevice, hpath, hname, hgit, hchecked, hcheckout, hcreated, hnow, JsonValue.str?,
      JsonValue.bool?]

theorem space_of_spaceAt {host : Host} {order : HashOrder} {path : String}
    (hkeyed : host.reg.authoritative.Keyed) (h : host.spaceAt config dt order path = some found) :
    ∃ id, space dt host.reg id = some found ∧ found.deviceId = host.deviceId ∧
      found.path = path := by
  have hmem := List.mem_of_find?_eq_some h
  obtain ⟨row, hrow, hread⟩ := (RegistryDoc.mem_readKind hkeyed).mp hmem
  obtain ⟨hkind, hshown⟩ := (RegistryDoc.mem_overlayRows .byKey kindSpaces hkeyed).mp hrow
  have hkey : row.key = spaceKey row.id := congrArg₂ RowKey.mk hkind rfl
  have hfound := List.find?_some h
  simp only [Bool.and_eq_true, decide_eq_true_eq] at hfound
  refine ⟨row.id, ?_, hfound⟩
  unfold space
  rw [← hkey, hshown]
  exact hread

theorem free_of_spaceAt {host : Host} {order : HashOrder} {path : String}
    (hkeyed : host.reg.authoritative.Keyed) (h : host.spaceAt config dt order path = none) :
    host.Free dt path := by
  intro id found hfound hdevice hpath
  obtain ⟨row, hrow, hread⟩ := Option.bind_eq_some_iff.mp hfound
  have hkey := RegistryDoc.overlayRow_key hkeyed hrow
  have hlisted : row ∈ host.reg.overlayRows .byKey kindSpaces := by
    rw [RegistryDoc.mem_overlayRows .byKey kindSpaces hkeyed, hkey]
    exact ⟨congrArg RowKey.kind hkey, hrow⟩
  have hmem : found ∈ host.reg.readSpaces (raw config dt) order :=
    (RegistryDoc.mem_readKind hkeyed).mpr ⟨row, hlisted, hread⟩
  have hnot := List.find?_eq_none.mp h found hmem
  simp [hdevice, hpath] at hnot

end Spaces

/-! ## Runs -/

namespace Host

variable (config dt root) in
/-- The claims that have their space found it at the folder, or at its checkout's root with none at
the folder. -/
structure Sound (host : Host) : Prop where
  keyed : host.reg.authoritative.Keyed
  unique : host.Unique dt
  resolved : ∀ entry ∈ host.resolved, ∃ id found, space dt host.reg id = some found ∧
    found.id = entry.2 ∧ found.deviceId = host.deviceId ∧
      (found.path = entry.1 ∨ root entry.1 = some found.path ∧ host.Free dt entry.1)
  creates : ∀ entry ∈ host.creates, entry.1.isSome → entry.2 = entry.1

variable {host host' : Host}

theorem Sound.of_same (h : host.Sound dt root) (hkeyed : host'.reg.authoritative.Keyed)
    (hspaces : ∀ id, space dt host'.reg id = space dt host.reg id)
    (hdevice : host'.deviceId = host.deviceId) (hresolved : host'.resolved = host.resolved)
    (hcreates : ∀ entry ∈ host'.creates, entry.1.isSome → entry.2 = entry.1) :
    host'.Sound dt root := by
  refine ⟨hkeyed, ?_, fun entry hentry => ?_, hcreates⟩
  · unfold Unique
    simp only [hspaces, hdevice]
    exact h.unique
  · rw [hresolved] at hentry
    unfold Free
    simp only [hspaces, hdevice]
    exact h.resolved entry hentry

theorem Sound.spawn (h : host.Sound dt root) (task : Task) : (host.spawn task).Sound dt root :=
  h.of_same h.keyed (fun _ => rfl) rfl rfl h.creates

theorem Sound.write_chats (h : host.Sound dt root) {ops : List RowOp} {reg : RegistryDoc}
    (henqueued : host.reg.Enqueued ops reg) (hops : ∀ op ∈ ops, op.kind = kindChats) :
    { host with reg }.Sound dt root := by
  refine h.of_same ?_ (fun id => space_congr (overlayRow_spaceKey henqueued hops id)) rfl rfl
    h.creates
  change reg.authoritative.Keyed
  rw [henqueued.authoritative]
  exact h.keyed

theorem Sound.upsertChat (h : host.Sound dt root) (wall : Nat → Int) (chat : Chat) :
    { host with reg := host.reg.upsertChat wall chat }.Sound dt root := by
  refine h.write_chats (RegistryDoc.enqueued_write ..) fun op hop => ?_
  cases List.mem_singleton.mp hop
  rfl

/-- A space comes where there is none of its id and, if it is this device's, none at its path. -/
theorem Sound.upsertSpace (h : host.Sound dt root) (wall : Nat → Int) {added : Space}
    (hnone : host.reg.overlayRow (spaceKey added.id) = none)
    (hfree : added.deviceId = host.deviceId →
      host.Free dt added.path ∧ host.Unclaimed added.path) :
    { host with reg := host.reg.upsertSpace wall added }.Sound dt root := by
  have hother {id : String} {found : Space}
      (hfound : space dt (host.reg.upsertSpace wall added) id = some found) :
      id = added.id ∧ found.deviceId = added.deviceId ∧ found.path = added.path ∨
        space dt host.reg id = some found := by
    by_cases hid : id = added.id
    · subst hid
      obtain ⟨-, hdevice, hpath⟩ := space_upsertSpace hnone hfound
      exact .inl ⟨rfl, hdevice, hpath⟩
    · rw [space_upsertSpace_of_ne hid] at hfound
      exact .inr hfound
  refine ⟨?_, ?_, ?_, h.creates⟩
  · change (host.reg.upsertSpace wall added).authoritative.Keyed
    rw [RegistryDoc.upsertSpace, (RegistryDoc.enqueued_write ..).authoritative]
    exact h.keyed
  · intro id id' found found' hfound hfound' hdevice hdevice' hpath
    obtain ⟨rfl, hadded, hat⟩ | hold := hother hfound
    · obtain ⟨rfl, -, -⟩ | hold' := hother hfound'
      · rfl
      · obtain ⟨hfree, -⟩ := hfree (hadded.symm.trans hdevice)
        exact absurd (hpath.symm.trans hat) (hfree _ _ hold' hdevice')
    · obtain ⟨rfl, hadded, hat⟩ | hold' := hother hfound'
      · obtain ⟨hfree, -⟩ := hfree (hadded.symm.trans hdevice')
        exact absurd (hpath.trans hat) (hfree _ _ hold hdevice)
      · exact h.unique id id' found found' hold hold' hdevice hdevice' hpath
  · intro entry hentry
    obtain ⟨id, found, hfound, hid, hdevice, hpath⟩ := h.resolved entry hentry
    have hne : id ≠ added.id := by
      rintro rfl
      unfold space at hfound
      rw [hnone] at hfound
      cases hfound
    refine ⟨id, found, (space_upsertSpace_of_ne hne).trans hfound, hid, hdevice, ?_⟩
    refine hpath.imp_right fun ⟨hroot, hvacant⟩ => ⟨hroot, fun id' found' hfound' hdevice' => ?_⟩
    obtain ⟨rfl, hadded, hat⟩ | hold := hother hfound'
    · obtain ⟨-, hunclaimed⟩ := hfree (hadded.symm.trans hdevice')
      rw [hat]
      exact (hunclaimed entry hentry).symm
    · exact hvacant id' found' hold hdevice'

theorem Sound.settle (h : host.Sound dt root) (chatId : String) {cwd id : String} {found : Space}
    (hfound : space dt host.reg id = some found) (hdevice : found.deviceId = host.deviceId)
    (hpath : found.path = cwd ∨ root cwd = some found.path ∧ host.Free dt cwd) :
    (host.settle chatId cwd found.id).Sound dt root := by
  refine ⟨h.keyed, h.unique, fun entry hentry => ?_, h.creates⟩
  obtain hold | hnew := List.mem_append.mp hentry
  · exact h.resolved entry hold
  · cases List.mem_singleton.mp hnew
    exact ⟨id, found, hfound, rfl, hdevice, hpath⟩

theorem Sound.resolve (h : host.Sound dt root) (order : HashOrder) (chatId cwd : String) :
    (match (host.spaceAt config dt order cwd).or
        ((root cwd).bind (host.spaceAt config dt order)) with
      | some space => host.settle chatId cwd space.id
      | none => host.spawn (.minting chatId cwd)).Sound dt root := by
  cases hat : host.spaceAt config dt order cwd with
  | some found =>
      obtain ⟨id, hfound, hdevice, hpath⟩ := space_of_spaceAt h.keyed hat
      exact h.settle chatId hfound hdevice (.inl hpath)
  | none =>
      rw [Option.none_or]
      have hvacant := free_of_spaceAt h.keyed hat
      cases hroot : (root cwd).bind (host.spaceAt config dt order) with
      | none => exact h.spawn _
      | some found =>
          obtain ⟨folder, hfolder, hat⟩ := Option.bind_eq_some_iff.mp hroot
          obtain ⟨id, hfound, hdevice, hpath⟩ := space_of_spaceAt h.keyed hat
          rw [← hpath] at hfolder
          exact h.settle chatId hfound hdevice (.inr ⟨hfolder, hvacant⟩)

theorem Sound.mint (h : host.Sound dt root) (input : Input) (chatId cwd : String)
    (hfresh : host.reg.shownRow (spaceKey input.newId) = none) (hcwd : host.Free dt cwd)
    (hroot : ∀ folder ∈ root cwd, host.Free dt folder)
    (hunclaimed : host.Unclaimed ((root cwd).getD cwd)) :
    ({ host with reg := host.reg.upsertSpace input.wall (host.mintedSpace root input cwd) }.settle
      chatId cwd input.newId).Sound dt root := by
  have hnone : host.reg.overlayRow (spaceKey input.newId) = none := by
    rw [RegistryDoc.overlayRow_shownRow, hfresh]
    rfl
  have hfree : host.Free dt ((root cwd).getD cwd) := by
    cases hfolder : root cwd with
    | none => exact hcwd
    | some folder => exact hroot folder hfolder
  have hadded := @Sound.upsertSpace dt root host h input.wall (host.mintedSpace root input cwd)
    hnone fun _ => ⟨hfree, hunclaimed⟩
  obtain ⟨found, hfound⟩ := @space_mintedSpace dt root host input cwd hfresh
  obtain ⟨hid, hdevice, hpath⟩ := space_upsertSpace hnone hfound
  rw [← show found.id = input.newId from hid]
  refine hadded.settle chatId hfound hdevice ?_
  by_cases hcwd' : found.path = cwd
  · exact .inl hcwd'
  · right
    cases hfolder : root cwd with
    | none =>
        rw [hpath, mintedSpace, hfolder] at hcwd'
        exact absurd rfl hcwd'
    | some folder =>
        refine ⟨?_, fun id other hother hown => ?_⟩
        · rw [hpath, mintedSpace, hfolder]
          rfl
        · by_cases hnew : id = input.newId
          · subst hnew
            cases hfound.symm.trans hother
            exact hcwd'
          · exact hcwd id other ((space_upsertSpace_of_ne hnew).symm.trans hother) hown

theorem Sound.proceed (h : host.Sound dt root) {input : Input} {task : Task}
    (hplace : match task with
      | .minting _ cwd => host.Free dt cwd ∧ (∀ folder ∈ root cwd, host.Free dt folder) ∧
          host.Unclaimed ((root cwd).getD cwd)
      | .adding added => host.reg.overlayRow (spaceKey added.id) = none ∧
          (added.deviceId = host.deviceId → host.Free dt added.path ∧ host.Unclaimed added.path)
      | .creating chat => host.reg.overlayRow (chatKey chat.id) = none
      | _ => True)
    (hstep : host.proceed config dt root input task = some host') : host'.Sound dt root := by
  cases task with
  | resolving chatId cwd =>
      cases hstep
      exact h.resolve ..
  | minting chatId cwd =>
      simp only [Host.proceed] at hstep
      split_ifs at hstep with hfresh
      cases hstep
      obtain ⟨hcwd, hroot, hunclaimed⟩ := hplace
      exact h.mint input chatId cwd (Option.isNone_iff_eq_none.mp hfresh) hcwd hroot hunclaimed
  | claiming chatId cwd spaceId =>
      cases hstep
      refine h.write_chats (RegistryDoc.enqueued_write ..) fun op hop => ?_
      cases List.mem_singleton.mp hop
      rfl
  | placing chatId spaceId chatConfig cwd =>
      cases hstep
      cases space dt host.reg spaceId with
      | none => exact h
      | some found => exact h.spawn _
  | creating chat =>
      cases hstep
      have hwritten := h.upsertChat input.wall { chat with createdAt := input.now }
      refine ⟨hwritten.keyed, hwritten.unique, hwritten.resolved, fun entry hentry hrow => ?_⟩
      obtain hold | hnew := List.mem_append.mp hentry
      · exact h.creates entry hold hrow
      · cases List.mem_singleton.mp hnew
        rw [hplace] at hrow
        cases hrow
  | adding added =>
      cases hstep
      exact @Sound.upsertSpace dt root host h input.wall { added with createdAt := input.now }
        hplace.1 hplace.2
  | rewriting chat =>
      cases hstep
      exact h.upsertChat ..

theorem Sound.step (h : host.Sound dt root) {action : Action × Input}
    (hplace : host.InPlace dt root action) (hstep : host.step config dt root action = some host') :
    host'.Sound dt root := by
  obtain ⟨action, input⟩ := action
  cases action with
  | claimChat chatId cwd =>
      cases hstep
      cases chat config dt host.reg chatId with
      | none => exact h.spawn _
      | some _ => exact h
  | createChat chatId spaceId deviceId chatConfig cwd =>
      cases hstep
      split
      · exact h
      · exact h.spawn _
      · exact h.spawn _
      · exact h
  | createSpace spaceId deviceId path name gitDetected =>
      cases hstep
      split
      · exact h
      · exact h.spawn _
  | set call =>
      simp only [Host.step] at hstep
      split_ifs at hstep with hsets
      cases hstep
      have hsetter : call.isSetter = true := by
        cases call <;> first | rfl | cases hsets
      exact h.write_chats (RegistryDoc.enqueued_setter (raw config dt) input.order hsetter)
        (kind_of_setsChat hsets)
  | setChatActivity chatId lastMessageAt createdAt | setChatHost chatId deviceId =>
      cases hstep
      cases chat config dt host.reg chatId with
      | none => exact h
      | some _ => exact h.spawn _
  | goOn k =>
      obtain ⟨task, htask, hproceed⟩ := Option.bind_eq_some_iff.mp hstep
      have htaken : { host with tasks := host.tasks.eraseIdx k }.Sound dt root :=
        h.of_same h.keyed (fun _ => rfl) rfl rfl h.creates
      refine htaken.proceed ?_ hproceed
      unfold InPlace at hplace
      simp only [htask] at hplace
      cases task <;> exact hplace

end Host

/-- A `create_chat` changes no row that exists, a claim clears no field, the spaces of this device
have paths of their own, and the claims of one folder end in one space. -/
theorem creation_is_idempotent {host : Host}
    (h : (machine config dt root).ReachableWhen (Host.InPlace dt root) host) :
    (∀ entry ∈ host.creates, entry.1.isSome → entry.2 = entry.1) ∧
    (∀ wall chatId cwd spaceId createdAt row,
      host.reg.overlayRow (chatKey chatId) = some row →
        ∃ row', (host.reg.claimChat wall chatId cwd spaceId createdAt).overlayRow (chatKey chatId) =
          some row' ∧ ∀ (name : String) (value : JsonValue), row.fields[name]? = some value →
            (row'.fields[name]?).isSome) ∧
    host.Unique dt ∧
    ∀ cwd id id', (cwd, id) ∈ host.resolved → (cwd, id') ∈ host.resolved → id = id' := by
  have hsound : host.Sound dt root := by
    refine h.invariant (fun host hinit => ?_) fun host action host' hinv hplace hstep =>
      hinv.step hplace hstep
    obtain ⟨hkeyed, hunique, -, hresolved, hcreates⟩ := hinit
    exact ⟨hkeyed, hunique, by simp [hresolved], by simp [hcreates]⟩
  refine ⟨hsound.creates, fun wall chatId cwd spaceId createdAt row => ?_, hsound.unique, ?_⟩
  · exact claimChat_keeps host.reg wall chatId cwd spaceId createdAt
  · intro cwd id id' hid hid'
    obtain ⟨row, found, hfound, rfl, hdevice, hpath⟩ := hsound.resolved _ hid
    obtain ⟨row', found', hfound', rfl, hdevice', hpath'⟩ := hsound.resolved _ hid'
    have hsame : found.path = found'.path := by
      obtain hat | ⟨hroot, hvacant⟩ := hpath
      · obtain hat' | ⟨-, hvacant'⟩ := hpath'
        · exact hat.trans hat'.symm
        · exact absurd hat (hvacant' _ _ hfound hdevice)
      · obtain hat' | ⟨hroot', -⟩ := hpath'
        · exact absurd hat' (hvacant _ _ hfound' hdevice')
        · exact Option.some.inj (hroot.symm.trans hroot')
    cases hsound.unique _ _ _ _ hfound hfound' hdevice hdevice' hsame
    cases hfound.symm.trans hfound'
    rfl

end Model

/-! ## A folder without a space -/

def start : Host :=
  { deviceId := "desk", reg := .new "desk", tasks := [], resolved := [], creates := [] }

def input (newId : String) : Input :=
  { order := .byKey, wall := fun _ => 1000, now := 1000, now_range := by decide, newId }

abbrev plain : Machine Host (Action × Input) := machine some id fun _ => none

theorem init_start : plain.init start := by
  refine ⟨RowTable.keyed_empty, ?_, rfl, rfl, rfl⟩
  intro id id' found found' hfound
  obtain ⟨row, hrow, -⟩ := Option.bind_eq_some_iff.mp hfound
  cases hrow

theorem spaceAt_empty {host : Host} (hreg : host.reg = .new "desk") (path : String) :
    host.spaceAt some id .byKey path = none := by
  have hids : ((RegistryDoc.new "desk").readKind .byKey kindSpaces (rawSpace id)).map (·.id) =
      [] := by
    decide +kernel
  unfold Host.spaceAt RegistryDoc.readSpaces
  dsimp only [raw]
  rw [hreg, List.map_eq_nil_iff.mp hids, List.mergeSort_nil, List.find?_nil]

theorem step_resolving {host : Host} {k : Nat} {chatId cwd : String} (newId : String)
    (hreg : host.reg = .new "desk") (htask : host.tasks[k]? = some (.resolving chatId cwd)) :
    plain.step host (.goOn k, input newId) =
      some ({ host with tasks := host.tasks.eraseIdx k }.spawn (.minting chatId cwd)) := by
  have hnone : Host.spaceAt some id { host with tasks := host.tasks.eraseIdx k } .byKey cwd =
      none :=
    spaceAt_empty hreg cwd
  simp only [machine, Host.step, htask, Option.bind_some, Host.proceed, input, hnone,
    Option.bind_none, Option.or_none]

theorem step_minting {host : Host} {k : Nat} {chatId cwd newId : String}
    (htask : host.tasks[k]? = some (.minting chatId cwd))
    (hfresh : (host.reg.shownRow (spaceKey newId)).isNone = true) :
    plain.step host (.goOn k, input newId) = some
      (Host.settle
        { host with
          tasks := host.tasks.eraseIdx k
          reg := host.reg.upsertSpace (fun _ => 1000)
            (host.mintedSpace (fun _ => none) (input newId) cwd) } chatId cwd newId) := by
  simp only [machine, Host.step, htask, Option.bind_some, Host.proceed]
  exact if_pos hfresh

def minted (reg : RegistryDoc) (newId : String) : RegistryDoc :=
  reg.upsertSpace (fun _ => 1000)
    { id := newId, deviceId := "desk", path := "/one", name := none, gitDetected := false
      gitCheckedAt := none, checkoutId := none, createdAt := 1000 }

/-- The space that the first claim of a folder made. -/
theorem spaceAt_minted {host : Host} (hreg : host.reg = minted start.reg "s1")
    (hdevice : host.deviceId = "desk") :
    (host.spaceAt some id .byKey "/one").map (·.id) = some "s1" := by
  have hread : ((minted start.reg "s1").readKind .byKey kindSpaces (rawSpace id)).map
      (fun space => (space.id, space.deviceId, space.path)) = [("s1", "desk", "/one")] := by
    decide +kernel
  obtain ⟨found, hfound, hvalues⟩ := List.map_eq_singleton_iff.mp hread
  simp only [Prod.mk.injEq] at hvalues
  unfold Host.spaceAt RegistryDoc.readSpaces
  dsimp only [raw]
  rw [hreg, hfound, List.mergeSort_singleton]
  simp [hvalues, hdevice]

/-- Two claims of a folder, one after the other, and a new chat in it. -/
theorem creation_is_idempotent_claimed :
    ∃ host : Host, host.resolved = [("/one", "s1"), ("/one", "s1")] ∧ host.creates.length = 1 ∧
      (∀ entry ∈ host.creates, entry.1.isSome → entry.2 = entry.1) ∧ host.Unique id ∧
      ∀ cwd id id', (cwd, id) ∈ host.resolved → (cwd, id') ∈ host.resolved → id = id' := by
  let claimed : Host := { start with tasks := [.resolving "c1" "/one"] }
  let waiting : Host := { start with tasks := [.minting "c1" "/one"] }
  let settled : Host :=
    { start with
      reg := minted start.reg "s1"
      tasks := [.claiming "c1" (some "/one") (some "s1")]
      resolved := [("/one", "s1")] }
  let again : Host := { settled with tasks := settled.tasks ++ [.resolving "c2" "/one"] }
  let found : Host :=
    { settled with
      tasks := settled.tasks ++ [.claiming "c2" (some "/one") (some "s1")]
      resolved := [("/one", "s1"), ("/one", "s1")] }
  have hclaim : plain.step start (.claimChat "c1" (some "/one"), input "") = some claimed := rfl
  have hresolve : plain.step claimed (.goOn 0, input "") = some waiting :=
    step_resolving "" rfl rfl
  have hmint : plain.step waiting (.goOn 0, input "s1") = some settled :=
    step_minting rfl (by decide +kernel)
  have hfree (path : String) : waiting.Free id path := by
    intro id found hfound
    obtain ⟨row, hrow, -⟩ := Option.bind_eq_some_iff.mp hfound
    cases hrow
  have hplace : waiting.InPlace id (fun _ => none) (.goOn 0, input "s1") :=
    ⟨hfree _, fun _ hnone => (Option.not_mem_none _ hnone).elim, fun _ hentry =>
      (List.not_mem_nil hentry).elim⟩
  have hvacant (chatId : String) (h : (settled.reg.overlayRow (chatKey chatId)).isNone = true) :
      chat some id settled.reg chatId = none := by
    rw [chat, Option.isNone_iff_eq_none.mp h, Option.bind_none]
  have hclaim' : plain.step settled (.claimChat "c2" (some "/one"), input "") = some again := by
    simp only [machine, Host.step, hvacant "c2" (by decide +kernel), Option.elim]
    rfl
  have hfound : plain.step again (.goOn 1, input "") = some found := by
    obtain ⟨space, hspace, hid⟩ := Option.map_eq_some_iff.mp
      (@spaceAt_minted { again with tasks := again.tasks.eraseIdx 1 } rfl rfl)
    simp only [machine, Host.step, show again.tasks[1]? = some (.resolving "c2" "/one") from rfl,
      Option.bind_some, Host.proceed, input, hspace, Option.some_or, hid]
    rfl
  let creating : Host :=
    { found with tasks := found.tasks ++ [.creating (newChat "c3" "desk" "/one" none none)] }
  have hcreate : plain.step found
      (.createChat "c3" none (some "desk") none (some "/one"), input "") = some creating := by
    simp only [machine, Host.step, show found.reg = settled.reg from rfl,
      hvacant "c3" (by decide +kernel)]
    rfl
  obtain ⟨created, hcreated⟩ : ∃ created, plain.step creating (.goOn 2, input "") = some created :=
    ⟨_, rfl⟩
  have hplace' : creating.InPlace id (fun _ => none) (.goOn 2, input "") :=
    Option.isNone_iff_eq_none.mp (by decide +kernel)
  obtain ⟨hcreates, -, hunique, hsame⟩ := creation_is_idempotent ⟨start, init_start,
    (((((((Machine.Steps.refl start).tail trivial hclaim).tail trivial hresolve).tail hplace
      hmint).tail (by trivial) hclaim').tail (by trivial) hfound).tail (by trivial) hcreate).tail
        hplace' hcreated⟩
  cases hcreated
  exact ⟨_, rfl, rfl, hcreates, hunique, hsame⟩

/-- Two first commands in one folder: both read the spaces before either writes one. And two
creations of one chat, which differ in their folder. -/
theorem creations_race :
    (¬∀ host, plain.Reachable host → host.Unique id) ∧
      ¬∀ host, plain.Reachable host → ∀ entry ∈ host.creates, entry.1.isSome →
        entry.2 = entry.1 := by
  constructor
  · intro h
    let claimed : Host :=
      { start with tasks := [.resolving "c1" "/one", .resolving "c2" "/one"] }
    let resolved : Host := { start with tasks := [.minting "c1" "/one", .minting "c2" "/one"] }
    let first : Host :=
      { start with
        reg := minted start.reg "s1"
        tasks := [.minting "c2" "/one", .claiming "c1" (some "/one") (some "s1")]
        resolved := [("/one", "s1")] }
    let second : Host :=
      { start with
        reg := minted (minted start.reg "s1") "s2"
        tasks := [.claiming "c1" (some "/one") (some "s1"),
          .claiming "c2" (some "/one") (some "s2")]
        resolved := [("/one", "s1"), ("/one", "s2")] }
    have hclaims : plain.run start [(.claimChat "c1" (some "/one"), input ""),
        (.claimChat "c2" (some "/one"), input "")] = some claimed := rfl
    have hresolve : plain.step claimed (.goOn 0, input "") =
        some { start with tasks := [.resolving "c2" "/one", .minting "c1" "/one"] } :=
      step_resolving "" rfl rfl
    have hresolve' : plain.step
        { start with tasks := [.resolving "c2" "/one", .minting "c1" "/one"] }
        (.goOn 0, input "") =
        some { start with tasks := [.minting "c1" "/one", .minting "c2" "/one"] } :=
      step_resolving "" rfl rfl
    have hfirst : plain.step resolved (.goOn 0, input "s1") = some first :=
      step_minting rfl (by decide +kernel)
    have hsecond : plain.step first (.goOn 0, input "s2") = some second :=
      step_minting rfl (by decide +kernel)
    have hunique := h second ⟨start, init_start, ((((Machine.steps_of_run hclaims).tail trivial
      hresolve).tail trivial hresolve').tail trivial hfirst).tail trivial hsecond⟩
    have hshown (id' : String)
        (hspace : (space id second.reg id').map (fun found => (found.deviceId, found.path)) =
          some ("desk", "/one")) :
        ∃ found, space id second.reg id' = some found ∧ found.deviceId = "desk" ∧
          found.path = "/one" := by
      obtain ⟨found, hfound, heq⟩ := Option.map_eq_some_iff.mp hspace
      exact ⟨found, hfound, congrArg Prod.fst heq, congrArg Prod.snd heq⟩
    obtain ⟨found, hfound, hdevice, hpath⟩ := hshown "s1" (by decide +kernel)
    obtain ⟨found', hfound', hdevice', hpath'⟩ := hshown "s2" (by decide +kernel)
    exact absurd (hunique _ _ _ _ hfound hfound' hdevice hdevice' (hpath.trans hpath'.symm))
      (by decide)
  · intro h
    obtain ⟨host, hsteps, hhost⟩ := Machine.exists_steps_of_runWhen plain Machine.anyStep
      (s := start) [(.createChat "c1" none (some "desk") none (some "/one"), input ""),
        (.createChat "c1" none (some "desk") none (some "/two"), input ""), (.goOn 0, input ""),
        (.goOn 0, input "")]
      (p := fun host => host.creates.any fun entry =>
        entry.1.isSome && decide (entry.2 ≠ entry.1)) (by decide +kernel)
    obtain ⟨entry, hentry, hchanged⟩ := List.any_eq_true.mp hhost
    rw [Bool.and_eq_true, decide_eq_true_eq] at hchanged
    exact hchanged.2 (h host ⟨start, init_start, hsteps⟩ entry hentry hchanged.1)

end Zeron.Engine.RowCreation
