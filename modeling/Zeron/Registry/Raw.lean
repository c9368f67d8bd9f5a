import Zeron.Registry.Entities

/-!
# Rows read as entities

`RawSpace`, `RawChat` and `RawSession` of `crates/doc/src/workspace.rs` as `derive(Deserialize)`
reads them: a field of the wrong type, or one without a default that is missing, makes the row
malformed. `config` reads a `ChatConfig`, and `dt` is the time of a number of milliseconds.
-/

namespace Zeron.Registry

namespace JsonValue

def str? : JsonValue → Option String
  | .string value => some value
  | _ => none

def bool? : JsonValue → Option Bool
  | .bool value => some value
  | _ => none

def i64? : JsonValue → Option Int
  | .int value => if -2 ^ 63 ≤ value ∧ value < 2 ^ 63 then some value else none
  | _ => none

def u32? : JsonValue → Option Nat
  | .int value => if 0 ≤ value ∧ value < 2 ^ 32 then some value.toNat else none
  | _ => none

/-- A unit variant is its name, also as the one key of an object. -/
def variant? : JsonValue → Option String
  | .string name => some name
  | .object [(name, .null)] => some name
  | _ => none

theorem str?_eq_some {value : JsonValue} {text : String} :
    value.str? = some text ↔ value = .string text := by
  cases value <;> simp [str?]

end JsonValue

section Fields

variable {α : Type} (row : FieldMap JsonValue) (name : String) (read : JsonValue → Option α)

def needed : Option α := (row[name]?).bind read

def defaulted (default : α) : Option α := (row[name]?).elim (some default) read

/-- A field of an `Option` type: none where it is missing or null. -/
def optional : Option (Option α) :=
  match row[name]? with
  | none | some .null => some none
  | some value => (read value).map some

variable {row name}

theorem needed_str {text : String} (h : needed row name JsonValue.str? = some text) :
    row[name]? = some (.string text) := by
  obtain ⟨value, hvalue, hread⟩ := Option.bind_eq_some_iff.mp h
  rw [hvalue, JsonValue.str?_eq_some.mp hread]

theorem optional_str {found : Option String} (h : optional row name JsonValue.str? = some found)
    (text : String) : found = some text ↔ row[name]? = some (.string text) := by
  unfold optional at h
  cases hvalue : row[name]? with
  | none =>
      rw [hvalue] at h
      cases h
      simp
  | some value =>
      rw [hvalue] at h
      cases value with
      | string _ | null =>
          cases h
          simp
      | bool _ | int _ | double _ | array _ | object _ => simp [JsonValue.str?] at h

end Fields

def SessionStatus.ofText : String → Option SessionStatus
  | "idle" => some .idle
  | "working" => some .working
  | "awaitingInput" => some .awaitingInput
  | "errored" => some .errored
  | _ => none

section Raw

variable (config : JsonValue → Option JsonValue) (dt : Int → Int) (row : FieldMap JsonValue)

def rawSpace : Option Space := do
  let id ← needed row "id" JsonValue.str?
  let deviceId ← needed row "deviceId" JsonValue.str?
  let path ← needed row "path" JsonValue.str?
  let name ← optional row "name" JsonValue.str?
  let gitDetected ← defaulted row "gitDetected" JsonValue.bool? false
  let gitCheckedAt ← optional row "gitCheckedAt" JsonValue.i64?
  let checkoutId ← optional row "checkoutId" JsonValue.str?
  let createdAt ← defaulted row "createdAt" JsonValue.i64? 0
  return {
    id, deviceId, path, name, gitDetected, gitCheckedAt := gitCheckedAt.map dt, checkoutId
    createdAt := dt createdAt }

def rawChat : Option Chat := do
  let id ← needed row "id" JsonValue.str?
  let deviceId ← needed row "deviceId" JsonValue.str?
  let title ← optional row "title" JsonValue.str?
  let archived ← defaulted row "archived" JsonValue.bool? false
  let cwd ← optional row "cwd" JsonValue.str?
  let branch ← optional row "branch" JsonValue.str?
  let checkoutId ← optional row "checkoutId" JsonValue.str?
  let config ← optional row "config" config
  let lastMessagePreview ← optional row "lastMessagePreview" JsonValue.str?
  let lastMessageAt ← optional row "lastMessageAt" JsonValue.i64?
  let createdAt ← defaulted row "createdAt" JsonValue.i64? 0
  let harnessSessionId ← optional row "harnessSessionId" JsonValue.str?
  let harnessSessionCwd ← optional row "harnessSessionCwd" JsonValue.str?
  let spaceId ← optional row "spaceId" JsonValue.str?
  let lastSeenAt ← optional row "lastSeenAt" JsonValue.i64?
  let roomGen ← optional row "roomGen" JsonValue.u32?
  return {
    id, deviceId, title, archived, cwd, branch, checkoutId, config, lastMessagePreview
    lastMessageAt := lastMessageAt.map dt, createdAt := dt createdAt, harnessSessionId
    harnessSessionCwd, spaceId, lastSeenAt := lastSeenAt.map dt, roomGen }

def rawSession : Option Session := do
  let chatId ← needed row "chatId" JsonValue.str?
  let deviceId ← needed row "deviceId" JsonValue.str?
  let status ← needed row "status" fun value => value.variant?.bind SessionStatus.ofText
  let startedAt ← optional row "startedAt" JsonValue.i64?
  let updatedAt ← defaulted row "updatedAt" JsonValue.i64? 0
  return { chatId, deviceId, status, startedAt := startedAt.map dt, updatedAt := dt updatedAt }

def raw : Serde :=
  { space := rawSpace dt, chat := rawChat config dt, session := rawSession dt }

variable {config dt row}

theorem rawSpace_fields {space : Space} (h : rawSpace dt row = some space) :
    row["id"]? = some (.string space.id) ∧ row["deviceId"]? = some (.string space.deviceId) ∧
      row["path"]? = some (.string space.path) := by
  unfold rawSpace at h
  simp only [Option.bind_eq_bind, Option.bind_eq_some_iff, Option.pure_def, Option.some_inj] at h
  obtain ⟨id, hid, deviceId, hdevice, path, hpath, name, -, git, -, checked, -, checkout, -, created, -,
    rfl⟩ := h
  exact ⟨needed_str hid, needed_str hdevice, needed_str hpath⟩

theorem rawChat_fields {chat : Chat} (h : rawChat config dt row = some chat) :
    row["id"]? = some (.string chat.id) ∧ row["deviceId"]? = some (.string chat.deviceId) ∧
      ∀ spaceId, chat.spaceId = some spaceId ↔ row["spaceId"]? = some (.string spaceId) := by
  obtain ⟨id, hid, h⟩ := Option.bind_eq_some_iff.mp h
  obtain ⟨deviceId, hdevice, h⟩ := Option.bind_eq_some_iff.mp h
  obtain ⟨title, -, h⟩ := Option.bind_eq_some_iff.mp h
  obtain ⟨archived, -, h⟩ := Option.bind_eq_some_iff.mp h
  obtain ⟨cwd, -, h⟩ := Option.bind_eq_some_iff.mp h
  obtain ⟨branch, -, h⟩ := Option.bind_eq_some_iff.mp h
  obtain ⟨checkoutId, -, h⟩ := Option.bind_eq_some_iff.mp h
  obtain ⟨chatConfig, -, h⟩ := Option.bind_eq_some_iff.mp h
  obtain ⟨preview, -, h⟩ := Option.bind_eq_some_iff.mp h
  obtain ⟨messageAt, -, h⟩ := Option.bind_eq_some_iff.mp h
  obtain ⟨createdAt, -, h⟩ := Option.bind_eq_some_iff.mp h
  obtain ⟨session, -, h⟩ := Option.bind_eq_some_iff.mp h
  obtain ⟨sessionCwd, -, h⟩ := Option.bind_eq_some_iff.mp h
  obtain ⟨spaceId, hspace, h⟩ := Option.bind_eq_some_iff.mp h
  obtain ⟨seenAt, -, h⟩ := Option.bind_eq_some_iff.mp h
  obtain ⟨roomGen, -, h⟩ := Option.bind_eq_some_iff.mp h
  cases h
  exact ⟨needed_str hid, needed_str hdevice, optional_str hspace⟩

theorem rawSession_fields {session : Session} (h : rawSession dt row = some session) :
    row["chatId"]? = some (.string session.chatId) ∧
      row["deviceId"]? = some (.string session.deviceId) := by
  unfold rawSession at h
  simp only [Option.bind_eq_bind, Option.bind_eq_some_iff, Option.pure_def, Option.some_inj] at h
  obtain ⟨chatId, hid, deviceId, hdevice, status, -, started, -, updated, -, rfl⟩ := h
  exact ⟨needed_str hid, needed_str hdevice⟩

end Raw

end Zeron.Registry
