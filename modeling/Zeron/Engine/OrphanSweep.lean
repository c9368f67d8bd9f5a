import Zeron.Lib.Machine
import Zeron.Registry.DeviceMerge

/-!
# The orphan sweep

`sweep_orphans` of `crates/engine/src/spaces.rs` beside the publishes of `WorkspaceHost`. The sweep
takes the spaces from one watch and the chats from another, and deletes under the lock of the
registry what was orphaned in the two. The watches of the devices and the sessions, which a publish
sends in between, are left out.
-/

namespace Zeron.Engine.OrphanSweep

open Zeron.Lib (Machine)
open Zeron.Registry

abbrev Registry := { doc : RegistryDoc // doc.authoritative.Keyed }

/-- The value of a watch, with the registry that it was read from. -/
structure Watched (α : Type) where
  value : List α
  source : Registry

/-- A publish that has read all rows. -/
structure Publish where
  chats : Watched Chat
  spaces : Watched Space
  chatsSent : Bool

inductive Sweep where
  | idle
  /-- Holds a copy of the spaces. -/
  | listed (spaces : Watched Space)
  /-- At the chats that are left of its copy. -/
  | visiting (spaces : Watched Space) (source : Registry) (rest : List Chat)

/-- Kept for the statements: the chats that sweeps deleted, each with the registry before. -/
structure Host where
  deviceId : String
  reg : Registry
  chatsTx : Watched Chat
  spacesTx : Watched Space
  publishes : List Publish
  sweep : Sweep
  deleted : List (String × Registry)

inductive Action where
  /-- A local mutation or frames of the room, under the lock. -/
  | change (reg : Registry)
  | publish (order : HashOrder)
  /-- A publish sends to its next watch. -/
  | send (k : Nat)
  | borrowSpaces
  | borrowChats
  | visit (wall : Nat → Int)

section Model

variable (config : JsonValue → Option JsonValue) (dt : Int → Int)

def readChats (order : HashOrder) (reg : Registry) : Watched Chat :=
  { value := reg.1.readChats (raw config dt) order, source := reg }

def readSpaces (order : HashOrder) (reg : Registry) : Watched Space :=
  { value := reg.1.readSpaces (raw config dt) order, source := reg }

namespace Host

/-- `WorkspaceHost::open`: the watches start with what is read. -/
def opened (deviceId : String) (order : HashOrder) (reg : Registry) : Host where
  deviceId := deviceId
  reg := reg
  chatsTx := readChats config dt order reg
  spacesTx := readSpaces config dt order reg
  publishes := []
  sweep := .idle
  deleted := []

variable (host : Host)

/-- The space that makes the chat an orphan: a chat of this device names it and the copy has not. -/
def missing (spaces : Watched Space) (chat : Chat) : Option String :=
  if chat.deviceId = host.deviceId then
    chat.spaceId.filter fun spaceId => spaceId ∉ spaces.value.map (·.id)
  else none

def deleteChat (wall : Nat → Int) (chatId : String) : Host :=
  { host with
    reg := ⟨(host.reg.1.deleteChat wall chatId).1, by
      rw [RegistryDoc.deleteChat, (RegistryDoc.enqueued_deleteRowOps ..).authoritative]
      exact host.reg.2⟩
    deleted := host.deleted ++ [(chatId, host.reg)] }

def step : Action → Option Host
  | .change reg => some { host with reg }
  | .publish order =>
      some { host with publishes := host.publishes ++
        [⟨readChats config dt order host.reg, readSpaces config dt order host.reg, false⟩] }
  | .send k =>
      (host.publishes[k]?).map fun publish =>
        if publish.chatsSent then
          { host with spacesTx := publish.spaces, publishes := host.publishes.eraseIdx k }
        else
          { host with
            chatsTx := publish.chats
            publishes := host.publishes.set k { publish with chatsSent := true } }
  | .borrowSpaces =>
      match host.sweep with
      | .idle => some { host with sweep := .listed host.spacesTx }
      | _ => none
  | .borrowChats =>
      match host.sweep with
      | .listed spaces =>
          some { host with sweep := .visiting spaces host.chatsTx.source host.chatsTx.value }
      | _ => none
  | .visit wall =>
      match host.sweep with
      | .visiting _ _ [] => some { host with sweep := .idle }
      | .visiting spaces source (chat :: rest) =>
          let host' := { host with sweep := .visiting spaces source rest }
          some (if (host.missing spaces chat).isSome then host'.deleteChat wall chat.id else host')
      | _ => none

end Host

def machine : Machine Host Action where
  init host := ∃ deviceId order reg, host = .opened config dt deviceId order reg
  step := Host.step config dt

/-! ## Orphans -/

/-- The row of the chat, if it is shown, names a space that is not. -/
def Orphaned (reg : Registry) (chatId : String) : Prop :=
  ∀ row, reg.1.overlayRow { kind := kindChats, id := chatId } = some row →
    ∃ spaceId, row.fields["spaceId"]? = some (.string spaceId) ∧
      reg.1.overlayRow { kind := kindSpaces, id := spaceId } = none

/-- The rows of the chat and of the space stand under the ids that they are read with, and are as
they were when the values of the two watches were read. -/
structure AsRead (host : Host) (spaces : Watched Space) (source : Registry) (chat : Chat)
    (spaceId : String) : Prop where
  chatId : ∀ row ∈ source.1.overlayRows .byKey kindChats, rawChat config dt row.fields = some chat →
    row.id = chat.id
  chatRow : host.reg.1.overlayRow { kind := kindChats, id := chat.id } = none ∨
    host.reg.1.overlayRow { kind := kindChats, id := chat.id } =
      source.1.overlayRow { kind := kindChats, id := chat.id }
  ownId : ∀ row, spaces.source.1.overlayRow { kind := kindSpaces, id := spaceId } = some row →
    ∃ space, rawSpace dt row.fields = some space ∧ space.id = spaceId
  spaceRow : host.reg.1.overlayRow { kind := kindSpaces, id := spaceId } =
    spaces.source.1.overlayRow { kind := kindSpaces, id := spaceId }

/-- What a sweep is about to delete is as it was read. -/
def InPlace (host : Host) : Action → Prop
  | .visit _ => ∀ spaces source chat rest, host.sweep = .visiting spaces source (chat :: rest) →
      ∀ spaceId, host.missing spaces chat = some spaceId →
        AsRead config dt host spaces source chat spaceId
  | _ => True

/-! ## What the watches hold -/

def HoldsChats (source : Registry) (chats : List Chat) : Prop :=
  ∀ chat ∈ chats, ∃ row ∈ source.1.overlayRows .byKey kindChats,
    rawChat config dt row.fields = some chat

def HoldsSpaces (spaces : Watched Space) : Prop :=
  ∀ row ∈ spaces.source.1.overlayRows .byKey kindSpaces, ∀ space,
    rawSpace dt row.fields = some space → space ∈ spaces.value

def Sweep.Holds : Sweep → Prop
  | .idle => True
  | .listed spaces => HoldsSpaces dt spaces
  | .visiting spaces source rest => HoldsSpaces dt spaces ∧ HoldsChats config dt source rest

/-- Whatever the watches, the publishes and the sweep hold was read from its source. -/
structure Host.Sound (host : Host) : Prop where
  chats : HoldsChats config dt host.chatsTx.source host.chatsTx.value
  spaces : HoldsSpaces dt host.spacesTx
  publishes : ∀ publish ∈ host.publishes,
    HoldsChats config dt publish.chats.source publish.chats.value ∧
      HoldsSpaces dt publish.spaces
  sweep : host.sweep.Holds config dt
  deleted : ∀ entry ∈ host.deleted, Orphaned entry.2 entry.1

variable {config dt} {host host' : Host}

theorem holdsChats_readChats (order : HashOrder) (reg : Registry) :
    HoldsChats config dt reg (readChats config dt order reg).value := fun _ hchat =>
  (RegistryDoc.mem_readKind reg.2).mp hchat

theorem holdsSpaces_readSpaces (order : HashOrder) (reg : Registry) :
    HoldsSpaces dt (readSpaces config dt order reg) := fun row hrow _ hspace =>
  (RegistryDoc.mem_readKind reg.2).mpr ⟨row, hrow, hspace⟩

theorem sound_opened (deviceId : String) (order : HashOrder) (reg : Registry) :
    (Host.opened config dt deviceId order reg).Sound config dt where
  chats := holdsChats_readChats order reg
  spaces := holdsSpaces_readSpaces order reg
  publishes := nofun
  sweep := trivial
  deleted := nofun

theorem orphaned_of_asRead {spaces : Watched Space} {source : Registry} {chat : Chat}
    {spaceId : String} (hspaces : HoldsSpaces dt spaces)
    (hchat : ∃ row ∈ source.1.overlayRows .byKey kindChats,
      rawChat config dt row.fields = some chat)
    (hmissing : host.missing spaces chat = some spaceId)
    (h : AsRead config dt host spaces source chat spaceId) : Orphaned host.reg chat.id := by
  unfold Host.missing at hmissing
  split_ifs at hmissing
  obtain ⟨hnames, hunlisted⟩ := Option.filter_eq_some_iff.mp hmissing
  intro row hrow
  obtain ⟨row', hrow', hread⟩ := hchat
  have hsource : source.1.overlayRow { kind := kindChats, id := chat.id } = some row :=
    (h.chatRow.resolve_left (by simp [hrow])).symm.trans hrow
  obtain ⟨hkind, hshown⟩ := (RegistryDoc.mem_overlayRows .byKey kindChats source.2).mp hrow'
  have hkey : row'.key = { kind := kindChats, id := chat.id } :=
    congrArg₂ RowKey.mk hkind (h.chatId row' hrow' hread)
  rw [hkey, hsource] at hshown
  cases hshown
  refine ⟨spaceId, ((rawChat_fields hread).2.2 spaceId).mp hnames, ?_⟩
  rw [h.spaceRow]
  refine Option.eq_none_iff_forall_not_mem.mpr fun spaceRow hspaceRow => ?_
  obtain ⟨space, hspace, rfl⟩ := h.ownId spaceRow hspaceRow
  have hspaceKey := RegistryDoc.overlayRow_key spaces.source.2 hspaceRow
  have hlisted : spaceRow ∈ spaces.source.1.overlayRows .byKey kindSpaces := by
    rw [RegistryDoc.mem_overlayRows .byKey kindSpaces spaces.source.2, hspaceKey]
    exact ⟨congrArg RowKey.kind hspaceKey, hspaceRow⟩
  have hmem : space.id ∈ spaces.value.map (·.id) :=
    List.mem_map_of_mem (hspaces spaceRow hlisted space hspace)
  simp [hmem] at hunlisted

theorem Host.Sound.step (h : host.Sound config dt) {action : Action}
    (hplace : InPlace config dt host action) (hstep : host.step config dt action = some host') :
    host'.Sound config dt := by
  cases action with
  | change reg =>
      cases hstep
      exact ⟨h.chats, h.spaces, h.publishes, h.sweep, h.deleted⟩
  | publish order =>
      cases hstep
      refine ⟨h.chats, h.spaces, fun publish hpublish => ?_, h.sweep, h.deleted⟩
      obtain hold | hnew := List.mem_append.mp hpublish
      · exact h.publishes publish hold
      · cases List.mem_singleton.mp hnew
        exact ⟨holdsChats_readChats order host.reg, holdsSpaces_readSpaces order host.reg⟩
  | send k =>
      obtain ⟨publish, hpublish, rfl⟩ := Option.map_eq_some_iff.mp hstep
      obtain ⟨hchats, hspaces⟩ := h.publishes publish (List.mem_of_getElem? hpublish)
      split_ifs
      · exact ⟨h.chats, hspaces,
          fun other hother => h.publishes other (List.mem_of_mem_eraseIdx hother), h.sweep,
          h.deleted⟩
      · refine ⟨hchats, h.spaces, fun other hother => ?_, h.sweep, h.deleted⟩
        obtain hold | rfl := List.mem_or_eq_of_mem_set hother
        · exact h.publishes other hold
        · exact ⟨hchats, hspaces⟩
  | borrowSpaces =>
      simp only [Host.step] at hstep
      split at hstep
      · cases hstep
        exact ⟨h.chats, h.spaces, h.publishes, h.spaces, h.deleted⟩
      · cases hstep
  | borrowChats =>
      simp only [Host.step] at hstep
      split at hstep
      · rename_i spaces hsweep
        cases hstep
        have hholds := h.sweep
        rw [hsweep] at hholds
        exact ⟨h.chats, h.spaces, h.publishes, ⟨hholds, h.chats⟩, h.deleted⟩
      · cases hstep
  | visit wall =>
      simp only [Host.step] at hstep
      split at hstep
      · cases hstep
        exact ⟨h.chats, h.spaces, h.publishes, trivial, h.deleted⟩
      · rename_i spaces source chat rest hsweep
        have hholds := h.sweep
        rw [hsweep] at hholds
        obtain ⟨hspaces, hchats⟩ := hholds
        have hrest : HoldsChats config dt source rest := fun other hother =>
          hchats other (List.mem_cons_of_mem _ hother)
        split_ifs at hstep with hmissing
        · cases hstep
          obtain ⟨spaceId, hspaceId⟩ := Option.isSome_iff_exists.mp hmissing
          refine ⟨h.chats, h.spaces, h.publishes, ⟨hspaces, hrest⟩, fun entry hentry => ?_⟩
          obtain hold | hnew := List.mem_append.mp hentry
          · exact h.deleted entry hold
          · cases List.mem_singleton.mp hnew
            exact orphaned_of_asRead hspaces (hchats chat List.mem_cons_self) hspaceId
              (hplace spaces source chat rest hsweep spaceId hspaceId)
        · cases hstep
          exact ⟨h.chats, h.spaces, h.publishes, ⟨hspaces, hrest⟩, h.deleted⟩
      · cases hstep

/-- A sweep deletes only orphans, where what it deletes is as it was read. -/
theorem sweeps_delete_orphans (h : (machine config dt).ReachableWhen (InPlace config dt) host) :
    ∀ entry ∈ host.deleted, Orphaned entry.2 entry.1 := by
  have hsound : host.Sound config dt := by
    refine h.invariant (fun host hinit => ?_) fun host action host' hinv hplace hstep =>
      hinv.step hplace hstep
    obtain ⟨deviceId, order, reg, rfl⟩ := hinit
    exact sound_opened deviceId order reg
  exact hsound.deleted

end Model

/-! ## A space and its chat, created -/

def empty : Registry := ⟨.new "desk", RowTable.keyed_empty⟩

def newSpace : Space :=
  { id := "s1", deviceId := "desk", path := "/one", name := none, gitDetected := false
    gitCheckedAt := none, checkoutId := none, createdAt := 1000 }

def newChat : Chat :=
  { id := "c1", deviceId := "desk", title := none, archived := false, cwd := some "/one"
    branch := none, checkoutId := none, config := none, lastMessagePreview := none
    lastMessageAt := none, createdAt := 1000, harnessSessionId := none, harnessSessionCwd := none
    spaceId := some "s1", lastSeenAt := none, roomGen := some 2 }

def created : Registry :=
  ⟨((RegistryDoc.new "desk").upsertSpace (fun _ => 1000) newSpace).upsertChat (fun _ => 1000)
    newChat, by
      unfold RegistryDoc.upsertChat RegistryDoc.upsertSpace
      rw [(RegistryDoc.enqueued_write ..).authoritative,
        (RegistryDoc.enqueued_write ..).authoritative]
      exact RowTable.keyed_empty⟩

/-- The chat alone: its space was deleted before it came. -/
def dangling : Registry :=
  ⟨(RegistryDoc.new "desk").upsertChat (fun _ => 1000) newChat, by
    unfold RegistryDoc.upsertChat
    rw [(RegistryDoc.enqueued_write ..).authoritative]
    exact RowTable.keyed_empty⟩

theorem readSpaces_of_none {reg : Registry}
    (h : (reg.1.readKind .byKey kindSpaces (rawSpace id)).map (·.id) = []) :
    (readSpaces some id .byKey reg).value = [] := by
  unfold readSpaces RegistryDoc.readSpaces
  dsimp only [raw]
  rw [List.map_eq_nil_iff.mp h, List.mergeSort_nil]

theorem readChats_of_one {reg : Registry}
    (h : (reg.1.readKind .byKey kindChats (rawChat some id)).map
      (fun chat => (chat.id, chat.deviceId, chat.spaceId)) = [("c1", "desk", some "s1")]) :
    ∃ chat, (readChats some id .byKey reg).value = [chat] ∧
      chat.id = "c1" ∧ chat.deviceId = "desk" ∧ chat.spaceId = some "s1" := by
  obtain ⟨chat, hchats, hchat⟩ := List.map_eq_singleton_iff.mp h
  simp only [Prod.mk.injEq] at hchat
  refine ⟨chat, ?_, hchat⟩
  unfold readChats RegistryDoc.readChats
  dsimp only [raw]
  rw [hchats, List.mergeSort_singleton]

theorem visit_deletes {host : Host} {spaces : Watched Space} {source : Registry} {chat : Chat}
    {rest : List Chat} (hsweep : host.sweep = .visiting spaces source (chat :: rest))
    (hdevice : chat.deviceId = host.deviceId) (hspace : chat.spaceId = some "s1")
    (hnone : spaces.value = []) (wall : Nat → Int) :
    host.missing spaces chat = some "s1" ∧
      ∃ host', (machine some id).step host (.visit wall) = some host' ∧
        host'.deleted = host.deleted ++ [(chat.id, host.reg)] := by
  have hmissing : host.missing spaces chat = some "s1" := by
    unfold Host.missing
    rw [if_pos hdevice, hspace, hnone]
    rfl
  refine ⟨hmissing,
    Host.deleteChat { host with sweep := .visiting spaces source rest } wall chat.id, ?_, rfl⟩
  simp only [machine, Host.step, hsweep, hmissing, Option.isSome_some, if_true]

theorem sweeps_delete_orphans_dangling :
    ∃ host : Host, host.deleted = [("c1", dangling)] ∧
      ∀ entry ∈ host.deleted, Orphaned entry.2 entry.1 := by
  obtain ⟨chat, hchats, hid, hdevice, hspace⟩ := @readChats_of_one dangling (by decide +kernel)
  have hnone := @readSpaces_of_none dangling (by decide +kernel)
  let start : Host := .opened some id "desk" .byKey dangling
  let spaces := readSpaces some id .byKey dangling
  have hlisted : (machine some id).step start .borrowSpaces =
      some { start with sweep := .listed spaces } := rfl
  have hvisiting : (machine some id).step { start with sweep := .listed spaces } .borrowChats =
      some { start with sweep := .visiting spaces dangling [chat] } := by
    rw [← hchats]
    rfl
  obtain ⟨hmissing, host, hvisit, hdeleted⟩ := @visit_deletes
    { start with sweep := .visiting spaces dangling [chat] } spaces dangling chat [] rfl hdevice
    hspace hnone fun _ => 2000
  have hplace : InPlace some id { start with sweep := .visiting spaces dangling [chat] }
      (.visit fun _ => 2000) := by
    intro spaces' source chat' rest hsweep spaceId hspaceId
    cases hsweep
    cases hmissing.symm.trans hspaceId
    refine ⟨fun row hrow _ => ?_, .inr rfl, fun row hrow => ?_, rfl⟩
    · have hids : (dangling.1.overlayRows .byKey kindChats).map (·.id) = ["c1"] := by
        decide +kernel
      have hmem : row.id ∈ ["c1"] := hids ▸ List.mem_map_of_mem hrow
      rw [List.mem_singleton.mp hmem, hid]
    · have hspaces : (dangling.1.overlayRow { kind := kindSpaces, id := "s1" }).isSome = false := by
        decide +kernel
      change dangling.1.overlayRow _ = some row at hrow
      rw [hrow] at hspaces
      cases hspaces
  refine ⟨host, ?_, @sweeps_delete_orphans some id host ⟨start, ⟨_, _, _, rfl⟩,
    (((Machine.Steps.refl start).tail trivial hlisted).tail trivial hvisiting).tail hplace hvisit⟩⟩
  rw [hdeleted, hid]
  rfl

/-- The sweep has borrowed the spaces when a space and its chat are created and published. -/
theorem new_space_looks_gone :
    ¬∀ host, (machine some id).Reachable host → ∀ entry ∈ host.deleted,
      Orphaned entry.2 entry.1 := by
  intro h
  obtain ⟨chat, hchats, hid, hdevice, hspace⟩ := @readChats_of_one created (by decide +kernel)
  have hnone := @readSpaces_of_none empty (by decide +kernel)
  let start : Host := .opened some id "desk" .byKey empty
  let spaces := readSpaces some id .byKey empty
  let before : Host :=
    { start with
      reg := created
      chatsTx := readChats some id .byKey created
      publishes := [⟨readChats some id .byKey created, readSpaces some id .byKey created, true⟩]
      sweep := .listed spaces }
  have hbefore : (machine some id).run start
      [.borrowSpaces, .change created, .publish .byKey, .send 0] = some before := rfl
  have hvisiting : (machine some id).step before .borrowChats =
      some { before with sweep := .visiting spaces created [chat] } := by
    rw [← hchats]
    rfl
  obtain ⟨-, host, hvisit, hdeleted⟩ := @visit_deletes
    { before with sweep := .visiting spaces created [chat] } spaces created chat [] rfl hdevice
    hspace hnone fun _ => 2000
  have horphaned := h host ⟨start, ⟨_, _, _, rfl⟩, ((Machine.steps_of_run hbefore).tail trivial
    hvisiting).tail trivial hvisit⟩ (chat.id, created) (by
      rw [hdeleted]
      exact List.mem_append_right _ List.mem_cons_self)
  have hrow : (created.1.overlayRow { kind := kindChats, id := "c1" }).map
      (·.fields["spaceId"]?) = some (some (.string "s1")) := by decide +kernel
  have hshown : (created.1.overlayRow { kind := kindSpaces, id := "s1" }).isSome = true := by
    decide +kernel
  obtain ⟨row, hchatRow, hnames⟩ := Option.map_eq_some_iff.mp hrow
  rw [hid] at horphaned
  obtain ⟨spaceId, hspaceId, hgone⟩ := horphaned row hchatRow
  cases hnames.symm.trans hspaceId
  rw [hgone] at hshown
  cases hshown

end Zeron.Engine.OrphanSweep
