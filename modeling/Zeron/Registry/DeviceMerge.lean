import Zeron.Registry.Ahead
import Zeron.Registry.Raw

/-!
# A device merged into another

What `merge_device` leaves behind, at the replica and at a server that has only the first of its
batches. The chats come before the spaces, so that no cut leaves a chat of the old device behind in a
space that is gone.
-/

namespace Zeron.Registry.RegistryDoc

section Specification

variable (config : JsonValue → Option JsonValue) (dt : Int → Int) (doc : RegistryDoc)

/-- What is read from a row carries the id of the row, as every writer of one has it. -/
structure OwnIds : Prop where
  spaces : ∀ row ∈ doc.overlayRows .byKey kindSpaces, ∀ space ∈ rawSpace dt row.fields,
    space.id = row.id
  chats : ∀ row ∈ doc.overlayRows .byKey kindChats, ∀ chat ∈ rawChat config dt row.fields,
    chat.id = row.id
  sessions : ∀ row ∈ doc.overlayRows .byKey kindSessions, ∀ session ∈ rawSession dt row.fields,
    session.chatId = row.id

/-- Nothing that is shown belongs to the device, and the device itself is not shown. -/
structure Disowned (device : String) : Prop where
  itself : doc.overlayRow { kind := kindDevices, id := device } = none
  spaces : ∀ row ∈ doc.overlayRows .byKey kindSpaces, ∀ space ∈ rawSpace dt row.fields,
    space.deviceId ≠ device
  chats : ∀ row ∈ doc.overlayRows .byKey kindChats, ∀ chat ∈ rawChat config dt row.fields,
    chat.deviceId ≠ device
  sessions : ∀ row ∈ doc.overlayRows .byKey kindSessions, ∀ session ∈ rawSession dt row.fields,
    session.deviceId ≠ device

/-- The space of the source has a path that a space of the target has too. -/
def Coalesced (source target spaceId : String) : Prop :=
  ∃ row ∈ doc.overlayRows .byKey kindSpaces, ∃ space ∈ rawSpace dt row.fields,
    space.id = spaceId ∧ space.deviceId = source ∧
      ∃ row' ∈ doc.overlayRows .byKey kindSpaces, ∃ space' ∈ rawSpace dt row'.fields,
        space'.deviceId = target ∧ space'.path = space.path

def Housed (row : RegistryRow) : Prop :=
  ∃ spaceId, row.fields["spaceId"]? = some (.string spaceId) ∧
    (doc.overlayRow { kind := kindSpaces, id := spaceId }).isSome

/-- Every chat is still shown, and in a space that is shown if it was in one before; in a space that is
coalesced, chats of other devices and unreadable ones are left open. -/
structure KeepsChats (doc doc' : RegistryDoc) (source target : String) : Prop where
  shown : ∀ id row, doc.overlayRow { kind := kindChats, id } = some row →
    (doc'.overlayRow { kind := kindChats, id }).isSome
  housed : ∀ id row spaceId, doc.overlayRow { kind := kindChats, id } = some row →
    row.fields["spaceId"]? = some (.string spaceId) →
    (doc.overlayRow { kind := kindSpaces, id := spaceId }).isSome →
    (∃ chat ∈ rawChat config dt row.fields, chat.deviceId = source) ∨
      ¬ doc.Coalesced dt source target spaceId →
    ∃ row', doc'.overlayRow { kind := kindChats, id } = some row' ∧ doc'.Housed row'

/-- What a server shows that has the first `batches` of the batches enqueued since `doc`. -/
def reached (doc' doc : RegistryDoc) (batches : Nat) : RegistryDoc :=
  { doc' with pending := doc'.pending.take (doc.pending.length + batches) }

end Specification

section Prefixes

variable {doc doc' : RegistryDoc} {ops : List RowOp}

theorem Enqueued.reached (h : doc.Enqueued ops doc') (batches : Nat) :
    ∃ ops', ops' <+: ops ∧ doc.Enqueued ops' (doc'.reached doc batches) := by
  obtain ⟨fresh, hpending, hops, hfresh⟩ := h.pending
  have htake : (doc'.reached doc batches).pending = doc.pending ++ fresh.take batches := by
    change doc'.pending.take _ = _
    rw [hpending, List.take_length_add_append]
  refine ⟨(fresh.take batches).flatMap (·.ops), ?_, ?_⟩
  · refine ⟨(fresh.drop batches).flatMap (·.ops), ?_⟩
    rw [← List.flatMap_append, List.take_append_drop, hops]
  · exact
      { deviceId := h.deviceId
        authoritative := h.authoritative
        serverSeq := h.serverSeq
        gcFloor := h.gcFloor
        generation := h.generation
        minted := h.minted
        pending := ⟨_, htake, rfl, fun b hb => hfresh b (List.mem_of_mem_take hb)⟩
        sound := fun hsound =>
          { inRange := (h.sound hsound).inRange
            minted := fun b hb => (h.sound hsound).minted b (List.mem_of_mem_take hb)
            distinct := (h.sound hsound).distinct.sublist ((List.take_sublist _ _).map _)
            keyed := (h.sound hsound).keyed } }

end Prefixes

section Lookups

variable {α : Type} {p : α → Bool} {entries : List α}

theorem lastWith_mem {entry : α} (h : lastWith p entries = some entry) :
    entry ∈ entries ∧ p entry = true :=
  ⟨List.mem_reverse.mp (List.mem_of_find?_eq_some h), List.find?_some h⟩

theorem lastWith_isSome {entry : α} (hentry : entry ∈ entries) (hp : p entry = true) :
    ∃ found, lastWith p entries = some found := by
  refine Option.isSome_iff_exists.mp (List.find?_isSome.mpr ⟨entry, ?_, hp⟩)
  exact List.mem_reverse.mpr hentry

end Lookups

variable {touched : Touched}

section Touches

variable {config : JsonValue → Option JsonValue} {dt : Int → Int} {doc : RegistryDoc}
  {order : HashOrder} {source target : String}

theorem mem_readKind {α : Type} (hkeyed : doc.authoritative.Keyed) {kind : String}
    {parse : FieldMap JsonValue → Option α} {le : α → α → Bool} {entry : α} :
    entry ∈ (doc.readKind order kind parse).mergeSort le ↔
      ∃ row ∈ doc.overlayRows .byKey kind, entry ∈ parse row.fields := by
  unfold readKind
  rw [List.mem_mergeSort, List.mem_filterMap]
  exact exists_congr fun row => and_congr_left fun _ =>
    (overlayRows_perm order kind hkeyed .byKey).mem_iff

theorem eq_of_id (hkeyed : doc.authoritative.Keyed) {kind : String} {row row' : RegistryRow}
    (hrow : row ∈ doc.overlayRows .byKey kind) (hrow' : row' ∈ doc.overlayRows .byKey kind)
    (hid : row.id = row'.id) : row = row' := by
  obtain ⟨hkind, hshown⟩ := (mem_overlayRows .byKey kind hkeyed).mp hrow
  obtain ⟨hkind', hshown'⟩ := (mem_overlayRows .byKey kind hkeyed).mp hrow'
  have hkey : row.key = row'.key := congrArg₂ RowKey.mk (hkind.trans hkind'.symm) hid
  rw [hkey, hshown'] at hshown
  exact (Option.some_inj.mp hshown).symm

variable (config dt doc order source target)

def ownedSpaces (device : String) : List Space :=
  (doc.readSpaces (raw config dt) order).filter (·.deviceId = device)

def chatTouch (chat : Chat) : Touched :=
  { key := { kind := kindChats, id := chat.id }
    set := some (rehomedChat (doc.ownedSpaces config dt order source)
      (doc.ownedSpaces config dt order target) target chat) }

def spaceTouch (space : Space) : Touched :=
  { key := { kind := kindSpaces, id := space.id }
    set := if (lastWith (·.path = space.path) (doc.ownedSpaces config dt order target)).isSome
      then none else some (rehomedSpace target) }

def sessionTouch (session : Session) : Touched :=
  { key := { kind := kindSessions, id := session.chatId }, set := none }

def deviceTouch : Touched := { key := { kind := kindDevices, id := source }, set := none }

def chatTouches : List Touched :=
  ((doc.readChats (raw config dt) order).filter (·.deviceId = source)).map
    (doc.chatTouch config dt order source target)

def laterTouches : List Touched :=
  (doc.ownedSpaces config dt order source).map (doc.spaceTouch config dt order target) ++
    ((doc.readSessions (raw config dt) order).filter (·.deviceId = source)).map sessionTouch ++
    [deviceTouch source]

theorem mergeTouches_eq : doc.mergeTouches (raw config dt) order source target =
    doc.chatTouches config dt order source target ++
      doc.laterTouches config dt order source target := by
  simp only [mergeTouches, chatTouches, laterTouches, List.append_assoc]
  rfl

variable {config dt doc order source target}

theorem mem_ownedSpaces (hkeyed : doc.authoritative.Keyed) {device : String} {space : Space} :
    space ∈ doc.ownedSpaces config dt order device ↔
      (∃ row ∈ doc.overlayRows .byKey kindSpaces, space ∈ rawSpace dt row.fields) ∧
        space.deviceId = device := by
  rw [ownedSpaces, List.mem_filter, decide_eq_true_iff]
  exact and_congr_left fun _ => mem_readKind hkeyed

theorem exists_read_iff {α : Type} (hkeyed : doc.authoritative.Keyed) {kind : String}
    {parse : FieldMap JsonValue → Option α} {le : α → α → Bool} {owner : α → String}
    {touch : α → Touched} :
    (∃ entry, entry ∈ ((doc.readKind order kind parse).mergeSort le).filter (owner · = source) ∧
      touch entry = touched) ↔
    ∃ row ∈ doc.overlayRows .byKey kind, ∃ entry ∈ parse row.fields,
      owner entry = source ∧ touch entry = touched := by
  constructor
  · rintro ⟨entry, hentry, htouch⟩
    obtain ⟨hentry, howner⟩ := List.mem_filter.mp hentry
    obtain ⟨row, hrow, hparse⟩ := (mem_readKind hkeyed).mp hentry
    exact ⟨row, hrow, entry, hparse, of_decide_eq_true howner, htouch⟩
  · rintro ⟨row, hrow, entry, hparse, howner, htouch⟩
    refine ⟨entry, List.mem_filter.mpr ⟨?_, decide_eq_true howner⟩, htouch⟩
    exact (mem_readKind hkeyed).mpr ⟨row, hrow, hparse⟩

theorem mem_touches (hkeyed : doc.authoritative.Keyed) :
    touched ∈ doc.mergeTouches (raw config dt) order source target ↔
      (∃ row ∈ doc.overlayRows .byKey kindChats, ∃ chat ∈ rawChat config dt row.fields,
        chat.deviceId = source ∧ doc.chatTouch config dt order source target chat = touched) ∨
      (∃ row ∈ doc.overlayRows .byKey kindSpaces, ∃ space ∈ rawSpace dt row.fields,
        space.deviceId = source ∧ doc.spaceTouch config dt order target space = touched) ∨
      (∃ row ∈ doc.overlayRows .byKey kindSessions, ∃ session ∈ rawSession dt row.fields,
        session.deviceId = source ∧ sessionTouch session = touched) ∨
      touched = deviceTouch source := by
  rw [mergeTouches_eq, List.mem_append, chatTouches, List.mem_map, laterTouches, List.mem_append,
    List.mem_append, List.mem_map, List.mem_map, List.mem_singleton, or_assoc]
  exact or_congr (exists_read_iff hkeyed)
    (or_congr (exists_read_iff hkeyed) (or_congr_left (exists_read_iff hkeyed)))

theorem space_eq (hkeyed : doc.authoritative.Keyed) (hown : doc.OwnIds config dt)
    {row row' : RegistryRow} {space space' : Space} (hrow : row ∈ doc.overlayRows .byKey kindSpaces)
    (hspace : space ∈ rawSpace dt row.fields) (hrow' : row' ∈ doc.overlayRows .byKey kindSpaces)
    (hspace' : space' ∈ rawSpace dt row'.fields) (hid : space'.id = space.id) : space' = space := by
  rw [hown.spaces row hrow space hspace, hown.spaces row' hrow' space' hspace'] at hid
  cases eq_of_id hkeyed hrow' hrow hid
  exact Option.mem_unique hspace' hspace

theorem touch_eq (hkeyed : doc.authoritative.Keyed) (hown : doc.OwnIds config dt)
    {touched touched' : Touched}
    (h : touched ∈ doc.mergeTouches (raw config dt) order source target)
    (h' : touched' ∈ doc.mergeTouches (raw config dt) order source target)
    (hkey : touched'.key = touched.key) : touched' = touched := by
  have hkind := congrArg RowKey.kind hkey
  have hid := congrArg RowKey.id hkey
  rw [mem_touches hkeyed] at h h'
  rcases h with ⟨row, hrow, chat, hchat, -, rfl⟩ | ⟨row, hrow, space, hspace, -, rfl⟩ |
      ⟨row, hrow, session, hsession, -, rfl⟩ | rfl <;>
    rcases h' with ⟨row', hrow', chat', hchat', -, rfl⟩ | ⟨row', hrow', space', hspace', -, rfl⟩ |
      ⟨row', hrow', session', hsession', -, rfl⟩ | rfl <;>
    try (exfalso; revert hkind; simp [chatTouch, spaceTouch, sessionTouch, deviceTouch, kindChats,
      kindSpaces, kindSessions, kindDevices]; done)
  · have hid : chat'.id = chat.id := hid
    rw [hown.chats row hrow chat hchat, hown.chats row' hrow' chat' hchat'] at hid
    cases eq_of_id hkeyed hrow' hrow hid
    rw [Option.mem_unique hchat hchat']
  · rw [space_eq hkeyed hown hrow hspace hrow' hspace' hid]
  · exact congrArg (fun key => Touched.mk key none) hkey
  · rfl

theorem rehomedChat_deviceId (sourceSpaces targetSpaces : List Space) (chat : Chat) :
    (rehomedChat sourceSpaces targetSpaces target chat)["deviceId"]? = some (.string target) := by
  have hdevice : (fields [("deviceId", .string target)])["deviceId"]? = some (.string target) :=
    Std.ExtTreeMap.getElem?_insert_self
  unfold rehomedChat
  simp only
  split
  · rw [Std.ExtTreeMap.getElem?_insert, if_neg (by decide), Std.ExtTreeMap.getElem?_insert,
      if_neg (by decide), hdevice]
  · split
    · rw [Std.ExtTreeMap.getElem?_insert, if_neg (by decide), hdevice]
    · exact hdevice

theorem rehomedSpace_deviceId : (rehomedSpace target)["deviceId"]? = some (.string target) := by
  change ((((∅ : FieldMap JsonValue).insert "deviceId" (.string target)).insert "gitCheckedAt"
    .null).insert "checkoutId" .null)["deviceId"]? = _
  rw [Std.ExtTreeMap.getElem?_insert, if_neg (by decide), Std.ExtTreeMap.getElem?_insert,
    if_neg (by decide), Std.ExtTreeMap.getElem?_insert_self]

/-- The space of the target that a chat of the source moves to. -/
def matchingSpace (sourceSpaces targetSpaces : List Space) (chat : Chat) : Option Space :=
  (chat.spaceId.bind fun id => lastWith (·.id = id) sourceSpaces).bind fun space =>
    lastWith (·.path = space.path) targetSpaces

theorem rehomedChat_spaceId (sourceSpaces targetSpaces : List Space) (chat : Chat) :
    (rehomedChat sourceSpaces targetSpaces target chat)["spaceId"]? =
      (matchingSpace sourceSpaces targetSpaces chat).map fun space => .string space.id := by
  have hnone : (fields [("deviceId", .string target)])["spaceId"]? = none := by
    simp [fields]
  unfold rehomedChat matchingSpace
  simp only
  split
  · rename_i space hspace
    rw [hspace, Std.ExtTreeMap.getElem?_insert, if_neg (by decide),
      Std.ExtTreeMap.getElem?_insert_self]
    rfl
  · rename_i hspace
    rw [hspace]
    split
    · rw [Std.ExtTreeMap.getElem?_insert, if_neg (by decide), hnone]
      rfl
    · exact hnone

theorem touch_of_chat (hkeyed : doc.authoritative.Keyed) {id : String}
    (h : touched ∈ doc.mergeTouches (raw config dt) order source target)
    (hkey : touched.key = { kind := kindChats, id }) :
    ∃ row ∈ doc.overlayRows .byKey kindChats, ∃ chat ∈ rawChat config dt row.fields,
      chat.deviceId = source ∧ chat.id = id ∧
        doc.chatTouch config dt order source target chat = touched := by
  obtain ⟨row, hrow, chat, hchat, howner, rfl⟩ | ⟨_, _, space, _, _, rfl⟩ |
    ⟨_, _, session, _, _, rfl⟩ | rfl := (mem_touches hkeyed).mp h
  · exact ⟨row, hrow, chat, hchat, howner, congrArg RowKey.id hkey, rfl⟩
  all_goals simp [spaceTouch, sessionTouch, deviceTouch, kindChats, kindSpaces, kindSessions,
    kindDevices] at hkey

theorem touch_of_space (hkeyed : doc.authoritative.Keyed) {id : String}
    (h : touched ∈ doc.mergeTouches (raw config dt) order source target)
    (hkey : touched.key = { kind := kindSpaces, id }) :
    ∃ row ∈ doc.overlayRows .byKey kindSpaces, ∃ space ∈ rawSpace dt row.fields,
      space.deviceId = source ∧ space.id = id ∧
        doc.spaceTouch config dt order target space = touched := by
  obtain ⟨_, _, chat, _, _, rfl⟩ | ⟨row, hrow, space, hspace, howner, rfl⟩ |
    ⟨_, _, session, _, _, rfl⟩ | rfl := (mem_touches hkeyed).mp h
  on_goal 2 => exact ⟨row, hrow, space, hspace, howner, congrArg RowKey.id hkey, rfl⟩
  all_goals simp [chatTouch, sessionTouch, deviceTouch, kindChats, kindSpaces, kindSessions,
    kindDevices] at hkey

theorem touch_moves (hkeyed : doc.authoritative.Keyed)
    (h : touched ∈ doc.mergeTouches (raw config dt) order source target) :
    touched.set = none ∨ ∃ set, touched.set = some set ∧
      set["deviceId"]? = some (.string target) := by
  obtain ⟨_, _, chat, _, _, rfl⟩ | ⟨_, _, space, _, _, rfl⟩ | ⟨_, _, session, _, _, rfl⟩ | rfl :=
    (mem_touches hkeyed).mp h
  · exact .inr ⟨_, rfl, rehomedChat_deviceId _ _ _⟩
  · unfold spaceTouch
    split
    · exact .inl rfl
    · exact .inr ⟨_, rfl, rehomedSpace_deviceId⟩
  · exact .inl rfl
  · exact .inl rfl

end Touches

section Effects

variable {doc doc' : RegistryDoc} {hlc : Hlc} {touches : List Touched} {target : String}

theorem uniform_stamped (h : ∀ touched ∈ touches, ∀ touched' ∈ touches,
    touched'.key = touched.key → touched' = touched) (hlc : Hlc) :
    Uniform (touches.map (·.stamped hlc)) := by
  refine ⟨fun op hop => ?_, fun op hop op' hop' hkey => ?_⟩
  · obtain ⟨touched, -, rfl⟩ := List.mem_map.mp hop
    rfl
  · obtain ⟨touched, htouched, rfl⟩ := List.mem_map.mp hop
    obtain ⟨touched', htouched', rfl⟩ := List.mem_map.mp hop'
    rw [h touched htouched touched' htouched' hkey]

theorem update_hidden {op : RowOp} (hop : op.op = .update) {key : RowKey}
    (hhidden : doc.overlayRow key = none) :
    (applyOp (doc.shownRow key) op).1.filter (! ·.deleted) = none := by
  rw [overlayRow_shownRow] at hhidden
  cases hshown : doc.shownRow key with
  | none => simp [applyOp, hop]
  | some row =>
      rw [hshown] at hhidden
      have hdeleted : row.deleted = true := by
        by_contra hlive
        simp [Option.filter, hlive] at hhidden
      simp [applyOp, hop, hdeleted, Option.filter]

variable (hahead : doc.Ahead hlc) (huniform : Uniform (touches.map (·.stamped hlc)))
  (henqueued : doc.Enqueued (touches.map (·.stamped hlc)) doc')

include hahead huniform henqueued

theorem overlayRow_deletedTouch (h : touched ∈ touches) (hset : touched.set = none) :
    doc'.overlayRow touched.key = none := by
  have hop := List.mem_map_of_mem (f := (·.stamped hlc)) h
  refine (henqueued.overlayRow_of_mem huniform hop).trans (hahead.delete ?_ rfl rfl)
  simp [Touched.stamped, hset]

theorem overlayRow_updatedTouch (h : touched ∈ touches) {set : FieldMap JsonValue}
    (hset : touched.set = some set) {row : RegistryRow}
    (hrow : doc.overlayRow touched.key = some row) :
    ∃ row', doc'.overlayRow touched.key = some row' ∧
      ∀ field : String, row'.fields[field]? = (set[field]?).elim row.fields[field]?
        fun value => if value.isNull then none else some value := by
  have hop := List.mem_map_of_mem (f := (·.stamped hlc)) h
  have hupdate : (touched.stamped hlc).op = .update := by simp [Touched.stamped, hset]
  obtain ⟨row', hrow', hfields⟩ := hahead.update hupdate rfl rfl hrow
  refine ⟨row', (henqueued.overlayRow_of_mem huniform hop).trans hrow', fun field => ?_⟩
  have hwritten : (touched.stamped hlc).set.getD ∅ = set := congrArg (·.getD ∅) hset
  rw [hfields field, hwritten]

theorem overlayRow_hiddenTouch (h : touched ∈ touches)
    (hhidden : doc.overlayRow touched.key = none) : doc'.overlayRow touched.key = none := by
  cases hset : touched.set with
  | none => exact overlayRow_deletedTouch hahead huniform henqueued h hset
  | some set =>
      have hop := List.mem_map_of_mem (f := (·.stamped hlc)) h
      have hupdate : (touched.stamped hlc).op = .update := by simp [Touched.stamped, hset]
      exact (henqueued.overlayRow_of_mem huniform hop).trans (update_hidden hupdate hhidden)

theorem still_owned {source : String} (hne : source ≠ target)
    (hmoves : ∀ touched ∈ touches, touched.set = none ∨ ∃ set, touched.set = some set ∧
      set["deviceId"]? = some (.string target)) {key : RowKey} {row : RegistryRow}
    (hrow : doc'.overlayRow key = some row)
    (howned : row.fields["deviceId"]? = some (.string source)) :
    doc.overlayRow key = some row ∧ ∀ touched ∈ touches, touched.key ≠ key := by
  have huntouched : ∀ touched ∈ touches, touched.key ≠ key := by
    rintro touched htouched rfl
    obtain hset | ⟨set, hset, hdevice⟩ := hmoves touched htouched
    · cases hrow.symm.trans (overlayRow_deletedTouch hahead huniform henqueued htouched hset)
    · cases hbefore : doc.overlayRow touched.key with
      | none =>
          cases hrow.symm.trans
            (overlayRow_hiddenTouch hahead huniform henqueued htouched hbefore)
      | some row₀ =>
          obtain ⟨row', hrow', hfields⟩ :=
            overlayRow_updatedTouch hahead huniform henqueued htouched hset hbefore
          cases hrow.symm.trans hrow'
          rw [hfields, hdevice] at howned
          cases howned
          exact hne rfl
  refine ⟨?_, huntouched⟩
  rw [← henqueued.overlayRow_of_not_mem fun op hop hkey => ?_]
  · exact hrow
  · obtain ⟨touched, htouched, rfl⟩ := List.mem_map.mp hop
    exact huntouched touched htouched hkey

theorem overlayRow_kept_or {key : RowKey} {row : RegistryRow} (hrow : doc.overlayRow key = some row)
    (hkept : ∀ touched ∈ touches, touched.key = key → touched.set ≠ none) :
    ((∀ touched ∈ touches, touched.key ≠ key) ∧ doc'.overlayRow key = some row) ∨
      ∃ touched ∈ touches, touched.key = key ∧ ∃ set, touched.set = some set ∧
        ∃ row', doc'.overlayRow key = some row' ∧
          ∀ field : String, row'.fields[field]? = (set[field]?).elim row.fields[field]?
            fun value => if value.isNull then none else some value := by
  by_cases htouch : ∃ touched ∈ touches, touched.key = key
  · obtain ⟨touched, htouched, rfl⟩ := htouch
    obtain ⟨set, hset⟩ := Option.ne_none_iff_exists'.mp (hkept touched htouched rfl)
    exact .inr ⟨touched, htouched, rfl, set, hset,
      overlayRow_updatedTouch hahead huniform henqueued htouched hset hrow⟩
  · have huntouched : ∀ touched ∈ touches, touched.key ≠ key :=
      fun touched htouched hkey => htouch ⟨touched, htouched, hkey⟩
    refine .inl ⟨huntouched, (henqueued.overlayRow_of_not_mem fun op hop hkey => ?_).trans hrow⟩
    obtain ⟨touched, htouched, rfl⟩ := List.mem_map.mp hop
    exact huntouched touched htouched hkey

theorem shown_of_kept {key : RowKey} (hshown : (doc.overlayRow key).isSome)
    (hkept : ∀ touched ∈ touches, touched.key = key → touched.set ≠ none) :
    (doc'.overlayRow key).isSome := by
  obtain ⟨row, hrow⟩ := Option.isSome_iff_exists.mp hshown
  obtain ⟨-, hrow'⟩ | ⟨touched, -, -, set, -, row', hrow', -⟩ :=
    overlayRow_kept_or hahead huniform henqueued hrow hkept
  · rw [hrow']
    rfl
  · rw [hrow']
    rfl

end Effects

section Merge

variable {config : JsonValue → Option JsonValue} {dt : Int → Int} {doc doc' : RegistryDoc}
  {order : HashOrder} {source target : String} {hlc : Hlc}

theorem coalesced_of_deleted (hkeyed : doc.authoritative.Keyed) {id : String}
    (h : touched ∈ doc.mergeTouches (raw config dt) order source target)
    (hkey : touched.key = { kind := kindSpaces, id }) (hset : touched.set = none) :
    doc.Coalesced dt source target id := by
  obtain ⟨row, hrow, space, hspace, howner, hid, rfl⟩ := touch_of_space hkeyed h hkey
  have hmatch : (lastWith (·.path = space.path)
      (doc.ownedSpaces config dt order target)).isSome = true := by
    by_contra hnone
    simp [spaceTouch, hnone] at hset
  obtain ⟨space', hspace'⟩ := Option.isSome_iff_exists.mp hmatch
  obtain ⟨hmem, hpath⟩ := lastWith_mem hspace'
  obtain ⟨⟨row', hrow', hread'⟩, howner'⟩ := (mem_ownedSpaces hkeyed).mp hmem
  exact ⟨row, hrow, space, hspace, hid, howner, row', hrow', space', hread', howner',
    of_decide_eq_true hpath⟩

theorem chatTouch_mem (hkeyed : doc.authoritative.Keyed) {row : RegistryRow} {chat : Chat}
    (hrow : row ∈ doc.overlayRows .byKey kindChats) (hchat : chat ∈ rawChat config dt row.fields)
    (howner : chat.deviceId = source) :
    doc.chatTouch config dt order source target chat ∈
      doc.chatTouches config dt order source target := by
  refine List.mem_map_of_mem (List.mem_filter.mpr ⟨?_, decide_eq_true howner⟩)
  exact (mem_readKind hkeyed).mpr ⟨row, hrow, hchat⟩

theorem target_space_kept (hkeyed : doc.authoritative.Keyed) (hown : doc.OwnIds config dt)
    (hne : source ≠ target) {space : Space}
    (h : touched ∈ doc.mergeTouches (raw config dt) order source target)
    (hspace : space ∈ doc.ownedSpaces config dt order target) :
    touched.key ≠ { kind := kindSpaces, id := space.id } := by
  intro hkey
  obtain ⟨row, hrow, other, hother, howner, hid, -⟩ := touch_of_space hkeyed h hkey
  obtain ⟨⟨row', hrow', hread⟩, howner'⟩ := (mem_ownedSpaces hkeyed).mp hspace
  rw [space_eq hkeyed hown hrow' hread hrow hother hid] at howner
  exact hne (howner.symm.trans howner')

theorem unmatched_space_kept (hkeyed : doc.authoritative.Keyed) (hown : doc.OwnIds config dt)
    {chat : Chat} {spaceId : String}
    (h : touched ∈ doc.mergeTouches (raw config dt) order source target)
    (hkey : touched.key = { kind := kindSpaces, id := spaceId }) (hchat : chat.spaceId = some spaceId)
    (hmatch : matchingSpace (doc.ownedSpaces config dt order source)
      (doc.ownedSpaces config dt order target) chat = none) : touched.set ≠ none := by
  intro hset
  obtain ⟨row, hrow, space, hspace, howner, hid, rfl⟩ := touch_of_space hkeyed h hkey
  have howned : space ∈ doc.ownedSpaces config dt order source :=
    (mem_ownedSpaces hkeyed).mpr ⟨⟨row, hrow, hspace⟩, howner⟩
  obtain ⟨found, hfound⟩ := lastWith_isSome (p := (·.id = spaceId)) howned (decide_eq_true hid)
  obtain ⟨hmem, hfoundId⟩ := lastWith_mem hfound
  obtain ⟨⟨row', hrow', hread⟩, -⟩ := (mem_ownedSpaces hkeyed).mp hmem
  have heq : found = space :=
    space_eq hkeyed hown hrow hspace hrow' hread ((of_decide_eq_true hfoundId).trans hid.symm)
  have hnone : lastWith (·.path = space.path) (doc.ownedSpaces config dt order target) = none := by
    rw [matchingSpace, hchat, Option.bind_some, hfound, heq] at hmatch
    exact hmatch
  simp [spaceTouch, hnone] at hset

variable (hkeyed : doc.authoritative.Keyed) (hown : doc.OwnIds config dt) (hahead : doc.Ahead hlc)
  (hne : source ≠ target)

include hkeyed hown hahead hne

/-- However many of the touches have come, each chat has its space. -/
theorem keepsChats_of_prefix {touches : List Touched}
    (hcut : touches <+: doc.mergeTouches (raw config dt) order source target)
    (henqueued : doc.Enqueued (touches.map (·.stamped hlc)) doc') :
    KeepsChats config dt doc doc' source target := by
  have hmem {touched : Touched} : touched ∈ touches →
      touched ∈ doc.mergeTouches (raw config dt) order source target := fun h => hcut.subset h
  have huniform : Uniform (touches.map (·.stamped hlc)) :=
    uniform_stamped (fun _ h _ h' hkey => touch_eq hkeyed hown (hmem h) (hmem h') hkey) hlc
  have hchatKept (id : String) : ∀ touched ∈ touches,
      touched.key = { kind := kindChats, id } → touched.set ≠ none := by
    intro touched htouched hkey
    obtain ⟨_, _, chat, _, _, _, rfl⟩ := touch_of_chat hkeyed (hmem htouched) hkey
    exact Option.some_ne_none _
  refine ⟨fun id row hrow => ?_, fun id row spaceId hrow hfield hspace hcase => ?_⟩
  · exact shown_of_kept hahead huniform henqueued (Option.isSome_iff_exists.mpr ⟨row, hrow⟩)
      (hchatKept id)
  · have hrowKey := overlayRow_key hkeyed hrow
    have hlisted : row ∈ doc.overlayRows .byKey kindChats :=
      (mem_overlayRows .byKey kindChats hkeyed).mpr ⟨congrArg RowKey.kind hrowKey, by rwa [hrowKey]⟩
    obtain ⟨huntouched, hrow'⟩ | ⟨touched, htouched, hkey, set, hset, row', hrow', hfields⟩ :=
      overlayRow_kept_or hahead huniform henqueued hrow (hchatKept id)
    · refine ⟨row, hrow', spaceId, hfield,
        shown_of_kept hahead huniform henqueued hspace fun touched htouched hkey hset => ?_⟩
      obtain ⟨chat, hchat, howner⟩ | hopen := hcase
      · -- The chat has not been touched, so the cut is before the spaces.
        have hall := hcut
        rw [mergeTouches_eq] at hall
        obtain hbefore | hafter := List.prefix_or_prefix_of_prefix hall (List.prefix_append _ _)
        · obtain ⟨other, -, rfl⟩ := List.mem_map.mp (hbefore.subset htouched)
          simp [chatTouch, kindChats, kindSpaces] at hkey
        · have hchatTouch := hafter.subset (chatTouch_mem hkeyed hlisted hchat howner)
          refine huntouched _ hchatTouch (congrArg (RowKey.mk kindChats) ?_)
          exact (hown.chats row hlisted chat hchat).trans (congrArg RowKey.id hrowKey)
      · exact hopen (coalesced_of_deleted hkeyed (hmem htouched) hkey hset)
    · obtain ⟨row₀, hrow₀, chat, hchat, howner, hid, rfl⟩ :=
        touch_of_chat hkeyed (hmem htouched) hkey
      have hsame : row₀ = row := by
        refine eq_of_id hkeyed hrow₀ hlisted ?_
        rw [← hown.chats row₀ hrow₀ chat hchat, hid]
        exact (congrArg RowKey.id hrowKey).symm
      rw [hsame] at hchat
      cases hset
      have hmoved := hfields "spaceId"
      rw [rehomedChat_spaceId] at hmoved
      cases hmatch : matchingSpace (doc.ownedSpaces config dt order source)
          (doc.ownedSpaces config dt order target) chat with
      | some space =>
          rw [hmatch] at hmoved
          obtain ⟨sourceSpace, -, hfound⟩ := Option.bind_eq_some_iff.mp hmatch
          have howned := (lastWith_mem hfound).1
          obtain ⟨⟨rowT, hrowT, hread⟩, -⟩ := (mem_ownedSpaces hkeyed).mp howned
          obtain ⟨hkindT, hshownT⟩ := (mem_overlayRows .byKey kindSpaces hkeyed).mp hrowT
          have hkeyT : rowT.key = { kind := kindSpaces, id := space.id } :=
            congrArg₂ RowKey.mk hkindT (hown.spaces rowT hrowT space hread).symm
          rw [hkeyT] at hshownT
          refine ⟨row', hrow', space.id, hmoved, shown_of_kept hahead huniform henqueued
            (Option.isSome_iff_exists.mpr ⟨rowT, hshownT⟩) fun touched htouched hkey => ?_⟩
          exact absurd hkey (target_space_kept hkeyed hown hne (hmem htouched) howned)
      | none =>
          rw [hmatch] at hmoved
          refine ⟨row', hrow', spaceId, hmoved.trans hfield,
            shown_of_kept hahead huniform henqueued hspace fun touched htouched hkey => ?_⟩
          exact unmatched_space_kept hkeyed hown (hmem htouched) hkey
            (((rawChat_fields hchat).2.2 spaceId).mpr hfield) hmatch

/-- With all the touches nothing of the source is left. -/
theorem disowned_of_all
    (henqueued : doc.Enqueued
      ((doc.mergeTouches (raw config dt) order source target).map (·.stamped hlc)) doc') :
    Disowned config dt doc' source := by
  have huniform : Uniform ((doc.mergeTouches (raw config dt) order source target).map (·.stamped hlc)) :=
    uniform_stamped (fun _ h _ h' hkey => touch_eq hkeyed hown h h' hkey) hlc
  have hkeyed' : doc'.authoritative.Keyed := henqueued.authoritative ▸ hkeyed
  have hstill {kind : String} {row : RegistryRow} (hrow : row ∈ doc'.overlayRows .byKey kind)
      (howned : row.fields["deviceId"]? = some (.string source)) :
      row ∈ doc.overlayRows .byKey kind ∧ ∀ touched ∈
        doc.mergeTouches (raw config dt) order source target, touched.key ≠ { kind, id := row.id } := by
    obtain ⟨rfl, hshown⟩ := (mem_overlayRows .byKey _ hkeyed').mp hrow
    obtain ⟨hbefore, huntouched⟩ := still_owned hahead huniform henqueued hne
      (fun touched h => touch_moves hkeyed h) hshown howned
    exact ⟨(mem_overlayRows .byKey _ hkeyed).mpr ⟨rfl, hbefore⟩, huntouched⟩
  refine ⟨?_, fun row hrow space hspace howner => ?_, fun row hrow chat hchat howner => ?_,
    fun row hrow session hsession howner => ?_⟩
  · exact overlayRow_deletedTouch hahead huniform henqueued
      ((mem_touches hkeyed).mpr (.inr (.inr (.inr rfl)))) rfl
  · have hdevice := (rawSpace_fields hspace).2.1
    rw [howner] at hdevice
    obtain ⟨hbefore, huntouched⟩ := hstill hrow hdevice
    refine huntouched _ ((mem_touches hkeyed).mpr (.inr (.inl ⟨row, hbefore, space, hspace, howner, rfl⟩)))
      (congrArg (RowKey.mk kindSpaces) (hown.spaces row hbefore space hspace))
  · have hdevice := (rawChat_fields hchat).2.1
    rw [howner] at hdevice
    obtain ⟨hbefore, huntouched⟩ := hstill hrow hdevice
    exact huntouched _ ((mem_touches hkeyed).mpr (.inl ⟨row, hbefore, chat, hchat, howner, rfl⟩))
      (congrArg (RowKey.mk kindChats) (hown.chats row hbefore chat hchat))
  · have hdevice := (rawSession_fields hsession).2
    rw [howner] at hdevice
    obtain ⟨hbefore, huntouched⟩ := hstill hrow hdevice
    exact huntouched _ ((mem_touches hkeyed).mpr
      (.inr (.inr (.inl ⟨row, hbefore, session, hsession, howner, rfl⟩))))
      (congrArg (RowKey.mk kindSessions) (hown.sessions row hbefore session hsession))

end Merge

section Result

variable {config : JsonValue → Option JsonValue} {dt : Int → Int} {doc : RegistryDoc}
  {order : HashOrder} {source target : String} {wall : Nat → Int}

theorem enqueued_mergeDevice (hne : source ≠ target)
    (hsource : doc.rowExists kindDevices source = true)
    (htarget : doc.rowExists kindDevices target = true) :
    doc.Enqueued ((doc.mergeTouches (raw config dt) order source target).map
      (·.stamped (doc.nextHlc (wall 0)).1))
      (doc.mergeDevice (raw config dt) order wall source target).1 := by
  unfold mergeDevice
  rw [if_neg (by simp [hne, hsource, htarget])]
  exact enqueued_commit doc [wall 0] (fun i => wall (i + 1)) _

/-- **Merging devices.** With a stamp ahead of all that is stored and rows under the ids they carry,
nothing that is read belongs to the source then; and with any of the first batches every chat is
still shown, in a space if it was in one, but for chats of other devices and unreadable ones in a space
of the source that is coalesced. -/
theorem mergeDevice_leaves_nothing (hkeyed : doc.authoritative.Keyed)
    (hown : doc.OwnIds config dt) (order : HashOrder) (wall : Nat → Int)
    (hahead : doc.Ahead (doc.nextHlc (wall 0)).1) (hne : source ≠ target)
    (hsource : doc.rowExists kindDevices source = true)
    (htarget : doc.rowExists kindDevices target = true) :
    let doc' := (doc.mergeDevice (raw config dt) order wall source target).1
    Disowned config dt doc' source ∧ KeepsChats config dt doc doc' source target ∧
      ∀ batches, KeepsChats config dt doc (doc'.reached doc batches) source target := by
  intro doc'
  have henqueued : doc.Enqueued _ doc' := enqueued_mergeDevice hne hsource htarget
  refine ⟨disowned_of_all hkeyed hown hahead hne henqueued,
    keepsChats_of_prefix hkeyed hown hahead hne (List.prefix_refl _) henqueued, fun batches => ?_⟩
  obtain ⟨ops, hcut, hreached⟩ := henqueued.reached batches
  obtain ⟨touches, htouches, rfl⟩ := List.prefix_map_iff.mp hcut
  exact keepsChats_of_prefix hkeyed hown hahead hne htouches hreached

def stored (kind id : String) (values : List (String × JsonValue)) : RegistryRow :=
  { kind, id, seq := 1, deleted := false, delHlc := none, fields := fields values
    clocks := ({} : FieldMap Hlc).insert "id" (encodeHlc 1000 0 "old") }

/-- An old and a new device, each with a space of the same path. -/
def twoPaths (rows : List RegistryRow) : RegistryDoc :=
  (RegistryDoc.new "phone").applyRows 1
    ([stored kindDevices "old" [("id", .string "old")],
      stored kindDevices "new" [("id", .string "new")],
      stored kindSpaces "s1" [("id", .string "s1"), ("deviceId", .string "old"),
        ("path", .string "/one")],
      stored kindSpaces "s2" [("id", .string "s2"), ("deviceId", .string "new"),
        ("path", .string "/one")]] ++ rows)

def chatOf (device : String) : RegistryRow :=
  stored kindChats "c1" [("id", .string "c1"), ("deviceId", .string device),
    ("spaceId", .string "s1")]

theorem mergeDevice_twoPaths :
    let doc := twoPaths [chatOf "old"]
    let doc' := (doc.mergeDevice (raw some id) .byKey (fun _ => 2000) "old" "new").1
    Disowned some id doc' "old" ∧ KeepsChats some id doc doc' "old" "new" ∧
      ∀ batches, KeepsChats some id doc (doc'.reached doc batches) "old" "new" :=
  mergeDevice_leaves_nothing (RowTable.keyed_empty.putRows _) ⟨by decide, by decide, by decide⟩ .byKey
    (fun _ => 2000) (.of_rows (by decide) rfl) (by decide) (by decide) (by decide)

/-- A chat of the old device that cannot be read, for want of its id. -/
def unreadable : RegistryRow :=
  stored kindChats "c2" [("deviceId", .string "old"), ("spaceId", .string "s1")]

/-- A space of the old device that carries another id than its row. -/
def renamed : RegistryRow :=
  stored kindSpaces "s3" [("id", .string "s4"), ("deviceId", .string "old"), ("path", .string "/two")]

theorem merged_eq {doc : RegistryDoc} {touches : List Touched}
    (hdevices : doc.rowExists kindDevices "old" = true ∧ doc.rowExists kindDevices "new" = true)
    (htouches : doc.mergeTouches (raw some id) .byKey "old" "new" = touches) :
    (doc.mergeDevice (raw some id) .byKey (fun _ => 2000) "old" "new").1 =
      (doc.nextHlc 2000).2.enqueueOps (fun _ => 2000)
        (touches.map (·.stamped (doc.nextHlc 2000).1)) := by
  rw [mergeDevice, if_neg (by simp [hdevices]), htouches]

/-- In the space that is coalesced, a third device has a chat and the old device one that cannot be
read; the batch with the merge may not have come; and a space stays with the old device. -/
theorem mergeDevice_dangles :
    let doc := twoPaths [chatOf "tablet", unreadable]
    let doc' := (doc.mergeDevice (raw some id) .byKey (fun _ => 2000) "old" "new").1
    let other := twoPaths [renamed]
    doc.Ahead (doc.nextHlc 2000).1 ∧ doc.OwnIds some id ∧
      (∀ name, name = "c1" ∨ name = "c2" →
        (∃ row, doc.overlayRow { kind := kindChats, id := name } = some row ∧ doc.Housed row) ∧
          ∀ row, doc'.overlayRow { kind := kindChats, id := name } = some row → ¬ doc'.Housed row) ∧
      ¬ Disowned some id (doc'.reached doc 0) "old" ∧ other.Ahead (other.nextHlc 2000).1 ∧
      ¬ Disowned some id (other.mergeDevice (raw some id) .byKey (fun _ => 2000) "old" "new").1
        "old" := by
  have htouches : (twoPaths [chatOf "tablet", unreadable]).mergeTouches (raw some id) .byKey "old"
      "new" = [{ key := { kind := kindSpaces, id := "s1" }, set := none }, deviceTouch "old"] := by
    unfold mergeTouches readSpaces readChats readSessions
    rw [List.mergeSort_of_pairwise, List.mergeSort_of_pairwise, List.mergeSort_of_pairwise]
    · rfl
    all_goals decide
  have hother : (twoPaths [renamed]).mergeTouches (raw some id) .byKey "old" "new" =
      [{ key := { kind := kindSpaces, id := "s1" }, set := none },
        { key := { kind := kindSpaces, id := "s4" }, set := some (rehomedSpace "new") },
        deviceTouch "old"] := by
    unfold mergeTouches readSpaces readChats readSessions
    rw [List.mergeSort_of_pairwise, List.mergeSort_of_pairwise, List.mergeSort_of_pairwise]
    · rfl
    all_goals decide
  intro doc doc' other
  have hmerged : doc' = _ := merged_eq (by decide) htouches
  have hspace : doc'.overlayRow { kind := kindSpaces, id := "s1" } = none := by
    rw [hmerged]
    decide
  have hdevice : ((doc'.reached doc 0).overlayRow { kind := kindDevices, id := "old" }).isSome := by
    rw [hmerged]
    decide
  have hlost (name : String) (hin : ∀ row ∈ doc'.overlayRow { kind := kindChats, id := name },
      row.fields["spaceId"]? = some (.string "s1")) (row : RegistryRow)
      (hrow : doc'.overlayRow { kind := kindChats, id := name } = some row) : ¬ doc'.Housed row := by
    rintro ⟨spaceId, hfield, hshown⟩
    rw [hin row hrow, Option.some_inj] at hfield
    cases hfield
    rw [hspace] at hshown
    cases hshown
  refine ⟨.of_rows (by decide) rfl, ⟨by decide, by decide, by decide⟩, ?_, fun h => ?_,
    .of_rows (by decide) rfl, fun h => ?_⟩
  · rintro name (rfl | rfl)
    · exact ⟨⟨_, rfl, "s1", by decide, by decide⟩, hlost "c1" (by rw [hmerged]; decide)⟩
    · exact ⟨⟨_, rfl, "s1", by decide, by decide⟩, hlost "c2" (by rw [hmerged]; decide)⟩
  · rw [h.itself] at hdevice
    cases hdevice
  · have hspaces := h.spaces
    rw [merged_eq (by decide) hother] at hspaces
    exact absurd hspaces (by decide)

end Result

end Zeron.Registry.RegistryDoc
