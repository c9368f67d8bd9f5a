import Zeron.Registry.Overlay

/-!
# Reading one's own writes

A write is stamped by the device's clock, which only the wall clock and its own stamps move. A row
with clocks from a device that runs ahead refuses it.
-/

namespace Zeron.Registry

section Ops

/-- A read shows what the op writes: the row is gone, or its fields have the values. -/
def RowOp.ReadsBack (op : RowOp) (shown : Option RegistryRow) : Prop :=
  if op.op = .delete then shown = none
  else ∃ row, shown = some row ∧ ∀ entry ∈ (op.set.getD ∅).toList,
    row.fields[entry.1]? = if entry.2.isNull then none else some entry.2

/-- The op is newer than what it has to beat on the row: for a delete every clock, for a write the
clock of each field that does not have the value already, for an upsert of a deleted row the deletion. -/
def RowOp.Prevails (op : RowOp) (row : Option RegistryRow) : Prop :=
  match row with
  | none => op.op ≠ .update
  | some row =>
      if op.op = .delete then row.deleted = true ∨ hlcNewer op.hlc row.newest = true
      else if row.deleted then op.op = .upsert ∧ hlcNewer op.hlc row.delHlc = true
      else ∀ entry ∈ (op.set.getD ∅).toList,
        hlcNewer op.hlc row.clocks[entry.1]? = true ∨
          row.fields[entry.1]? = if entry.2.isNull then none else some entry.2

instance (op : RowOp) : (row : Option RegistryRow) → Decidable (op.Prevails row)
  | none => inferInstanceAs (Decidable (op.op ≠ .update))
  | some _ => inferInstanceAs (Decidable (if op.op = .delete then _ else _))

theorem filter_live {row : RegistryRow} (h : row.deleted = false) :
    (some row).filter (! ·.deleted) = some row := by
  simp [Option.filter, h]

theorem readsBack_writes_iff {op : RowOp} (hclocks : op.clocks = none) (base : RegistryRow)
    (changed : Bool) :
    (∀ entry ∈ (op.set.getD ∅).toList, (writeSet op base changed).1.fields[entry.1]? =
      if entry.2.isNull then none else some entry.2) ↔
    ∀ entry ∈ (op.set.getD ∅).toList, hlcNewer op.hlc base.clocks[entry.1]? = true ∨
      base.fields[entry.1]? = if entry.2.isNull then none else some entry.2 := by
  refine forall_congr' fun entry => forall_congr' fun hentry => ?_
  have hset := Std.ExtTreeMap.mem_toList_iff_getElem?_eq_some.mp hentry
  have hfor : op.clockFor entry.1 = op.hlc := by simp [RowOp.clockFor, hclocks]
  have hat := congrArg Prod.fst (writeSet_at op base changed entry.1)
  rw [hset, hfor] at hat
  have hfields : (writeSet op base changed).1.fields[entry.1]? = _ := hat
  rw [hfields]
  by_cases hnewer : hlcNewer op.hlc base.clocks[entry.1]? = true
  · simp [hnewer, written]
  · simp [hnewer, written, RegistryRow.at]

theorem readsBack_iff {op : RowOp} (hclocks : op.clocks = none) (row : Option RegistryRow) :
    op.ReadsBack ((applyOp row op).1.filter (! ·.deleted)) ↔ op.Prevails row := by
  by_cases hop : op.op = .delete
  · have happly : applyOp row op = applyDelete row op := by
      unfold applyOp
      rw [if_pos hop]
    rw [happly, RowOp.ReadsBack, if_pos hop]
    cases row with
    | none =>
        refine iff_of_true rfl fun hupdate => ?_
        cases hop.symm.trans hupdate
    | some row =>
        simp only [RowOp.Prevails, if_pos hop]
        change (if hlcNewer op.hlc row.newest then _ else _ : Option RegistryRow × Bool).1.filter _ =
          none ↔ _
        split
        · rename_i hnewer
          exact iff_of_true rfl (.inr hnewer)
        · rename_i hold
          simp [Option.filter, hold]
  · rw [applyOp_eq_finishWrites hop, RowOp.ReadsBack, if_neg hop]
    unfold RowOp.startsFrom
    rw [if_neg hop]
    have hwrites (base : RegistryRow) (changed : Bool) (hlive : base.deleted = false) :
        (∃ row, (finishWrites (writeSet op base changed)).1.filter (! ·.deleted) = some row ∧
          ∀ entry ∈ (op.set.getD ∅).toList,
            row.fields[entry.1]? = if entry.2.isNull then none else some entry.2) ↔
        ∀ entry ∈ (op.set.getD ∅).toList, hlcNewer op.hlc base.clocks[entry.1]? = true ∨
          base.fields[entry.1]? = if entry.2.isNull then none else some entry.2 := by
      rw [finishWrites_live changed hlive,
        filter_live ((writeSet_frame op base changed).2.1.trans hlive),
        ← readsBack_writes_iff hclocks base changed]
      simp
    have hfresh (base : RegistryRow) (hclean : base.clocks = ∅) :
        ∀ entry ∈ (op.set.getD ∅).toList, hlcNewer op.hlc base.clocks[entry.1]? = true ∨
          base.fields[entry.1]? = if entry.2.isNull then none else some entry.2 := by
      intro entry _
      rw [hclean]
      exact .inl (by simp)
    cases row with
    | none =>
        by_cases hupdate : op.op = .update
        · simp [RowOp.Prevails, hupdate]
        · simp only [if_neg hupdate, RowOp.Prevails]
          rw [hwrites _ true rfl]
          exact iff_of_true (hfresh _ rfl) hupdate
    | some row =>
        cases hdeleted : row.deleted with
        | false =>
            simp only [hdeleted, Bool.false_eq_true, if_false, RowOp.Prevails, if_neg hop]
            exact hwrites row false hdeleted
        | true =>
            simp only [hdeleted, if_true, RowOp.Prevails, if_neg hop]
            by_cases hskip : op.op = .update ∨ ¬ hlcNewer op.hlc row.delHlc = true
            · rw [if_pos hskip]
              refine iff_of_false ?_ ?_
              · simp [Option.filter, hdeleted]
              · rintro ⟨hupsert, hnewer⟩
                obtain hupdate | hold := hskip
                · cases hupsert.symm.trans hupdate
                · exact hold hnewer
            · rw [if_neg hskip]
              obtain ⟨hne, hnewer⟩ := not_or.mp hskip
              refine (hwrites row.revived true rfl).trans (iff_of_true (hfresh _ rfl) ⟨?_, ?_⟩)
              · cases hkind : op.op with
                | upsert => rfl
                | update => exact absurd hkind hne
                | delete => exact absurd hkind hop
              · simpa using hnewer

theorem applyAll_same {ops : List RowOp} {op : RowOp} (h : ∀ other ∈ ops, other = op)
    (hmem : op ∈ ops) (row : Option RegistryRow) : applyAll row ops = (applyOp row op).1 := by
  have hrepeats : Repeats [op] := by
    apply repeats_of_keeps
    intro first hfirst second hsecond life _
    rw [List.mem_singleton.mp hfirst, List.mem_singleton.mp hsecond]
    exact Life.settled_next life op
  have hrest : ∀ rest : List RowOp, (∀ other ∈ rest, other = op) →
      applyAll (applyOp row op).1 rest = (applyOp row op).1 := by
    intro rest
    induction rest with
    | nil => exact fun _ => rfl
    | cons other rest ih =>
        intro hall
        rw [hall other List.mem_cons_self, applyAll_cons]
        have honce : (applyOp (applyOp row op).1 op).1 = (applyOp row op).1 := hrepeats row
        rw [honce]
        exact ih fun other hother => hall other (List.mem_cons_of_mem _ hother)
  cases ops with
  | nil => cases hmem
  | cons first rest =>
      rw [applyAll_cons, h first List.mem_cons_self]
      exact hrest rest fun other hother => h other (List.mem_cons_of_mem _ hother)

end Ops

namespace RegistryDoc

section Setters

def newOps (doc doc' : RegistryDoc) : List RowOp := (doc.enqueued doc').flatMap (·.ops)

def writeOp (kind id : String) (op : OpKind) (set : FieldMap JsonValue) (hlc : Hlc) : RowOp :=
  { kind, id, op, set := some set, hlc, clocks := none }

def updateOps (doc : RegistryDoc) (kind id : String) (set : FieldMap JsonValue) (hlc : Hlc) :
    List RowOp :=
  if doc.rowExists kind id then [writeOp kind id .update set hlc] else []

def deleteOps (keys : List RowKey) (hlc : Hlc) : List RowOp :=
  keys.map fun key =>
    { kind := key.kind, id := key.id, op := .delete, set := none, hlc, clocks := none }

/-- A setter writes or deletes with one stamp; the merge of two devices, the migration and the answer
to a hello are none. -/
def Call.isSetter : Call → Bool
  | .mergeDevice _ _ | .seedFromWorkspace _ | .applyState _ _ _ _ => false
  | _ => true

def Call.ops (serde : Serde) (order : HashOrder) (doc : RegistryDoc) (hlc : Hlc) :
    Call → List RowOp
  | .upsertDevice device => [writeOp kindDevices device.id .upsert device.set hlc]
  | .renameDevice deviceId name =>
      doc.updateOps kindDevices deviceId (fields [("name", .string name)]) hlc
  | .setDeviceLastSeen deviceId at' =>
      doc.updateOps kindDevices deviceId (fields [("lastSeenAt", .int at')]) hlc
  | .upsertSpace space => [writeOp kindSpaces space.id .upsert space.set hlc]
  | .renameSpace spaceId name =>
      doc.updateOps kindSpaces spaceId (fields [("name", optStr name)]) hlc
  | .setSpaceGit spaceId detected checkoutId checkedAt =>
      doc.updateOps kindSpaces spaceId (fields [("gitDetected", .bool detected),
        ("checkoutId", optStr checkoutId), ("gitCheckedAt", .int checkedAt)]) hlc
  | .deleteSpace spaceId =>
      deleteOps (((doc.chatIdsOf serde order spaceId).flatMap fun id =>
        [{ kind := kindChats, id }, { kind := kindSessions, id }]) ++
          [{ kind := kindSpaces, id := spaceId }]) hlc
  | .upsertChat chat => [writeOp kindChats chat.id .upsert chat.set hlc]
  | .claimChat chatId cwd spaceId createdAt =>
      [writeOp kindChats chatId .upsert (claimSet doc.deviceId chatId cwd spaceId createdAt) hlc]
  | .setChatSeen chatId at' =>
      if (doc.overlayRow { kind := kindChats, id := chatId }).any fun row => ! seenBy row at' then
        [writeOp kindChats chatId .update (fields [("lastSeenAt", .int at')]) hlc]
      else []
  | .renameChat chatId title =>
      doc.updateOps kindChats chatId (fields [("title", .string title)]) hlc
  | .setChatArchived chatId archived =>
      doc.updateOps kindChats chatId (fields [("archived", .bool archived)]) hlc
  | .setChatRoomGen chatId roomGen =>
      doc.updateOps kindChats chatId (fields [("roomGen", .int roomGen)]) hlc
  | .setChatBranch chatId branch =>
      doc.updateOps kindChats chatId (fields [("branch", .string branch)]) hlc
  | .setChatCwd chatId cwd => doc.updateOps kindChats chatId (fields [("cwd", .string cwd)]) hlc
  | .setChatCheckout chatId checkoutId =>
      doc.updateOps kindChats chatId (fields [("checkoutId", .string checkoutId)]) hlc
  | .setChatConfig chatId config =>
      doc.updateOps kindChats chatId (fields [("config", config)]) hlc
  | .setChatHarnessSession chatId sessionId cwd =>
      doc.updateOps kindChats chatId (fields [("harnessSessionId", .string sessionId),
        ("harnessSessionCwd", .string cwd)]) hlc
  | .setChatLastMessage chatId preview at' =>
      doc.updateOps kindChats chatId (fields [("lastMessagePreview", .string preview),
        ("lastMessageAt", .int at')]) hlc
  | .deleteChat chatId =>
      deleteOps [{ kind := kindChats, id := chatId }, { kind := kindSessions, id := chatId }] hlc
  | .upsertSession session => [writeOp kindSessions session.chatId .upsert session.set hlc]
  | .mergeDevice _ _ | .seedFromWorkspace _ | .applyState _ _ _ _ => []

variable {doc doc' : RegistryDoc} {ops : List RowOp} {wall : Nat → Int}

theorem Enqueued.newOps (h : doc.Enqueued ops doc') : doc.newOps doc' = ops := by
  obtain ⟨fresh, hpending, hops, -⟩ := h.pending
  rw [RegistryDoc.newOps, enqueued, hpending, List.drop_left, hops]

theorem Enqueued.shownRow (h : doc.Enqueued ops doc') (key : RowKey) :
    doc'.shownRow key = replay key (doc.shownRow key) ops := by
  obtain ⟨fresh, hpending, hops, -⟩ := h.pending
  rw [RegistryDoc.shownRow, RegistryDoc.shownRow, h.authoritative, pendingOps, hpending,
    List.flatMap_append, hops, replay_append]
  rfl

/-- The ops of a setter for one row are one op. -/
structure Uniform (ops : List RowOp) : Prop where
  plain : ∀ op ∈ ops, op.clocks = none
  same : ∀ op ∈ ops, ∀ op' ∈ ops, op'.key = op.key → op' = op

theorem Enqueued.overlayRow_of_mem (h : doc.Enqueued ops doc') (huniform : Uniform ops) {op : RowOp}
    (hop : op ∈ ops) :
    doc'.overlayRow op.key = (applyOp (doc.shownRow op.key) op).1.filter (! ·.deleted) := by
  have hmem : op ∈ ops.filter (·.key = op.key) := List.mem_filter.mpr ⟨hop, by simp⟩
  change (doc'.shownRow op.key).filter (! ·.deleted) = _
  rw [h.shownRow, replay_eq_applyAll, applyAll_same _ hmem]
  intro other hother
  obtain ⟨hother, hkey⟩ := List.mem_filter.mp hother
  exact huniform.same op hop other hother (by simpa using hkey)

theorem uniform_nil : Uniform [] := ⟨nofun, nofun⟩

theorem uniform_writeOp (kind id : String) (op : OpKind) (set : FieldMap JsonValue) (hlc : Hlc) :
    Uniform [writeOp kind id op set hlc] := by
  refine ⟨fun op hop => ?_, fun op hop op' hop' _ => ?_⟩
  · rw [List.mem_singleton.mp hop]
    rfl
  · rw [List.mem_singleton.mp hop, List.mem_singleton.mp hop']

theorem uniform_updateOps (kind id : String) (set : FieldMap JsonValue) (hlc : Hlc) :
    Uniform (doc.updateOps kind id set hlc) := by
  unfold updateOps
  split
  · exact uniform_writeOp ..
  · exact uniform_nil

theorem uniform_deleteOps (keys : List RowKey) (hlc : Hlc) : Uniform (deleteOps keys hlc) := by
  refine ⟨fun op hop => ?_, fun op hop op' hop' hkey => ?_⟩
  · obtain ⟨key, -, rfl⟩ := List.mem_map.mp hop
    rfl
  · obtain ⟨key, -, rfl⟩ := List.mem_map.mp hop
    obtain ⟨key', -, rfl⟩ := List.mem_map.mp hop'
    have heq : key' = key := hkey
    rw [heq]

theorem uniform_ops (serde : Serde) (order : HashOrder) (hlc : Hlc) (call : Call) :
    Uniform (call.ops serde order doc hlc) := by
  cases call with
  | upsertDevice _ | upsertSpace _ | upsertChat _ | claimChat _ _ _ _ | upsertSession _ =>
      exact uniform_writeOp ..
  | renameDevice _ _ | setDeviceLastSeen _ _ | renameSpace _ _ | setSpaceGit _ _ _ _
  | renameChat _ _ | setChatArchived _ _ | setChatRoomGen _ _ | setChatBranch _ _ | setChatCwd _ _
  | setChatCheckout _ _ | setChatConfig _ _ | setChatHarnessSession _ _ _
  | setChatLastMessage _ _ _ => exact uniform_updateOps ..
  | deleteSpace _ | deleteChat _ => exact uniform_deleteOps ..
  | setChatSeen chatId at' =>
      simp only [Call.ops]
      split
      · exact uniform_writeOp ..
      · exact uniform_nil
  | mergeDevice _ _ | seedFromWorkspace _ | applyState _ _ _ _ => exact uniform_nil

theorem enqueued_write (kind id : String) (op : OpKind) (set : FieldMap JsonValue) :
    doc.Enqueued [writeOp kind id op set (doc.nextHlc (wall 0)).1]
      (doc.write wall kind id op set) := by
  rw [write_eq_commit]
  exact enqueued_commit ..

theorem enqueued_updateRow (kind id : String) (set : FieldMap JsonValue) :
    doc.Enqueued (doc.updateOps kind id set (doc.nextHlc (wall 0)).1)
      (doc.updateRow wall kind id set).1 := by
  unfold updateOps updateRow
  split
  · exact enqueued_write ..
  · exact .refl doc

theorem enqueued_deleteRowOps (keys : List RowKey) :
    doc.Enqueued (deleteOps keys (doc.nextHlc (wall 0)).1) (doc.deleteRowOps wall keys) := by
  rw [deleteRowOps_eq_commit]
  exact enqueued_commit ..

theorem enqueued_setter (serde : Serde) (order : HashOrder) {call : Call}
    (hsetter : call.isSetter = true) :
    doc.Enqueued (call.ops serde order doc (doc.nextHlc (wall 0)).1)
      (call.run serde order wall doc) := by
  cases call with
  | upsertDevice _ | upsertSpace _ | upsertChat _ | claimChat _ _ _ _ | upsertSession _ =>
      exact enqueued_write ..
  | renameDevice _ _ | setDeviceLastSeen _ _ | renameSpace _ _ | setSpaceGit _ _ _ _
  | renameChat _ _ | setChatArchived _ _ | setChatRoomGen _ _ | setChatBranch _ _ | setChatCwd _ _
  | setChatCheckout _ _ | setChatConfig _ _ | setChatHarnessSession _ _ _
  | setChatLastMessage _ _ _ => exact enqueued_updateRow ..
  | deleteSpace _ | deleteChat _ => exact enqueued_deleteRowOps _
  | setChatSeen chatId at' =>
      simp only [Call.run, Call.ops, setChatSeen]
      cases hrow : doc.overlayRow { kind := kindChats, id := chatId } with
      | none => exact .refl doc
      | some row =>
          rw [Option.any_some]
          dsimp only
          cases hseen : seenBy row at' with
          | true =>
              simp only [Bool.not_true, Bool.false_eq_true, if_false, if_true]
              exact .refl doc
          | false =>
              simp only [Bool.not_false, Bool.false_eq_true, if_false, if_true]
              exact enqueued_write ..
  | mergeDevice _ _ | seedFromWorkspace _ | applyState _ _ _ _ => cases hsetter

/-- **Read your own writes.** What a setter writes is what a read shows then, exactly if its stamp is
newer than all that each of its writes has to beat. -/
theorem readsBack_call_iff (serde : Serde) (order : HashOrder) (wall : Nat → Int)
    (doc : RegistryDoc) {call : Call} (hsetter : call.isSetter = true) :
    (∀ op ∈ doc.newOps (call.run serde order wall doc),
      op.ReadsBack ((call.run serde order wall doc).overlayRow op.key)) ↔
    ∀ op ∈ call.ops serde order doc (doc.nextHlc (wall 0)).1, op.Prevails (doc.shownRow op.key) := by
  have henqueued : doc.Enqueued _ (call.run serde order wall doc) :=
    enqueued_setter serde order hsetter
  have huniform : Uniform (call.ops serde order doc (doc.nextHlc (wall 0)).1) :=
    uniform_ops serde order _ call
  rw [henqueued.newOps]
  refine forall_congr' fun op => forall_congr' fun hop => ?_
  rw [henqueued.overlayRow_of_mem huniform hop]
  exact readsBack_iff (huniform.plain op hop) (doc.shownRow op.key)

/-- No fields of a row make an entity, as far as these runs read them. -/
def noEntities : Serde :=
  { space := fun _ => none, chat := fun _ => none, session := fun _ => none }

theorem readsBack_rename :
    let doc' := (Call.renameChat "c1" "new").run noEntities .byKey (fun _ => 2000) oneChat
    ∀ op ∈ oneChat.newOps doc', op.ReadsBack (doc'.overlayRow op.key) :=
  (readsBack_call_iff noEntities .byKey (fun _ => 2000) oneChat rfl).mpr (by decide)

/-- The desk, whose wall clock runs ahead, gave the chat a title; the phone renames it. -/
theorem rename_not_read : ∃ doc : RegistryDoc, Built noEntities doc ∧
    (doc.renameChat (fun _ => 2000) "c1" "new").2 = true ∧
    (((doc.renameChat (fun _ => 2000) "c1" "new").1.overlayRow { kind := kindChats, id := "c1" }).bind
      (·.fields["title"]?)) = some (.string "old") := by
  let ahead : RegistryRow :=
    { kind := kindChats, id := "c1", seq := 1, deleted := false, delHlc := none
      fields := fields [("title", .string "old")]
      clocks := ({} : FieldMap Hlc).insert "title" (encodeHlc 9000 0 "desk") }
  exact ⟨_, .rows 1 [ahead] (.new "phone"), by decide, by decide⟩

end Setters

end RegistryDoc

end Zeron.Registry
