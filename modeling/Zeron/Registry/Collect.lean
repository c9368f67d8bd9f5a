import Zeron.Registry.Convergence

/-!
# Tombstone collection

A cursor below the collection horizon gets the full table. The replica cannot tell a collected
tombstone from a row the room has lost, and re-seeds both: a row deleted while the device was away
returns with it, unless the device itself has a delete pending that is no older.
-/

namespace Zeron.Registry

open Zeron.Lib (Machine)

section Stamps

theorem writeSet_stamp (op : RowOp) (base : RegistryRow) (changed : Bool) (seq : Nat) :
    writeSet op { base with seq } changed =
      ({ (writeSet op base changed).1 with seq }, (writeSet op base changed).2) := by
  unfold writeSet
  rw [Std.ExtTreeMap.foldl_eq_foldl_toList, Std.ExtTreeMap.foldl_eq_foldl_toList]
  let stamped (acc : RegistryRow × Bool) : RegistryRow × Bool := ({ acc.1 with seq }, acc.2)
  let write (acc : RegistryRow × Bool) (entry : String × JsonValue) := writeField op acc entry.1 entry.2
  have hwrite : ∀ acc entry, write (stamped acc) entry = stamped (write acc entry) := by
    intro acc entry
    simp only [write, stamped, writeField]
    split <;> rfl
  have hfold : ∀ entries acc,
      List.foldl write (stamped acc) entries = stamped (List.foldl write acc entries) :=
    fun entries acc => List.foldl_hom stamped hwrite
  exact hfold (op.set.getD ∅).toList (base, changed)

theorem finishWrites_stamp (outcome : RegistryRow × Bool) (seq : Nat) :
    finishWrites ({ outcome.1 with seq }, outcome.2) =
      ((finishWrites outcome).1.map fun row => { row with seq }, (finishWrites outcome).2) := by
  unfold finishWrites
  simp only
  split <;> rfl

theorem applyOp_stamp (row : RegistryRow) (op : RowOp) (seq : Nat) :
    applyOp (some { row with seq }) op =
      ((applyOp (some row) op).1.map fun row => { row with seq }, (applyOp (some row) op).2) := by
  unfold applyOp
  split
  · unfold applyDelete
    have hmax : RegistryRow.maxClock { row with seq } = row.maxClock := rfl
    simp only [hmax]
    by_cases hnewer : hlcNewer op.hlc (if row.deleted then row.delHlc else row.maxClock) = true
    · simp only [if_pos hnewer]
      rfl
    · simp only [if_neg hnewer]
      rfl
  · simp only
    by_cases hdeleted : row.deleted = true
    · simp only [if_pos hdeleted]
      split
      · rfl
      · have hrevived : RegistryRow.revived { row with seq } = { row.revived with seq } := rfl
        rw [hrevived, writeSet_stamp, finishWrites_stamp]
    · simp only [if_neg hdeleted]
      rw [writeSet_stamp, finishWrites_stamp]

def SameShown (a b : Option RegistryRow) : Prop :=
  a.map (fun row => { row with seq := 0 }) = b.map (fun row => { row with seq := 0 })

theorem SameShown.applyOp {a b : Option RegistryRow} (h : SameShown a b) (op : RowOp) :
    SameShown (applyOp a op).1 (applyOp b op).1 ∧ (applyOp a op).2 = (applyOp b op).2 := by
  cases a with
  | none =>
      cases b with
      | none => exact ⟨rfl, rfl⟩
      | some y => cases h
  | some x =>
      cases b with
      | none => cases h
      | some y =>
          have hunstamped : ({ x with seq := 0 } : RegistryRow) = { y with seq := 0 } :=
            Option.some.inj h
          have hx := applyOp_stamp x op 0
          have hy := applyOp_stamp y op 0
          rw [hunstamped, hy] at hx
          exact ⟨(Prod.mk.inj hx).1.symm, (Prod.mk.inj hx).2.symm⟩

theorem SameShown.all_deleted {a b : Option RegistryRow} (h : SameShown a b) :
    a.all (·.deleted) = b.all (·.deleted) := by
  have hall := congrArg (fun row => row.all (·.deleted)) h
  simp only [Option.all_map] at hall
  exact hall

end Stamps

section Replay

theorem replay_append (key : RowKey) (row : Option RegistryRow) (ops ops' : List RowOp) :
    RegistryDoc.replay key row (ops ++ ops') =
      RegistryDoc.replay key (RegistryDoc.replay key row ops) ops' :=
  List.foldl_append

theorem replay_filter (key : RowKey) (row : Option RegistryRow) (ops : List RowOp) :
    RegistryDoc.replay key row ops = RegistryDoc.replay key row (ops.filter (·.key = key)) := by
  induction ops generalizing row with
  | nil => rfl
  | cons op ops ih =>
      rw [List.filter_cons]
      by_cases hkey : op.key = key
      · rw [if_pos (decide_eq_true hkey)]
        exact ih _
      · rw [if_neg (by simpa using hkey), ← ih]
        change RegistryDoc.replay key (RegistryDoc.overlayOp key row op) ops = _
        rw [RegistryDoc.overlayOp, if_neg hkey]

theorem overlayOp_eq (row : Option RegistryRow) (op : RowOp) :
    RegistryDoc.overlayOp op.key row op = (applyOp row op).1 := by
  rw [RegistryDoc.overlayOp, if_pos rfl]
  obtain ⟨r, hr⟩ | hsame := applyOp_outcome row op
  · rw [hr, Option.some_or]
  · rw [hsame, Option.or_self]

variable {room : Room}

/-- **A batch, row by row.** The room shows what replaying the batch over its row gives. -/
theorem sameShown_applyBatch (hkeyed : room.rows.Keyed) (ops : List RowOp) (key : RowKey) :
    SameShown (room.applyBatch ops).rows[key]? (RegistryDoc.replay key room.rows[key]? ops) := by
  have hfold : ∀ (ops : List RowOp) (acc : RowTable × Nat) (row : Option RegistryRow),
      SameShown (acc.1[key]?.or room.rows[key]?) row →
      SameShown ((ops.foldl room.touch acc).1[key]?.or room.rows[key]?)
        (RegistryDoc.replay key row ops) := by
    intro ops
    induction ops with
    | nil => exact fun _ _ h => h
    | cons op ops ih =>
        intro acc row h
        refine ih _ _ ?_
        by_cases hkey : op.key = key
        · subst hkey
          rw [overlayOp_eq]
          obtain ⟨hshown, -⟩ := h.applyOp op
          obtain ⟨r, hr, htouch⟩ | ⟨htouch, hsame⟩ := Room.touch_outcome room acc op
          · rw [htouch]
            rw [hr] at hshown
            simpa [SameShown] using hshown
          · rw [htouch]
            rwa [hsame] at hshown
        · rw [RegistryDoc.overlayOp, if_neg hkey]
          obtain ⟨r, hr, htouch⟩ | ⟨htouch, hsame⟩ := Room.touch_outcome room acc op
          · rw [htouch]
            simpa [Std.ExtTreeMap.getElem?_insert, hkey] using h
          · rwa [htouch]
  have htouches := Room.touches_touched hkeyed ops
  have hshown := hfold ops (∅, 0) room.rows[key]? (by simp [SameShown])
  change SameShown ((room.touched ops).1[key]?.or room.rows[key]?) _ at hshown
  have hget : (room.applyBatch ops).rows[key]? =
      (room.touched ops).1[key]?.or room.rows[key]? := by
    unfold Room.applyBatch
    split
    · exact RowTable.getElem?_putRows_rows room.rows
        (fun k r hr => (htouches.stamped k r hr).1) key
    · rename_i hzero
      rw [htouches.counted (Nat.eq_zero_of_not_pos hzero)]
      simp
  rwa [hget]

theorem applyBatch_keyed (hkeyed : room.rows.Keyed) (ops : List RowOp) :
    (room.applyBatch ops).rows.Keyed := by
  unfold Room.applyBatch
  split
  · exact hkeyed.putRows _
  · exact hkeyed

def Room.pushAll (room : Room) (batches : List PendingBatch) : Room :=
  batches.foldl (fun room b => room.applyBatch b.ops) room

theorem SameShown.replay {a b : Option RegistryRow} (h : SameShown a b) (key : RowKey)
    (ops : List RowOp) :
    SameShown (RegistryDoc.replay key a ops) (RegistryDoc.replay key b ops) := by
  induction ops generalizing a b with
  | nil => exact h
  | cons op ops ih =>
      refine ih ?_
      by_cases hkey : op.key = key
      · subst hkey
        rw [overlayOp_eq, overlayOp_eq]
        exact (h.applyOp op).1
      · rw [RegistryDoc.overlayOp, RegistryDoc.overlayOp, if_neg hkey, if_neg hkey]
        exact h

theorem sameShown_pushAll (hkeyed : room.rows.Keyed) (batches : List PendingBatch)
    (key : RowKey) :
    SameShown (room.pushAll batches).rows[key]?
      (RegistryDoc.replay key room.rows[key]? (batches.flatMap (·.ops))) := by
  induction batches generalizing room with
  | nil => rfl
  | cons b batches ih =>
      rw [List.flatMap_cons, replay_append]
      refine (ih (applyBatch_keyed hkeyed b.ops)).trans ?_
      exact (sameShown_applyBatch hkeyed b.ops key).replay key _

end Replay

section Seeds

theorem applyOp_upsert_all_deleted {op : RowOp} (hop : op.op = .upsert)
    (row : Option RegistryRow) :
    (applyOp row op).1.all (·.deleted) = true ↔
      ∃ r ∈ row, r.deleted = true ∧ ¬ hlcNewer op.hlc r.delHlc = true := by
  have hlive : ∀ base changed, base.deleted = false →
      (finishWrites (writeSet op base changed)).1.all (·.deleted) = false := by
    intro base changed hbase
    obtain ⟨r, hr, -, -, -, hrlive⟩ := finishWrites_writeSet op base changed
    rw [hr, Option.all_some]
    exact hrlive hbase
  cases row with
  | none => simp [applyOp, hop, hlive (.blank op.kind op.id) true rfl]
  | some row =>
      by_cases hdeleted : row.deleted = true
      · by_cases hnewer : hlcNewer op.hlc row.delHlc = true
        · simp [applyOp, hop, hdeleted, hnewer, hlive row.revived true rfl]
        · simp [applyOp, hop, hdeleted, hnewer]
      · have hfalse : row.deleted = false := by simpa using hdeleted
        simp [applyOp, hop, hfalse, hlive row false hfalse]

theorem RowTable.Keyed.pairwise {table : RowTable} (h : table.Keyed) :
    table.rows.Pairwise fun a b => a.key ≠ b.key := by
  unfold RowTable.rows
  rw [List.pairwise_map]
  refine Std.ExtTreeMap.distinct_keys_toList.imp_of_mem fun {a b} ha hb hne heq => hne ?_
  rw [Std.ExtTreeMap.mem_toList_iff_getElem?_eq_some] at ha hb
  rw [← h _ _ ha, ← h _ _ hb, heq]
  exact Std.ReflCmp.compare_self

theorem filter_key_of_pairwise {rows : List RegistryRow} {row : RegistryRow}
    (hrows : rows.Pairwise fun a b => a.key ≠ b.key) (h : row ∈ rows) :
    rows.filter (·.key = row.key) = [row] := by
  induction rows with
  | nil => cases h
  | cons r rows ih =>
      obtain ⟨hhead, htail⟩ := List.pairwise_cons.mp hrows
      obtain rfl | h := List.mem_cons.mp h
      · rw [List.filter_cons, if_pos (by simp), List.filter_eq_nil_iff.mpr]
        intro r' hr'
        simpa using (hhead r' hr').symm
      · rw [List.filter_cons, if_neg (by simpa using hhead row h)]
        exact ih htail h

theorem filter_seeds (order : HashOrder) {rows : List RegistryRow} {row : RegistryRow}
    (hrows : rows.Pairwise fun a b => a.key ≠ b.key) (h : row ∈ rows) :
    ((order.arrange rows).map rowToSeedOp).filter (·.key = row.key) = [rowToSeedOp row] := by
  have hperm := (order.perm rows).filter (·.key = row.key)
  rw [filter_key_of_pairwise hrows h, List.perm_singleton] at hperm
  have hcomp : ((fun op : RowOp => decide (op.key = row.key)) ∘ rowToSeedOp) =
      fun r => decide (r.key = row.key) := by
    funext r
    simp
  rw [List.filter_map, hcomp, hperm]
  rfl

end Seeds

section Collected

variable {doc : RegistryDoc} {room : Room} {key : RowKey} {row : RegistryRow}

def RegistryDoc.hear (doc : RegistryDoc) (room : Room) (order : HashOrder) (wall : Nat → Int) :
    RegistryDoc :=
  doc.handleFrame order wall (room.handleHello (some doc.serverSeq))

/-- After the answer and the pushes that follow it, the row is neither shown nor live. -/
def StaysGone (doc : RegistryDoc) (room : Room) (order : HashOrder) (wall : Nat → Int)
    (key : RowKey) : Prop :=
  (doc.hear room order wall).overlayRow key = none ∧
    (room.pushAll (doc.hear room order wall).pending).rows[key]?.all (·.deleted) = true

/-- The replica's own pending ops leave a tombstone that the seed of the row does not beat. -/
def DeletesItself (doc : RegistryDoc) (key : RowKey) (row : RegistryRow) : Prop :=
  ∃ r ∈ RegistryDoc.replay key none doc.pendingOps,
    r.deleted = true ∧ ¬ hlcNewer (rowToSeedOp row).hlc r.delHlc = true

/-- Below the horizon the row is gone from the replica, and its seed is the last word on it. -/
theorem hear_collected (hsound : doc.Sound) (hkeyed : room.rows.Keyed)
    (hfloor : doc.serverSeq < room.gcFloor) (hahead : doc.serverSeq ≤ room.seq)
    (hrow : doc.authoritative[key]? = some row) (hgone : room.rows[key]? = none)
    (order : HashOrder) (wall : Nat → Int) :
    (doc.hear room order wall).authoritative[key]? = none ∧
      RegistryDoc.replay key none (doc.hear room order wall).pendingOps =
        (applyOp (RegistryDoc.replay key none doc.pendingOps) (rowToSeedOp row)).1 := by
  have hkey : row.key = key := hsound.keyed key row hrow
  have hfull : room.helloIsFull (some doc.serverSeq) = true := by
    simp [Room.helloIsFull, hfloor]
  have hincoming : (RowTable.putRows ∅ (room.rowsSince 0))[key]? = none := by
    rw [RowTable.getElem?_putRows, Zeron.Lib.overwrite_of_not_mem]
    · simp
    · intro r hr heq
      rw [Room.mem_rowsSince hkeyed, heq, hgone] at hr
      cases hr.1
  have henqueued := doc.applyState_replace order wall room.gcFloor
    (room.rowsSince 0) (Nat.not_lt_of_le hahead)
  have hhear : doc.hear room order wall =
      (doc.applyState order wall room.seq true room.gcFloor (room.rowsSince 0)).1 := by
    unfold RegistryDoc.hear Room.handleHello
    simp only [hfull, if_true]
    rfl
  rw [hhear]
  refine ⟨by rw [henqueued.authoritative]; exact hincoming, ?_⟩
  obtain ⟨fresh, hpending, hops, -⟩ := henqueued.pending
  have hmissing : row ∈ doc.authoritative.rows.filter fun row =>
      (RowTable.putRows ∅ (room.rowsSince 0))[row.key]?.isNone := by
    rw [List.mem_filter, hsound.keyed.mem_rows, hkey, hincoming]
    exact ⟨hrow, rfl⟩
  unfold RegistryDoc.pendingOps
  rw [hpending, List.flatMap_append, hops, replay_append, replay_filter key _ (List.map _ _)]
  subst hkey
  rw [filter_seeds order (hsound.keyed.pairwise.filter _) hmissing]
  have hseed := overlayOp_eq (RegistryDoc.replay row.key none doc.pendingOps) (rowToSeedOp row)
  rw [rowToSeedOp_key] at hseed
  exact hseed

/-- **Collection.** A row the replica holds live and the room has collected stays gone exactly when
the replica itself has deleted it, no earlier than the row was last written. -/
theorem staysGone_iff (hsound : doc.Sound) (hkeyed : room.rows.Keyed)
    (hfloor : doc.serverSeq < room.gcFloor) (hahead : doc.serverSeq ≤ room.seq)
    (hrow : doc.authoritative[key]? = some row) (hlive : row.deleted = false)
    (hgone : room.rows[key]? = none) (order : HashOrder) (wall : Nat → Int) :
    StaysGone doc room order wall key ↔ DeletesItself doc key row := by
  obtain ⟨hauth, hreplay⟩ := hear_collected hsound hkeyed hfloor hahead hrow hgone order wall
  have hupsert : (rowToSeedOp row).op = .upsert := by simp [rowToSeedOp, hlive]
  have hshown := sameShown_pushAll hkeyed (doc.hear room order wall).pending key
  rw [hgone] at hshown
  change SameShown _ (RegistryDoc.replay key none (doc.hear room order wall).pendingOps) at hshown
  unfold StaysGone DeletesItself
  rw [hshown.all_deleted, RegistryDoc.overlayRow, hauth, hreplay,
    applyOp_upsert_all_deleted hupsert, Option.filter_eq_none_iff, and_iff_right_iff_imp]
  intro hdeleted r hr
  have hall := (applyOp_upsert_all_deleted hupsert _).mpr hdeleted
  rw [hr, Option.all_some] at hall
  simp [hall]

instance (doc : RegistryDoc) (room : Room) (order : HashOrder) (wall : Nat → Int) (key : RowKey) :
    Decidable (StaysGone doc room order wall key) :=
  inferInstanceAs (Decidable (_ ∧ _))

instance (doc : RegistryDoc) (key : RowKey) (row : RegistryRow) :
    Decidable (DeletesItself doc key row) :=
  inferInstanceAs (Decidable (∃ _ ∈ RegistryDoc.replay key none doc.pendingOps, _))

end Collected

section TwoDevices

/-- The chat of `createsChat`, as the room stamped it. -/
def storedChat (i : Bool) (id : String) (ms : Int) (seq : Nat) : RegistryRow :=
  { kind := "chats", id, seq, deleted := false, delHlc := none
    fields := fields [("id", .string id)]
    clocks := Std.ExtTreeMap.insert ∅ "id" (encodeHlc ms 0 (deviceName i)) }

/-- A phone that deletes the chat while it is away. -/
def awayPhone : RegistryDoc :=
  ((RegistryDoc.new "phone").applyRows 1 [storedChat true "c1" 5 1]).deleteRowOps (fun _ => 8)
    [{ kind := "chats", id := "c1" }]

theorem awayPhone_stays_gone :
    StaysGone awayPhone { rows := ∅, seq := 2, gcFloor := 2 } .byKey (fun _ => 9)
      { kind := "chats", id := "c1" } := by
  have hsound : awayPhone.Sound := by
    have hrows : ((RegistryDoc.new "phone").applyRows 1 [storedChat true "c1" 5 1]).Sound :=
      (RegistryDoc.sound_new "phone").applyRows
    unfold awayPhone
    rw [RegistryDoc.deleteRowOps_eq_commit]
    exact (RegistryDoc.enqueued_commit _ _ _ _).sound hrows
  have hrow : awayPhone.authoritative[({ kind := "chats", id := "c1" } : RowKey)]? =
      some (storedChat true "c1" 5 1) := by decide
  exact (staysGone_iff hsound RowTable.keyed_empty (by decide) (by decide) hrow rfl (by decide)
    .byKey _).mpr (by decide)

def Net.Unwiped (_ : Net Bool) : Action Bool → Prop
  | .wipe => False
  | _ => True

instance (net : Net Bool) : (action : Action Bool) → Decidable (net.Unwiped action)
  | .wipe => isFalse id
  | .write _ _ _ _ | .connect _ | .roomRecv _ | .peerRecv _ _ _ | .push _ | .disconnect _
  | .close _ | .collect _ => isTrue trivial

/-- The phone hears of the desk's chat and goes away; the desk deletes the chat, and the room
collects the tombstone. -/
def deletedMeanwhile : List (Action Bool) :=
  [.connect true, .roomRecv 0, .peerRecv true .byKey fun _ => 1,
    .write true [5] (fun _ => 5) [createsChat true "c1" 5], .push true, .roomRecv 0,
    .peerRecv true .byKey fun _ => 1, .peerRecv true .byKey fun _ => 1,
    .connect false, .roomRecv 1, .peerRecv false .byKey fun _ => 1, .disconnect false,
    .write true [8] (fun _ => 8)
      [{ kind := "chats", id := "c1", op := .delete, set := none, hlc := encodeHlc 8 0 "desk"
         clocks := none }],
    .push true, .roomRecv 0, .collect 9]

theorem deletedMeanwhile_returns :
    ¬ ∀ net : Net Bool, twoDevices.ReachableWhen Net.Unwiped net →
      ∀ i (key : RowKey) (row : RegistryRow) (order : HashOrder) (wall : Nat → Int),
        (net.peers i).doc.authoritative[key]? = some row → row.deleted = false →
        net.room.rows[key]? = none → (net.peers i).doc.serverSeq < net.room.gcFloor →
        StaysGone (net.peers i).doc net.room order wall key := by
  intro hall
  obtain ⟨net, hsteps, hnet⟩ := Machine.exists_steps_of_runWhen twoDevices Net.Unwiped deletedMeanwhile
    (s := Net.init deviceName)
    (p := fun net =>
      (net.peers false).doc.authoritative[({ kind := "chats", id := "c1" } : RowKey)]? =
        some (storedChat true "c1" 5 1) ∧
      net.room.rows[({ kind := "chats", id := "c1" } : RowKey)]? = none ∧
      (net.peers false).doc.serverSeq < net.room.gcFloor ∧
      ¬ StaysGone (net.peers false).doc net.room .byKey (fun _ => 9)
        { kind := "chats", id := "c1" }) (by decide)
  obtain ⟨hrow, hgone, hfloor, hreturns⟩ := of_decide_eq_true hnet
  exact hreturns (hall net ⟨_, rfl, hsteps⟩ false _ _ _ _ hrow rfl hgone hfloor)

end TwoDevices

end Zeron.Registry
