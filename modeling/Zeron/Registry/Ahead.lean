import Zeron.Registry.ReadBack
import Zeron.Registry.Reseed

/-!
# A clock ahead of all that is stored

What a method writes under a stamp newer than every clock of the replica is what the replica shows
then: nothing that is stored can refuse it.
-/

namespace Zeron.Registry

/-- Each clock of the row is older. -/
structure RegistryRow.Behind (row : RegistryRow) (hlc : Hlc) : Prop where
  delHlc : ∀ d ∈ row.delHlc, d < hlc
  clocks : ∀ (field : String) (c : Hlc), row.clocks[field]? = some c → c < hlc

instance (row : RegistryRow) (hlc : Hlc) : Decidable (row.Behind hlc) :=
  decidable_of_iff ((∀ d ∈ row.delHlc, d < hlc) ∧ ∀ entry ∈ row.clocks.toList, entry.2 < hlc)
    ⟨fun h => ⟨h.1, fun field c hc =>
      h.2 (field, c) (Std.ExtTreeMap.mem_toList_iff_getElem?_eq_some.mpr hc)⟩,
    fun h => ⟨h.1, fun entry hentry =>
      h.2 entry.1 entry.2 (Std.ExtTreeMap.mem_toList_iff_getElem?_eq_some.mp hentry)⟩⟩

/-- Each clock of the op is older. -/
structure RowOp.Behind (op : RowOp) (hlc : Hlc) : Prop where
  stamp : op.hlc < hlc
  clocks : ∀ clocks ∈ op.clocks, ∀ (field : String) (c : Hlc), clocks[field]? = some c → c < hlc

variable {row : RegistryRow}

section Behind

variable {hlc : Hlc}

theorem RowOp.Behind.clockFor {op : RowOp} (h : op.Behind hlc) (field : String) :
    op.clockFor field < hlc := by
  unfold RowOp.clockFor
  cases hclock : op.clocks.bind (·[field]?) with
  | none => exact h.stamp
  | some c =>
      obtain ⟨clocks, hclocks, hfield⟩ := Option.bind_eq_some_iff.mp hclock
      exact h.clocks clocks hclocks field c hfield

namespace RegistryRow.Behind

theorem of_no_clocks (hdel : ∀ d ∈ row.delHlc, d < hlc) (hclocks : row.clocks = ∅) :
    row.Behind hlc := by
  refine ⟨hdel, fun field c hc => ?_⟩
  rw [hclocks] at hc
  simp at hc

theorem writes {base : RegistryRow} (h : base.Behind hlc) {op : RowOp} (hop : op.Behind hlc)
    (changed : Bool) : (writeSet op base changed).1.Behind hlc := by
  refine ⟨?_, fun field c hc => ?_⟩
  · rw [(writeSet_frame op base changed).2.2]
    exact h.delHlc
  · have hat : (writeSet op base changed).1.clocks[field]? = _ :=
      congrArg Prod.snd (writeSet_at op base changed field)
    rw [hc] at hat
    split at hat
    · exact h.clocks field c hat.symm
    · unfold written at hat
      split at hat
      · cases hat
        exact hop.clockFor field
      · exact h.clocks field c hat.symm

theorem applyOp {row : Option RegistryRow} (h : ∀ r ∈ row, r.Behind hlc) {op : RowOp}
    (hop : op.Behind hlc) : ∀ r ∈ (applyOp row op).1, r.Behind hlc := by
  have hstamp : ∀ d ∈ some op.hlc, d < hlc := by
    rintro _ ⟨⟩
    exact hop.stamp
  apply applyOp_induct h
  · exact fun _ => of_no_clocks hstamp rfl
  · exact fun _ r _ => of_no_clocks hstamp rfl
  · exact fun _ => of_no_clocks (by simp [RegistryRow.blank]) rfl
  · exact fun _ r hr => of_no_clocks hr.delHlc rfl
  · exact fun _ base changed _ hbase => hbase.writes hop changed

theorem applyAll {row : Option RegistryRow} {ops : List RowOp} (h : ∀ r ∈ row, r.Behind hlc)
    (hops : ∀ op ∈ ops, op.Behind hlc) : ∀ r ∈ applyAll row ops, r.Behind hlc := by
  induction ops generalizing row with
  | nil => exact h
  | cons op ops ih =>
      exact ih (applyOp h (hops op List.mem_cons_self))
        fun other hother => hops other (List.mem_cons_of_mem _ hother)

theorem newest (h : row.Behind hlc) : hlcNewer hlc row.newest = true := by
  unfold RegistryRow.newest
  split
  · cases hdel : row.delHlc with
    | none => rfl
    | some d => exact hlcNewer_some.mpr (h.delHlc d hdel)
  · refine (newer_maxClock_iff hlc).mpr ⟨h.delHlc, fun entry hentry => ?_⟩
    exact h.clocks entry.1 entry.2 (Std.ExtTreeMap.mem_toList_iff_getElem?_eq_some.mp hentry)

end RegistryRow.Behind

end Behind

namespace RegistryDoc

/-- Every stored clock is older: those of the rows and those of the pending ops. -/
structure Ahead (doc : RegistryDoc) (hlc : Hlc) : Prop where
  rows : ∀ (key : RowKey) (row : RegistryRow), doc.authoritative[key]? = some row → row.Behind hlc
  ops : ∀ op ∈ doc.pendingOps, op.Behind hlc

theorem Ahead.of_rows {doc : RegistryDoc} {hlc : Hlc}
    (hrows : ∀ row ∈ doc.authoritative.rows, row.Behind hlc) (hpending : doc.pending = []) :
    doc.Ahead hlc := by
  refine ⟨fun key row hrow => hrows row ?_, fun op hop => ?_⟩
  · exact List.mem_map_of_mem (Std.ExtTreeMap.mem_toList_iff_getElem?_eq_some.mpr hrow)
  · rw [pendingOps, hpending] at hop
    cases hop

section Shown

variable {doc doc' : RegistryDoc} {hlc : Hlc} {ops : List RowOp} {key : RowKey}

theorem Ahead.shownRow (h : doc.Ahead hlc) : ∀ row ∈ doc.shownRow key, row.Behind hlc := by
  rw [RegistryDoc.shownRow, replay_eq_applyAll]
  exact RegistryRow.Behind.applyAll (h.rows key)
    fun op hop => h.ops op (List.mem_of_mem_filter hop)

theorem Ahead.delete (h : doc.Ahead hlc) {op : RowOp} (hop : op.op = .delete)
    (hclocks : op.clocks = none) (hstamp : op.hlc = hlc) :
    (applyOp (doc.shownRow key) op).1.filter (! ·.deleted) = none := by
  have hreads : op.ReadsBack ((applyOp (doc.shownRow key) op).1.filter (! ·.deleted)) := by
    rw [readsBack_iff hclocks]
    cases hshown : doc.shownRow key with
    | none =>
        intro hupdate
        cases hop.symm.trans hupdate
    | some row =>
        simp only [RowOp.Prevails, if_pos hop, hstamp]
        exact .inr (h.shownRow row hshown).newest
  rwa [RowOp.ReadsBack, if_pos hop] at hreads

theorem Ahead.update (h : doc.Ahead hlc) {op : RowOp} (hop : op.op = .update)
    (hclocks : op.clocks = none) (hstamp : op.hlc = hlc)
    (hrow : doc.overlayRow key = some row) :
    ∃ row', (applyOp (doc.shownRow key) op).1.filter (! ·.deleted) = some row' ∧
      ∀ field : String, row'.fields[field]? = ((op.set.getD ∅)[field]?).elim row.fields[field]?
        fun value => if value.isNull then none else some value := by
  obtain ⟨hshown, hlive⟩ := Option.filter_eq_some_iff.mp hrow
  have hshown : doc.shownRow key = some row := hshown
  have hlive : row.deleted = false := by simpa using hlive
  have hwrites : op.op ≠ .delete := by
    intro hdelete
    cases hop.symm.trans hdelete
  refine ⟨(writeSet op row false).1, ?_, fun field => ?_⟩
  · rw [hshown, applyOp_live hlive hwrites]
    exact filter_live ((writeSet_frame op row false).2.1.trans hlive)
  · have hat : (writeSet op row false).1.fields[field]? = _ :=
      congrArg Prod.fst (writeSet_at op row false field)
    have hfor : op.clockFor field = hlc := by simp [RowOp.clockFor, hclocks, hstamp]
    have hnewer : hlcNewer hlc row.clocks[field]? = true := by
      cases hclock : row.clocks[field]? with
      | none => rfl
      | some c => exact hlcNewer_some.mpr ((h.shownRow row hshown).clocks field c hclock)
    rw [hat, hfor, hnewer]
    cases (op.set.getD ∅)[field]? with
    | none | some value => rfl

theorem overlayRow_shownRow (doc : RegistryDoc) (key : RowKey) :
    doc.overlayRow key = (doc.shownRow key).filter (! ·.deleted) := rfl

theorem Enqueued.overlayRow_of_not_mem (h : doc.Enqueued ops doc') (hkey : ∀ op ∈ ops, op.key ≠ key) :
    doc'.overlayRow key = doc.overlayRow key := by
  rw [overlayRow_shownRow, h.shownRow, replay_eq_applyAll, List.filter_eq_nil_iff.mpr]
  · rfl
  · intro op hop
    simpa using hkey op hop

end Shown

section Listed

variable {doc : RegistryDoc}

theorem shownRow_key (hkeyed : doc.authoritative.Keyed) {key : RowKey}
    (h : doc.shownRow key = some row) : row.key = key := by
  have hkey : ∀ (ops : List RowOp) (before : Option RegistryRow), (∀ r ∈ before, r.key = key) →
      ∀ r ∈ replay key before ops, r.key = key := by
    intro ops
    induction ops with
    | nil => exact fun _ hbefore => hbefore
    | cons op ops ih =>
        intro before hbefore
        refine ih (overlayOp key before op) fun r hr => ?_
        by_cases hop : op.key = key
        · subst hop
          rw [overlayOp_eq] at hr
          exact applyOp_key hbefore hr
        · rw [overlayOp, if_neg hop] at hr
          exact hbefore r hr
  exact hkey doc.pendingOps _ (hkeyed key) row h

theorem overlayRow_key (hkeyed : doc.authoritative.Keyed) {key : RowKey}
    (h : doc.overlayRow key = some row) : row.key = key :=
  shownRow_key hkeyed (Option.filter_eq_some_iff.mp h).1

theorem listed_of_shownRow {key : RowKey} (h : doc.shownRow key = some row) :
    (∃ r, doc.authoritative[key]? = some r) ∨ ∃ op ∈ doc.pendingOps, op.key = key := by
  by_contra hlisted
  obtain ⟨hstored, hpending⟩ := not_or.mp hlisted
  have hnone : doc.authoritative[key]? = none := Option.eq_none_iff_forall_ne_some.mpr
    fun r hr => hstored ⟨r, hr⟩
  rw [shownRow, hnone, replay_eq_applyAll, List.filter_eq_nil_iff.mpr] at h
  · cases h
  · intro op hop
    simpa using fun hkey => hpending ⟨op, hop, hkey⟩

/-- The loop of `overlay_rows` adds each id of the kind that it has not yet. -/
theorem listed_ids (kind : String) (ops : List RowOp) {known : List String} (hknown : known.Nodup) :
    (ops.foldl (fun ids op => if op.kind = kind ∧ op.id ∉ ids then ids ++ [op.id] else ids)
      known).Nodup ∧
    ∀ id, id ∈ ops.foldl (fun ids op =>
        if op.kind = kind ∧ op.id ∉ ids then ids ++ [op.id] else ids) known ↔
      id ∈ known ∨ ∃ op ∈ ops, op.key = { kind, id } := by
  induction ops generalizing known with
  | nil => exact ⟨hknown, by simp⟩
  | cons op ops ih =>
      rw [List.foldl_cons]
      have hkey (id : String) : op.key = { kind, id } ↔ op.kind = kind ∧ op.id = id := by
        simp [RowOp.key]
      split
      · rename_i hnew
        have hlonger : (known ++ [op.id]).Nodup := by
          rw [← List.concat_eq_append]
          exact hknown.concat hnew.2
        obtain ⟨hnodup, hmem⟩ := ih hlonger
        refine ⟨hnodup, fun id => ?_⟩
        rw [hmem, List.mem_append, List.mem_singleton, List.exists_mem_cons_iff, hkey, or_assoc]
        simp [hnew.1, eq_comm]
      · rename_i hold
        obtain ⟨hnodup, hmem⟩ := ih hknown
        refine ⟨hnodup, fun id => ?_⟩
        rw [hmem, List.exists_mem_cons_iff, hkey]
        constructor
        · exact Or.imp_right .inr
        · rintro (hid | ⟨hkind, rfl⟩ | hid)
          · exact .inl hid
          · exact .inl (by_contra fun habsent => hold ⟨hkind, habsent⟩)
          · exact .inr hid

variable (order : HashOrder) (kind : String)

theorem known_ids (hkeyed : doc.authoritative.Keyed) :
    ((order.arrange (doc.authoritative.rows.filter (·.kind = kind))).map (·.id)).Nodup ∧
    ∀ id, id ∈ (order.arrange (doc.authoritative.rows.filter (·.kind = kind))).map (·.id) ↔
      ∃ row, doc.authoritative[({ kind, id } : RowKey)]? = some row := by
  constructor
  · refine ((order.perm _).map _).nodup_iff.mpr ?_
    have hkeys : (doc.authoritative.rows.map (·.key)).Nodup := by
      have hmap : doc.authoritative.rows.map (·.key) = doc.authoritative.keys := by
        rw [RowTable.rows, List.map_map, ← Std.ExtTreeMap.map_fst_toList_eq_keys]
        refine List.map_congr_left fun entry hentry => ?_
        exact hkeyed _ _ (Std.ExtTreeMap.mem_toList_iff_getElem?_eq_some.mp hentry)
      rw [hmap]
      exact Std.ExtTreeMap.nodup_keys
    refine List.Nodup.map_on (fun row hrow other hother hid => ?_) (hkeys.of_map.filter _)
    obtain ⟨hrow, hkind⟩ := List.mem_filter.mp hrow
    obtain ⟨hother, hkind'⟩ := List.mem_filter.mp hother
    refine List.inj_on_of_nodup_map hkeys hrow hother ?_
    exact congrArg₂ RowKey.mk ((of_decide_eq_true hkind).trans (of_decide_eq_true hkind').symm) hid
  · intro id
    rw [List.mem_map]
    constructor
    · rintro ⟨row, hrow, rfl⟩
      obtain ⟨hstored, hkind⟩ := List.mem_filter.mp (order.mem_arrange.mp hrow)
      rw [← of_decide_eq_true hkind]
      exact ⟨row, hkeyed.mem_rows.mp hstored⟩
    · rintro ⟨row, hrow⟩
      have hkey := hkeyed _ _ hrow
      have hkind : row.kind = kind := congrArg RowKey.kind hkey
      refine ⟨row, order.mem_arrange.mpr (List.mem_filter.mpr ⟨hkeyed.mem_rows.mpr ?_, ?_⟩), ?_⟩
      · rwa [hkey]
      · exact decide_eq_true hkind
      · exact congrArg RowKey.id hkey

theorem overlayRows_ids (hkeyed : doc.authoritative.Keyed) :
    ((doc.overlayRows order kind).map (·.id)).Nodup := by
  obtain ⟨hknown, -⟩ := known_ids order kind hkeyed
  have hids := (listed_ids kind doc.pendingOps hknown).1
  have hsublist (ids : List String) :
      ((ids.filterMap fun id => doc.overlayRow { kind, id }).map (·.id)).Sublist ids := by
    induction ids with
    | nil => exact .slnil
    | cons id ids ih =>
        rw [List.filterMap_cons]
        cases hrow : doc.overlayRow { kind, id } with
        | none => exact ih.cons id
        | some row =>
            have hid : row.id = id := congrArg RowKey.id (overlayRow_key hkeyed hrow)
            rw [List.map_cons, hid]
            exact ih.cons_cons id
  exact hids.sublist (hsublist _)

theorem mem_overlayRows (hkeyed : doc.authoritative.Keyed) :
    row ∈ doc.overlayRows order kind ↔ row.kind = kind ∧ doc.overlayRow row.key = some row := by
  obtain ⟨hknown, hstored⟩ := known_ids order kind hkeyed
  have hids := (listed_ids kind doc.pendingOps hknown).2
  unfold overlayRows
  rw [List.mem_filterMap]
  constructor
  · rintro ⟨id, -, hrow⟩
    have hkey := overlayRow_key hkeyed hrow
    exact ⟨congrArg RowKey.kind hkey, by rwa [hkey]⟩
  · rintro ⟨rfl, hrow⟩
    refine ⟨row.id, (hids row.id).mpr ?_, hrow⟩
    exact (listed_of_shownRow (Option.filter_eq_some_iff.mp hrow).1).imp_left (hstored _).mpr

theorem overlayRows_perm (hkeyed : doc.authoritative.Keyed) (order' : HashOrder) :
    (doc.overlayRows order kind).Perm (doc.overlayRows order' kind) := by
  refine (List.perm_ext_iff_of_nodup (overlayRows_ids order kind hkeyed).of_map
    (overlayRows_ids order' kind hkeyed).of_map).mpr fun row => ?_
  rw [mem_overlayRows order kind hkeyed, mem_overlayRows order' kind hkeyed]

end Listed

end RegistryDoc

end Zeron.Registry
