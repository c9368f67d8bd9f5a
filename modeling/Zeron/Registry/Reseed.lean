import Zeron.Registry.Laws

/-!
# A row after a re-seed

A seed carries the fields of its row, each with its clock. A live row remembers more: the clocks of
fields that were cleared, and the clock of the deletion it was revived from.
-/

namespace Zeron.Registry

namespace RegistryRow

/-- The row that a room without it has after the row's seed. -/
def reseeded (row : RegistryRow) : Option RegistryRow := (applyOp none (rowToSeedOp row)).1

/-- The row is gone, or each of its clocks is on a field that it has and none is older than the
deletion it was revived from. -/
def SeedsWhole (row : RegistryRow) : Prop :=
  row.deleted = true ∨ (∀ entry ∈ row.clocks.toList, (row.fields[entry.1]?).isSome) ∧
    ∀ d ∈ row.delHlc, ∃ entry ∈ row.clocks.toList, d ≤ entry.2

instance (row : RegistryRow) : Decidable row.SeedsWhole :=
  inferInstanceAs (Decidable (_ ∨ _ ∧ ∀ d ∈ row.delHlc, _))

/-- What a row is that only ops have made. -/
structure Made (row : RegistryRow) : Prop where
  seq : row.seq = 0
  gone : row.deleted = true → row.fields = ∅ ∧ row.clocks = ∅ ∧ row.delHlc.isSome
  clocked : ∀ (key : String) (value : JsonValue), row.fields[key]? = some value →
    value.isNull = false ∧ (row.clocks[key]?).isSome

end RegistryRow

/-- The fields of a live row. -/
def visible (row : Option RegistryRow) : Option (FieldMap JsonValue) :=
  (row.filter (! ·.deleted)).map (·.fields)

section Made

theorem RegistryRow.Made.of_bare {row : RegistryRow} (hseq : row.seq = 0) (hfields : row.fields = ∅)
    (hgone : row.deleted = true → row.clocks = ∅ ∧ row.delHlc.isSome) : row.Made := by
  refine ⟨hseq, fun hdeleted => ⟨hfields, hgone hdeleted⟩, fun key value hvalue => ?_⟩
  rw [hfields] at hvalue
  simp at hvalue

theorem RegistryRow.Made.writes {base : RegistryRow} (h : base.Made) (hlive : base.deleted = false) (op : RowOp)
    (changed : Bool) : (writeSet op base changed).1.Made := by
  obtain ⟨fields, clocks, hshape⟩ := writeSet_shape op base changed
  refine ⟨?_, fun hdeleted => ?_, fun key value hvalue => ?_⟩
  · rw [hshape]
    exact h.seq
  · rw [hshape] at hdeleted
    exact absurd (hdeleted.symm.trans hlive) Bool.true_eq_false.mp
  · obtain ⟨-, hnull, -, hclock⟩ | ⟨hbase, hclock⟩ := writeSet_shown hvalue
    · exact ⟨hnull, by rw [hclock]; rfl⟩
    · rw [hclock]
      exact h.clocked key value hbase

theorem RegistryRow.Made.applyOp {row : Option RegistryRow} (h : ∀ r ∈ row, r.Made) (op : RowOp) :
    ∀ r ∈ (applyOp row op).1, r.Made := by
  apply applyOp_induct h
  · exact fun _ => .of_bare rfl rfl fun _ => ⟨rfl, rfl⟩
  · exact fun _ r hr => .of_bare hr.seq rfl fun _ => ⟨rfl, rfl⟩
  · exact fun _ => .of_bare rfl rfl fun hdeleted => by cases hdeleted
  · exact fun _ r hr => .of_bare hr.seq rfl fun hdeleted => by cases hdeleted
  · exact fun _ base changed hlive hbase => hbase.writes hlive op changed

theorem RegistryRow.Made.applyAll {row : Option RegistryRow} (h : ∀ r ∈ row, r.Made) (ops : List RowOp) :
    ∀ r ∈ applyAll row ops, r.Made := by
  induction ops generalizing row with
  | nil => exact h
  | cons op ops ih => exact ih (RegistryRow.Made.applyOp h op)

end Made

section Seeded

variable {row : RegistryRow}

/-- What the room has of a live row after its seed: the fields with their clocks. -/
theorem reseeded_live (h : row.Made) (hlive : row.deleted = false) :
    ∃ row', row.reseeded = some row' ∧ row'.deleted = false ∧ row'.delHlc = none ∧
      ∀ key, row'.at key = if (row.fields[key]?).isSome then row.at key else (none, none) := by
  obtain ⟨hlc, hseed⟩ : ∃ hlc, rowToSeedOp row =
      { kind := row.kind, id := row.id, op := .upsert, set := some row.fields, hlc
        clocks := some row.clocks } := by
    unfold rowToSeedOp
    rw [hlive]
    exact ⟨_, rfl⟩
  have happly : row.reseeded =
      (finishWrites (writeSet (rowToSeedOp row) (.blank row.kind row.id) true)).1 := by
    have hop : (rowToSeedOp row).op ≠ .delete := by
      rw [hseed]
      exact fun hdelete => by cases hdelete
    unfold RegistryRow.reseeded
    rw [applyOp_eq_finishWrites hop, hseed]
    rfl
  rw [happly, finishWrites_live true rfl]
  obtain ⟨-, hdeleted, hdelHlc⟩ := writeSet_frame (rowToSeedOp row) (.blank row.kind row.id) true
  refine ⟨_, rfl, hdeleted, hdelHlc, fun key => ?_⟩
  have hset : (rowToSeedOp row).set.getD ∅ = row.fields := by rw [hseed]; rfl
  rw [writeSet_at, hset]
  cases hfield : row.fields[key]? with
  | none => rfl
  | some value =>
      obtain ⟨hnull, hclock⟩ := h.clocked key value hfield
      obtain ⟨c, hc⟩ := Option.isSome_iff_exists.mp hclock
      have hfor : (rowToSeedOp row).clockFor key = c := by
        rw [hseed]
        simp [RowOp.clockFor, hc]
      rw [hfor]
      simp [RegistryRow.at, written, hnull, hfield, hc, RegistryRow.blank]

theorem reseeded_gone (h : row.Made) (hdeleted : row.deleted = true) : row.reseeded = some row := by
  obtain ⟨hfields, hclocks, hdelHlc⟩ := h.gone hdeleted
  have hseq := h.seq
  obtain ⟨kind, id, seq, deleted, delHlc, fields, clocks⟩ := row
  cases hdeleted
  cases hfields
  cases hclocks
  cases hseq
  obtain ⟨d, rfl⟩ := Option.isSome_iff_exists.mp hdelHlc
  rfl

theorem newer_maxClock_iff (hlc : Hlc) : hlcNewer hlc row.maxClock = true ↔
    (∀ d ∈ row.delHlc, d < hlc) ∧ ∀ entry ∈ row.clocks.toList, entry.2 < hlc := by
  constructor
  · intro hnewer
    have hall : ∀ c, (∃ m, row.maxClock = some m ∧ c ≤ m) → c < hlc := by
      rintro c ⟨m, hm, hle⟩
      rw [hm, hlcNewer_some] at hnewer
      exact hle.trans_lt hnewer
    exact ⟨fun d hd => hall d (RegistryRow.delHlc_le_maxClock hd), fun entry hentry =>
      hall entry.2 (RegistryRow.clock_le_maxClock
        (Std.ExtTreeMap.mem_toList_iff_getElem?_eq_some.mp hentry))⟩
  · rintro ⟨hdel, hclocks⟩
    cases hmax : row.maxClock with
    | none => rfl
    | some m =>
        rw [hlcNewer_some]
        obtain hclock | ⟨key, hclock⟩ := RegistryRow.maxClock_mem hmax
        · exact hdel m hclock
        · exact hclocks (key, m) (Std.ExtTreeMap.mem_toList_iff_getElem?_eq_some.mpr hclock)

theorem visible_live (hlive : row.deleted = false) : visible (some row) = some row.fields := by
  simp [visible, Option.filter, hlive]

theorem visible_delete (hlive : row.deleted = false) {op : RowOp} (hop : op.op = .delete) :
    visible (applyOp (some row) op).1 =
      if hlcNewer op.hlc row.maxClock then none else some row.fields := by
  have happly : applyOp (some row) op = applyDelete (some row) op := by
    unfold applyOp
    rw [if_pos hop]
  rw [happly]
  unfold applyDelete
  simp only [hlive, Bool.false_eq_true, if_false]
  split
  · rfl
  · exact visible_live hlive

theorem visible_writes (hlive : row.deleted = false) {op : RowOp} (hop : op.op ≠ .delete) :
    visible (applyOp (some row) op).1 = some (writeSet op row false).1.fields := by
  rw [applyOp_live hlive hop]
  apply visible_live
  rw [(writeSet_frame op row false).2.1, hlive]

theorem writeSet_at_congr {base base' : RegistryRow} (op : RowOp) (changed : Bool) {key : String}
    (h : base.at key = base'.at key) :
    (writeSet op base changed).1.at key = (writeSet op base' changed).1.at key := by
  have hclocks : base.clocks[key]? = base'.clocks[key]? := congrArg Prod.snd h
  rw [writeSet_at, writeSet_at, h, hclocks]

/-- A write that the row refuses for its clock. -/
def lateWrite (row : RegistryRow) (key : String) (hlc : Hlc) : RowOp :=
  { kind := row.kind, id := row.id, op := .update, set := some (fields [(key, .bool true)]), hlc
    clocks := none }

def lateDelete (row : RegistryRow) (hlc : Hlc) : RowOp :=
  { kind := row.kind, id := row.id, op := .delete, set := none, hlc, clocks := none }

theorem visible_lateWrite {base : RegistryRow} (hlive : base.deleted = false) (key : String)
    (hlc : Hlc) : ∃ shown, visible (applyOp (some base) (lateWrite row key hlc)).1 = some shown ∧
      shown[key]? = (written (hlcNewer hlc base.clocks[key]?) hlc (.bool true) (base.at key)).1 := by
  have hop : (lateWrite row key hlc).op ≠ .delete := fun hdelete => by cases hdelete
  have hset : ((lateWrite row key hlc).set.getD ∅)[key]? = some (.bool true) := by
    simp [lateWrite, fields]
  refine ⟨_, visible_writes hlive hop, ?_⟩
  have hat := congrArg Prod.fst (writeSet_at (lateWrite row key hlc) base false key)
  rw [hset] at hat
  exact hat

end Seeded

/-- **Re-seeds.** After its seed a row takes every op as the row itself does exactly where the row is
gone, or each of its clocks is on a field that it has and none is older than the deletion it was
revived from. -/
theorem reseeded_iff {ops : List RowOp} {row : RegistryRow} (h : applyAll none ops = some row) :
    (∀ op, visible (applyOp row.reseeded op).1 = visible (applyOp (some row) op).1) ↔
      row.SeedsWhole := by
  have hnone : ∀ r ∈ (none : Option RegistryRow), r.Made := by simp
  have hmade : row.Made := RegistryRow.Made.applyAll hnone ops row h
  cases hlive : row.deleted with
  | true =>
      rw [reseeded_gone hmade hlive]
      exact iff_of_true (fun _ => rfl) (.inl hlive)
  | false =>
      obtain ⟨row', hrow', hlive', hdelHlc', hat⟩ := reseeded_live hmade hlive
      have hclocks' : ∀ entry ∈ row'.clocks.toList, entry ∈ row.clocks.toList := by
        intro entry hentry
        rw [Std.ExtTreeMap.mem_toList_iff_getElem?_eq_some] at hentry ⊢
        have hclock := congrArg Prod.snd (hat entry.1)
        split at hclock
        · exact hclock.symm.trans hentry
        · cases hclock.symm.trans hentry
      rw [hrow']
      constructor
      · intro hsame
        refine .inr ⟨fun entry hentry => ?_, fun d hd => ?_⟩
        · -- A write with the clock of a cleared field is late for the row alone.
          have hclock := Std.ExtTreeMap.mem_toList_iff_getElem?_eq_some.mp hentry
          by_contra hcleared
          have hnone : row.fields[entry.1]? = none := by simpa using hcleared
          have hseeded := hat entry.1
          rw [if_neg hcleared] at hseeded
          have hclock' : row'.clocks[entry.1]? = none := congrArg Prod.snd hseeded
          obtain ⟨shown, hshown, hfield⟩ := visible_lateWrite hlive entry.1 entry.2
          obtain ⟨shown', hshown', hfield'⟩ := visible_lateWrite hlive' entry.1 entry.2
          have heq := hsame (lateWrite row entry.1 entry.2)
          rw [hshown, hshown', Option.some_inj] at heq
          rw [heq, hfield, hclock, hclock'] at hfield'
          simp [written, RegistryRow.at, hnone, JsonValue.isNull, hlcNewer] at hfield'
        · -- A deletion with the clock of the one that the row was revived from is late for the row.
          by_contra hbelow
          have hnewer : hlcNewer d row'.maxClock = true := by
            refine (newer_maxClock_iff d).mpr ⟨fun c hc => ?_, fun entry hentry => ?_⟩
            · rw [hdelHlc'] at hc
              cases hc
            · by_contra hnot
              exact hbelow ⟨entry, hclocks' entry hentry, not_lt.mp hnot⟩
          have hlate : ¬ hlcNewer d row.maxClock = true := fun hnewer =>
            absurd (((newer_maxClock_iff d).mp hnewer).1 d hd) (lt_irrefl d)
          have heq := hsame (lateDelete row d)
          rw [visible_delete hlive' rfl, visible_delete hlive rfl] at heq
          rw [show (lateDelete row d).hlc = d from rfl, if_pos hnewer, if_neg hlate] at heq
          cases heq
      · rintro (hgone | ⟨hfields, hdel⟩) op
        · exact absurd (hgone.symm.trans hlive) Bool.true_eq_false.mp
        · have hsame : ∀ key, row'.at key = row.at key := by
            intro key
            rw [hat]
            split
            · rfl
            · rename_i hcleared
              have hnone : row.clocks[key]? = none := by
                cases hclock : row.clocks[key]? with
                | none => rfl
                | some c =>
                    refine absurd (hfields (key, c) ?_) hcleared
                    exact Std.ExtTreeMap.mem_toList_iff_getElem?_eq_some.mpr hclock
              simp only [RegistryRow.at, hnone, Option.not_isSome_iff_eq_none.mp hcleared]
          have hfieldsEq : row'.fields = row.fields := Std.ExtTreeMap.ext_getElem? fun key =>
            congrArg Prod.fst (hsame key)
          have hclocksEq : row'.clocks = row.clocks := Std.ExtTreeMap.ext_getElem? fun key =>
            congrArg Prod.snd (hsame key)
          by_cases hop : op.op = .delete
          · have hbeats : hlcNewer op.hlc row'.maxClock = hlcNewer op.hlc row.maxClock := by
              rw [Bool.eq_iff_iff, newer_maxClock_iff, newer_maxClock_iff, hclocksEq, hdelHlc']
              constructor
              · rintro ⟨-, hall⟩
                refine ⟨fun d hd => ?_, hall⟩
                obtain ⟨entry, hentry, hle⟩ := hdel d hd
                exact hle.trans_lt (hall entry hentry)
              · exact fun hall => ⟨by simp, hall.2⟩
            rw [visible_delete hlive' hop, visible_delete hlive hop, hbeats, hfieldsEq]
          · rw [visible_writes hlive' hop, visible_writes hlive hop, Option.some_inj]
            exact Std.ExtTreeMap.ext_getElem? fun key =>
              congrArg Prod.fst (writeSet_at_congr op false (hsame key))

/-- A chat that is there with all that it was given. -/
theorem reseeded_created : ∃ row, row.deleted = false ∧
    ∀ op, visible (applyOp row.reseeded op).1 = visible (applyOp (some row) op).1 := by
  have hcreated : (applyAll none [chatOp .upsert
      [("title", .string "old"), ("cwd", .string "tmp")] "0000000001000-000000-a"]).any fun row =>
        !row.deleted && decide row.SeedsWhole := by
    decide
  obtain ⟨row, hrow, hwhole⟩ := (Option.any_eq_true _ _).mp hcreated
  simp only [Bool.and_eq_true, Bool.not_eq_true', decide_eq_true_eq] at hwhole
  exact ⟨row, hwhole.1, (reseeded_iff hrow).mpr hwhole.2⟩

/-- A chat loses its title, and a rename from before that comes after the re-seed. -/
theorem reseeded_forgets : ∃ (ops : List RowOp) (row : RegistryRow) (op : RowOp),
    applyAll none ops = some row ∧
      visible (applyOp row.reseeded op).1 ≠ visible (applyOp (some row) op).1 := by
  let rename := chatOp .update [("title", .string "late")] "0000000002000-000000-b"
  have hcleared : (applyAll none [chatOp .upsert [("title", .string "old")] "0000000001000-000000-a",
      chatOp .update [("title", .null)] "0000000003000-000000-a"]).any fun row =>
        visible (applyOp row.reseeded rename).1 != visible (applyOp (some row) rename).1 := by
    decide
  obtain ⟨row, hrow, hdiffers⟩ := (Option.any_eq_true _ _).mp hcleared
  exact ⟨_, row, rename, hrow, bne_iff_ne.mp hdiffers⟩

end Zeron.Registry
