import Mathlib.Data.List.Pairwise
import Zeron.Registry.Agreement

/-!
# Laws of the merge

Field writes commute where no two of them carry one clock, and a clock of a row moves back only with
the row's deletion. A row that an upsert revives has forgotten which writes the deletion beat, so it
is there that a replay, or a write that comes late, can bring an old value back.
-/

namespace Zeron.Registry

def applyAll (row : Option RegistryRow) (ops : List RowOp) : Option RegistryRow :=
  ops.foldl (fun row op => (applyOp row op).1) row

@[simp]
theorem applyAll_nil (row : Option RegistryRow) : applyAll row [] = row := rfl

@[simp]
theorem applyAll_cons (row : Option RegistryRow) (op : RowOp) (ops : List RowOp) :
    applyAll row (op :: ops) = applyAll (applyOp row op).1 ops := rfl

theorem applyAll_append (row : Option RegistryRow) (ops ops' : List RowOp) :
    applyAll row (ops ++ ops') = applyAll (applyAll row ops) ops' := List.foldl_append

variable {op : RowOp}

section Views

theorem RegistryRow.ext_at {row row' : RegistryRow}
    (hshape : ∃ fields clocks, row' = { row with fields, clocks })
    (hat : ∀ key, row.at key = row'.at key) : row = row' := by
  obtain ⟨fields, clocks, rfl⟩ := hshape
  have hfields : row.fields = fields := Std.ExtTreeMap.ext_getElem? fun key =>
    congrArg Prod.fst (hat key)
  have hclocks : row.clocks = clocks := Std.ExtTreeMap.ext_getElem? fun key =>
    congrArg Prod.snd (hat key)
  subst hfields
  subst hclocks
  rfl

theorem writeSet_at (op : RowOp) (base : RegistryRow) (changed : Bool) (key : String) :
    (writeSet op base changed).1.at key =
      match (op.set.getD ∅)[key]? with
      | none => base.at key
      | some value =>
          written (hlcNewer (op.clockFor key) base.clocks[key]?) (op.clockFor key) value
            (base.at key) := by
  rw [writeSet_eq_all]
  cases hvalue : (op.set.getD ∅)[key]? with
  | none =>
      apply (keyedWrites_writeField op).view_of_not_mem
      rintro entry hentry rfl
      rw [Std.ExtTreeMap.mem_toList_iff_getElem?_eq_some, hvalue] at hentry
      cases hentry
  | some value =>
      apply (keyedWrites_writeField op).view_of_mem _ (distinct_toList _)
      exact Std.ExtTreeMap.mem_toList_iff_getElem?_eq_some.mpr hvalue

theorem finishWrites_live {base : RegistryRow} (changed : Bool) (hlive : base.deleted = false) :
    (finishWrites (writeSet op base changed)).1 = some (writeSet op base changed).1 := by
  have hframe := (writeSet_frame op base changed).2.1
  rw [hlive] at hframe
  generalize writeSet op base changed = outcome at hframe ⊢
  obtain ⟨⟨kind, id, seq, deleted, delHlc, fields, clocks⟩, changed'⟩ := outcome
  cases hframe
  unfold finishWrites
  split <;> rfl

theorem applyOp_live {row : RegistryRow} (hlive : row.deleted = false) (hop : op.op ≠ .delete) :
    (applyOp (some row) op).1 = some (writeSet op row false).1 := by
  unfold applyOp
  rw [if_neg hop]
  simp only [hlive, Bool.false_eq_true, if_false]
  exact finishWrites_live false hlive

/-- What holds of the rows an op makes and is kept by its writes holds of the row after the op. -/
theorem applyOp_induct {motive : RegistryRow → Prop} {row : Option RegistryRow}
    (hrow : ∀ r ∈ row, motive r)
    (htombstone : op.op = .delete → motive (.tombstone op.kind op.id op.hlc))
    (hentomb : op.op = .delete → ∀ r, motive r → motive (r.entomb op.hlc))
    (hblank : op.op ≠ .delete → motive (.blank op.kind op.id))
    (hrevived : op.op ≠ .delete → ∀ r, motive r → motive r.revived)
    (hwrites : op.op ≠ .delete → ∀ base changed, base.deleted = false → motive base →
      motive (writeSet op base changed).1) :
    ∀ r ∈ (applyOp row op).1, motive r := by
  by_cases hop : op.op = .delete
  · have happly : applyOp row op = applyDelete row op := by
      unfold applyOp
      rw [if_pos hop]
    rw [happly]
    intro r hr
    cases row with
    | none =>
        cases hr
        exact htombstone hop
    | some row =>
        change r ∈ (if hlcNewer op.hlc row.newest then _ else _ : Option RegistryRow × Bool).1 at hr
        split at hr
        · cases hr
          exact hentomb hop row (hrow row rfl)
        · exact hrow r hr
  · rw [applyOp_eq_finishWrites hop]
    cases hstart : op.startsFrom row with
    | none => exact hrow
    | some start =>
        have hbase : motive start.1 ∧ start.1.deleted = false := by
          unfold RowOp.startsFrom at hstart
          rw [if_neg hop] at hstart
          cases row with
          | none =>
              simp only at hstart
              split at hstart <;> cases hstart
              exact ⟨hblank hop, rfl⟩
          | some row =>
              simp only at hstart
              split at hstart
              · split at hstart <;> cases hstart
                exact ⟨hrevived hop row (hrow row rfl), rfl⟩
              · rename_i hlive
                cases hstart
                exact ⟨hrow row rfl, by simpa using hlive⟩
        dsimp only
        rw [finishWrites_live start.2 hbase.2]
        rintro _ ⟨⟩
        exact hwrites hop start.1 start.2 hbase.2 hbase.1

end Views

section Order

/-- No field is written by both with one clock. -/
def RowOp.ClocksDiffer (op op' : RowOp) : Prop :=
  ∀ write ∈ (op.set.getD ∅).toList, ∀ write' ∈ (op'.set.getD ∅).toList, write.1 = write'.1 →
    op.clockFor write.1 ≠ op'.clockFor write'.1

instance (op op' : RowOp) : Decidable (op.ClocksDiffer op') :=
  inferInstanceAs (Decidable (∀ write ∈ (op.set.getD ∅).toList, _))

instance : Std.Symm RowOp.ClocksDiffer where
  symm _ _ h write hwrite write' hwrite' heq := (h write' hwrite' write hwrite heq.symm).symm

theorem written_comm {a b : Hlc} (hne : a ≠ b) (value value' : JsonValue)
    (seen : Option JsonValue × Option Hlc) :
    written (hlcNewer b (written (hlcNewer a seen.2) a value seen).2) b value'
        (written (hlcNewer a seen.2) a value seen) =
      written (hlcNewer a (written (hlcNewer b seen.2) b value' seen).2) a value
        (written (hlcNewer b seen.2) b value' seen) := by
  unfold written
  obtain ⟨value₀, clock⟩ := seen
  cases clock with
  | none =>
      obtain hlt | hlt := lt_or_gt_of_ne hne
      · simp [hlcNewer, hlt, not_lt_of_gt hlt]
      · simp [hlcNewer, hlt, not_lt_of_gt hlt]
  | some c =>
      by_cases ha : c < a <;> by_cases hb : c < b
      · obtain hlt | hlt := lt_or_gt_of_ne hne
        · simp [hlcNewer, ha, hb, hlt, not_lt_of_gt hlt]
        · simp [hlcNewer, ha, hb, hlt, not_lt_of_gt hlt]
      · simp [hlcNewer, ha, hb, not_lt_of_ge (le_trans (not_lt.mp hb) ha.le)]
      · simp [hlcNewer, ha, hb, not_lt_of_ge (le_trans (not_lt.mp ha) hb.le)]
      · simp [hlcNewer, ha, hb]

theorem writeSet_comm {op op' : RowOp} (h : op.ClocksDiffer op') (row : RegistryRow) :
    (writeSet op' (writeSet op row false).1 false).1 =
      (writeSet op (writeSet op' row false).1 false).1 := by
  apply RegistryRow.ext_at
  · obtain ⟨fields, clocks, heq⟩ := writeSet_shape op row false
    obtain ⟨fields', clocks', heq'⟩ := writeSet_shape op' row false
    obtain ⟨fields₂, clocks₂, heq₂⟩ := writeSet_shape op' (writeSet op row false).1 false
    obtain ⟨fields₃, clocks₃, heq₃⟩ := writeSet_shape op (writeSet op' row false).1 false
    refine ⟨fields₃, clocks₃, ?_⟩
    rw [heq₃, heq₂, heq, heq']
  · intro key
    have hclock : ∀ (row : RegistryRow), row.clocks[key]? = (row.at key).2 := fun _ => rfl
    rw [writeSet_at, writeSet_at op, writeSet_at op, writeSet_at op', hclock, hclock, hclock,
      writeSet_at op, writeSet_at op']
    cases hset : (op.set.getD ∅)[key]? with
    | none => rfl
    | some value =>
        cases hset' : (op'.set.getD ∅)[key]? with
        | none => rfl
        | some value' =>
            have hne := h (key, value) (Std.ExtTreeMap.mem_toList_iff_getElem?_eq_some.mpr hset)
              (key, value') (Std.ExtTreeMap.mem_toList_iff_getElem?_eq_some.mpr hset') rfl
            exact written_comm hne value value' (row.at key)

theorem applyAll_live {row : RegistryRow} (hlive : row.deleted = false) {ops : List RowOp}
    (hops : ∀ op ∈ ops, op.op ≠ .delete) :
    applyAll (some row) ops = some (ops.foldl (fun row op => (writeSet op row false).1) row) := by
  induction ops generalizing row with
  | nil => rfl
  | cons op ops ih =>
      rw [applyAll_cons, applyOp_live hlive (hops op List.mem_cons_self), List.foldl_cons]
      apply ih
      · rw [(writeSet_frame op row false).2.1, hlive]
      · exact fun op' hop' => hops op' (List.mem_cons_of_mem op hop')

/-- **Order independence.** Upserts and updates of a live row that write no field with one clock leave
the same row in whatever order they come. -/
theorem applyAll_perm {row : RegistryRow} (hlive : row.deleted = false) {ops ops' : List RowOp}
    (hops : ∀ op ∈ ops, op.op ≠ .delete) (hclocks : ops.Pairwise RowOp.ClocksDiffer)
    (hperm : ops.Perm ops') : applyAll (some row) ops = applyAll (some row) ops' := by
  rw [applyAll_live hlive hops, applyAll_live hlive fun op hop => hops op (hperm.mem_iff.mpr hop)]
  congr 1
  apply hperm.foldl_eq'
  intro op hop op' hop' row
  by_cases heq : op = op'
  · rw [heq]
  · exact writeSet_comm (hclocks.forall hop hop' heq) row

/-- A write to `chat-1`. -/
def chatOp (op : OpKind) (entries : List (String × JsonValue)) (hlc : Hlc) : RowOp :=
  { kind := "chats", id := "chat-1", op, set := some (fields entries), hlc, clocks := none }

def races : List RowOp :=
  [chatOp .update [("title", .string "renamed")] "0000000003000-000000-b",
    chatOp .update [("archived", .bool true)] "0000000002000-000000-c",
    chatOp .upsert [("title", .null), ("cwd", .string "tmp")] "0000000002500-000000-d"]

theorem applyAll_races_reverse : applyAll (some (.blank "chats" "chat-1")) races =
    applyAll (some (.blank "chats" "chat-1")) races.reverse :=
  applyAll_perm rfl (by decide) (by decide) races.reverse_perm.symm

end Order

section Forward

namespace RegistryRow

/-- A tombstone has no fields and no clocks; what a live row shows is newer than its deletion. -/
structure Clean (row : RegistryRow) : Prop where
  gone : row.deleted = true → row.fields = ∅ ∧ row.clocks = ∅
  shown : row.deleted = false → ∀ entry ∈ row.fields.toList,
    ∃ c, row.clocks[entry.1]? = some c ∧ ∀ d ∈ row.delHlc, d < c

/-- No clock of the row moves back; those of its fields are given up with the fields. -/
structure Forward (row row' : RegistryRow) : Prop where
  clocks : row'.deleted = false → ∀ (key : String) (c : Hlc), row.clocks[key]? = some c →
    ∃ c', row'.clocks[key]? = some c' ∧ c ≤ c'
  newest : ∀ c ∈ row.maxClock, ∃ c' ∈ row'.maxClock, c ≤ c'
  delHlc : ∀ d ∈ row.delHlc, ∃ d' ∈ row'.delHlc, d ≤ d'

theorem Forward.refl (row : RegistryRow) : Forward row row :=
  ⟨fun _ _ c hc => ⟨c, hc, le_refl c⟩, fun c hc => ⟨c, hc, le_refl c⟩,
    fun d hd => ⟨d, hd, le_refl d⟩⟩

end RegistryRow

def KeepsForward (row : Option RegistryRow) (op : RowOp) : Prop :=
  ∀ row' ∈ (applyOp row op).1, row'.Clean ∧ ∀ r ∈ row, r.Forward row'

/-- A value that the op puts on a row that was deleted before is newer than the deletion, unless it is
not newer than what the row has. -/
def RowOp.BeatsDeletion (op : RowOp) (row : Option RegistryRow) : Prop :=
  ∀ start ∈ op.startsFrom row, ∀ d ∈ start.1.delHlc, ∀ entry ∈ (op.set.getD ∅).toList,
    entry.2.isNull = false → hlcNewer (op.clockFor entry.1) start.1.clocks[entry.1]? = true →
      d < op.clockFor entry.1

instance (op : RowOp) (row : Option RegistryRow) : Decidable (op.BeatsDeletion row) :=
  inferInstanceAs (Decidable (∀ start ∈ op.startsFrom row, _))

theorem applyDelete_forward (row : RegistryRow) (op : RowOp) (hclean : row.Clean)
    (row' : RegistryRow) (h : (applyDelete (some row) op).1 = some row') :
    row'.Clean ∧ row.Forward row' := by
  unfold applyDelete at h
  change (if hlcNewer op.hlc row.newest then _ else _ : Option RegistryRow × Bool).1 = _ at h
  split at h
  · rename_i hnewer
    cases h
    have hnewest : ∀ c ∈ row.newest, c < op.hlc := fun c hc => by
      rw [hc, hlcNewer_some] at hnewer
      exact hnewer
    have hmax : ∀ c ∈ row.maxClock, c < op.hlc := by
      intro c hc
      cases hdeleted : row.deleted with
      | false => exact hnewest c (by simpa [RegistryRow.newest, hdeleted] using hc)
      | true =>
          obtain hdel | ⟨field, hclock⟩ := RegistryRow.maxClock_mem hc
          · exact hnewest c (by simpa [RegistryRow.newest, hdeleted] using hdel)
          · rw [(hclean.gone hdeleted).2] at hclock
            simp at hclock
    have hentombed : ∃ c' ∈ (row.entomb op.hlc).maxClock, op.hlc ≤ c' :=
      RegistryRow.delHlc_le_maxClock rfl
    have hdead : (row.entomb op.hlc).deleted ≠ false := Bool.true_eq_false.mp
    refine ⟨⟨fun _ => ⟨rfl, rfl⟩, fun h => absurd h hdead⟩, fun h => absurd h hdead,
      fun c hc => ?_, fun d hd => ?_⟩
    · obtain ⟨c', hc', hle⟩ := hentombed
      exact ⟨c', hc', (hmax c hc).le.trans hle⟩
    · obtain ⟨m, hm, hle⟩ := RegistryRow.delHlc_le_maxClock hd
      exact ⟨op.hlc, rfl, hle.trans (hmax m hm).le⟩
  · cases h
    exact ⟨hclean, .refl row⟩

/-- A field after the write is the op's, if the op has a newer value for it, or as it was. -/
theorem writeSet_cases (op : RowOp) (base : RegistryRow) (changed : Bool) (key : String) :
    (∃ value, (op.set.getD ∅)[key]? = some value ∧
      hlcNewer (op.clockFor key) base.clocks[key]? = true ∧
      (writeSet op base changed).1.fields[key]? = (if value.isNull then none else some value) ∧
      (writeSet op base changed).1.clocks[key]? = some (op.clockFor key)) ∨
    ((writeSet op base changed).1.fields[key]? = base.fields[key]? ∧
      (writeSet op base changed).1.clocks[key]? = base.clocks[key]?) := by
  have hat := writeSet_at op base changed key
  cases hset : (op.set.getD ∅)[key]? with
  | none =>
      rw [hset] at hat
      exact .inr ⟨congrArg Prod.fst hat, congrArg Prod.snd hat⟩
  | some value =>
      rw [hset] at hat
      by_cases hnewer : hlcNewer (op.clockFor key) base.clocks[key]? = true
      · simp only [hnewer, written, if_true] at hat
        exact .inl ⟨value, rfl, hnewer, congrArg Prod.fst hat, congrArg Prod.snd hat⟩
      · simp only [hnewer, written, Bool.false_eq_true, if_false] at hat
        exact .inr ⟨congrArg Prod.fst hat, congrArg Prod.snd hat⟩

/-- What a field shows after the write: a value of the op's that was newer, or what it showed. -/
theorem writeSet_shown {base : RegistryRow} {changed : Bool} {key : String} {shown : JsonValue}
    (h : (writeSet op base changed).1.fields[key]? = some shown) :
    ((op.set.getD ∅)[key]? = some shown ∧ shown.isNull = false ∧
      hlcNewer (op.clockFor key) base.clocks[key]? = true ∧
      (writeSet op base changed).1.clocks[key]? = some (op.clockFor key)) ∨
    (base.fields[key]? = some shown ∧
      (writeSet op base changed).1.clocks[key]? = base.clocks[key]?) := by
  obtain ⟨value, hset, hnewer, hfields, hclocks⟩ | ⟨hfields, hclocks⟩ :=
    writeSet_cases op base changed key
  · rw [hfields, Option.ite_none_left_eq_some, Bool.not_eq_true, Option.some.injEq] at h
    obtain ⟨hnull, rfl⟩ := h
    exact .inl ⟨hset, hnull, hnewer, hclocks⟩
  · exact .inr ⟨hfields.symm.trans h, hclocks⟩

theorem writeSet_clean_iff {base : RegistryRow} (changed : Bool) (hlive : base.deleted = false)
    (hclean : base.Clean) :
    (writeSet op base changed).1.Clean ↔
      ∀ d ∈ base.delHlc, ∀ entry ∈ (op.set.getD ∅).toList, entry.2.isNull = false →
        hlcNewer (op.clockFor entry.1) base.clocks[entry.1]? = true → d < op.clockFor entry.1 := by
  obtain ⟨-, hdeleted, hdelHlc⟩ := writeSet_frame op base changed
  constructor
  · intro h d hd entry hentry hnull hnewer
    have hset := Std.ExtTreeMap.mem_toList_iff_getElem?_eq_some.mp hentry
    have hat := writeSet_at op base changed entry.1
    simp only [hset, written, hnewer, hnull, Bool.false_eq_true, if_false, if_true] at hat
    have hclocks : _ = some (op.clockFor entry.1) := congrArg Prod.snd hat
    have hfields : _ = some entry.2 := congrArg Prod.fst hat
    obtain ⟨c, hc, habove⟩ := h.shown (hdeleted.trans hlive) entry
      (Std.ExtTreeMap.mem_toList_iff_getElem?_eq_some.mpr hfields)
    cases hclocks.symm.trans hc
    exact habove d (hdelHlc ▸ hd)
  · intro h
    refine ⟨fun hgone => ?_, fun _ entry hentry => ?_⟩
    · rw [hdeleted, hlive] at hgone
      cases hgone
    · have hshown := Std.ExtTreeMap.mem_toList_iff_getElem?_eq_some.mp hentry
      rw [hdelHlc]
      obtain ⟨hset, hnull, hnewer, hclocks⟩ | ⟨hfields, hclocks⟩ := writeSet_shown hshown
      · refine ⟨op.clockFor entry.1, hclocks, fun d hd => ?_⟩
        exact h d hd entry (Std.ExtTreeMap.mem_toList_iff_getElem?_eq_some.mpr hset) hnull hnewer
      · rw [hclocks]
        exact hclean.shown hlive entry (Std.ExtTreeMap.mem_toList_iff_getElem?_eq_some.mpr hfields)

theorem writeSet_forward (op : RowOp) (base : RegistryRow) (changed : Bool) :
    base.Forward (writeSet op base changed).1 := by
  have hdelHlc := (writeSet_frame op base changed).2.2
  have hclocks : ∀ (key : String) (c : Hlc), base.clocks[key]? = some c →
      ∃ c', (writeSet op base changed).1.clocks[key]? = some c' ∧ c ≤ c' := fun key c hc =>
    writeSet_clocks_ge ⟨c, hc, le_refl c⟩
  refine ⟨fun _ => hclocks, fun c hc => ?_, fun d hd => ⟨d, hdelHlc ▸ hd, le_refl d⟩⟩
  obtain hdel | ⟨key, hclock⟩ := RegistryRow.maxClock_mem hc
  · exact RegistryRow.delHlc_le_maxClock (hdelHlc.trans hdel)
  · obtain ⟨c', hc', hle⟩ := hclocks key c hclock
    obtain ⟨m, hm, hle'⟩ := RegistryRow.clock_le_maxClock hc'
    exact ⟨m, hm, hle.trans hle'⟩

/-- The row that the writes begin with. -/
theorem startsFrom_clean {row : Option RegistryRow} {start : RegistryRow × Bool}
    (hclean : ∀ r ∈ row, r.Clean) (h : op.startsFrom row = some start) :
    start.1.Clean ∧ start.1.deleted = false ∧ ∀ r ∈ row, r.Forward start.1 := by
  have hblank : ∀ r : RegistryRow, r.deleted = false → r.fields = ∅ → r.Clean := by
    intro r hlive hfields
    refine ⟨fun hgone => ?_, fun _ entry hentry => ?_⟩
    · rw [hlive] at hgone
      cases hgone
    · rw [Std.ExtTreeMap.mem_toList_iff_getElem?_eq_some, hfields] at hentry
      simp at hentry
  unfold RowOp.startsFrom at h
  split at h
  · cases h
  · cases row with
    | none =>
        simp only at h
        split at h <;> cases h
        exact ⟨hblank _ rfl rfl, rfl, nofun⟩
    | some row =>
        have hrow := hclean row rfl
        simp only at h
        split at h
        · rename_i hdeleted
          split at h <;> cases h
          refine ⟨hblank _ rfl rfl, rfl, ?_⟩
          rintro _ ⟨⟩
          refine ⟨fun _ key c hc => ?_, fun c hc => ?_, fun d hd => ⟨d, hd, le_refl d⟩⟩
          · rw [(hrow.gone hdeleted).2] at hc
            simp at hc
          · obtain hdel | ⟨key, hclock⟩ := RegistryRow.maxClock_mem hc
            · exact RegistryRow.delHlc_le_maxClock hdel
            · rw [(hrow.gone hdeleted).2] at hclock
              simp at hclock
        · rename_i hlive
          cases h
          refine ⟨hrow, by simpa using hlive, ?_⟩
          rintro _ ⟨⟩
          exact .refl row

theorem RegistryRow.Forward.trans {row row' row'' : RegistryRow} (h : row.Forward row')
    (hlive : row'.deleted = false) (h' : row'.Forward row'') : row.Forward row'' := by
  refine ⟨fun hlive'' key c hc => ?_, fun c hc => ?_, fun d hd => ?_⟩
  · obtain ⟨c', hc', hle⟩ := h.clocks hlive key c hc
    obtain ⟨c'', hc'', hle'⟩ := h'.clocks hlive'' key c' hc'
    exact ⟨c'', hc'', hle.trans hle'⟩
  · obtain ⟨c', hc', hle⟩ := h.newest c hc
    obtain ⟨c'', hc'', hle'⟩ := h'.newest c' hc'
    exact ⟨c'', hc'', hle.trans hle'⟩
  · obtain ⟨d', hd', hle⟩ := h.delHlc d hd
    obtain ⟨d'', hd'', hle'⟩ := h'.delHlc d' hd'
    exact ⟨d'', hd'', hle.trans hle'⟩

theorem keepsForward_iff {row : Option RegistryRow} (hclean : ∀ r ∈ row, r.Clean) (op : RowOp) :
    KeepsForward row op ↔ op.BeatsDeletion row := by
  by_cases hop : op.op = .delete
  · have hnone : op.startsFrom row = none := by
      unfold RowOp.startsFrom
      rw [if_pos hop]
    have happly : applyOp row op = applyDelete row op := by
      unfold applyOp
      rw [if_pos hop]
    refine iff_of_true (fun row' hrow' => ?_) fun start hstart => ?_
    · rw [happly] at hrow'
      cases row with
      | none =>
          cases hrow'
          exact ⟨⟨fun _ => ⟨rfl, rfl⟩, nofun⟩, nofun⟩
      | some row =>
          obtain ⟨hclean', hforward⟩ := applyDelete_forward row op (hclean row rfl) row' hrow'
          refine ⟨hclean', ?_⟩
          rintro _ ⟨⟩
          exact hforward
    · rw [hnone] at hstart
      cases hstart
  · have happly : applyOp row op = _ := applyOp_eq_finishWrites hop
    cases hstart : op.startsFrom row with
    | none =>
        rw [hstart] at happly
        refine iff_of_true (fun row' hrow' => ?_) fun start h => ?_
        · rw [happly] at hrow'
          refine ⟨hclean row' hrow', fun r hr => ?_⟩
          cases hrow'.symm.trans hr
          exact .refl row'
        · rw [hstart] at h
          cases h
    | some start =>
        obtain ⟨hstartClean, hlive, hforward⟩ := startsFrom_clean hclean hstart
        rw [hstart] at happly
        have hfirst : (applyOp row op).1 = some (writeSet op start.1 start.2).1 := by
          rw [happly]
          exact finishWrites_live start.2 hlive
        unfold KeepsForward RowOp.BeatsDeletion
        rw [hfirst, hstart]
        constructor
        · rintro h start' ⟨⟩
          exact (writeSet_clean_iff start.2 hlive hstartClean).mp (h _ rfl).1
        · rintro h row' ⟨⟩
          refine ⟨(writeSet_clean_iff start.2 hlive hstartClean).mpr (h start rfl), fun r hr => ?_⟩
          exact (hforward r hr).trans hlive (writeSet_forward op start.1 start.2)

def Throughout (holds : Option RegistryRow → RowOp → Prop) :
    Option RegistryRow → List RowOp → Prop
  | _, [] => True
  | row, op :: ops => holds row op ∧ Throughout holds (applyOp row op).1 ops

/-- **Clocks move forward**, and rows stay clean, exactly as long as no value is put on a row that is
older than the deletion the row was revived from. -/
theorem throughout_keepsForward_iff {row : Option RegistryRow} (hclean : ∀ r ∈ row, r.Clean)
    (ops : List RowOp) :
    Throughout KeepsForward row ops ↔ Throughout (fun row op => op.BeatsDeletion row) row ops := by
  induction ops generalizing row with
  | nil => exact Iff.rfl
  | cons op ops ih =>
      have hstep := keepsForward_iff hclean op
      constructor
      · rintro ⟨hop, hrest⟩
        exact ⟨hstep.mp hop, (ih fun r hr => (hop r hr).1).mp hrest⟩
      · rintro ⟨hop, hrest⟩
        exact ⟨hstep.mpr hop, (ih fun r hr => (hstep.mpr hop r hr).1).mpr hrest⟩

/-- A chat that was created and deleted, and is created again. -/
def recreated : List RowOp :=
  [chatOp .upsert [("title", .string "old")] "0000000001000-000000-a",
    { kind := "chats", id := "chat-1", op := .delete, set := none,
      hlc := "0000000002000-000000-a", clocks := none },
    chatOp .upsert [("cwd", .string "tmp")] "0000000003000-000000-a"]

theorem recreated_keepsForward : Throughout KeepsForward none recreated := by
  have hclean : ∀ r ∈ (none : Option RegistryRow), r.Clean := nofun
  exact (throughout_keepsForward_iff hclean recreated).mpr
    ⟨by decide, by decide, by decide, trivial⟩

/-- A rename that was made before the deletion and comes after the chat is there again. -/
def lateRename : RowOp := chatOp .update [("title", .string "late")] "0000000001500-000000-b"

theorem lateRename_shown : ¬ KeepsForward (applyAll none recreated) lateRename := by
  have hrow : (applyOp (applyAll none recreated) lateRename).1.any fun row =>
      !row.deleted && row.fields["title"]? == some (.string "late") &&
        row.clocks["title"]? == some "0000000001500-000000-b" &&
        row.delHlc == some "0000000002000-000000-a" := by
    decide
  intro h
  cases happly : (applyOp (applyAll none recreated) lateRename).1 with
  | none =>
      rw [happly] at hrow
      cases hrow
  | some row =>
      rw [happly, Option.any_some] at hrow
      simp only [Bool.and_eq_true, Bool.not_eq_true', beq_iff_eq] at hrow
      obtain ⟨⟨⟨hlive, hfield⟩, hclock⟩, hdelHlc⟩ := hrow
      obtain ⟨c, hc, habove⟩ := (h row happly).1.shown hlive ("title", .string "late")
        (Std.ExtTreeMap.mem_toList_iff_getElem?_eq_some.mpr hfield)
      cases hclock.symm.trans hc
      exact absurd (habove _ hdelHlc) (by decide)

end Forward

section Replay

def RowOp.offers (op : RowOp) : List (String × Hlc) :=
  (op.set.getD ∅).toList.map fun entry => (entry.1, op.clockFor entry.1)

/-- What has become of a row: nothing so far, a deletion, or the writes that it was offered since it
was last created or revived. -/
inductive Life where
  | absent
  | gone (delHlc : Option Hlc)
  | alive (delHlc : Option Hlc) (offered : List (String × Hlc))

namespace Life

def ofRow : Option RegistryRow → Life
  | none => .absent
  | some row => if row.deleted then .gone row.delHlc else .alive row.delHlc row.clocks.toList

def next (life : Life) (op : RowOp) : Life :=
  match op.op, life with
  | .delete, .absent => .gone (some op.hlc)
  | .delete, .gone delHlc => .gone (if hlcNewer op.hlc delHlc then some op.hlc else delHlc)
  | .delete, .alive delHlc offered =>
      if hlcNewer op.hlc delHlc && offered.all (·.2 < op.hlc) then .gone (some op.hlc)
      else .alive delHlc offered
  | .update, .absent => .absent
  | .update, .gone delHlc => .gone delHlc
  | .upsert, .absent => .alive none op.offers
  | .upsert, .gone delHlc =>
      if hlcNewer op.hlc delHlc then .alive delHlc op.offers else .gone delHlc
  | .update, .alive delHlc offered | .upsert, .alive delHlc offered =>
      .alive delHlc (offered ++ op.offers)

def after (life : Life) (ops : List RowOp) : Life := ops.foldl next life

/-- The op has nothing for the row: what it writes was offered as new since the row is there, or the
row is gone by a deletion that an upsert does not beat. -/
def Covers (op : RowOp) : Life → Prop
  | .absent => True
  | .gone delHlc => op.op = .upsert → hlcNewer op.hlc delHlc = false
  | .alive _ offered => op.op ≠ .delete →
      ∀ write ∈ op.offers, ∃ other ∈ offered, other.1 = write.1 ∧ write.2 ≤ other.2

instance (op : RowOp) : (life : Life) → Decidable (Covers op life)
  | .absent => .isTrue trivial
  | .gone delHlc => inferInstanceAs (Decidable (op.op = .upsert → hlcNewer op.hlc delHlc = false))
  | .alive _ _ => inferInstanceAs (Decidable (op.op ≠ .delete → ∀ write ∈ op.offers, _))

/-- A live row, each of whose clocks is the newest that was offered. -/
structure Shows (delHlc : Option Hlc) (offered : List (String × Hlc)) (row : RegistryRow) :
    Prop where
  live : row.deleted = false
  delHlc : row.delHlc = delHlc
  newest : ∀ write ∈ offered, ∃ c, row.clocks[write.1]? = some c ∧ write.2 ≤ c
  offered : ∀ (key : String) (c : Hlc), row.clocks[key]? = some c → (key, c) ∈ offered

def Tracks : Life → Option RegistryRow → Prop
  | .absent, row => row = none
  | .gone delHlc, row => ∃ r, row = some r ∧ r.deleted = true ∧ r.delHlc = delHlc
  | .alive delHlc offered, row => ∃ r, row = some r ∧ Shows delHlc offered r

theorem tracks_ofRow (row : Option RegistryRow) : Tracks (ofRow row) row := by
  cases row with
  | none => rfl
  | some row =>
      cases hdeleted : row.deleted with
      | true =>
          have hlife : ofRow (some row) = .gone row.delHlc := if_pos hdeleted
          rw [hlife]
          exact ⟨row, rfl, hdeleted, rfl⟩
      | false =>
          have hlife : ofRow (some row) = .alive row.delHlc row.clocks.toList := by
            simp [ofRow, hdeleted]
          rw [hlife]
          refine ⟨row, rfl, hdeleted, rfl, fun write hwrite => ⟨write.2, ?_, le_refl _⟩,
            fun key c hc => ?_⟩
          · exact Std.ExtTreeMap.mem_toList_iff_getElem?_eq_some.mp hwrite
          · exact Std.ExtTreeMap.mem_toList_iff_getElem?_eq_some.mpr hc

end Life

theorem writeSet_clock_cases {base : RegistryRow} {changed : Bool} {key : String} {c : Hlc}
    (h : (writeSet op base changed).1.clocks[key]? = some c) :
    base.clocks[key]? = some c ∨ (key, c) ∈ op.offers := by
  obtain ⟨value, hset, -, -, hclocks⟩ | ⟨-, hclocks⟩ := writeSet_cases op base changed key
  · cases hclocks.symm.trans h
    exact .inr (List.mem_map.mpr
      ⟨(key, value), Std.ExtTreeMap.mem_toList_iff_getElem?_eq_some.mpr hset, rfl⟩)
  · exact .inl (hclocks.symm.trans h)

theorem writeSet_offered (base : RegistryRow) (changed : Bool) {write : String × Hlc}
    (h : write ∈ op.offers) :
    ∃ c, (writeSet op base changed).1.clocks[write.1]? = some c ∧ write.2 ≤ c := by
  obtain ⟨entry, hentry, rfl⟩ := List.mem_map.mp h
  exact writeSet_clock_written base changed
    (Std.ExtTreeMap.mem_toList_iff_getElem?_eq_some.mp hentry)

namespace Life

variable {delHlc : Option Hlc} {offered : List (String × Hlc)} {row : RegistryRow}

theorem Shows.writes (h : Shows delHlc offered row) (changed : Bool) :
    Shows delHlc (offered ++ op.offers) (writeSet op row changed).1 := by
  obtain ⟨-, hdeleted, hdelHlc⟩ := writeSet_frame op row changed
  refine ⟨hdeleted.trans h.live, hdelHlc.trans h.delHlc, fun write hwrite => ?_, fun key c hc => ?_⟩
  · obtain hwrite | hwrite := List.mem_append.mp hwrite
    · exact writeSet_clocks_ge (h.newest write hwrite)
    · exact writeSet_offered row changed hwrite
  · obtain hbase | hnew := writeSet_clock_cases hc
    · exact List.mem_append_left _ (h.offered key c hbase)
    · exact List.mem_append_right _ hnew

theorem shows_nil (hlive : row.deleted = false) (hdelHlc : row.delHlc = delHlc)
    (hclocks : row.clocks = ∅) : Shows delHlc [] row := by
  refine ⟨hlive, hdelHlc, nofun, fun key c hc => ?_⟩
  rw [hclocks] at hc
  simp at hc

theorem Shows.beats (h : Shows delHlc offered row) (hlc : Hlc) :
    hlcNewer hlc row.newest = (hlcNewer hlc delHlc && offered.all (·.2 < hlc)) := by
  have hnewest : row.newest = row.maxClock := by simp [RegistryRow.newest, h.live]
  rw [hnewest, Bool.eq_iff_iff, Bool.and_eq_true, List.all_eq_true]
  constructor
  · intro hbeats
    have hall : ∀ c m, row.maxClock = some m → c ≤ m → c < hlc := by
      intro c m hm hle
      rw [hm, hlcNewer_some] at hbeats
      exact hle.trans_lt hbeats
    refine ⟨?_, fun write hwrite => ?_⟩
    · cases hdel : delHlc with
      | none => rfl
      | some d =>
          obtain ⟨m, hm, hle⟩ := RegistryRow.delHlc_le_maxClock (h.delHlc.trans hdel)
          exact hlcNewer_some.mpr (hall d m hm hle)
    · obtain ⟨c, hc, hle⟩ := h.newest write hwrite
      obtain ⟨m, hm, hle'⟩ := RegistryRow.clock_le_maxClock hc
      exact decide_eq_true (hall write.2 m hm (hle.trans hle'))
  · rintro ⟨hdel, hoffered⟩
    cases hmax : row.maxClock with
    | none => rfl
    | some m =>
        rw [hlcNewer_some]
        obtain hclock | ⟨key, hclock⟩ := RegistryRow.maxClock_mem hmax
        · rw [← h.delHlc, hclock, hlcNewer_some] at hdel
          exact hdel
        · simpa using hoffered (key, m) (h.offered key m hclock)

theorem Tracks.delete {life : Life} {row : Option RegistryRow} (h : life.Tracks row)
    (hop : op.op = .delete) : (life.next op).Tracks (applyOp row op).1 := by
  have happly : applyOp row op = applyDelete row op := by
    unfold applyOp
    rw [if_pos hop]
  rw [happly]
  cases life with
  | absent =>
      cases h
      simp only [Life.next, hop]
      exact ⟨_, rfl, rfl, rfl⟩
  | gone delHlc =>
      obtain ⟨row, rfl, hdeleted, rfl⟩ := h
      simp only [Life.next, hop, applyDelete, hdeleted, if_true]
      split
      · exact ⟨_, rfl, rfl, rfl⟩
      · exact ⟨row, rfl, hdeleted, rfl⟩
  | alive delHlc offered =>
      obtain ⟨row, rfl, hshows⟩ := h
      simp only [Life.next, hop, ← hshows.beats op.hlc]
      change Tracks _ (if hlcNewer op.hlc row.newest then _ else _ : Option RegistryRow × Bool).1
      by_cases hbeats : hlcNewer op.hlc row.newest = true
      · rw [if_pos hbeats, if_pos hbeats]
        exact ⟨_, rfl, rfl, rfl⟩
      · rw [if_neg hbeats, if_neg hbeats]
        exact ⟨row, rfl, hshows⟩

theorem Tracks.writes {life : Life} {row : Option RegistryRow} (h : life.Tracks row)
    (hop : op.op ≠ .delete) : (life.next op).Tracks (applyOp row op).1 := by
  rw [applyOp_eq_finishWrites hop]
  unfold RowOp.startsFrom
  rw [if_neg hop]
  cases life with
  | absent =>
      cases h
      cases hkind : op.op with
      | delete => exact absurd hkind hop
      | update =>
          simp only [Life.next, hkind, if_true]
          rfl
      | upsert =>
          have hshows : Shows none [] (RegistryRow.blank op.kind op.id) := shows_nil rfl rfl rfl
          simp only [Life.next, hkind, reduceCtorEq, if_false]
          rw [finishWrites_live true rfl]
          exact ⟨_, rfl, hshows.writes true⟩
  | gone delHlc =>
      obtain ⟨row, rfl, hdeleted, rfl⟩ := h
      cases hkind : op.op with
      | delete => exact absurd hkind hop
      | update =>
          simp only [Life.next, hkind, hdeleted, true_or, if_true]
          exact ⟨row, rfl, hdeleted, rfl⟩
      | upsert =>
          simp only [Life.next, hkind, hdeleted, reduceCtorEq, false_or, if_true]
          by_cases hnewer : hlcNewer op.hlc row.delHlc = true
          · have hshows : Shows row.delHlc [] row.revived := shows_nil rfl rfl rfl
            simp only [hnewer, not_true, if_false, if_true]
            rw [finishWrites_live true rfl]
            exact ⟨_, rfl, hshows.writes true⟩
          · simp only [hnewer, not_false_eq_true, if_true, Bool.false_eq_true, if_false]
            exact ⟨row, rfl, hdeleted, rfl⟩
  | alive delHlc offered =>
      obtain ⟨row, rfl, hshows⟩ := h
      simp only [hshows.live, Bool.false_eq_true, if_false]
      rw [finishWrites_live false hshows.live]
      cases hkind : op.op with
      | delete => exact absurd hkind hop
      | update | upsert =>
          simp only [Life.next, hkind]
          exact ⟨_, rfl, hshows.writes false⟩

theorem Tracks.after {life : Life} {row : Option RegistryRow} (h : life.Tracks row)
    (ops : List RowOp) : (life.after ops).Tracks (applyAll row ops) := by
  induction ops generalizing life row with
  | nil => exact h
  | cons op ops ih =>
      apply ih
      by_cases hop : op.op = .delete
      · exact h.delete hop
      · exact h.writes hop

end Life

theorem Lands.next {row : Option RegistryRow} (h : Lands op row) (op' : RowOp) :
    Lands op (applyOp row op').1 := by
  cases row with
  | none =>
      -- Only an update leaves no row, and it carries nothing.
      have hupdate : op.op = .update := by
        by_contra hne
        cases h.1 hne
      refine ⟨fun hne => absurd hupdate hne, fun clock hclock => ?_⟩
      obtain ⟨-, hkind | ⟨hkind, -⟩⟩ := hclock <;> rw [hupdate] at hkind <;> cases hkind
  | some row =>
      obtain ⟨row', hrow', -⟩ := applyOp_newest row op'
      rw [hrow']
      exact h.rewritten ⟨op', row', row'.seq, hrow', rfl⟩

theorem Lands.applyAll {row : Option RegistryRow} (h : Lands op row) (ops : List RowOp) :
    Lands op (applyAll row ops) := by
  induction ops generalizing row with
  | nil => exact h
  | cons op' ops ih => exact ih (h.next op')

theorem Lands.replay_delete {row : RegistryRow} (h : Lands op (some row)) (hop : op.op = .delete) :
    (applyOp (some row) op).1 = some row := by
  obtain ⟨r, hr, c, hc, hle⟩ := h.2 op.hlc ⟨le_refl _, .inl hop⟩
  cases hr
  have hnot : ¬ hlcNewer op.hlc row.newest = true := by
    rw [hc, hlcNewer_some]
    exact not_lt_of_ge hle
  unfold applyOp applyDelete
  rw [if_pos hop]
  change (if hlcNewer op.hlc row.newest then _ else _ : Option RegistryRow × Bool).1 = _
  rw [if_neg hnot]

theorem Life.Shows.reapply_iff {delHlc : Option Hlc} {offered : List (String × Hlc)}
    {row : RegistryRow} (h : Shows delHlc offered row) (op : RowOp) :
    (writeSet op row false).1 = row ↔
      ∀ write ∈ op.offers, ∃ other ∈ offered, other.1 = write.1 ∧ write.2 ≤ other.2 := by
  constructor
  · intro hsame write hwrite
    obtain ⟨c, hc, hle⟩ := writeSet_offered row false hwrite
    rw [hsame] at hc
    exact ⟨(write.1, c), h.offered write.1 c hc, rfl, hle⟩
  · intro hcovered
    obtain ⟨fields, clocks, hshape⟩ := writeSet_shape op row false
    apply Eq.symm
    apply RegistryRow.ext_at ⟨fields, clocks, hshape⟩
    intro key
    rw [writeSet_at]
    cases hset : (op.set.getD ∅)[key]? with
    | none => rfl
    | some value =>
        obtain ⟨other, hother, rfl, hle⟩ := hcovered (key, op.clockFor key) (List.mem_map.mpr
          ⟨(key, value), Std.ExtTreeMap.mem_toList_iff_getElem?_eq_some.mpr hset, rfl⟩)
        obtain ⟨c, hc, hle'⟩ := h.newest other hother
        have hnot : hlcNewer (op.clockFor other.1) row.clocks[other.1]? = false := by
          rw [hc, Bool.eq_false_iff, ne_eq, hlcNewer_some]
          exact not_lt_of_ge (hle.trans hle')
        simp only [hnot, written, Bool.false_eq_true, if_false]

/-- An op that a row has behind it leaves no trace exactly where it has nothing for the row. -/
theorem Life.Tracks.reapply_iff {life : Life} {row : Option RegistryRow} (h : life.Tracks row)
    (hlands : Lands op row) : (applyOp row op).1 = row ↔ life.Covers op := by
  cases life with
  | absent =>
      cases h
      have hupdate : op.op = .update := by
        by_contra hne
        cases hlands.1 hne
      refine iff_of_true ?_ trivial
      unfold applyOp
      simp [hupdate]
  | gone delHlc =>
      obtain ⟨row, rfl, hdeleted, rfl⟩ := h
      by_cases hop : op.op = .delete
      · exact iff_of_true (hlands.replay_delete hop) fun hupsert => by simp [hop] at hupsert
      · rw [applyOp_eq_finishWrites hop]
        unfold RowOp.startsFrom
        by_cases hskip : op.op = .update ∨ ¬ hlcNewer op.hlc row.delHlc = true
        · simp only [if_neg hop, hdeleted, if_true, if_pos hskip, true_iff]
          intro hupsert
          simpa [hupsert] using hskip
        · simp only [if_neg hop, hdeleted, if_true, if_neg hskip]
          rw [finishWrites_live true rfl]
          have hlive := (writeSet_frame op row.revived true).2.1
          refine iff_of_false (fun hsame => ?_) fun hcovers => ?_
          · rw [Option.some.inj hsame, hdeleted] at hlive
            cases hlive
          · obtain ⟨hne, hnewer⟩ := not_or.mp hskip
            have hupsert : op.op = .upsert := by
              cases hkind : op.op with
              | upsert => rfl
              | update => exact absurd hkind hne
              | delete => exact absurd hkind hop
            exact hnewer (by rw [hcovers hupsert]; simp)
  | alive delHlc offered =>
      obtain ⟨row, rfl, hshows⟩ := h
      by_cases hop : op.op = .delete
      · exact iff_of_true (hlands.replay_delete hop) fun hne => absurd hop hne
      · rw [applyOp_live hshows.live hop, Option.some_inj, hshows.reapply_iff op]
        exact ⟨fun hcovered _ => hcovered, fun hcovered => hcovered hop⟩

/-- **Replays.** Applied once more, after any ops, an op leaves the row as it is exactly where the row
has been offered, since it is there, all that the op writes, or is gone by a deletion that the op
does not beat. -/
theorem replay_iff (row : Option RegistryRow) (op : RowOp) (ops : List RowOp) :
    applyAll row (op :: ops ++ [op]) = applyAll row (op :: ops) ↔
      ((Life.ofRow row).after (op :: ops)).Covers op := by
  rw [applyAll_append, applyAll_cons (applyAll row (op :: ops)), applyAll_nil]
  apply ((Life.tracks_ofRow row).after (op :: ops)).reapply_iff
  exact (lands_applyOp row op).applyAll ops

/-- A rename, pushed again after the chat was deleted and created once more: the old title is back. -/
theorem replay_brings_back :
    let rename := chatOp .upsert [("title", .string "old")] "0000000001000-000000-a"
    applyAll none (rename :: recreated.tail ++ [rename]) ≠
      applyAll none (rename :: recreated.tail) := by
  decide

end Replay

end Zeron.Registry
