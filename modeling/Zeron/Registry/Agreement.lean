import Zeron.Registry.Mirrors

/-!
# Where the three merges agree

All three write a row key by key, so two of them agree on a row exactly when they agree on each key.
They do unless a lookup finds a value that the map it looks in does not own.
-/

namespace Zeron.Registry

variable {op : RowOp}

section WellFormed

/-- The row's clocks have the form the room asks of the clocks in an op. -/
def RegistryRow.WellFormed (row : RegistryRow) : Prop :=
  (∀ c ∈ row.delHlc, isHlc c = true) ∧ ∀ entry ∈ row.clocks.toList, isHlc entry.2 = true

instance (row : RegistryRow) : Decidable row.WellFormed :=
  inferInstanceAs (Decidable (_ ∧ _))

theorem RegistryRow.WellFormed.clock {row : RegistryRow} (h : row.WellFormed) {key : String}
    {c : Hlc} (hc : row.clocks[key]? = some c) : isHlc c = true :=
  h.2 (key, c) (Std.ExtTreeMap.mem_toList_iff_getElem?_eq_some.mpr hc)

theorem validateOp_clocks (h : validateOp op = none) {clocks : FieldMap Hlc}
    (hclocks : clocks ∈ op.clocks) {key : String} {c : Hlc} (hc : clocks[key]? = some c) :
    isHlc c = true := by
  obtain ⟨-, -, -, -, hvalid, -⟩ := validateOp_eq_none_iff.mp h
  exact (validateClocks_eq_none_iff.mp (hvalid clocks hclocks) (key, c)
    (Std.ExtTreeMap.mem_toList_iff_getElem?_eq_some.mpr hc)).2

theorem validateOp_clockFor (h : validateOp op = none) (key : String) :
    isHlc (op.clockFor key) = true := by
  have hhlc := (validateOp_eq_none_iff.mp h).2.2.1
  unfold RowOp.clockFor
  cases hclocks : op.clocks with
  | none => exact hhlc
  | some clocks =>
      cases hc : clocks[key]? with
      | none => simpa [hc] using hhlc
      | some c => simpa [hc] using validateOp_clocks h hclocks hc

end WellFormed

variable {row : Option RegistryRow}

section Start

/-- The row whose fields the op writes and whether it is already a change; none where the op
returns before it writes any field. -/
def RowOp.startsFrom (op : RowOp) (row : Option RegistryRow) : Option (RegistryRow × Bool) :=
  if op.op = .delete then none
  else
    match row with
    | none => if op.op = .update then none else some (.blank op.kind op.id, true)
    | some row =>
        if row.deleted then
          if op.op = .update ∨ ¬ hlcNewer op.hlc row.delHlc then none else some (row.revived, true)
        else
          some (row, false)

theorem applyOp_eq_finishWrites (h : op.op ≠ .delete) :
    applyOp row op = match op.startsFrom row with
      | none => (row, false)
      | some start => finishWrites (writeSet op start.1 start.2) := by
  unfold applyOp RowOp.startsFrom
  rw [if_neg h, if_neg h]
  cases row with
  | none =>
      simp only
      split <;> rfl
  | some row =>
      simp only
      split
      · split <;> rfl
      · rfl

theorem startsFrom_wellFormed {start : RegistryRow × Bool} (hrow : ∀ r ∈ row, r.WellFormed)
    (h : op.startsFrom row = some start) :
    start.1.WellFormed := by
  have hempty : ∀ r : RegistryRow, (∀ c ∈ r.delHlc, isHlc c = true) → r.clocks = ∅ →
      r.WellFormed := by
    intro r hdel hclocks
    refine ⟨hdel, ?_⟩
    rw [hclocks]
    simp
  unfold RowOp.startsFrom at h
  split at h
  · cases h
  · cases row with
    | none =>
        simp only at h
        split at h
        · cases h
        · cases h
          exact hempty _ (by simp [RegistryRow.blank]) rfl
    | some row =>
        simp only at h
        split at h
        · split at h
          · cases h
          · cases h
            exact hempty _ (hrow row rfl).1 rfl
        · cases h
          exact hrow row rfl

end Start

section Keyed

def RegistryRow.at (row : RegistryRow) (key : String) : Option JsonValue × Option Hlc :=
  (row.fields[key]?, row.clocks[key]?)

/-- What is said about the field after a write that was newer or not. -/
def written {Clock : Type} (newer : Bool) (clock : Clock) (value : JsonValue)
    (seen : Option JsonValue × Option Clock) : Option JsonValue × Option Clock :=
  if newer then (if value.isNull then none else some value, some clock) else seen

theorem keyedWrites_writeField (op : RowOp) :
    Lib.KeyedWrites (writeField op) (fun acc key => acc.1.at key) (·.2)
      (fun key value seen => written (hlcNewer (op.clockFor key) seen.2) (op.clockFor key) value seen)
      (fun key _ seen => hlcNewer (op.clockFor key) seen.2) where
  self acc key value := by
    unfold writeField RegistryRow.at written
    split
    · split <;> simp
    · rfl
  other acc key value other hne := by
    unfold writeField RegistryRow.at
    split
    · split <;> simp [Std.ExtTreeMap.getElem?_insert, Std.ExtTreeMap.getElem?_erase, hne.symm]
    · rfl
  flag acc key value := by
    unfold writeField RegistryRow.at
    split
    · rename_i hnewer
      simp [hnewer]
    · rename_i hnot
      simp [hnot]

theorem distinct_toList {V : Type} (map : FieldMap V) : Lib.KeyedWrites.Distinct map.toList :=
  map.distinct_keys_toList.imp fun hne heq => hne (Std.LawfulEqCmp.compare_eq_iff_eq.mpr heq)

theorem MapOrder.entries_distinct (order : MapOrder) {V : Type} (map : FieldMap V) :
    Lib.KeyedWrites.Distinct (order.entries map) :=
  (distinct_toList map).perm (order.perm map).symm

theorem MapOrder.mem_entries (order : MapOrder) {V : Type} {map : FieldMap V} {key : String}
    {value : V} : (key, value) ∈ order.entries map ↔ map[key]? = some value := by
  rw [(order.perm map).mem_iff, Std.ExtTreeMap.mem_toList_iff_getElem?_eq_some]

theorem writeSet_eq_all (op : RowOp) (base : RegistryRow) (changed : Bool) :
    writeSet op base changed =
      Lib.KeyedWrites.all (writeField op) (base, changed) (op.set.getD ∅).toList :=
  Std.ExtTreeMap.foldl_eq_foldl_toList

theorem writeSet_shape (op : RowOp) (base : RegistryRow) (changed : Bool) :
    ∃ fields clocks, (writeSet op base changed).1 = { base with fields, clocks } := by
  refine writeSet_induct (motive := fun acc => ∃ fields clocks, acc.1 = { base with fields, clocks })
    ⟨base.fields, base.clocks, rfl⟩ ?_
  rintro acc field value - ⟨fields, clocks, hacc⟩
  unfold writeField
  split
  · rw [hacc]
    exact ⟨_, _, rfl⟩
  · exact ⟨fields, clocks, hacc⟩

theorem writeSet_clock_wellFormed {base : RegistryRow} {changed : Bool}
    (hop : ∀ key, isHlc (op.clockFor key) = true) (hbase : base.WellFormed) {key : String} {c : Hlc}
    (h : (writeSet op base changed).1.clocks[key]? = some c) : isHlc c = true := by
  have hall : ∀ (key : String) (c : Hlc), (writeSet op base changed).1.clocks[key]? = some c →
      isHlc c = true := by
    refine writeSet_induct
      (motive := fun acc => ∀ (key : String) (c : Hlc), acc.1.clocks[key]? = some c → isHlc c = true)
      (fun key c hc => hbase.clock hc) ?_
    intro acc field value _ hacc key c hc
    unfold writeField at hc
    split at hc
    · rw [Std.ExtTreeMap.getElem?_insert] at hc
      split at hc
      · cases hc
        exact hop field
      · exact hacc key c hc
    · exact hacc key c hc
  exact hall key c h

end Keyed

section Newest

theorem keepNewer_eq (newest : Option Hlc) (clock : Hlc) :
    (if newest.all (· < clock) then some clock else newest) =
      some (newest.elim clock fun c => max c clock) := by
  cases newest with
  | none => rfl
  | some c =>
      by_cases h : c < clock
      · rw [Option.all_some, if_pos (decide_eq_true h), Option.elim_some, max_eq_right h.le]
      · rw [Option.all_some, decide_eq_false h, if_neg Bool.false_ne_true, Option.elim_some,
          max_eq_left (not_lt.mp h)]

theorem foldl_newest_perm {entries entries' : List (String × Hlc)} (h : entries.Perm entries')
    (init : Option Hlc) :
    entries.foldl (fun max entry => if max.all (· < entry.2) then some entry.2 else max) init =
      entries'.foldl (fun max entry => if max.all (· < entry.2) then some entry.2 else max) init := by
  refine h.foldl_eq' (fun x _ y _ newest => ?_) init
  rw [keepNewer_eq, keepNewer_eq, keepNewer_eq, keepNewer_eq]
  cases newest with
  | none => simp [max_comm]
  | some c => simp [max_right_comm]

end Newest

section Dialects

variable {Clock : Type}

def RowIn.at (row : RowIn Clock) (key : String) : Option JsonValue × Option Clock :=
  (row.fields[key]?, row.clocks[key]?)

namespace Dialect

variable (d : Dialect Clock)

theorem keyedWrites_writeField (op : RowOp) :
    Lib.KeyedWrites (d.writeField op) (fun acc key => acc.1.at key) (·.2)
      (fun key value seen => written (d.hlcNewer (d.clockFor op key) (seen.2.or (d.inherited key)))
        (d.clockFor op key) value seen)
      (fun key _ seen => d.hlcNewer (d.clockFor op key) (seen.2.or (d.inherited key))) where
  self acc key value := by
    unfold writeField RowIn.at written read
    split
    · split <;> simp
    · rfl
  other acc key value other hne := by
    unfold writeField RowIn.at read
    split
    · split <;> simp [Std.ExtTreeMap.getElem?_insert, Std.ExtTreeMap.getElem?_erase, hne.symm]
    · rfl
  flag acc key value := by
    unfold writeField RowIn.at read
    split
    · rename_i hnewer
      simp [hnewer]
    · rename_i hnot
      simp [hnot]

theorem writeSet_shape (op : RowOp) (start : RowIn Clock × Bool) :
    ∃ fields clocks, (d.writeSet op start).1 = { start.1 with fields, clocks } := by
  unfold writeSet Lib.KeyedWrites.all
  induction d.entries (op.set.getD ∅) generalizing start with
  | nil => exact ⟨start.1.fields, start.1.clocks, rfl⟩
  | cons entry entries ih =>
      obtain ⟨fields, clocks, hrest⟩ := ih (d.writeField op start entry.1 entry.2)
      refine ⟨fields, clocks, hrest.trans ?_⟩
      unfold writeField
      split <;> rfl

/-- No lookup of the write finds an inherited value. -/
def Plain (op : RowOp) (base : RegistryRow) (key : String) : Prop :=
  d.inherited key = none ∨ base.clocks[key]?.isSome ∧ ∀ clocks ∈ op.clocks, clocks[key]?.isSome

variable {d} {op : RowOp} {base : RegistryRow} {key : String}

theorem hold_at (row : RegistryRow) (key : String) :
    (d.hold row).at key = Prod.map id (Option.map d.text) (row.at key) := by
  simp [RowIn.at, RegistryRow.at, hold, texts]

theorem hlcNewer_text {a : Hlc} {b : Option Hlc} (ha : isHlc a = true)
    (hb : ∀ c ∈ b, isHlc c = true) : d.hlcNewer (d.text a) (b.map d.text) = Registry.hlcNewer a b := by
  cases b with
  | none => rfl
  | some b => exact d.less_text b a (hb b rfl) ha

theorem clockFor_of_plain (h : d.Plain op base key) :
    d.clockFor op key = d.text (op.clockFor key) := by
  unfold clockFor RowOp.clockFor
  cases hclocks : op.clocks with
  | none => rfl
  | some clocks =>
      obtain hnone | ⟨-, howned⟩ := h
      · cases hc : clocks[key]? <;> simp [read, texts, hc, hnone]
      · obtain ⟨c, hc⟩ := Option.isSome_iff_exists.mp (howned clocks hclocks)
        simp [read, texts, hc]

theorem lookup_of_plain (h : d.Plain op base key) :
    ((d.hold base).at key).2.or (d.inherited key) = base.clocks[key]?.map d.text := by
  rw [hold_at]
  obtain hnone | ⟨howned, -⟩ := h
  · simp [RegistryRow.at, hnone]
  · obtain ⟨c, hc⟩ := Option.isSome_iff_exists.mp howned
    simp [RegistryRow.at, hc]

theorem newer_of_plain (hop : validateOp op = none) (hbase : base.WellFormed)
    (h : d.Plain op base key) :
    d.hlcNewer (d.clockFor op key) (((d.hold base).at key).2.or (d.inherited key)) =
      Registry.hlcNewer (op.clockFor key) (base.at key).2 := by
  rw [lookup_of_plain h, clockFor_of_plain h]
  exact hlcNewer_text (validateOp_clockFor hop key) fun c hc => hbase.clock hc

theorem writeSet_at_of_not_mem {start : RowIn Clock × Bool} (h : (op.set.getD ∅)[key]? = none) :
    (d.writeSet op start).1.at key = start.1.at key := by
  refine (d.keyedWrites_writeField op).view_of_not_mem start fun entry hentry heq => ?_
  have hmem := d.mem_entries.mp hentry
  rw [heq, h] at hmem
  cases hmem

theorem writeSet_at_of_mem {start : RowIn Clock × Bool} {value : JsonValue}
    (h : (op.set.getD ∅)[key]? = some value) :
    (d.writeSet op start).1.at key =
      written (d.hlcNewer (d.clockFor op key) ((start.1.at key).2.or (d.inherited key)))
        (d.clockFor op key) value (start.1.at key) :=
  (d.keyedWrites_writeField op).view_of_mem start (d.entries_distinct _)
    (d.mem_entries.mpr h)

theorem writeSet_at_hold (changed : Bool) (hop : validateOp op = none) (hbase : base.WellFormed)
    (hplain : (op.set.getD ∅)[key]?.isSome → d.Plain op base key) :
    (d.writeSet op (d.hold base, changed)).1.at key =
      (d.hold (Registry.writeSet op base changed).1).at key := by
  rw [hold_at, writeSet_eq_all]
  cases hvalue : (op.set.getD ∅)[key]? with
  | none =>
      rw [writeSet_at_of_not_mem hvalue, hold_at]
      congr 1
      symm
      refine (Registry.keyedWrites_writeField op).view_of_not_mem (base, changed) ?_
      intro entry hentry heq
      have hmem := Std.ExtTreeMap.mem_toList_iff_getElem?_eq_some.mp hentry
      rw [heq, hvalue] at hmem
      cases hmem
  | some value =>
      have hkey := hplain (by simp [hvalue])
      rw [writeSet_at_of_mem hvalue, newer_of_plain hop hbase hkey, clockFor_of_plain hkey, hold_at]
      have hrust := (Registry.keyedWrites_writeField op).view_of_mem (base, changed)
        (distinct_toList _) (Std.ExtTreeMap.mem_toList_iff_getElem?_eq_some.mpr hvalue)
      rw [hrust]
      unfold written
      split <;> rfl

theorem writeSet_hold (changed : Bool) (hop : validateOp op = none) (hbase : base.WellFormed)
    (hplain : ∀ key, (op.set.getD ∅)[key]?.isSome → d.Plain op base key) :
    d.writeSet op (d.hold base, changed) =
      (d.hold (Registry.writeSet op base changed).1, (Registry.writeSet op base changed).2) := by
  refine Prod.ext ?_ ?_
  · obtain ⟨fields, clocks, hrow⟩ := d.writeSet_shape op (d.hold base, changed)
    obtain ⟨fields', clocks', hrow'⟩ := Registry.writeSet_shape op base changed
    have hat := fun key => writeSet_at_hold changed hop hbase (hplain key)
    simp only [hrow, hrow', RowIn.at, Prod.mk.injEq] at hat ⊢
    have hfields : fields = fields' := Std.ExtTreeMap.ext_getElem? fun key => (hat key).1
    have hclocks : clocks = d.texts clocks' := Std.ExtTreeMap.ext_getElem? fun key => (hat key).2
    rw [hfields, hclocks]
    rfl
  · have hother := (d.keyedWrites_writeField op).flag_all (d.hold base, changed)
      (d.entries_distinct (op.set.getD ∅))
    have hrust := (Registry.keyedWrites_writeField op).flag_all (base, changed)
      (distinct_toList (op.set.getD ∅))
    rw [writeSet_eq_all]
    refine hother.trans (Eq.trans ?_ hrust.symm)
    congr 1
    rw [Bool.eq_iff_iff, List.any_eq_true, List.any_eq_true]
    refine exists_congr fun entry => ?_
    rw [(d.perm _).mem_iff]
    refine and_congr_right fun hentry => ?_
    have hvalue := Std.ExtTreeMap.mem_toList_iff_getElem?_eq_some.mp hentry
    rw [newer_of_plain hop hbase (hplain entry.1 (by simp [hvalue]))]

theorem foldl_newest_text (entries : List (String × Hlc)) (init : Option Hlc)
    (hinit : ∀ c ∈ init, isHlc c = true) (hentries : ∀ entry ∈ entries, isHlc entry.2 = true) :
    (entries.map fun entry => (entry.1, d.text entry.2)).foldl
        (fun max entry => if d.hlcNewer entry.2 max then some entry.2 else max)
        (init.map d.text) =
      (entries.foldl (fun max entry => if max.all (· < entry.2) then some entry.2 else max)
        init).map d.text := by
  induction entries generalizing init with
  | nil => rfl
  | cons entry entries ih =>
      have hentry := hentries entry List.mem_cons_self
      have hnewer : Registry.hlcNewer entry.2 init = init.all (· < entry.2) := by
        cases init <;> rfl
      rw [List.map_cons, List.foldl_cons, List.foldl_cons, hlcNewer_text hentry hinit, hnewer]
      have hrest := fun entry' h => hentries entry' (List.mem_cons_of_mem entry h)
      by_cases h : init.all (· < entry.2) = true
      · rw [if_pos h, if_pos h]
        refine ih (some entry.2) ?_ hrest
        rintro c ⟨⟩
        exact hentry
      · rw [if_neg h, if_neg h]
        exact ih init hinit hrest

theorem maxClock_hold {row : RegistryRow} (h : row.WellFormed) :
    d.maxClock (d.hold row) = row.maxClock.map d.text := by
  -- This language visits the clocks in an order of its own.
  have hperm : (d.entries (d.texts row.clocks)).Perm
      (row.clocks.toList.map fun entry => (entry.1, d.text entry.2)) := by
    have hmap := Std.ExtTreeMap.toList_map (t := row.clocks) (f := fun _ clock => d.text clock)
    exact hmap ▸ d.perm _
  obtain ⟨entries, hentries, hentriesPerm⟩ :
      ∃ entries : List (String × Hlc),
        d.entries (d.texts row.clocks) = entries.map (fun entry => (entry.1, d.text entry.2)) ∧
          entries.Perm row.clocks.toList := by
    have hcomp := List.eq_map_comp_perm fun entry : String × Hlc => (entry.1, d.text entry.2)
    rw [← congrFun (congrFun hcomp _) _] at hperm
    exact hperm
  unfold maxClock
  change (d.entries (d.texts row.clocks)).foldl _ (row.delHlc.map d.text) = _
  rw [hentries, foldl_newest_text entries row.delHlc h.1
      fun entry he => h.2 entry (hentriesPerm.mem_iff.mp he),
    RegistryRow.maxClock_eq]
  exact congrArg (Option.map d.text) (foldl_newest_perm hentriesPerm row.delHlc)

theorem applyDelete_hold (hop : validateOp op = none) (hrow : ∀ r ∈ row, r.WellFormed) :
    d.applyDelete (row.map d.hold) op =
      ((Registry.applyDelete row op).1.map d.hold, (Registry.applyDelete row op).2) := by
  have hempty : d.texts ∅ = ∅ := Std.ExtTreeMap.map_eq_empty_iff.mpr rfl
  have hhlc := (validateOp_eq_none_iff.mp hop).2.2.1
  cases row with
  | none =>
      simp [applyDelete, Registry.applyDelete, hold, RegistryRow.tombstone, hempty]
  | some row =>
      have hwf := hrow row rfl
      have hnewer : d.hlcNewer (d.text op.hlc)
          (if (d.hold row).deleted then (d.hold row).delHlc else d.maxClock (d.hold row)) =
            Registry.hlcNewer op.hlc (if row.deleted then row.delHlc else row.maxClock) := by
        rw [maxClock_hold hwf]
        change d.hlcNewer _ (if row.deleted = true then row.delHlc.map d.text else _) = _
        split
        · exact hlcNewer_text hhlc hwf.1
        · refine hlcNewer_text hhlc fun c hc => ?_
          obtain h | ⟨key, h⟩ := RegistryRow.maxClock_mem hc
          · exact hwf.1 c h
          · exact hwf.clock h
      unfold applyDelete Registry.applyDelete
      simp only [Option.map_some, hnewer]
      by_cases h : Registry.hlcNewer op.hlc (if row.deleted then row.delHlc else row.maxClock) = true
      · simp only [if_pos h]
        simp [hold, RegistryRow.entomb, hempty]
      · simp only [if_neg h, Option.map_some]

theorem base_hold (hop : validateOp op = none) (hrow : ∀ r ∈ row, r.WellFormed)
    (hkind : op.op ≠ .delete) :
    d.base (row.map d.hold) op =
      (op.startsFrom row).map fun start => (d.hold start.1, start.2) := by
  have hempty : d.texts ∅ = ∅ := Std.ExtTreeMap.map_eq_empty_iff.mpr rfl
  unfold base RowOp.startsFrom
  rw [if_neg hkind]
  cases row with
  | none =>
      by_cases hupdate : op.op = .update
      · simp [hupdate]
      · simp [hupdate, hold, RegistryRow.blank, hempty]
  | some row =>
      have hnewer : d.hlcNewer (d.text op.hlc) (d.hold row).delHlc =
          Registry.hlcNewer op.hlc row.delHlc :=
        hlcNewer_text (validateOp_eq_none_iff.mp hop).2.2.1 (hrow row rfl).1
      have hdeleted : (d.hold row).deleted = row.deleted := rfl
      simp only [Option.map_some, hnewer, hdeleted]
      by_cases hgone : row.deleted = true
      · by_cases hupdate : op.op = .update
        · simp [hgone, hupdate]
        · by_cases hlate : Registry.hlcNewer op.hlc row.delHlc = true
          · simp [hgone, hupdate, hlate, hold, RegistryRow.revived, hempty]
          · simp [hgone, hupdate, hlate]
      · simp [hgone]

theorem agrees_of_plain (hop : validateOp op = none) (hrow : ∀ r ∈ row, r.WellFormed)
    (hplain : ∀ start ∈ op.startsFrom row, ∀ key, (op.set.getD ∅)[key]?.isSome →
      d.Plain op start.1 key) : d.Agrees row op := by
  unfold Agrees applyOp
  by_cases hkind : op.op = .delete
  · rw [if_pos hkind, applyDelete_hold hop hrow]
    unfold Registry.applyOp
    rw [if_pos hkind]
  · rw [if_neg hkind, base_hold hop hrow hkind, applyOp_eq_finishWrites hkind]
    cases hstart : op.startsFrom row with
    | none => rfl
    | some start =>
        have hwrites := writeSet_hold start.2 hop (startsFrom_wellFormed hrow hstart)
          (hplain start hstart)
        simp only [Option.map_some, hwrites]
        unfold finishWrites
        split <;> rfl

/-- Where a lookup finds an inherited value, the two languages leave different clocks. -/
theorem writeSet_at_ne (changed : Bool) {value : JsonValue} (hop : validateOp op = none)
    (hbase : base.WellFormed) (hvalue : (op.set.getD ∅)[key]? = some value)
    (hnot : ¬ d.Plain op base key) :
    ((d.writeSet op (d.hold base, changed)).1.at key).2 ≠
      ((d.hold (Registry.writeSet op base changed).1).at key).2 := by
  obtain ⟨foreign, hforeign⟩ : ∃ foreign, d.inherited key = some foreign :=
    Option.ne_none_iff_exists'.mp fun h => hnot (Or.inl h)
  obtain ⟨mine, hmine, -⟩ := writeSet_clock_written base changed hvalue
  rw [writeSet_at_of_mem hvalue, hold_at, hold_at]
  simp only [RegistryRow.at, Prod.map_snd, hmine, hforeign, Option.map_some]
  have habove := fun a ha => d.text_less_inherited a key foreign ha hforeign
  unfold written
  cases howned : base.clocks[key]? with
  | none =>
      -- The row seems to have a clock for the field already, newer than any text.
      have hstale : d.hlcNewer (d.clockFor op key) (some foreign) = false := by
        unfold clockFor
        cases hclocks : op.clocks with
        | none => exact (habove _ (validateOp_eq_none_iff.mp hop).2.2.1).2.1
        | some clocks =>
            cases hc : clocks[key]? with
            | none =>
                simpa [read, texts, hc, hforeign, hlcNewer] using
                  (habove _ (validateOp_eq_none_iff.mp hop).2.2.1).2.2
            | some c =>
                simpa [read, texts, hc, hlcNewer] using (habove c (validateOp_clocks hop hclocks hc)).2.1
      simp [hstale]
  | some c =>
      -- The op seems to carry a clock of its own for the field.
      have hclock : d.clockFor op key = foreign := by
        obtain ⟨clocks, hclocks, hc⟩ : ∃ clocks ∈ op.clocks, clocks[key]? = none := by
          by_contra hall
          refine hnot (Or.inr ⟨by simp [howned], fun clocks h => ?_⟩)
          exact Option.isSome_iff_ne_none.mpr fun hnone => hall ⟨clocks, h, hnone⟩
        rw [Option.mem_def] at hclocks
        simp [clockFor, hclocks, read, texts, hc, hforeign]
      have hnewer : d.hlcNewer (d.clockFor op key) (some (d.text c)) = true := by
        rw [hclock]
        exact (habove c (hbase.clock howned)).1
      rw [Option.map_some, Option.some_or, if_pos hnewer, hclock]
      intro heq
      have hmineHlc := writeSet_clock_wellFormed (validateOp_clockFor hop) hbase hmine
      have hsame := habove mine hmineHlc
      rw [Option.some.inj heq] at hsame
      exact Bool.false_ne_true (hsame.2.1.symm.trans hsame.1)

/-- **Agreement, per key.** The languages agree exactly when no field write looks up an inherited
value. -/
theorem agrees_iff (hop : validateOp op = none) (hrow : ∀ r ∈ row, r.WellFormed) :
    d.Agrees row op ↔ ∀ start ∈ op.startsFrom row, ∀ key, (op.set.getD ∅)[key]?.isSome →
      d.Plain op start.1 key := by
  refine ⟨fun h start hstart key hkey => ?_, agrees_of_plain hop hrow⟩
  by_contra hnot
  have hkind : op.op ≠ .delete := by
    intro hdelete
    simp [RowOp.startsFrom, hdelete] at hstart
  obtain ⟨value, hvalue⟩ := Option.isSome_iff_exists.mp hkey
  refine writeSet_at_ne start.2 hop (startsFrom_wellFormed hrow hstart) hvalue hnot ?_
  obtain ⟨r, hr, -, hclocks, -⟩ := finishWrites_fst (Registry.writeSet op start.1 start.2)
  have hrows := congrArg (fun outcome => outcome.1.bind fun row => (row.at key).2) h
  rw [Option.mem_def] at hstart
  simp only [applyOp, if_neg hkind, base_hold hop hrow hkind, applyOp_eq_finishWrites hkind, hstart,
    Option.map_some, hr, Option.bind_some] at hrows
  have hheld : ((d.hold (Registry.writeSet op start.1 start.2).1).at key).2 =
      ((d.hold r).at key).2 := by
    rw [hold_at, hold_at, RegistryRow.at, RegistryRow.at, hclocks]
    rfl
  rw [hheld, ← hrows]
  split <;> rfl

end Dialect

end Dialects

section Strings

theorem isHlc_chars {hlc : Hlc} (h : isHlc hlc = true) :
    (∃ c rest, hlc.toList = c :: rest ∧ c.isDigit = true) ∧ ∀ c ∈ hlc.toList, c.toNat < 128 := by
  refine ⟨?_, fun c hc => (isPlain_of_isHlc h c hc).2.1⟩
  obtain ⟨ms, counter, device, hlc', ⟨hmsLen, hms⟩, -⟩ := isHlc_iff.mp h
  obtain ⟨c, rest, rfl⟩ := List.exists_cons_of_length_pos (l := ms) (by omega)
  exact ⟨c, _, hlc', hms c List.mem_cons_self⟩

namespace JsClock

theorem codeUnits_append (s t : String) : codeUnits (s ++ t) = codeUnits s ++ codeUnits t := by
  simp [codeUnits]

theorem codeUnits_of_plain {s : String} (h : ∀ c ∈ s.toList, c.toNat < 128) :
    codeUnits s = s.toList.map Char.toNat := by
  unfold codeUnits
  generalize s.toList = cs at h ⊢
  induction cs with
  | nil => rfl
  | cons c cs ih =>
      have hc := h c List.mem_cons_self
      rw [List.flatMap_cons, List.map_cons, ih fun c' h' => h c' (List.mem_cons_of_mem _ h')]
      rw [utf16Units, if_pos (by omega)]
      rfl

theorem map_toNat_lt {cs cs' : List Char} (h : cs < cs') :
    cs.map Char.toNat < cs'.map Char.toNat :=
  List.map_lt (fun _ _ hlt => UInt32.lt_iff_toNat_lt.mp hlt) h

theorem less_text (a b : Hlc) (ha : isHlc a = true) (hb : isHlc b = true) :
    less (.text a) (.text b) = decide (a < b) := by
  change decide (codeUnits a < codeUnits b) = decide (a < b)
  rw [codeUnits_of_plain (isHlc_chars ha).2, codeUnits_of_plain (isHlc_chars hb).2]
  refine decide_eq_decide.mpr ⟨fun h => ?_, fun h => map_toNat_lt (String.lt_iff_toList_lt.mp h)⟩
  by_contra hnot
  obtain hlt | heq := lt_or_eq_of_le (not_lt.mp hnot)
  · exact lt_asymm h (map_toNat_lt (String.lt_iff_toList_lt.mp hlt))
  · rw [heq] at h
    exact lt_irrefl _ h

theorem text_less_method (a : Hlc) (key : String) (c : JsClock) (ha : isHlc a = true)
    (hc : inherited key = some c) :
    less (.text a) c = true ∧ less c (.text a) = false ∧ less c c = false := by
  obtain ⟨digit, rest, ha', hdigit⟩ := (isHlc_chars ha).1
  have hlt : digit.toNat < 'f'.toNat := by
    simp only [Char.isDigit, Bool.and_eq_true, decide_eq_true_eq, UInt32.le_iff_toNat_le] at hdigit
    simp at hdigit ⊢
    omega
  obtain ⟨name, hname⟩ : ∃ name : List Nat, codeUnits c.toPrimitive = 'f'.toNat :: name := by
    unfold inherited at hc
    split at hc
    · cases hc
      refine ⟨codeUnits "unction " ++ codeUnits (if key = "constructor" then "Object" else key) ++
        codeUnits "() \x7b [native code] \x7d", ?_⟩
      have hword : codeUnits "function " = 'f'.toNat :: codeUnits "unction " := by decide
      rw [toPrimitive, codeUnits_append, codeUnits_append, hword, List.cons_append, List.cons_append]
    · cases hc
  have hunits : codeUnits a = digit.toNat :: rest.map Char.toNat := by
    rw [codeUnits_of_plain (isHlc_chars ha).2, ha', List.map_cons]
  unfold less
  change decide (codeUnits a < _) = true ∧ decide (_ < codeUnits a) = false ∧ _
  rw [hunits, hname]
  refine ⟨decide_eq_true (List.Lex.rel hlt), decide_eq_false ?_, decide_eq_false (lt_irrefl _)⟩
  exact lt_asymm (List.Lex.rel hlt)

end JsClock

end Strings

section Languages

/-- JavaScript: a lookup goes on in `Object.prototype`. -/
def javaScript (order : MapOrder) : Dialect JsClock where
  toMapOrder := order
  text := .text
  less := JsClock.less
  inherited := JsClock.inherited
  less_text := JsClock.less_text
  text_less_inherited := JsClock.text_less_method

def swift (order : MapOrder) : Dialect Hlc where
  toMapOrder := order
  text := id
  less a b := a < b
  inherited _ := none
  less_text _ _ _ _ := rfl
  text_less_inherited := by simp

/-- `applyOp` of `edge/src/registry-core.ts`. -/
def TypeScript.applyOp (order : MapOrder) :
    Option (RowIn JsClock) → RowOp → Option (RowIn JsClock) × Bool :=
  (javaScript order).applyOp

/-- `applyOp` of `RegistryCore.swift`. -/
def Swift.applyOp (order : MapOrder) : Option (RowIn Hlc) → RowOp → Option (RowIn Hlc) × Bool :=
  (swift order).applyOp

/-- Every write to a field named like a method finds a clock of the row's and of the op's own. -/
def NamesOwned (row : Option RegistryRow) (op : RowOp) : Prop :=
  ∀ start ∈ op.startsFrom row, ∀ name ∈ JsClock.objectPrototype, (op.set.getD ∅)[name]?.isSome →
    start.1.clocks[name]?.isSome ∧ ∀ clocks ∈ op.clocks, clocks[name]?.isSome

instance (row : Option RegistryRow) (op : RowOp) : Decidable (NamesOwned row op) :=
  inferInstanceAs (Decidable (∀ start ∈ op.startsFrom row, ∀ name ∈ JsClock.objectPrototype, _))

theorem javaScript_agrees_iff {order : MapOrder} (hop : validateOp op = none)
    (hrow : ∀ r ∈ row, r.WellFormed) :
    (javaScript order).Agrees row op ↔ NamesOwned row op := by
  rw [Dialect.agrees_iff hop hrow]
  have hinherited : ∀ name, JsClock.inherited name = none ↔ name ∉ JsClock.objectPrototype := by
    intro name
    simp [JsClock.inherited]
  constructor
  · intro h start hstart name hname hset
    obtain hnone | howned := h start hstart name hset
    · exact absurd hname ((hinherited name).mp hnone)
    · exact howned
  · intro h start hstart key hset
    by_cases hname : key ∈ JsClock.objectPrototype
    · exact Or.inr (h start hstart key hname hset)
    · exact Or.inl ((hinherited key).mpr hname)

theorem swift_agrees {order : MapOrder} (hop : validateOp op = none)
    (hrow : ∀ r ∈ row, r.WellFormed) : (swift order).Agrees row op :=
  Dialect.agrees_of_plain hop hrow fun _ _ _ _ => Or.inl rfl

/-- **The three merges agree** on a row exactly where every field named like a method of
`Object.prototype` is found with a clock that was stored. -/
theorem merges_agree_iff (order order' : MapOrder) {row : Option RegistryRow} {op : RowOp}
    (hop : validateOp op = none) (hrow : ∀ r ∈ row, r.WellFormed) :
    (TypeScript.applyOp order (row.map (javaScript order).hold) op =
          ((applyOp row op).1.map (javaScript order).hold, (applyOp row op).2) ∧
        Swift.applyOp order' (row.map (swift order').hold) op =
          ((applyOp row op).1.map (swift order').hold, (applyOp row op).2)) ↔
      NamesOwned row op :=
  ⟨fun h => (javaScript_agrees_iff hop hrow).mp h.1, fun h =>
    ⟨(javaScript_agrees_iff hop hrow).mpr h, swift_agrees hop hrow⟩⟩

/-- A write to a field of the given name, one second in. -/
def writesField (op : OpKind) (name : String) : RowOp :=
  { kind := "chat", id := "c1", op, set := some (fields [(name, .int 1)]),
    hlc := encodeHlc 1000 0 "phone", clocks := none }

theorem rename_agrees :
    TypeScript.applyOp .sorted ((applyOp none (writesField .upsert "title")).1.map
          (javaScript .sorted).hold) (writesField .update "name") =
        ((applyOp (applyOp none (writesField .upsert "title")).1 (writesField .update "name")).1.map
            (javaScript .sorted).hold, true) ∧
      Swift.applyOp .sorted ((applyOp none (writesField .upsert "title")).1.map
          (swift .sorted).hold) (writesField .update "name") =
        ((applyOp (applyOp none (writesField .upsert "title")).1 (writesField .update "name")).1.map
            (swift .sorted).hold, true) :=
  (merges_agree_iff .sorted .sorted (by decide) (by decide)).mpr (by decide)

/-- A row created with a field `constructor`: the client writes it, the room does not. -/
theorem constructor_differs :
    validateOp (writesField .upsert "constructor") = none ∧
      ¬ (javaScript .sorted).Agrees none (writesField .upsert "constructor") := by
  decide

end Languages

end Zeron.Registry
