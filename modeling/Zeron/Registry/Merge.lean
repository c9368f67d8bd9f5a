import Zeron.Registry.Core

/-!
# What a merge keeps

Three facts about `applyOp` carry every later argument about a table of rows: a row stays under its
key, a row is never removed, and its newest clock never moves back.
-/

namespace Zeron.Registry

variable {op : RowOp} {row : RegistryRow}

variable {clock : Hlc}

section Fold

/-- **Fold rule.** What one field write keeps, the whole `set` keeps. -/
theorem writeSet_induct {motive : RegistryRow × Bool → Prop} {base : RegistryRow} {changed : Bool}
    (hbase : motive (base, changed))
    (hwrite : ∀ acc field value, (op.set.getD ∅)[field]? = some value → motive acc →
      motive (writeField op acc field value)) :
    motive (writeSet op base changed) := by
  have hfold : ∀ (entries : List (String × JsonValue)) (acc : RegistryRow × Bool), motive acc →
      (∀ entry ∈ entries, (op.set.getD ∅)[entry.1]? = some entry.2) →
      motive (entries.foldl (fun acc entry => writeField op acc entry.1 entry.2) acc) := by
    intro entries
    induction entries with
    | nil => exact fun acc hacc _ => hacc
    | cons entry entries ih =>
        intro acc hacc hentries
        rw [List.foldl_cons]
        exact ih _ (hwrite acc entry.1 entry.2 (hentries entry List.mem_cons_self) hacc)
          fun entry' h => hentries entry' (List.mem_cons_of_mem _ h)
  unfold writeSet
  rw [Std.ExtTreeMap.foldl_eq_foldl_toList]
  exact hfold _ _ hbase fun entry h =>
    Std.ExtTreeMap.mem_toList_iff_getElem?_eq_some.mp h

theorem writeSet_frame (op : RowOp) (base : RegistryRow) (changed : Bool) :
    (writeSet op base changed).1.key = base.key ∧
      (writeSet op base changed).1.deleted = base.deleted ∧
      (writeSet op base changed).1.delHlc = base.delHlc := by
  refine writeSet_induct (motive := fun acc => acc.1.key = base.key ∧
    acc.1.deleted = base.deleted ∧ acc.1.delHlc = base.delHlc) ⟨rfl, rfl, rfl⟩ ?_
  intro acc field value _ hacc
  unfold writeField
  split
  · exact hacc
  · exact hacc

theorem writeField_clocks_ge {acc : RegistryRow × Bool} {field other : String} {value : JsonValue}
    (h : ∃ c, acc.1.clocks[other]? = some c ∧ clock ≤ c) :
    ∃ c, (writeField op acc field value).1.clocks[other]? = some c ∧ clock ≤ c := by
  obtain ⟨c, hc, hle⟩ := h
  unfold writeField
  split
  · rename_i hnewer
    by_cases heq : field = other
    · subst heq
      rw [hc, hlcNewer_some] at hnewer
      refine ⟨op.clockFor field, ?_, le_trans hle hnewer.le⟩
      simp
    · refine ⟨c, ?_, hle⟩
      simpa [Std.ExtTreeMap.getElem?_insert, heq] using hc
  · exact ⟨c, hc, hle⟩

theorem writeField_clock_written (op : RowOp) (acc : RegistryRow × Bool) (field : String)
    (value : JsonValue) :
    ∃ c, (writeField op acc field value).1.clocks[field]? = some c ∧ op.clockFor field ≤ c := by
  unfold writeField
  split
  · exact ⟨op.clockFor field, by simp, le_refl _⟩
  · rename_i hnot
    cases hclock : acc.1.clocks[field]? with
    | none => simp [hclock] at hnot
    | some c =>
        rw [hclock, hlcNewer_some, not_lt] at hnot
        exact ⟨c, rfl, hnot⟩

theorem writeSet_clocks_ge {base : RegistryRow} {changed : Bool} {field : String}
    (h : ∃ c, base.clocks[field]? = some c ∧ clock ≤ c) :
    ∃ c, (writeSet op base changed).1.clocks[field]? = some c ∧ clock ≤ c :=
  writeSet_induct (motive := fun acc => ∃ c, acc.1.clocks[field]? = some c ∧ clock ≤ c) h
    fun _ _ _ _ hacc => writeField_clocks_ge hacc

theorem writeSet_clock_written (base : RegistryRow) (changed : Bool) {field : String}
    {value : JsonValue} (h : (op.set.getD ∅)[field]? = some value) :
    ∃ c, (writeSet op base changed).1.clocks[field]? = some c ∧ op.clockFor field ≤ c := by
  unfold writeSet
  rw [Std.ExtTreeMap.foldl_eq_foldl_toList]
  have hmem : (field, value) ∈ (op.set.getD ∅).toList :=
    Std.ExtTreeMap.mem_toList_iff_getElem?_eq_some.mpr h
  obtain ⟨before, after, hsplit⟩ := List.append_of_mem hmem
  rw [hsplit, List.foldl_append, List.foldl_cons]
  have hkeep : ∀ (entries : List (String × JsonValue)) (acc : RegistryRow × Bool),
      (∃ c, acc.1.clocks[field]? = some c ∧ op.clockFor field ≤ c) →
      ∃ c, (entries.foldl (fun acc entry => writeField op acc entry.1 entry.2) acc).1.clocks[field]?
        = some c ∧ op.clockFor field ≤ c := by
    intro entries
    induction entries with
    | nil => exact fun acc hacc => hacc
    | cons entry entries ih => exact fun acc hacc => ih _ (writeField_clocks_ge hacc)
  exact hkeep after _ (writeField_clock_written op _ field value)

end Fold

section Key

theorem finishWrites_fst (outcome : RegistryRow × Bool) :
    ∃ r, (finishWrites outcome).1 = some r ∧ r.key = outcome.1.key ∧
      r.clocks = outcome.1.clocks ∧ r.delHlc = outcome.1.delHlc ∧
      (outcome.1.deleted = false → r.deleted = false) := by
  unfold finishWrites
  split
  · exact ⟨_, rfl, rfl, rfl, rfl, fun _ => rfl⟩
  · exact ⟨_, rfl, rfl, rfl, rfl, id⟩

theorem finishWrites_writeSet (op : RowOp) (base : RegistryRow) (changed : Bool) :
    ∃ r, (finishWrites (writeSet op base changed)).1 = some r ∧ r.key = base.key ∧
      r.clocks = (writeSet op base changed).1.clocks ∧ r.delHlc = base.delHlc ∧
      (base.deleted = false → r.deleted = false) := by
  obtain ⟨hkey, hdeleted, hdelHlc⟩ := writeSet_frame op base changed
  obtain ⟨r, hr, hrkey, hclocks, hdel, hlive⟩ := finishWrites_fst (writeSet op base changed)
  refine ⟨r, hr, hrkey.trans hkey, hclocks, hdel.trans hdelHlc, ?_⟩
  rw [hdeleted] at hlive
  exact hlive

theorem applyDelete_key {row : Option RegistryRow} {r : RegistryRow}
    (hrow : ∀ x, row = some x → x.key = op.key) (h : (applyDelete row op).1 = some r) :
    r.key = op.key := by
  cases row with
  | none =>
      cases h
      rfl
  | some x =>
      by_cases hnewer : hlcNewer op.hlc (if x.deleted then x.delHlc else x.maxClock) = true
      · simp only [applyDelete, if_pos hnewer, Option.some.injEq] at h
        rw [← h]
        exact hrow x rfl
      · simp only [applyDelete, if_neg hnewer, Option.some.injEq] at h
        rw [← h]
        exact hrow x rfl

/-- **Keys.** Applied to the row of its own key, an op yields a row of that key. -/
theorem applyOp_key {row : Option RegistryRow} {r : RegistryRow}
    (hrow : ∀ x, row = some x → x.key = op.key) (h : (applyOp row op).1 = some r) :
    r.key = op.key := by
  have hwrites : ∀ base changed, base.key = op.key →
      (finishWrites (writeSet op base changed)).1 = some r → r.key = op.key := by
    intro base changed hbase hr
    obtain ⟨r', hr', hkey, -⟩ := finishWrites_writeSet op base changed
    rw [hr', Option.some.injEq] at hr
    rw [← hr, hkey, hbase]
  unfold applyOp at h
  split at h
  · exact applyDelete_key hrow h
  · cases row with
    | none =>
        simp only at h
        split at h
        · cases h
        · exact hwrites _ _ rfl h
    | some x =>
        by_cases hdeleted : x.deleted = true
        · by_cases hskip : op.op = .update ∨ ¬ hlcNewer op.hlc x.delHlc = true
          · simp only [if_pos hdeleted, if_pos hskip, Option.some.injEq] at h
            rw [← h]
            exact hrow x rfl
          · simp only [if_pos hdeleted, if_neg hskip] at h
            exact hwrites x.revived true (hrow x rfl) h
        · simp only [if_neg hdeleted] at h
          exact hwrites x false (hrow x rfl) h

end Key

section Outcome

theorem writeSet_unchanged {base : RegistryRow} (h : (writeSet op base false).2 = false) :
    (writeSet op base false).1 = base := by
  have hkeep : (writeSet op base false).2 = false → (writeSet op base false).1 = base := by
    refine writeSet_induct (motive := fun acc => acc.2 = false → acc.1 = base) (fun _ => rfl) ?_
    intro acc field value _ hacc
    unfold writeField
    split
    · simp
    · exact hacc
  exact hkeep h

theorem finishWrites_outcome (op : RowOp) (base : RegistryRow) :
    (∃ r, finishWrites (writeSet op base false) = (some r, true)) ∨
      finishWrites (writeSet op base false) = (some base, false) := by
  unfold finishWrites
  split
  · exact Or.inl ⟨_, rfl⟩
  · rename_i hunchanged
    rw [writeSet_unchanged (by simpa using hunchanged)]
    exact Or.inr rfl

theorem finishWrites_changed (op : RowOp) (base : RegistryRow) :
    ∃ r, finishWrites (writeSet op base true) = (some r, true) := by
  have hchanged : (writeSet op base true).2 = true := by
    refine writeSet_induct (motive := fun acc => acc.2 = true) rfl ?_
    intro acc field value _ hacc
    unfold writeField
    split
    · rfl
    · exact hacc
  unfold finishWrites
  rw [if_pos hchanged]
  exact ⟨_, rfl⟩

/-- **Outcome.** An op either says it changed the row and yields one, or leaves what was there. -/
theorem applyOp_outcome (row : Option RegistryRow) (op : RowOp) :
    (∃ r, applyOp row op = (some r, true)) ∨ applyOp row op = (row, false) := by
  unfold applyOp
  split
  · unfold applyDelete
    cases row with
    | none => exact Or.inl ⟨_, rfl⟩
    | some row =>
        by_cases hnewer : hlcNewer op.hlc (if row.deleted then row.delHlc else row.maxClock) = true
        · simp only [if_pos hnewer]
          exact Or.inl ⟨_, rfl⟩
        · simp only [if_neg hnewer]
          exact Or.inr trivial
  · cases row with
    | none =>
        simp only
        split
        · exact Or.inr rfl
        · exact Or.inl (finishWrites_changed op _)
    | some row =>
        by_cases hdeleted : row.deleted = true
        · simp only [if_pos hdeleted]
          split
          · exact Or.inr rfl
          · exact Or.inl (finishWrites_changed op _)
        · simp only [if_neg hdeleted]
          exact finishWrites_outcome op row

end Outcome

section Newest

namespace RegistryRow

def newest (row : RegistryRow) : Option Hlc := if row.deleted then row.delHlc else row.maxClock

/-- The row remembers a write at `clock` or later. -/
def AtLeast (clock : Hlc) (row : RegistryRow) : Prop := ∃ c, row.newest = some c ∧ clock ≤ c

theorem maxClock_fold (entries : List (String × Hlc)) (init : Option Hlc) :
    (∀ c, init = some c → ∃ m, entries.foldl (fun max entry =>
        if max.all (· < entry.2) then some entry.2 else max) init = some m ∧ c ≤ m) ∧
      (∀ entry ∈ entries, ∃ m, entries.foldl (fun max entry =>
        if max.all (· < entry.2) then some entry.2 else max) init = some m ∧ entry.2 ≤ m) ∧
      (∀ m, entries.foldl (fun max entry =>
        if max.all (· < entry.2) then some entry.2 else max) init = some m →
          init = some m ∨ ∃ entry ∈ entries, entry.2 = m) := by
  induction entries generalizing init with
  | nil => exact ⟨fun c hc => ⟨c, hc, le_refl _⟩, by simp, fun m hm => Or.inl hm⟩
  | cons entry entries ih =>
      simp only [List.foldl_cons]
      -- One turn keeps the larger of the running maximum and the entry.
      have hturn : ∃ t, (if init.all (· < entry.2) then some entry.2 else init) = some t ∧
          entry.2 ≤ t ∧ (∀ c, init = some c → c ≤ t) ∧ (init = some t ∨ entry.2 = t) := by
        cases init with
        | none => exact ⟨entry.2, by simp, le_refl _, by simp, Or.inr rfl⟩
        | some c =>
            by_cases hlt : c < entry.2
            · refine ⟨entry.2, ?_, le_refl _, ?_, Or.inr rfl⟩
              · rw [Option.all_some, if_pos (decide_eq_true hlt)]
              · rintro _ ⟨⟩
                exact hlt.le
            · refine ⟨c, ?_, not_lt.mp hlt, ?_, Or.inl rfl⟩
              · rw [Option.all_some, decide_eq_false hlt, if_neg Bool.false_ne_true]
              · rintro _ ⟨⟩
                exact le_refl _
      obtain ⟨t, ht, hentry, hinit, hfrom⟩ := hturn
      rw [ht]
      obtain ⟨hge, hmem, hback⟩ := ih (some t)
      obtain ⟨m, hm, htm⟩ := hge t rfl
      refine ⟨fun c hc => ⟨m, hm, (hinit c hc).trans htm⟩, ?_, ?_⟩
      · intro entry' h
        obtain rfl | h := List.mem_cons.mp h
        · exact ⟨m, hm, hentry.trans htm⟩
        · exact hmem entry' h
      · intro m' hm'
        obtain h | ⟨entry', hentry', heq⟩ := hback m' hm'
        · cases h
          obtain h | h := hfrom
          · exact Or.inl h
          · exact Or.inr ⟨entry, List.mem_cons_self, h⟩
        · exact Or.inr ⟨entry', List.mem_cons_of_mem _ hentry', heq⟩

theorem maxClock_eq (row : RegistryRow) :
    row.maxClock = row.clocks.toList.foldl
      (fun max entry => if max.all (· < entry.2) then some entry.2 else max) row.delHlc :=
  Std.ExtTreeMap.foldl_eq_foldl_toList

theorem delHlc_le_maxClock {c : Hlc} (h : row.delHlc = some c) :
    ∃ m, row.maxClock = some m ∧ c ≤ m := by
  rw [maxClock_eq]
  exact (maxClock_fold row.clocks.toList row.delHlc).1 c h

theorem clock_le_maxClock {field : String} {c : Hlc} (h : row.clocks[field]? = some c) :
    ∃ m, row.maxClock = some m ∧ c ≤ m := by
  rw [maxClock_eq]
  exact (maxClock_fold row.clocks.toList row.delHlc).2.1 (field, c)
    (Std.ExtTreeMap.mem_toList_iff_getElem?_eq_some.mpr h)

theorem maxClock_mem {m : Hlc} (h : row.maxClock = some m) :
    row.delHlc = some m ∨ ∃ field : String, row.clocks[field]? = some m := by
  rw [maxClock_eq] at h
  obtain h | ⟨entry, hentry, heq⟩ := (maxClock_fold row.clocks.toList row.delHlc).2.2 m h
  · exact Or.inl h
  · refine Or.inr ⟨entry.1, ?_⟩
    rw [← heq]
    exact Std.ExtTreeMap.mem_toList_iff_getElem?_eq_some.mp hentry

theorem atLeast_of_clock (field : String) (hlive : row.deleted = false)
    (h : ∃ c, row.clocks[field]? = some c ∧ clock ≤ c) :
    row.AtLeast clock := by
  obtain ⟨c, hc, hle⟩ := h
  obtain ⟨m, hm, hcm⟩ := clock_le_maxClock hc
  exact ⟨m, by simp [newest, hlive, hm], hle.trans hcm⟩

theorem atLeast_of_delHlc {c clock : Hlc} (h : row.delHlc = some c) (hle : clock ≤ c) :
    row.AtLeast clock := by
  unfold AtLeast newest
  split
  · exact ⟨c, h, hle⟩
  · obtain ⟨m, hm, hcm⟩ := delHlc_le_maxClock h
    exact ⟨m, hm, hle.trans hcm⟩

theorem newest_eq_of_not_newer (h : ¬ hlcNewer clock row.newest = true) :
    row.AtLeast clock := by
  cases hnewest : row.newest with
  | none => simp [hnewest] at h
  | some c =>
      rw [hnewest, hlcNewer_some, not_lt] at h
      exact ⟨c, hnewest, h⟩

end RegistryRow

theorem applyDelete_newest (row : RegistryRow) (op : RowOp) :
    ∃ r, (applyDelete (some row) op).1 = some r ∧ r.AtLeast op.hlc ∧
      ∀ clock, row.AtLeast clock → r.AtLeast clock := by
  unfold applyDelete
  change ∃ r, (if hlcNewer op.hlc row.newest then _ else _ : Option RegistryRow × Bool).1 = _ ∧ _
  split
  · rename_i hnewer
    refine ⟨row.entomb op.hlc, rfl, ⟨op.hlc, rfl, le_refl _⟩, ?_⟩
    rintro clock ⟨c, hc, hle⟩
    rw [hc, hlcNewer_some] at hnewer
    exact ⟨op.hlc, rfl, hle.trans hnewer.le⟩
  · rename_i hnot
    exact ⟨row, rfl, row.newest_eq_of_not_newer hnot, fun _ h => h⟩

/-- **Rows stay, and their newest clock never moves back.** -/
theorem applyOp_newest (row : RegistryRow) (op : RowOp) :
    ∃ r, (applyOp (some row) op).1 = some r ∧ ∀ clock, row.AtLeast clock → r.AtLeast clock := by
  unfold applyOp
  split
  · obtain ⟨r, hr, -, hkeep⟩ := applyDelete_newest row op
    exact ⟨r, hr, hkeep⟩
  · simp only
    split
    · rename_i hdeleted
      split
      · exact ⟨row, rfl, fun _ h => h⟩
      · obtain ⟨r, hr, -, -, hdel, -⟩ := finishWrites_writeSet op row.revived true
        refine ⟨r, hr, ?_⟩
        rintro clock ⟨c, hc, hle⟩
        rw [RegistryRow.newest, if_pos hdeleted] at hc
        exact RegistryRow.atLeast_of_delHlc (hdel.trans hc) hle
    · rename_i hlive
      have hlive' : row.deleted = false := by simpa using hlive
      obtain ⟨r, hr, -, hclocks, hdel, hrlive⟩ := finishWrites_writeSet op row false
      refine ⟨r, hr, ?_⟩
      rintro clock ⟨c, hc, hle⟩
      rw [RegistryRow.newest, if_neg hlive] at hc
      obtain h | ⟨field, h⟩ := RegistryRow.maxClock_mem hc
      · exact RegistryRow.atLeast_of_delHlc (hdel.trans h) hle
      · refine RegistryRow.atLeast_of_clock field (hrlive hlive') ?_
        rw [hclocks]
        exact writeSet_clocks_ge ⟨c, h, hle⟩

/-- The op brings a clock no older than `clock` to any row it meets: a delete by itself, an upsert
through a field it writes. -/
def RowOp.Carries (clock : Hlc) (op : RowOp) : Prop :=
  clock ≤ op.hlc ∧ (op.op = .delete ∨ op.op = .upsert ∧
    ∃ field value, (op.set.getD ∅)[field]? = some value ∧ clock ≤ op.clockFor field)

theorem applyOp_carries {row : Option RegistryRow} (h : op.Carries clock) :
    ∃ r, (applyOp row op).1 = some r ∧ r.AtLeast clock := by
  obtain ⟨hhlc, hdelete | ⟨hupsert, field, value, hset, hfield⟩⟩ := h
  · unfold applyOp
    rw [if_pos hdelete]
    cases row with
    | none => exact ⟨_, rfl, op.hlc, rfl, hhlc⟩
    | some row =>
        obtain ⟨r, hr, ⟨c, hc, hle⟩, -⟩ := applyDelete_newest row op
        exact ⟨r, hr, c, hc, hhlc.trans hle⟩
  · -- Whatever the upsert starts from, the field it writes ends with a clock that is no older.
    have hwritten : ∀ base changed, base.deleted = false →
        ∃ r, (finishWrites (writeSet op base changed)).1 = some r ∧ r.AtLeast clock := by
      intro base changed hlive
      obtain ⟨r, hr, -, hclocks, -, hrlive⟩ := finishWrites_writeSet op base changed
      refine ⟨r, hr, RegistryRow.atLeast_of_clock field (hrlive hlive) ?_⟩
      rw [hclocks]
      obtain ⟨c, hc, hle⟩ := writeSet_clock_written base changed hset
      exact ⟨c, hc, hfield.trans hle⟩
    unfold applyOp
    rw [if_neg (by simp [hupsert])]
    cases row with
    | none =>
        simp only [hupsert, reduceCtorEq, if_false]
        exact hwritten _ _ rfl
    | some row =>
        simp only [hupsert, reduceCtorEq, false_or]
        split
        · rename_i hdeleted
          split
          · rename_i hnot
            refine ⟨row, rfl, ?_⟩
            have hnewest : row.newest = row.delHlc := by simp [RegistryRow.newest, hdeleted]
            rw [← hnewest] at hnot
            obtain ⟨c, hc, hle⟩ := row.newest_eq_of_not_newer hnot
            exact ⟨c, hc, hhlc.trans hle⟩
          · exact hwritten _ _ rfl
        · rename_i hlive
          exact hwritten _ _ (by simpa using hlive)

theorem applyOp_isSome {row : Option RegistryRow} (h : op.op ≠ .update) :
    (applyOp row op).1.isSome := by
  cases row with
  | some row =>
      obtain ⟨r, hr, -⟩ := applyOp_newest row op
      rw [hr]
      rfl
  | none =>
      unfold applyOp
      split
      · rfl
      · simp only
        obtain ⟨r, hr, -⟩ := finishWrites_writeSet op (.blank op.kind op.id) true
        rw [hr]
        rfl

/-- The row after one more op, stamped by whoever applied it. -/
def Rewritten (row row' : RegistryRow) : Prop :=
  ∃ op r seq, (applyOp (some row) op).1 = some r ∧ row' = { r with seq }

theorem Rewritten.atLeast {row row' : RegistryRow} (h : Rewritten row row')
    (hclock : row.AtLeast clock) : row'.AtLeast clock := by
  obtain ⟨op, r, seq, hr, rfl⟩ := h
  obtain ⟨r', hr', hkeep⟩ := applyOp_newest row op
  rw [hr', Option.some.injEq] at hr
  exact hr ▸ hkeep clock hclock

def Lands (op : RowOp) (row : Option RegistryRow) : Prop :=
  (op.op ≠ .update → row.isSome) ∧
    ∀ clock, op.Carries clock → ∃ r, row = some r ∧ r.AtLeast clock

theorem lands_applyOp (row : Option RegistryRow) (op : RowOp) : Lands op (applyOp row op).1 :=
  ⟨fun h => applyOp_isSome h, fun _ h => applyOp_carries h⟩

theorem Lands.stamp (h : Lands op (some row)) (seq : Nat) :
    Lands op (some { row with seq }) := by
  refine ⟨fun _ => rfl, fun clock hclock => ?_⟩
  obtain ⟨r, hr, hatLeast⟩ := h.2 clock hclock
  cases hr
  exact ⟨_, rfl, hatLeast⟩

theorem Lands.rewritten {row row' : RegistryRow} (h : Lands op (some row))
    (hrewritten : Rewritten row row') : Lands op (some row') := by
  refine ⟨fun _ => rfl, fun clock hclock => ?_⟩
  obtain ⟨r, hr, hatLeast⟩ := h.2 clock hclock
  cases hr
  exact ⟨row', rfl, hrewritten.atLeast hatLeast⟩

end Newest

section Seed

/-- The newest clock of the row stands on a field that is still there. -/
def RegistryRow.NewestShown (row : RegistryRow) : Prop :=
  ∀ clock ∈ row.maxClock, ∃ entry ∈ row.fields.toList, row.clocks[entry.1]? = some clock

instance (row : RegistryRow) : Decidable row.NewestShown :=
  inferInstanceAs (Decidable (∀ clock ∈ row.maxClock, _))

theorem rowToSeedOp_carries (hshown : row.deleted = false → row.NewestShown)
    (h : row.AtLeast clock) :
    (rowToSeedOp row).Carries clock := by
  obtain ⟨c, hc, hle⟩ := h
  unfold rowToSeedOp RowOp.Carries
  split
  · rename_i hdeleted
    rw [RegistryRow.newest, if_pos hdeleted] at hc
    exact ⟨by simpa [hc] using hle, Or.inl rfl⟩
  · rename_i hlive
    rw [RegistryRow.newest, if_neg hlive] at hc
    obtain ⟨⟨field, value⟩, hfield, hclock⟩ := hshown (by simpa using hlive) c hc
    refine ⟨by simpa [hc] using hle, Or.inr ⟨rfl, field, value, ?_, ?_⟩⟩
    · exact Std.ExtTreeMap.mem_toList_iff_getElem?_eq_some.mp hfield
    · simpa [RowOp.clockFor, hclock] using hle

end Seed

end Zeron.Registry
