import Zeron.Registry.Room

/-!
# A replica behind a history

A replica follows a history when it holds every row of the version its cursor names. It may hold
more rows than that version, after a wipe; each of these it still owes to the room, as a pending
seed.
-/

namespace Zeron.Registry

open Zeron.Lib (Covers overwrite Versions)

variable {ops : List RowOp}

namespace RegistryDoc

/-- A seed of the row is pending, and it carries the row's newest clock. -/
def Owes (doc : RegistryDoc) (row : RegistryRow) : Prop :=
  (∃ b ∈ doc.pending, rowToSeedOp row ∈ b.ops) ∧ (row.deleted = false → row.NewestShown)

structure Follows (doc : RegistryDoc) (history : History) : Prop where
  sound : doc.Sound
  covers : Covers (fun k => doc.authoritative[k]?) (history.table doc.serverSeq)
  owed : ∀ (k : RowKey) (row : RegistryRow), doc.authoritative[k]? = some row →
    history.table doc.serverSeq k = none → doc.Owes row
  untouched : doc.generation = 0 → doc.authoritative = ∅ ∧ doc.serverSeq = 0

/-- What an ack of the batch at version `n` may say: all its ops have landed by then. -/
def Acked (doc : RegistryDoc) (history : History) (batch : String) (n : Nat) : Prop :=
  doc.Minted batch ∧ ∀ b ∈ doc.pending, b.batch = batch →
    ∀ op ∈ b.ops, Lands op (history.table n op.key)

/-- What a state frame may say to a replica: a delta from a version the replica holds, everything
to a replica ahead of the room, everything to a replica that is empty. -/
def Answers (doc : RegistryDoc) (history history' : History) (seq : Nat) (full : Bool)
    (rows : List RegistryRow) : Prop :=
  full = false ∧ history'.table doc.serverSeq = history.table doc.serverSeq ∧
      history'.IsDelta doc.serverSeq seq rows ∨
    full = true ∧ seq < doc.serverSeq ∧ history'.IsDelta 0 seq rows ∨
    full = true ∧ doc.authoritative = ∅ ∧ doc.serverSeq = 0 ∧ history'.IsDelta 0 seq rows

variable {doc doc' : RegistryDoc} {history history' : History}

theorem follows_new (deviceId : String) (history : History) : (new deviceId).Follows history where
  sound := sound_new deviceId
  covers k r h := by simp [new, history.zero] at h
  owed k r h := by simp [new] at h
  untouched _ := ⟨rfl, rfl⟩

theorem Follows.congr (h : doc.Follows history)
    (htable : history'.table doc.serverSeq = history.table doc.serverSeq) :
    doc.Follows history' where
  sound := h.sound
  covers := by
    rw [htable]
    exact h.covers
  owed := by
    rw [htable]
    exact h.owed
  untouched := h.untouched

section Writes

theorem Enqueued.mem_pending (h : doc.Enqueued ops doc') {b : PendingBatch} (hb : b ∈ doc.pending) :
    b ∈ doc'.pending := by
  obtain ⟨fresh, hpending, -⟩ := h.pending
  rw [hpending]
  exact List.mem_append_left _ hb

theorem Enqueued.mem_of_minted (h : doc.Enqueued ops doc') {b : PendingBatch}
    (hb : b ∈ doc'.pending) (hminted : doc.Minted b.batch) : b ∈ doc.pending := by
  obtain ⟨fresh, hpending, -, hfresh⟩ := h.pending
  rw [hpending] at hb
  obtain hb | hb := List.mem_append.mp hb
  · exact hb
  · exact absurd hminted (hfresh b hb)

theorem Enqueued.mem_ops (h : doc.Enqueued ops doc') {op : RowOp} (hop : op ∈ ops) :
    ∃ b ∈ doc'.pending, op ∈ b.ops := by
  obtain ⟨fresh, hpending, hops, -⟩ := h.pending
  rw [← hops] at hop
  obtain ⟨b, hb, hop⟩ := List.mem_flatMap.mp hop
  exact ⟨b, by rw [hpending]; exact List.mem_append_right _ hb, hop⟩

theorem Owes.enqueued {row : RegistryRow} (h : doc.Owes row) (henqueued : doc.Enqueued ops doc') :
    doc'.Owes row := by
  obtain ⟨⟨b, hb, hop⟩, hshown⟩ := h
  exact ⟨⟨b, henqueued.mem_pending hb, hop⟩, hshown⟩

theorem Follows.enqueued (h : doc.Follows history) (henqueued : doc.Enqueued ops doc') :
    doc'.Follows history where
  sound := henqueued.sound h.sound
  covers := by
    rw [henqueued.authoritative, henqueued.serverSeq]
    exact h.covers
  owed k row hrow hnone := by
    rw [henqueued.authoritative] at hrow
    rw [henqueued.serverSeq] at hnone
    exact (h.owed k row hrow hnone).enqueued henqueued
  untouched hzero := by
    rw [henqueued.authoritative, henqueued.serverSeq]
    exact h.untouched (Nat.le_zero.mp (hzero ▸ henqueued.generation))

end Writes

section Marks

def marked (doc : RegistryDoc) (mark : PendingBatch → Bool) : RegistryDoc :=
  { doc with pending := doc.pending.map fun b => { b with inFlight := mark b } }

theorem mem_marked {mark : PendingBatch → Bool} {b : PendingBatch}
    (h : b ∈ (doc.marked mark).pending) :
    ∃ b' ∈ doc.pending, b'.batch = b.batch ∧ b'.ops = b.ops := by
  obtain ⟨b', hb', rfl⟩ := List.mem_map.mp h
  exact ⟨b', hb', rfl, rfl⟩

theorem Owes.marked {row : RegistryRow} (h : doc.Owes row) (mark : PendingBatch → Bool) :
    (doc.marked mark).Owes row := by
  obtain ⟨⟨b, hb, hop⟩, hshown⟩ := h
  exact ⟨⟨_, List.mem_map.mpr ⟨b, hb, rfl⟩, hop⟩, hshown⟩

theorem Follows.marked (h : doc.Follows history) (mark : PendingBatch → Bool) :
    (doc.marked mark).Follows history where
  sound := h.sound.mark mark
  covers := h.covers
  owed k row hrow hnone := (h.owed k row hrow hnone).marked mark
  untouched := h.untouched

end Marks

section Frames

/-- **Rows.** The next version over the one held. -/
theorem Follows.applyRows (h : doc.Follows history) {rows : List RegistryRow}
    (hrows : history.IsDelta doc.serverSeq (doc.serverSeq + 1) rows) :
    (doc.applyRows (doc.serverSeq + 1) rows).Follows history := by
  have hseq : (doc.applyRows (doc.serverSeq + 1) rows).serverSeq = doc.serverSeq + 1 :=
    if_pos (Nat.lt_succ_self _)
  have hget : ∀ k : RowKey, (doc.applyRows (doc.serverSeq + 1) rows).authoritative[k]? =
      overwrite RegistryRow.key (fun k => doc.authoritative[k]?) rows k :=
    fun k => RowTable.getElem?_putRows doc.authoritative rows k
  refine ⟨h.sound.applyRows, ?_, ?_, fun hzero => absurd hzero (Nat.succ_ne_zero _)⟩
  · rw [hseq]
    intro k r hr
    exact (hget k).trans (hrows.covers h.covers k r hr)
  · intro k row hrow hnone
    rw [hseq] at hnone
    rw [hget, hrows.overwrite_of_none hnone] at hrow
    refine h.owed k row hrow ?_
    -- A row of the version held would still be there in the next.
    cases hold : history.table doc.serverSeq k with
    | none => rfl
    | some r =>
        obtain ⟨r', hr', -⟩ := history.grow _ _ _ hold
        rw [hnone] at hr'
        cases hr'

/-- **Ack.** A batch that has landed takes no owed row with it. -/
theorem Follows.ackBatch (h : doc.Follows history) {batch : String}
    (hacked : doc.Acked history batch doc.serverSeq) :
    (doc.ackBatch batch doc.serverSeq).1.Follows history := by
  have hsound := h.sound.ackBatch batch doc.serverSeq
  obtain ⟨generation, hgeneration, heq⟩ := doc.ackBatch_fst batch doc.serverSeq
  rw [heq, if_neg (lt_irrefl _)] at hsound ⊢
  refine ⟨hsound, h.covers, ?_, fun hzero => ?_⟩
  · intro k row hrow hnone
    obtain ⟨⟨b, hb, hop⟩, hshown⟩ := h.owed k row hrow hnone
    refine ⟨⟨b, List.mem_filter.mpr ⟨hb, ?_⟩, hop⟩, hshown⟩
    rw [decide_eq_true_iff]
    intro hbatch
    have hlands := (hacked.2 b hb hbatch _ hop).1 (rowToSeedOp_ne_update row)
    rw [rowToSeedOp_key, h.sound.keyed k row hrow, hnone] at hlands
    cases hlands
  · have hgen : generation = 0 := hzero
    exact h.untouched (Nat.le_zero.mp (hgen ▸ hgeneration))

theorem Acked.applyState {batch : String} {n seq gcFloor : Nat} {full : Bool}
    {rows : List RegistryRow} (h : doc.Acked history batch n) (order : HashOrder)
    (wall : Nat → Int) :
    (doc.applyState order wall seq full gcFloor rows).1.Acked history batch n := by
  cases full with
  | false => exact h
  | true =>
      by_cases hbehind : seq < doc.serverSeq
      · have henqueued := applyState_behind doc order wall gcFloor rows hbehind
        exact ⟨henqueued.minted _ h.1, fun b hb hbatch =>
          h.2 b (henqueued.mem_of_minted hb (hbatch ▸ h.1)) hbatch⟩
      · have henqueued := applyState_replace doc order wall gcFloor rows hbehind
        exact ⟨henqueued.minted _ h.1, fun b hb hbatch =>
          h.2 b (henqueued.mem_of_minted hb (hbatch ▸ h.1)) hbatch⟩

/-- **State.** Whatever a state frame may say, the replica follows the room's history after it. A
replica ahead of the room owes all its rows then, if their newest clocks can be carried. -/
theorem Follows.applyState (h : doc.Follows history) (order : HashOrder) (wall : Nat → Int)
    {seq gcFloor : Nat} {full : Bool} {rows : List RegistryRow}
    (hanswers : doc.Answers history history' seq full rows)
    (hshown : full = true → seq < doc.serverSeq → ∀ (k : RowKey) (row : RegistryRow),
      doc.authoritative[k]? = some row → row.deleted = false → row.NewestShown) :
    (doc.applyState order wall seq full gcFloor rows).1.Follows history' := by
  have hsound := h.sound.applyState order wall seq gcFloor rows full
  obtain ⟨rfl, htable, hrows⟩ | ⟨rfl, hbehind, hrows⟩ | ⟨rfl, hempty, hzero, hrows⟩ := hanswers
  · -- A delta: as for a broadcast, from a version both histories share.
    have hcovers : Covers (fun k => doc.authoritative[k]?) (history'.table doc.serverSeq) := by
      rw [htable]
      exact h.covers
    refine ⟨hsound, ?_, ?_, fun hgen => absurd hgen (Nat.succ_ne_zero _)⟩
    · intro k r hr
      exact (RowTable.getElem?_putRows _ rows k).trans (hrows.covers hcovers k r hr)
    · intro k row hrow hnone
      rw [applyState_delta] at hrow hnone ⊢
      change (doc.authoritative.putRows rows)[k]? = some row at hrow
      rw [RowTable.getElem?_putRows, hrows.overwrite_of_none hnone] at hrow
      refine h.owed k row hrow ?_
      cases hold : history.table doc.serverSeq k with
      | none => rfl
      | some r =>
          rw [← htable] at hold
          obtain ⟨r', hr', -⟩ := history'.later (P := fun _ => True) (fun _ _ _ _ => trivial)
            hrows.1 hold trivial
          rw [hnone] at hr'
          cases hr'
  · -- A room that is behind: every row the replica had is seeded.
    have henqueued := applyState_behind doc order wall gcFloor rows hbehind
    have hzero : Covers (fun k => doc.authoritative[k]?) (history'.table 0) :=
      fun k r hr => by simp [history'.zero] at hr
    refine ⟨hsound, ?_, ?_, fun hgen => ?_⟩
    · intro k r hr
      rw [henqueued.serverSeq] at hr
      rw [henqueued.authoritative]
      exact (RowTable.getElem?_putRows _ rows k).trans (hrows.covers hzero k r hr)
    · intro k row hrow hnone
      rw [henqueued.serverSeq] at hnone
      rw [henqueued.authoritative, RowTable.getElem?_putRows, hrows.overwrite_of_none hnone] at hrow
      have hmem : row ∈ order.arrange doc.authoritative.rows := by
        rw [order.mem_arrange, h.sound.keyed.mem_rows, h.sound.keyed k row hrow]
        exact hrow
      exact ⟨henqueued.mem_ops (List.mem_map_of_mem hmem), hshown rfl hbehind k row hrow⟩
    · have hgeneration := henqueued.generation
      rw [hgen] at hgeneration
      exact absurd hgeneration (Nat.not_succ_le_zero _)
  · -- An empty replica: the answer replaces nothing.
    have hbehind : ¬ seq < doc.serverSeq := by omega
    have henqueued := applyState_replace doc order wall gcFloor rows hbehind
    have hnothing : Covers (fun k => (∅ : RowTable)[k]?) (history'.table 0) :=
      fun k r hr => by simp [history'.zero] at hr
    refine ⟨hsound, ?_, ?_, fun hgen => ?_⟩
    · intro k r hr
      rw [henqueued.serverSeq] at hr
      rw [henqueued.authoritative]
      exact (RowTable.getElem?_putRows _ rows k).trans (hrows.covers hnothing k r hr)
    · intro k row hrow hnone
      rw [henqueued.serverSeq] at hnone
      rw [henqueued.authoritative, RowTable.getElem?_putRows, hrows.overwrite_of_none hnone] at hrow
      simp at hrow
    · have hgeneration := henqueued.generation
      rw [hgen] at hgeneration
      exact absurd hgeneration (Nat.not_succ_le_zero _)

end Frames

section Remembers

/-- The row, and the clock if there is one, are safe with the replica: the version it holds shows
them, or a pending op carries them. -/
def Remembers (doc : RegistryDoc) (history : History) (key : RowKey) (clock : Option Hlc) : Prop :=
  (∃ row, history.table doc.serverSeq key = some row ∧ ∀ c ∈ clock, row.AtLeast c) ∨
    ∃ b ∈ doc.pending, ∃ op ∈ b.ops, op.key = key ∧ op.op ≠ .update ∧ ∀ c ∈ clock, op.Carries c

variable {key : RowKey} {clock : Option Hlc}

theorem Follows.remembers (h : doc.Follows history) {row : RegistryRow}
    (hrow : doc.authoritative[key]? = some row) (hclock : ∀ c ∈ clock, row.AtLeast c) :
    doc.Remembers history key clock := by
  cases htable : history.table doc.serverSeq key with
  | some row' =>
      have hsame := h.covers key row' htable
      simp only [hrow, Option.some.injEq] at hsame
      subst hsame
      exact Or.inl ⟨row, htable, hclock⟩
  | none =>
      obtain ⟨⟨b, hb, hop⟩, hshown⟩ := h.owed key row hrow htable
      refine Or.inr ⟨b, hb, rowToSeedOp row, hop, ?_, rowToSeedOp_ne_update row,
        fun c hc => rowToSeedOp_carries hshown (hclock c hc)⟩
      rw [rowToSeedOp_key]
      exact h.sound.keyed key row hrow

theorem Remembers.congr (h : doc.Remembers history key clock)
    (htable : history'.table doc.serverSeq = history.table doc.serverSeq) :
    doc.Remembers history' key clock := by
  unfold Remembers
  rw [htable]
  exact h

theorem Remembers.enqueued (h : doc.Remembers history key clock)
    (henqueued : doc.Enqueued ops doc') : doc'.Remembers history key clock := by
  unfold Remembers
  rw [henqueued.serverSeq]
  exact h.imp_right fun ⟨b, hb, hop⟩ => ⟨b, henqueued.mem_pending hb, hop⟩

theorem Remembers.marked (h : doc.Remembers history key clock) (mark : PendingBatch → Bool) :
    (doc.marked mark).Remembers history key clock :=
  h.imp_right fun ⟨b, hb, hop⟩ => ⟨_, List.mem_map.mpr ⟨b, hb, rfl⟩, hop⟩

theorem atLeast_later {n m : Nat} {row : RegistryRow} (hle : n ≤ m)
    (hrow : history.table n key = some row) (hclock : ∀ c ∈ clock, row.AtLeast c) :
    ∃ row', history.table m key = some row' ∧ ∀ c ∈ clock, row'.AtLeast c :=
  history.later (P := fun row => ∀ c ∈ clock, row.AtLeast c)
    (fun _ _ hrewritten h c hc => hrewritten.atLeast (h c hc)) hle hrow hclock

theorem Remembers.applyRows (h : doc.Remembers history key clock) (rows : List RegistryRow) :
    (doc.applyRows (doc.serverSeq + 1) rows).Remembers history key clock := by
  have hseq : (doc.applyRows (doc.serverSeq + 1) rows).serverSeq = doc.serverSeq + 1 :=
    if_pos (Nat.lt_succ_self _)
  unfold Remembers
  rw [hseq]
  exact h.imp_left fun ⟨_, hrow, hclock⟩ => atLeast_later (Nat.le_succ _) hrow hclock

theorem Remembers.ackBatch (h : doc.Remembers history key clock) {batch : String}
    (hacked : doc.Acked history batch doc.serverSeq) :
    (doc.ackBatch batch doc.serverSeq).1.Remembers history key clock := by
  obtain ⟨generation, -, heq⟩ := doc.ackBatch_fst batch doc.serverSeq
  rw [heq, if_neg (lt_irrefl _)]
  obtain h | ⟨b, hb, op, hop, rfl, hcreates, hcarries⟩ := h
  · exact Or.inl h
  · by_cases hbatch : b.batch = batch
    · left
      obtain ⟨hsome, hlands⟩ := hacked.2 b hb hbatch op hop
      obtain ⟨row, hrow⟩ := Option.isSome_iff_exists.mp (hsome hcreates)
      refine ⟨row, hrow, fun c hc => ?_⟩
      obtain ⟨row', hrow', hclock⟩ := hlands c (hcarries c hc)
      cases hrow.symm.trans hrow'
      exact hclock
    · exact Or.inr ⟨b, List.mem_filter.mpr ⟨hb, decide_eq_true hbatch⟩, op, hop, rfl, hcreates,
        hcarries⟩

theorem Remembers.applyState (h : doc.Remembers history key clock) (hfollows : doc.Follows history)
    (order : HashOrder) (wall : Nat → Int) {seq gcFloor : Nat} {full : Bool}
    {rows : List RegistryRow} (hanswers : doc.Answers history history' seq full rows)
    (hshown : full = true → seq < doc.serverSeq → ∀ (k : RowKey) (row : RegistryRow),
      doc.authoritative[k]? = some row → row.deleted = false → row.NewestShown) :
    (doc.applyState order wall seq full gcFloor rows).1.Remembers history' key clock := by
  obtain ⟨rfl, htable, hrows⟩ | ⟨rfl, hbehind, hrows⟩ | ⟨rfl, hempty, hzero, hrows⟩ := hanswers
  · rw [applyState_delta]
    refine h.imp_left fun ⟨row, hrow, hclock⟩ => ?_
    rw [← htable] at hrow
    exact atLeast_later hrows.1 hrow hclock
  · have henqueued := applyState_behind doc order wall gcFloor rows hbehind
    obtain ⟨row, hrow, hclock⟩ | ⟨b, hb, hop⟩ := h
    · -- The version held is given up; what it showed is on its way as a seed.
      have hauth := hfollows.covers key row hrow
      have hkey := hfollows.sound.keyed key row hauth
      have hmem : row ∈ order.arrange doc.authoritative.rows := by
        rw [order.mem_arrange, hfollows.sound.keyed.mem_rows, hkey]
        exact hauth
      obtain ⟨b, hb, hop⟩ := henqueued.mem_ops (List.mem_map_of_mem hmem)
      refine Or.inr ⟨b, hb, rowToSeedOp row, hop, (rowToSeedOp_key row).trans hkey,
        rowToSeedOp_ne_update row, fun c hc => ?_⟩
      exact rowToSeedOp_carries (hshown rfl hbehind key row hauth) (hclock c hc)
    · exact Or.inr ⟨b, henqueued.mem_pending hb, hop⟩
  · have hbehind : ¬ seq < doc.serverSeq := by omega
    have henqueued := applyState_replace doc order wall gcFloor rows hbehind
    obtain ⟨row, hrow, -⟩ | ⟨b, hb, hop⟩ := h
    · rw [hzero, history.zero] at hrow
      cases hrow
    · exact Or.inr ⟨b, henqueued.mem_pending hb, hop⟩

end Remembers

end RegistryDoc

end Zeron.Registry
