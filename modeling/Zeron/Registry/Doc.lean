import Zeron.Lib.Versioned
import Zeron.Registry.Merge

/-!
# The replica

`RegistryDoc` of `crates/doc/src/registry.rs`: the rows the server has told of, the cursor up to
which it has, and the optimistic batches not yet acknowledged.
-/

namespace Zeron.Registry

open Zeron.Lib (overwrite)

abbrev RowTable := Std.ExtTreeMap RowKey RegistryRow

namespace RowTable

def rows (table : RowTable) : List RegistryRow := table.toList.map Prod.snd

/-- Every row stands under its own key. -/
def Keyed (table : RowTable) : Prop := ∀ (k : RowKey) (r : RegistryRow), table[k]? = some r → r.key = k

def putRows (table : RowTable) (rows : List RegistryRow) : RowTable :=
  rows.foldl (fun table row => table.insert row.key row) table

theorem getElem?_putRows (table : RowTable) (rows : List RegistryRow) (k : RowKey) :
    (table.putRows rows)[k]? = overwrite RegistryRow.key (fun k => table[k]?) rows k := by
  induction rows generalizing table with
  | nil => rfl
  | cons row rows ih =>
      have hinsert : (fun k => (table.insert row.key row)[k]?) =
          Function.update (fun k => table[k]?) row.key (some row) := by
        funext k'
        by_cases hkey : k' = row.key
        · subst hkey
          simp
        · rw [Function.update_of_ne hkey]
          simp [Std.ExtTreeMap.getElem?_insert, Ne.symm hkey]
      change (RowTable.putRows (table.insert row.key row) rows)[k]? = _
      rw [ih, hinsert]
      rfl

theorem Keyed.putRows {table : RowTable} (h : table.Keyed) (rows : List RegistryRow) :
    (table.putRows rows).Keyed := by
  induction rows generalizing table with
  | nil => exact h
  | cons row rows ih =>
      refine ih fun k r hr => ?_
      rw [Std.ExtTreeMap.getElem?_insert] at hr
      split at hr
      · rename_i hkey
        cases hr
        exact Std.LawfulEqOrd.eq_of_compare hkey
      · exact h k r hr

theorem keyed_empty : (∅ : RowTable).Keyed := by
  intro k r h
  simp at h

theorem Keyed.mem_rows {table : RowTable} (h : table.Keyed) {row : RegistryRow} :
    row ∈ table.rows ↔ table[row.key]? = some row := by
  unfold rows
  rw [List.mem_map]
  constructor
  · rintro ⟨⟨k, r⟩, hmem, rfl⟩
    rw [Std.ExtTreeMap.mem_toList_iff_getElem?_eq_some] at hmem
    rw [h k r hmem]
    exact hmem
  · exact fun hrow => ⟨(row.key, row), Std.ExtTreeMap.mem_toList_iff_getElem?_eq_some.mpr hrow, rfl⟩

theorem getElem?_putRows_rows (table : RowTable) {top : RowTable} (h : top.Keyed) (k : RowKey) :
    (table.putRows top.rows)[k]? = top[k]?.or table[k]? := by
  rw [getElem?_putRows]
  cases htop : top[k]? with
  | some r =>
      have hkey := h k r htop
      subst hkey
      rw [Option.some_or]
      exact Zeron.Lib.overwrite_of_mem (fun k => top[k]?) (fun r' hr' => h.mem_rows.mp hr')
        (h.mem_rows.mpr htop)
  | none =>
      rw [Option.none_or]
      refine Zeron.Lib.overwrite_of_not_mem fun r hr hkey => ?_
      have hrow := h.mem_rows.mp hr
      rw [hkey, htop] at hrow
      cases hrow

end RowTable

structure PendingBatch where
  batch : String
  ops : List RowOp
  /-- In flight on the current connection; a reconnect pushes the batch again. -/
  inFlight : Bool
  deriving DecidableEq

inductive StateOutcome where
  | delta
  | replaced
  /-- The server was behind: the rows were kept and a re-seed was enqueued. -/
  | reseeded
  deriving DecidableEq

/-- The order in which a `HashMap` hands out its entries: any. -/
structure HashOrder where
  arrange : List RegistryRow → List RegistryRow
  perm : ∀ rows, (arrange rows).Perm rows

def HashOrder.byKey : HashOrder := { arrange := id, perm := fun _ => .refl _ }

theorem HashOrder.mem_arrange (order : HashOrder) {rows : List RegistryRow} {row : RegistryRow} :
    row ∈ order.arrange rows ↔ row ∈ rows :=
  (order.perm rows).mem_iff

structure RegistryDoc where
  deviceId : String
  authoritative : RowTable
  serverSeq : Nat
  gcFloor : Nat
  clock : HlcClock
  pending : List PendingBatch
  generation : Nat

namespace RegistryDoc

def new (deviceId : String) : RegistryDoc :=
  { deviceId, authoritative := ∅, serverSeq := 0, gcFloor := 0, clock := .initial, pending := [],
    generation := 0 }

section Batches

def maxOpsPerBatch : Nat := 400

/-- The splits of one `enqueue_ops`; as many turns as there are ops are enough. -/
def chunkOps : Nat → List RowOp → List (List RowOp)
  | 0, _ => []
  | _ + 1, [] => []
  | turns + 1, op :: ops =>
      (op :: ops).take maxOpsPerBatch :: chunkOps turns ((op :: ops).drop maxOpsPerBatch)

def nextHlc (doc : RegistryDoc) (nowMs : Int) : Hlc × RegistryDoc :=
  let (hlc, clock) := doc.clock.next nowMs doc.deviceId
  (hlc, { doc with clock })

def pushBatch (doc : RegistryDoc) (nowMs : Int) (ops : List RowOp) : RegistryDoc :=
  let (hlc, doc) := doc.nextHlc nowMs
  { doc with pending := doc.pending ++ [{ batch := "b-" ++ hlc, ops, inFlight := false }] }

def pushBatches (doc : RegistryDoc) (wall : Nat → Int) : List (List RowOp) → RegistryDoc
  | [] => doc
  | ops :: chunks => (doc.pushBatch (wall 0) ops).pushBatches (fun i => wall (i + 1)) chunks

/-- `wall` is what the wall clock shows at each reading of one call, in order. -/
def enqueueOps (doc : RegistryDoc) (wall : Nat → Int) (ops : List RowOp) : RegistryDoc :=
  if ops.isEmpty then doc
  else
    { doc with generation := doc.generation + 1 }.pushBatches wall (chunkOps ops.length ops)

def write (doc : RegistryDoc) (wall : Nat → Int) (kind id : String) (op : OpKind)
    (set : FieldMap JsonValue) : RegistryDoc :=
  let (hlc, doc) := doc.nextHlc (wall 0)
  doc.enqueueOps (fun i => wall (i + 1))
    [{ kind, id, op, set := some set, hlc, clocks := none }]

def deleteRowOps (doc : RegistryDoc) (wall : Nat → Int) (keys : List RowKey) : RegistryDoc :=
  let (hlc, doc) := doc.nextHlc (wall 0)
  doc.enqueueOps (fun i => wall (i + 1))
    (keys.map fun key => { kind := key.kind, id := key.id, op := .delete, set := none, hlc,
                           clocks := none })

/-- What every writing method comes to: some clock readings, then one `enqueue_ops`. -/
def commit (doc : RegistryDoc) (readings : List Int) (wall : Nat → Int) (ops : List RowOp) :
    RegistryDoc :=
  (readings.foldl (fun doc nowMs => (doc.nextHlc nowMs).2) doc).enqueueOps wall ops

theorem write_eq_commit (doc : RegistryDoc) (wall : Nat → Int) (kind id : String) (op : OpKind)
    (set : FieldMap JsonValue) :
    doc.write wall kind id op set = doc.commit [wall 0] (fun i => wall (i + 1))
      [{ kind, id, op, set := some set, hlc := (doc.nextHlc (wall 0)).1, clocks := none }] := rfl

theorem deleteRowOps_eq_commit (doc : RegistryDoc) (wall : Nat → Int) (keys : List RowKey) :
    doc.deleteRowOps wall keys = doc.commit [wall 0] (fun i => wall (i + 1))
      (keys.map fun key => { kind := key.kind, id := key.id, op := .delete, set := none,
                             hlc := (doc.nextHlc (wall 0)).1, clocks := none }) := rfl

end Batches

section Frames

/-- `apply_state`, the answer to a hello. -/
def applyState (doc : RegistryDoc) (order : HashOrder) (wall : Nat → Int) (seq : Nat) (full : Bool)
    (gcFloor : Nat) (rows : List RegistryRow) : RegistryDoc × StateOutcome :=
  let doc := { doc with generation := doc.generation + 1 }
  if ¬ full then
    ({ doc with authoritative := doc.authoritative.putRows rows, serverSeq := seq, gcFloor },
      .delta)
  else if seq < doc.serverSeq then
    -- The server lost state: the local rows are the only copy.
    let seed := (order.arrange doc.authoritative.rows).map rowToSeedOp
    let doc := { doc with authoritative := doc.authoritative.putRows rows, serverSeq := seq, gcFloor }
    (if seed.isEmpty then doc else doc.enqueueOps wall seed, .reseeded)
  else
    let incoming := RowTable.putRows ∅ rows
    let seed := (order.arrange
      (doc.authoritative.rows.filter fun row => incoming[row.key]?.isNone)).map rowToSeedOp
    let doc := { doc with authoritative := incoming, serverSeq := seq, gcFloor }
    if seed.isEmpty then (doc, .replaced) else (doc.enqueueOps wall seed, .reseeded)

def applyRows (doc : RegistryDoc) (seq : Nat) (rows : List RegistryRow) : RegistryDoc :=
  { doc with
    generation := doc.generation + 1
    authoritative := doc.authoritative.putRows rows
    serverSeq := if doc.serverSeq < seq then seq else doc.serverSeq }

def ackBatch (doc : RegistryDoc) (batch : String) (seq : Nat) : RegistryDoc × Bool :=
  let pending := doc.pending.filter fun b => b.batch ≠ batch
  let serverSeq := if doc.serverSeq < seq then seq else doc.serverSeq
  if pending.length ≠ doc.pending.length then
    ({ doc with pending, serverSeq, generation := doc.generation + 1 }, true)
  else
    ({ doc with pending, serverSeq }, false)

def takePushable (doc : RegistryDoc) : List PendingBatch × RegistryDoc :=
  ((doc.pending.filter fun b => ! b.inFlight).map fun b => { b with inFlight := true },
    { doc with pending := doc.pending.map fun b => { b with inFlight := true } })

def markDisconnected (doc : RegistryDoc) : RegistryDoc :=
  { doc with pending := doc.pending.map fun b => { b with inFlight := false } }

end Frames

section Overlay

/-- One pending op over the row shown so far. -/
def overlayOp (key : RowKey) (row : Option RegistryRow) (op : RowOp) : Option RegistryRow :=
  if op.key = key then (applyOp row op).1.or row else row

def replay (key : RowKey) (row : Option RegistryRow) (ops : List RowOp) : Option RegistryRow :=
  ops.foldl (overlayOp key) row

def pendingOps (doc : RegistryDoc) : List RowOp := doc.pending.flatMap (·.ops)

/-- The row as the device shows it: the authoritative row under the pending ops, if it is live. -/
def overlayRow (doc : RegistryDoc) (key : RowKey) : Option RegistryRow :=
  (replay key doc.authoritative[key]? doc.pendingOps).filter (! ·.deleted)

/-- All live rows of a kind; the authoritative ones come in any order. -/
def overlayRows (doc : RegistryDoc) (order : HashOrder) (kind : String) : List RegistryRow :=
  let known := (order.arrange (doc.authoritative.rows.filter (·.kind = kind))).map (·.id)
  let ids := doc.pendingOps.foldl
    (fun ids op => if op.kind = kind ∧ op.id ∉ ids then ids ++ [op.id] else ids) known
  ids.filterMap fun id => doc.overlayRow { kind, id }

end Overlay

section Ids

/-- The batch id was taken from a reading the clock has already shown. -/
def Minted (doc : RegistryDoc) (batch : String) : Prop :=
  ∃ reading : HlcClock, reading.InRange ∧ (reading = doc.clock ∨ reading.Before doc.clock) ∧
    batch = "b-" ++ reading.stamp doc.deviceId

/-- What every method keeps: ids are minted and never reused, rows stand under their keys. -/
structure Sound (doc : RegistryDoc) : Prop where
  inRange : doc.clock.InRange
  minted : ∀ b ∈ doc.pending, doc.Minted b.batch
  distinct : (doc.pending.map (·.batch)).Nodup
  keyed : doc.authoritative.Keyed

theorem sound_new (deviceId : String) : (new deviceId).Sound where
  inRange := HlcClock.initial_inRange
  minted := by simp [new]
  distinct := by simp [new]
  keyed := RowTable.keyed_empty

theorem Minted.nextHlc {doc : RegistryDoc} {batch : String} (h : doc.Minted batch) (nowMs : Int) :
    (doc.nextHlc nowMs).2.Minted batch := by
  obtain ⟨reading, hrange, hbefore, hbatch⟩ := h
  refine ⟨reading, hrange, Or.inr ?_, hbatch⟩
  obtain rfl | hbefore := hbefore
  · exact HlcClock.before_tick _ nowMs
  · exact hbefore.trans (HlcClock.before_tick _ nowMs)

theorem not_minted_next {doc : RegistryDoc} (nowMs : Int) :
    ¬ doc.Minted ("b-" ++ (doc.nextHlc nowMs).1) := by
  rintro ⟨reading, hrange, hbefore, hbatch⟩
  have hstamp : (doc.clock.tick nowMs).stamp doc.deviceId = reading.stamp doc.deviceId :=
    String.append_right_inj _ |>.mp hbatch
  have hlater : reading.Before (doc.clock.tick nowMs) := by
    obtain rfl | hbefore := hbefore
    · exact HlcClock.before_tick _ nowMs
    · exact hbefore.trans (HlcClock.before_tick _ nowMs)
  exact HlcClock.stamp_ne_of_before hrange (HlcClock.tick_inRange _ _) hlater hstamp.symm

theorem minted_next (doc : RegistryDoc) (nowMs : Int) :
    (doc.nextHlc nowMs).2.Minted ("b-" ++ (doc.nextHlc nowMs).1) :=
  ⟨doc.clock.tick nowMs, HlcClock.tick_inRange _ _, Or.inl rfl, rfl⟩

/-- `doc'` is `doc` with the ops enqueued behind what was pending, in fresh batches. -/
structure Enqueued (doc : RegistryDoc) (ops : List RowOp) (doc' : RegistryDoc) : Prop where
  deviceId : doc'.deviceId = doc.deviceId
  authoritative : doc'.authoritative = doc.authoritative
  serverSeq : doc'.serverSeq = doc.serverSeq
  gcFloor : doc'.gcFloor = doc.gcFloor
  generation : doc.generation ≤ doc'.generation
  minted : ∀ batch, doc.Minted batch → doc'.Minted batch
  pending : ∃ fresh, doc'.pending = doc.pending ++ fresh ∧ fresh.flatMap (·.ops) = ops ∧
    ∀ b ∈ fresh, ¬ doc.Minted b.batch
  sound : doc.Sound → doc'.Sound

theorem Enqueued.refl (doc : RegistryDoc) : doc.Enqueued [] doc where
  deviceId := rfl
  authoritative := rfl
  serverSeq := rfl
  gcFloor := rfl
  generation := le_refl _
  minted _ h := h
  pending := ⟨[], by simp⟩
  sound h := h

theorem Enqueued.trans {doc₁ doc₂ doc₃ : RegistryDoc} {ops₁ ops₂ : List RowOp}
    (h₁ : doc₁.Enqueued ops₁ doc₂) (h₂ : doc₂.Enqueued ops₂ doc₃) :
    doc₁.Enqueued (ops₁ ++ ops₂) doc₃ where
  deviceId := h₂.deviceId.trans h₁.deviceId
  authoritative := h₂.authoritative.trans h₁.authoritative
  serverSeq := h₂.serverSeq.trans h₁.serverSeq
  gcFloor := h₂.gcFloor.trans h₁.gcFloor
  generation := h₁.generation.trans h₂.generation
  minted batch h := h₂.minted batch (h₁.minted batch h)
  pending := by
    obtain ⟨fresh₁, hpending₁, hops₁, hfresh₁⟩ := h₁.pending
    obtain ⟨fresh₂, hpending₂, hops₂, hfresh₂⟩ := h₂.pending
    refine ⟨fresh₁ ++ fresh₂, ?_, ?_, ?_⟩
    · rw [hpending₂, hpending₁, List.append_assoc]
    · rw [List.flatMap_append, hops₁, hops₂]
    · intro b hb hminted
      obtain hb | hb := List.mem_append.mp hb
      · exact hfresh₁ b hb hminted
      · exact hfresh₂ b hb (h₁.minted _ hminted)
  sound h := h₂.sound (h₁.sound h)

theorem enqueued_nextHlc (doc : RegistryDoc) (nowMs : Int) :
    doc.Enqueued [] (doc.nextHlc nowMs).2 where
  deviceId := rfl
  authoritative := rfl
  serverSeq := rfl
  gcFloor := rfl
  generation := le_refl _
  minted _ h := h.nextHlc nowMs
  pending := ⟨[], by simp [nextHlc]⟩
  sound h :=
    { inRange := HlcClock.tick_inRange _ _
      minted := fun b hb => (h.minted b hb).nextHlc nowMs
      distinct := h.distinct
      keyed := h.keyed }

theorem enqueued_pushBatch (doc : RegistryDoc) (nowMs : Int) (ops : List RowOp) :
    doc.Enqueued ops (doc.pushBatch nowMs ops) where
  deviceId := rfl
  authoritative := rfl
  serverSeq := rfl
  gcFloor := rfl
  generation := le_refl _
  minted _ h := h.nextHlc nowMs
  pending := by
    refine ⟨[_], rfl, by simp, fun b hb => ?_⟩
    rw [List.mem_singleton.mp hb]
    exact not_minted_next nowMs
  sound h :=
    { inRange := HlcClock.tick_inRange _ _
      minted := by
        intro b hb
        obtain hb | hb := List.mem_append.mp hb
        · exact (h.minted b hb).nextHlc nowMs
        · rw [List.mem_singleton.mp hb]
          exact minted_next doc nowMs
      distinct := by
        have hfresh : "b-" ++ (doc.nextHlc nowMs).1 ∉ doc.pending.map (·.batch) := by
          intro hmem
          obtain ⟨b, hb, hbatch⟩ := List.mem_map.mp hmem
          exact not_minted_next nowMs (hbatch ▸ h.minted b hb)
        change ((doc.pending ++ [_]).map PendingBatch.batch).Nodup
        rw [List.map_append, List.map_singleton, List.nodup_append]
        refine ⟨h.distinct, by simp, ?_⟩
        intro batch hbatch other hother heq
        subst heq
        rw [List.mem_singleton.mp hother] at hbatch
        exact hfresh hbatch
      keyed := h.keyed }

theorem enqueued_pushBatches (doc : RegistryDoc) (wall : Nat → Int) (chunks : List (List RowOp)) :
    doc.Enqueued chunks.flatten (doc.pushBatches wall chunks) := by
  induction chunks generalizing doc wall with
  | nil => exact Enqueued.refl doc
  | cons ops chunks ih =>
      rw [List.flatten_cons]
      exact (enqueued_pushBatch doc (wall 0) ops).trans (ih _ _)

theorem chunkOps_flatten {turns : Nat} {ops : List RowOp} (h : ops.length ≤ turns) :
    (chunkOps turns ops).flatten = ops := by
  induction turns generalizing ops with
  | zero =>
      rw [List.length_eq_zero_iff.mp (Nat.le_zero.mp h)]
      rfl
  | succ turns ih =>
      cases ops with
      | nil => rfl
      | cons op ops =>
          rw [chunkOps, List.flatten_cons, ih, List.take_append_drop]
          simp only [List.length_drop, maxOpsPerBatch, List.length_cons] at h ⊢
          omega

theorem chunkOps_length {turns : Nat} {ops chunk : List RowOp} (h : chunk ∈ chunkOps turns ops) :
    0 < chunk.length ∧ chunk.length ≤ maxOpsPerBatch := by
  induction turns generalizing ops with
  | zero => simp [chunkOps] at h
  | succ turns ih =>
      cases ops with
      | nil => simp [chunkOps] at h
      | cons op ops =>
          rw [chunkOps, List.mem_cons] at h
          obtain rfl | h := h
          · simp only [List.length_take, List.length_cons, maxOpsPerBatch]
            omega
          · exact ih h

theorem enqueued_enqueueOps (doc : RegistryDoc) (wall : Nat → Int) (ops : List RowOp) :
    doc.Enqueued ops (doc.enqueueOps wall ops) := by
  unfold enqueueOps
  split
  · rename_i hempty
    rw [List.isEmpty_iff.mp hempty]
    exact Enqueued.refl doc
  · have hbump : doc.Enqueued [] { doc with generation := doc.generation + 1 } :=
      { Enqueued.refl doc with
        generation := Nat.le_succ _
        sound := fun h => { h with } }
    have hpush := hbump.trans (enqueued_pushBatches _ wall (chunkOps ops.length ops))
    rwa [chunkOps_flatten (le_refl _), List.nil_append] at hpush

theorem enqueued_commit (doc : RegistryDoc) (readings : List Int) (wall : Nat → Int)
    (ops : List RowOp) : doc.Enqueued ops (doc.commit readings wall ops) := by
  unfold commit
  induction readings generalizing doc with
  | nil => exact enqueued_enqueueOps doc wall ops
  | cons nowMs readings ih => exact (enqueued_nextHlc doc nowMs).trans (ih _)

end Ids

section FrameLemmas

variable (doc : RegistryDoc) (order : HashOrder) (wall : Nat → Int) {seq gcFloor : Nat}
  {rows : List RegistryRow}

theorem applyState_delta :
    (doc.applyState order wall seq false gcFloor rows).1 =
      { doc with
        generation := doc.generation + 1, authoritative := doc.authoritative.putRows rows
        serverSeq := seq, gcFloor } := rfl

variable (gcFloor rows) in
theorem applyState_behind (h : seq < doc.serverSeq) :
    RegistryDoc.Enqueued
      { doc with
        generation := doc.generation + 1, authoritative := doc.authoritative.putRows rows
        serverSeq := seq, gcFloor }
      ((order.arrange doc.authoritative.rows).map rowToSeedOp)
      (doc.applyState order wall seq true gcFloor rows).1 := by
  unfold applyState
  simp only [not_true_eq_false, if_false, if_pos h]
  split
  · rename_i hempty
    rw [List.isEmpty_iff.mp hempty]
    exact Enqueued.refl _
  · exact enqueued_enqueueOps _ wall _

variable (gcFloor rows) in
theorem applyState_replace (h : ¬ seq < doc.serverSeq) :
    RegistryDoc.Enqueued
      { doc with
        generation := doc.generation + 1, authoritative := RowTable.putRows ∅ rows
        serverSeq := seq, gcFloor }
      ((order.arrange (doc.authoritative.rows.filter fun row =>
        (RowTable.putRows ∅ rows)[row.key]?.isNone)).map rowToSeedOp)
      (doc.applyState order wall seq true gcFloor rows).1 := by
  unfold applyState
  simp only [not_true_eq_false, if_false, if_neg h]
  split
  · rename_i hempty
    rw [List.isEmpty_iff.mp hempty]
    exact Enqueued.refl _
  · exact enqueued_enqueueOps _ wall _

variable {doc}

variable (seq gcFloor rows) in
theorem Sound.applyState (h : doc.Sound) (full : Bool) :
    (doc.applyState order wall seq full gcFloor rows).1.Sound := by
  cases full with
  | false => exact { h with keyed := h.keyed.putRows rows }
  | true =>
      by_cases hseq : seq < doc.serverSeq
      · exact (doc.applyState_behind order wall _ _ hseq).sound
          { h with keyed := h.keyed.putRows rows }
      · exact (doc.applyState_replace order wall _ _ hseq).sound
          { h with keyed := RowTable.keyed_empty.putRows rows }

theorem Sound.applyRows (h : doc.Sound) : (doc.applyRows seq rows).Sound :=
  { h with keyed := h.keyed.putRows rows }

variable (doc)

theorem ackBatch_fst (batch : String) (seq : Nat) :
    ∃ generation, doc.generation ≤ generation ∧ (doc.ackBatch batch seq).1 =
      { doc with
        pending := doc.pending.filter fun b => b.batch ≠ batch
        serverSeq := if doc.serverSeq < seq then seq else doc.serverSeq
        generation } := by
  by_cases hlength : (doc.pending.filter fun b => b.batch ≠ batch).length ≠ doc.pending.length
  · refine ⟨doc.generation + 1, Nat.le_succ _, ?_⟩
    simp only [ackBatch, if_pos hlength]
  · refine ⟨doc.generation, le_refl _, ?_⟩
    simp only [ackBatch, if_neg hlength]

variable {doc}

theorem Sound.ackBatch (h : doc.Sound) (batch : String) (seq : Nat) :
    (doc.ackBatch batch seq).1.Sound := by
  obtain ⟨generation, -, heq⟩ := doc.ackBatch_fst batch seq
  rw [heq]
  exact { h with
    minted := fun b hb => h.minted b (List.mem_of_mem_filter hb)
    distinct := h.distinct.sublist (List.filter_sublist.map _) }

theorem Sound.mark (h : doc.Sound) (mark : PendingBatch → Bool) :
    RegistryDoc.Sound
      { doc with pending := doc.pending.map fun b => { b with inFlight := mark b } } where
  inRange := h.inRange
  minted := by
    intro b hb
    obtain ⟨b', hb', rfl⟩ := List.mem_map.mp hb
    exact h.minted b' hb'
  distinct := by
    have hids : (doc.pending.map fun b => { b with inFlight := mark b }).map (·.batch) =
        doc.pending.map (·.batch) := by
      rw [List.map_map]
      rfl
    rw [hids]
    exact h.distinct
  keyed := h.keyed

theorem overlayRow_of_pending_nil (h : doc.pending = []) (key : RowKey) :
    doc.overlayRow key = doc.authoritative[key]?.filter (! ·.deleted) := by
  unfold overlayRow pendingOps
  rw [h]
  rfl

end FrameLemmas

end RegistryDoc

end Zeron.Registry
