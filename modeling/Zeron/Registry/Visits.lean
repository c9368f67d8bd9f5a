import Zeron.Lib.Machine
import Zeron.Registry.Collect

/-!
# Answers across collections

A client that comes back from time to time, to a room that takes batches and collects tombstones
meanwhile. The answer to its hello is a delta unless its cursor is below the horizon of the last
collection; a delta says nothing of the rows that were collected.
-/

namespace Zeron.Registry

open Zeron.Lib (Machine overwrite overwrite_of_mem overwrite_of_not_mem)

namespace Room

variable {room : Room}

theorem applyBatch_row (hkeyed : room.rows.Keyed) (ops : List RowOp) (k : RowKey) :
    (room.applyBatch ops).rows[k]? = room.rows[k]? ∨
      ∃ row, (room.applyBatch ops).rows[k]? = some row ∧ room.seq < row.seq ∧
        row.seq ≤ (room.applyBatch ops).seq := by
  have htouches := touches_touched hkeyed ops
  unfold applyBatch
  split
  · dsimp only
    rw [RowTable.getElem?_putRows_rows room.rows fun k r hr => (htouches.stamped k r hr).1]
    cases hrow : (room.touched ops).1[k]? with
    | none => exact .inl rfl
    | some row =>
        have hseq := (htouches.stamped k row hrow).2
        exact .inr ⟨row, rfl, by omega, by omega⟩
  · exact .inl rfl

theorem applyBatch_seq (room : Room) (ops : List RowOp) :
    room.seq ≤ (room.applyBatch ops).seq ∧ (room.applyBatch ops).gcFloor = room.gcFloor := by
  unfold applyBatch
  split
  · exact ⟨Nat.le_succ _, rfl⟩
  · exact ⟨Nat.le_refl _, rfl⟩

theorem getElem?_eraseRows (purged : List RegistryRow) (rows : RowTable) (k : RowKey) :
    (purged.foldl (fun rows row => rows.erase row.key) rows)[k]? =
      if k ∈ purged.map RegistryRow.key then none else rows[k]? := by
  induction purged generalizing rows with
  | nil => rfl
  | cons row purged ih =>
      rw [List.foldl_cons, ih, Std.ExtTreeMap.getElem?_erase, List.map_cons]
      by_cases hkey : row.key = k
      · simp [hkey]
      · simp [hkey, Ne.symm hkey]

theorem le_foldl_max {seqs : List Nat} {n : Nat} (h : n ∈ seqs) (start : Nat) :
    n ≤ seqs.foldl max start := by
  induction seqs generalizing start with
  | nil => cases h
  | cons first rest ih =>
      obtain rfl | hrest := List.mem_cons.mp h
      · have hmono : ∀ (rest : List Nat) (start : Nat), start ≤ rest.foldl max start := by
          intro rest
          induction rest with
          | nil => exact Nat.le_refl
          | cons other rest ih => exact fun start => (Nat.le_max_left _ _).trans (ih _)
        exact (Nat.le_max_right _ _).trans (hmono rest _)
      · exact ih hrest _

/-- A collected row is a tombstone, and the horizon is above it. -/
theorem collect_row (hkeyed : room.rows.Keyed) (horizonMs : Nat) (k : RowKey) :
    (room.collect horizonMs).rows[k]? = room.rows[k]? ∨
      (room.collect horizonMs).rows[k]? = none ∧ ∃ row, room.rows[k]? = some row ∧
        row.deleted = true ∧ row.seq ≤ (room.collect horizonMs).gcFloor := by
  unfold collect
  dsimp only
  split
  · dsimp only
    rw [getElem?_eraseRows]
    split
    · rename_i hmem
      obtain ⟨row, hrow, rfl⟩ := List.mem_map.mp hmem
      obtain ⟨hrows, hpurged⟩ := List.mem_filter.mp hrow
      refine .inr ⟨rfl, row, hkeyed.mem_rows.mp hrows, (of_decide_eq_true hpurged).1, ?_⟩
      exact (le_foldl_max (List.mem_map_of_mem hrow) 0).trans (Nat.le_max_right _ _)
    · exact .inl rfl
  · exact .inl rfl

theorem collect_seq (room : Room) (horizonMs : Nat) :
    (room.collect horizonMs).seq = room.seq ∧ room.gcFloor ≤ (room.collect horizonMs).gcFloor := by
  unfold collect
  dsimp only
  split
  · exact ⟨rfl, Nat.le_max_left _ _⟩
  · exact ⟨rfl, Nat.le_refl _⟩

end Room

/-- A client and the room, with whatever batches reach it. -/
structure Visits where
  room : Room
  doc : RegistryDoc

namespace Visits

inductive Action where
  | batch (ops : List RowOp)
  | collect (horizonMs : Nat)
  /-- The client says hello and takes the answer. -/
  | hear (order : HashOrder) (wall : Nat → Int)
  | write (readings : List Int) (wall : Nat → Int) (ops : List RowOp)

def step (s : Visits) : Action → Visits
  | .batch ops => { s with room := s.room.applyBatch ops }
  | .collect horizonMs => { s with room := s.room.collect horizonMs }
  | .hear order wall =>
      { s with doc := s.doc.handleFrame order wall (s.room.handleHello s.doc.helloCursor) }
  | .write readings wall ops => { s with doc := s.doc.commit readings wall ops }

def machine (deviceId : String) : Machine Visits Action where
  init s := s = ⟨.empty, .new deviceId⟩
  step s a := some (s.step a)

/-- The client holds every row of the room, and besides them tombstones at most. -/
def Complete (s : Visits) : Prop :=
  (∀ (k : RowKey) (row : RegistryRow), s.room.rows[k]? = some row →
    s.doc.authoritative[k]? = some row) ∧
  ∀ (k : RowKey) (row : RegistryRow), s.doc.authoritative[k]? = some row →
    s.room.rows[k]? = none → row.deleted = true

structure Inv (s : Visits) : Prop where
  sound : s.doc.Sound
  keyed : s.room.rows.Keyed
  stamped : ∀ (k : RowKey) (row : RegistryRow), s.room.rows[k]? = some row →
    0 < row.seq ∧ row.seq ≤ s.room.seq
  cursor : s.doc.serverSeq ≤ s.room.seq
  held : ∀ (k : RowKey) (row : RegistryRow), s.room.rows[k]? = some row →
    row.seq ≤ s.doc.serverSeq → s.doc.authoritative[k]? = some row
  collected : s.room.gcFloor ≤ s.doc.serverSeq → ∀ (k : RowKey) (row : RegistryRow),
    s.doc.authoritative[k]? = some row → s.room.rows[k]? = none → row.deleted = true

variable {s : Visits}

theorem Inv.batch (h : s.Inv) (ops : List RowOp) : (s.step (.batch ops)).Inv := by
  obtain ⟨hseq, hfloor⟩ := s.room.applyBatch_seq ops
  have hcursor := h.cursor
  refine ⟨h.sound, applyBatch_keyed h.keyed ops, fun k row hrow => ?_, Nat.le_trans hcursor hseq,
    fun k row hrow hle => ?_, fun hbelow k row hrow hnone => ?_⟩
  · obtain hsame | ⟨other, hother, hlt, hle⟩ := Room.applyBatch_row h.keyed ops k
    · obtain ⟨hpos, hle⟩ := h.stamped k row (hsame.symm.trans hrow)
      exact ⟨hpos, Nat.le_trans hle hseq⟩
    · cases hother.symm.trans hrow
      exact ⟨Nat.zero_lt_of_lt hlt, hle⟩
  · obtain hsame | ⟨other, hother, hlt, -⟩ := Room.applyBatch_row h.keyed ops k
    · exact h.held k row (hsame.symm.trans hrow) hle
    · cases hother.symm.trans hrow
      change row.seq ≤ s.doc.serverSeq at hle
      omega
  · obtain hsame | ⟨other, hother, -⟩ := Room.applyBatch_row h.keyed ops k
    · exact h.collected (hfloor ▸ hbelow) k row hrow (hsame.symm.trans hnone)
    · cases hother.symm.trans hnone

theorem Inv.collect (h : s.Inv) (horizonMs : Nat) : (s.step (.collect horizonMs)).Inv := by
  obtain ⟨hseq, hfloor⟩ := s.room.collect_seq horizonMs
  have hkept : ∀ (k : RowKey) (row : RegistryRow), (s.room.collect horizonMs).rows[k]? = some row →
      s.room.rows[k]? = some row := by
    intro k row hrow
    obtain hsame | ⟨hnone, -⟩ := Room.collect_row h.keyed horizonMs k
    · exact hsame.symm.trans hrow
    · cases hnone.symm.trans hrow
  refine ⟨h.sound, fun k row hrow => h.keyed k row (hkept k row hrow), fun k row hrow => ?_, ?_,
    fun k row hrow => h.held k row (hkept k row hrow), fun hbelow k row hrow hnone => ?_⟩
  · rw [step, hseq]
    exact h.stamped k row (hkept k row hrow)
  · rw [step, hseq]
    exact h.cursor
  · change (s.room.collect horizonMs).gcFloor ≤ s.doc.serverSeq at hbelow
    obtain hsame | ⟨-, old, hold, hdeleted, hle⟩ := Room.collect_row h.keyed horizonMs k
    · exact h.collected (Nat.le_trans hfloor hbelow) k row hrow (hsame.symm.trans hnone)
    · have hheld := h.held k old hold (Nat.le_trans hle hbelow)
      cases hheld.symm.trans hrow
      exact hdeleted

/-- What the client holds once it has the rows above a number below which it held them. -/
theorem answered (h : s.Inv) {cursor : Nat} {table : RowTable}
    (hheld : ∀ (k : RowKey) (row : RegistryRow), s.room.rows[k]? = some row → row.seq ≤ cursor →
      table[k]? = some row) (k : RowKey) :
    (∀ row, s.room.rows[k]? = some row →
      (table.putRows (s.room.rowsSince cursor))[k]? = some row) ∧
    (s.room.rows[k]? = none → (table.putRows (s.room.rowsSince cursor))[k]? = table[k]?) := by
  have htable : ∀ row ∈ s.room.rowsSince cursor, s.room.rows[row.key]? = some row :=
    fun row hrow => ((Room.mem_rowsSince h.keyed).mp hrow).1
  rw [RowTable.getElem?_putRows]
  refine ⟨fun row hrow => ?_, fun hnone => ?_⟩
  · obtain rfl := h.keyed k row hrow
    by_cases hlt : cursor < row.seq
    · exact overwrite_of_mem (fun k => s.room.rows[k]?) htable
        ((Room.mem_rowsSince h.keyed).mpr ⟨hrow, hlt⟩)
    · rw [overwrite_of_not_mem]
      · exact hheld _ row hrow (Nat.le_of_not_lt hlt)
      · intro other hother hkey
        obtain ⟨hin, hlt'⟩ := (Room.mem_rowsSince h.keyed).mp hother
        rw [hkey, hrow] at hin
        cases hin
        exact hlt hlt'
  · apply overwrite_of_not_mem
    intro other hother hkey
    have hin := htable other hother
    rw [hkey, hnone] at hin
    cases hin

theorem Inv.hear (h : s.Inv) (order : HashOrder) (wall : Nat → Int) :
    (s.step (.hear order wall)).Complete ∧
      (s.step (.hear order wall)).doc.serverSeq = s.room.seq := by
  have hcursor := h.cursor
  cases hfull : s.room.helloIsFull s.doc.helloCursor with
  | true =>
      have hhear : (s.step (.hear order wall)).doc = (s.doc.applyState order wall s.room.seq true
          s.room.gcFloor (s.room.rowsSince 0)).1 := by
        simp only [step, Room.handleHello, hfull, if_true]
        rfl
      have henqueued := s.doc.applyState_replace order wall s.room.gcFloor (s.room.rowsSince 0)
        (Nat.not_lt_of_le hcursor)
      have hanswered := @answered s h 0 ∅ fun k row hrow hle =>
        absurd (h.stamped k row hrow).1 (Nat.not_lt_of_le hle)
      rw [Complete, hhear, henqueued.authoritative, henqueued.serverSeq]
      refine ⟨⟨fun k row hrow => (hanswered k).1 row hrow, fun k row hrow hnone => ?_⟩, rfl⟩
      rw [(hanswered k).2 hnone] at hrow
      simp at hrow
  | false =>
      have hhello : s.doc.helloCursor = some s.doc.serverSeq := by
        unfold RegistryDoc.helloCursor at hfull ⊢
        split at hfull
        · cases hfull
        · rename_i hheld
          exact if_neg hheld
      rw [hhello] at hfull
      have hfloor : s.room.gcFloor ≤ s.doc.serverSeq := by
        by_contra hbelow
        simp [Room.helloIsFull, Nat.lt_of_not_le hbelow] at hfull
      have hhear : (s.step (.hear order wall)).doc = (s.doc.applyState order wall s.room.seq false
          s.room.gcFloor (s.room.rowsSince s.doc.serverSeq)).1 := by
        simp only [step, hhello, Room.handleHello, hfull]
        rfl
      have hanswered := answered h h.held
      rw [Complete, hhear, RegistryDoc.applyState_delta]
      refine ⟨⟨fun k row hrow => (hanswered k).1 row hrow, fun k row hrow hnone => ?_⟩, rfl⟩
      rw [(hanswered k).2 hnone] at hrow
      exact h.collected hfloor k row hrow hnone

theorem Inv.step (h : s.Inv) (a : Action) : (s.step a).Inv := by
  cases a with
  | batch ops => exact h.batch ops
  | collect horizonMs => exact h.collect horizonMs
  | hear order wall =>
      obtain ⟨⟨hrows, htombs⟩, hseq⟩ := h.hear order wall
      exact ⟨h.sound.applyState order wall _ _ _ _, h.keyed, h.stamped, Nat.le_of_eq hseq,
        fun k row hrow _ => hrows k row hrow, fun _ => htombs⟩
  | write readings wall ops =>
      have henqueued := RegistryDoc.enqueued_commit s.doc readings wall ops
      refine ⟨henqueued.sound h.sound, h.keyed, h.stamped, ?_, ?_, ?_⟩
      · exact henqueued.serverSeq ▸ h.cursor
      · dsimp only [Visits.step]
        rw [henqueued.serverSeq, henqueued.authoritative]
        exact h.held
      · dsimp only [Visits.step]
        rw [henqueued.serverSeq, henqueued.authoritative]
        exact h.collected

/-- **Deltas across collections.** Whatever the room took and collected since the client was there
last, after the answer the client holds every row of the room, and besides them tombstones at most. -/
theorem answers_complete (deviceId : String) {s : Visits} (h : (machine deviceId).Reachable s)
    (order : HashOrder) (wall : Nat → Int) : (s.step (.hear order wall)).Complete := by
  have hinv : s.Inv := by
    apply h.invariant
    · rintro s rfl
      refine ⟨RegistryDoc.sound_new deviceId, RowTable.keyed_empty, ?_, Nat.le_refl _, ?_, ?_⟩
      · simp [Room.empty]
      · simp [Room.empty]
      · simp [RegistryDoc.new]
    · rintro s a s' hinv - hstep
      cases hstep
      exact hinv.step a
  exact (hinv.hear order wall).1

/-- The phone hears of a deletion before its tombstone is collected, and of a new chat after it. -/
def collectedBetween : List Action :=
  [.batch [createsChat true "c1" 5],
    .batch [{ createsChat true "c1" 8 with op := .delete, set := none }],
    .hear .byKey fun _ => 9, .collect 9, .batch [createsChat true "c2" 10]]

theorem answers_complete_collected : ∃ s : Visits,
    s.room.helloIsFull s.doc.helloCursor = false ∧
    s.room.rows[({ kind := "chats", id := "c1" } : RowKey)]? = none ∧
    (s.doc.authoritative[({ kind := "chats", id := "c1" } : RowKey)]?).isSome = true ∧
      (s.step (.hear .byKey fun _ => 11)).Complete := by
  obtain ⟨s, hsteps, hs⟩ := Machine.exists_steps_of_runWhen (machine "phone") Machine.anyStep
    (s := ⟨.empty, .new "phone"⟩) collectedBetween
    (p := fun s => s.room.helloIsFull s.doc.helloCursor = false ∧
      s.room.rows[({ kind := "chats", id := "c1" } : RowKey)]? = none ∧
      (s.doc.authoritative[({ kind := "chats", id := "c1" } : RowKey)]?).isSome = true) (by decide)
  obtain ⟨hdelta, hgone, hheld⟩ := of_decide_eq_true hs
  exact ⟨s, hdelta, hgone, hheld,
    answers_complete "phone" ⟨_, rfl, hsteps⟩ .byKey fun _ => 11⟩

end Visits

end Zeron.Registry
