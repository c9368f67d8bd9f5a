import Mathlib.Data.List.Sort
import Zeron.Registry.Doc

/-!
# The room

The authority of `edge/src/registry-room.ts`: current rows, one `seq` for each accepted batch that
changed something, and the horizon below which tombstones were collected.
-/

namespace Zeron.Registry

open Zeron.Lib (Versions)

inductive ClientFrame where
  | hello (cursor : Option Nat) (device : String)
  | push (batch : String) (ops : List RowOp)
  deriving DecidableEq

inductive ServerFrame where
  | state (seq : Nat) (full : Bool) (gcFloor : Nat) (rows : List RegistryRow)
  | rows (seq : Nat) (rows : List RegistryRow)
  | ack (batch : String) (seq applied : Nat)
  | error (code message : String)
  deriving DecidableEq

structure Room where
  rows : RowTable
  seq : Nat
  gcFloor : Nat

namespace Room

/-- Fresh storage, and storage after an operator wipe. -/
def empty : Room := { rows := ∅, seq := 0, gcFloor := 0 }

def rowsSince (room : Room) (cursor : Nat) : List RegistryRow :=
  (room.rows.rows.filter fun row => cursor < row.seq).insertionSort fun a b => a.seq ≤ b.seq

def helloIsFull (room : Room) : Option Nat → Bool
  | none => true
  | some cursor => cursor < room.gcFloor ∨ room.seq < cursor

def handleHello (room : Room) (cursor : Option Nat) : ServerFrame :=
  let full := room.helloIsFull cursor
  .state room.seq full room.gcFloor (room.rowsSince (if full then 0 else cursor.getD 0))

/-- One op of a batch, over the rows the batch has touched so far. -/
def touch (room : Room) (acc : RowTable × Nat) (op : RowOp) : RowTable × Nat :=
  match applyOp (acc.1[op.key]?.or room.rows[op.key]?) op with
  | (some row, true) => (acc.1.insert op.key { row with seq := room.seq + 1 }, acc.2 + 1)
  | _ => acc

def touched (room : Room) (ops : List RowOp) : RowTable × Nat :=
  ops.foldl room.touch (∅, 0)

def applyBatch (room : Room) (ops : List RowOp) : Room :=
  if 0 < (room.touched ops).2 then
    { room with rows := room.rows.putRows (room.touched ops).1.rows, seq := room.seq + 1 }
  else
    room

def collect (room : Room) (horizonMs : Nat) : Room :=
  let horizonHlc := String.ofList (zeroPad 13 horizonMs ++ ['-'])
  let purged := room.rows.rows.filter fun row => row.deleted ∧ row.delHlc.any (· < horizonHlc)
  let purgedMaxSeq := (purged.map (·.seq)).foldl max 0
  if 0 < purgedMaxSeq then
    { room with
      rows := purged.foldl (fun rows row => rows.erase row.key) room.rows
      gcFloor := max room.gcFloor purgedMaxSeq }
  else
    room

section Batch

/-- What holds of the rows touched so far, after the ops `done`. -/
structure Touches (room : Room) (done : List RowOp) (acc : RowTable × Nat) : Prop where
  stamped : ∀ (k : RowKey) (r : RegistryRow), acc.1[k]? = some r →
    r.key = k ∧ r.seq = room.seq + 1
  rewritten : ∀ (k : RowKey) (x r : RegistryRow), room.rows[k]? = some x → acc.1[k]? = some r →
    Relation.ReflTransGen Rewritten x r
  counted : acc.2 = 0 → acc.1 = ∅
  lands : ∀ op ∈ done, Lands op (acc.1[op.key]?.or room.rows[op.key]?)

variable {room : Room} {done : List RowOp} {acc : RowTable × Nat}

theorem touches_nil (room : Room) : room.Touches [] (∅, 0) where
  stamped k r h := by simp at h
  rewritten k x r _ h := by simp at h
  counted _ := rfl
  lands op h := by simp at h

theorem touch_outcome (room : Room) (acc : RowTable × Nat) (op : RowOp) :
    (∃ r, (applyOp (acc.1[op.key]?.or room.rows[op.key]?) op).1 = some r ∧ room.touch acc op =
        (acc.1.insert op.key { r with seq := room.seq + 1 }, acc.2 + 1)) ∨
      room.touch acc op = acc ∧ (applyOp (acc.1[op.key]?.or room.rows[op.key]?) op).1 =
        acc.1[op.key]?.or room.rows[op.key]? := by
  unfold touch
  obtain ⟨r, hr⟩ | hsame := applyOp_outcome (acc.1[op.key]?.or room.rows[op.key]?) op
  · rw [hr]
    exact Or.inl ⟨r, rfl, rfl⟩
  · rw [hsame]
    refine Or.inr ⟨?_, rfl⟩
    split
    · rename_i heq
      simp at heq
    · rfl

theorem Touches.touch (hkeyed : room.rows.Keyed) (h : room.Touches done acc) (op : RowOp) :
    room.Touches (done ++ [op]) (room.touch acc op) := by
  have hlanded := lands_applyOp (acc.1[op.key]?.or room.rows[op.key]?) op
  obtain ⟨r, hr, htouch⟩ | ⟨htouch, hsame⟩ := touch_outcome room acc op
  · have hkey : r.key = op.key := by
      refine applyOp_key (fun x hx => ?_) hr
      obtain hx | ⟨-, hx⟩ := Option.or_eq_some_iff.mp hx
      · exact (h.stamped _ _ hx).1
      · exact hkeyed _ _ hx
    have hget : ∀ k : RowKey, (room.touch acc op).1[k]? =
        if op.key = k then some { r with seq := room.seq + 1 } else acc.1[k]? := by
      intro k
      rw [htouch]
      simp [Std.ExtTreeMap.getElem?_insert]
    rw [hr] at hlanded
    refine ⟨?_, ?_, ?_, ?_⟩
    · intro k r' hr'
      rw [hget] at hr'
      split at hr'
      · rename_i hk
        cases hr'
        exact ⟨hkey.trans hk, rfl⟩
      · exact h.stamped k r' hr'
    · intro k x r' hx hr'
      rw [hget] at hr'
      split at hr'
      · rename_i hk
        subst hk
        cases hr'
        cases hacc : acc.1[op.key]? with
        | some before =>
            rw [hacc, Option.some_or] at hr
            exact (h.rewritten _ x before hx hacc).tail ⟨op, r, _, hr, rfl⟩
        | none =>
            rw [hacc, Option.none_or, hx] at hr
            exact .single ⟨op, r, _, hr, rfl⟩
      · exact h.rewritten k x r' hx hr'
    · rw [htouch]
      exact fun hzero => absurd hzero (Nat.succ_ne_zero _)
    · intro op' hop'
      rw [hget]
      split
      · rename_i hk
        rw [Option.some_or]
        obtain hop' | hop' := List.mem_append.mp hop'
        · -- An op before this one: the row it left was rewritten once more.
          have hbefore := h.lands op' hop'
          rw [← hk] at hbefore
          cases hrow : acc.1[op.key]?.or room.rows[op.key]? with
          | none =>
              rw [hrow] at hbefore
              refine ⟨fun _ => rfl, fun clock hclock => ?_⟩
              obtain ⟨x, hx, -⟩ := hbefore.2 clock hclock
              cases hx
          | some before =>
              rw [hrow] at hbefore hr
              exact hbefore.rewritten ⟨op, r, _, hr, rfl⟩
        · rw [List.mem_singleton.mp hop']
          exact hlanded.stamp _
      · rename_i hk
        obtain hop' | hop' := List.mem_append.mp hop'
        · exact h.lands op' hop'
        · rw [List.mem_singleton.mp hop'] at hk
          exact absurd rfl hk
  · rw [htouch]
    refine { h with lands := fun op' hop' => ?_ }
    obtain hop' | hop' := List.mem_append.mp hop'
    · exact h.lands op' hop'
    · rw [List.mem_singleton.mp hop', ← hsame]
      exact hlanded

theorem touches_touched (hkeyed : room.rows.Keyed) (ops : List RowOp) :
    room.Touches ops (room.touched ops) := by
  have hfold : ∀ (ops done : List RowOp) (acc : RowTable × Nat), room.Touches done acc →
      room.Touches (done ++ ops) (ops.foldl room.touch acc) := by
    intro ops
    induction ops with
    | nil =>
        intro done acc h
        rwa [List.append_nil]
    | cons op ops ih =>
        intro done acc h
        have hstep := ih _ _ (h.touch hkeyed op)
        rwa [List.append_assoc] at hstep
  exact hfold ops [] (∅, 0) (touches_nil room)

end Batch

end Room

/-- The history of a room's rows since its storage was empty. -/
abbrev History := Versions RegistryRow.key RegistryRow.seq Rewritten

namespace Room

/-- The rows of the room are the latest version of the history. -/
def Tracks (room : Room) (history : History) : Prop :=
  history.table room.seq = fun k => room.rows[k]?

variable {room : Room} {history : History}

theorem tracks_empty : empty.Tracks Versions.empty := by
  funext k
  simp [Versions.empty, empty]

theorem Tracks.keyed (h : room.Tracks history) : room.rows.Keyed := by
  intro k r hr
  refine history.keyed room.seq k r ?_
  rw [h]
  exact hr

theorem mem_rowsSince (hkeyed : room.rows.Keyed) {cursor : Nat} {row : RegistryRow} :
    row ∈ room.rowsSince cursor ↔ room.rows[row.key]? = some row ∧ cursor < row.seq := by
  unfold rowsSince
  rw [List.mem_insertionSort, List.mem_filter, hkeyed.mem_rows, decide_eq_true_iff]

/-- **Hello.** The rows since a cursor are the delta from that version. -/
theorem Tracks.isDelta_rowsSince (h : room.Tracks history) {cursor : Nat} (hle : cursor ≤ room.seq) :
    history.IsDelta cursor room.seq (room.rowsSince cursor) := by
  refine ⟨hle, fun row => ?_⟩
  rw [mem_rowsSince h.keyed, h]

/-- **Push.** An accepted batch takes the history at most one version on, by the rows it
broadcasts, and all its ops have landed in the table then. -/
theorem Tracks.applyBatch (h : room.Tracks history) (ops : List RowOp) :
    ∃ history' : History, (room.applyBatch ops).Tracks history' ∧
      (∀ n ≤ room.seq, history'.table n = history.table n) ∧
      (∀ op ∈ ops, Lands op (room.applyBatch ops).rows[op.key]?) ∧
      ((room.touched ops).2 = 0 ∧ room.applyBatch ops = room ∨
        0 < (room.touched ops).2 ∧ (room.applyBatch ops).seq = room.seq + 1 ∧
          (room.applyBatch ops).gcFloor = room.gcFloor ∧
          history'.IsDelta room.seq (room.seq + 1) (room.touched ops).1.rows) := by
  have htouches := touches_touched h.keyed ops
  obtain hzero | hpos := Nat.eq_zero_or_pos (room.touched ops).2
  · have hsame : room.applyBatch ops = room := by simp [Room.applyBatch, hzero]
    refine ⟨history, by rwa [hsame], fun _ _ => rfl, fun op hop => ?_, Or.inl ⟨hzero, hsame⟩⟩
    have hlands := htouches.lands op hop
    rw [htouches.counted hzero] at hlands
    rw [hsame]
    simpa using hlands
  · have htop : (room.touched ops).1.Keyed := fun k r hr => (htouches.stamped k r hr).1
    have happly : room.applyBatch ops =
        { room with
          rows := room.rows.putRows (room.touched ops).1.rows, seq := room.seq + 1 } := by
      simp [Room.applyBatch, hpos]
    have hget : ∀ k : RowKey, (room.applyBatch ops).rows[k]? =
        (room.touched ops).1[k]?.or room.rows[k]? := by
      intro k
      rw [happly]
      exact RowTable.getElem?_putRows_rows room.rows htop k
    have htable : ∀ k : RowKey, history.table room.seq k = room.rows[k]? := fun k => congrFun h k
    let history' : History := history.extend room.seq (fun k : RowKey => (room.applyBatch ops).rows[k]?)
      (by
        intro k r hr
        rw [hget] at hr
        obtain hr | ⟨-, hr⟩ := Option.or_eq_some_iff.mp hr
        · exact htop k r hr
        · exact h.keyed k r hr)
      (by
        intro k
        rw [hget, htable]
        cases hrow : (room.touched ops).1[k]? with
        | some r => exact Or.inr ⟨r, rfl, (htouches.stamped k r hrow).2⟩
        | none => exact Or.inl rfl)
      (by
        intro k x hx
        rw [htable] at hx
        rw [hget]
        cases hrow : (room.touched ops).1[k]? with
        | some r => exact ⟨r, rfl, htouches.rewritten k x r hx hrow⟩
        | none => exact ⟨x, hx, Relation.ReflTransGen.refl⟩)
    have hnext : ∀ k : RowKey, history'.table (room.seq + 1) k = (room.applyBatch ops).rows[k]? :=
      fun k => congrFun (history.extend_table_succ room.seq _ _ _ _) k
    refine ⟨history', ?_, ?_, ?_, Or.inr ⟨hpos, by rw [happly], by rw [happly], Nat.le_succ _, ?_⟩⟩
    · have hseq : (room.applyBatch ops).seq = room.seq + 1 := by rw [happly]
      unfold Tracks
      rw [hseq]
      exact funext hnext
    · exact fun n hn => history.extend_table_of_le room.seq _ _ _ _ hn
    · intro op hop
      rw [hget]
      exact htouches.lands op hop
    · intro row
      rw [htop.mem_rows, hnext, hget]
      constructor
      · intro hrow
        obtain ⟨-, hseq⟩ := htouches.stamped _ _ hrow
        rw [hrow, hseq]
        exact ⟨rfl, Nat.lt_succ_self _⟩
      · rintro ⟨hrow, hseq⟩
        obtain hrow | ⟨-, hrow⟩ := Option.or_eq_some_iff.mp hrow
        · exact hrow
        · -- A row the batch did not touch is stamped by an earlier one.
          rw [← htable] at hrow
          exact absurd (history.stamp_le hrow) (by omega)

end Room

end Zeron.Registry
