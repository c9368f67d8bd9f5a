import Mathlib.Algebra.Order.Ring.Nat
import Mathlib.Data.List.Forall2
import Zeron.Edge.Blobs

/-!
# The chunked update log

`edge/src/update-log.ts`: a long update is stored as several rows, all but the first with `cont` set.
A reader has at hand the parts since the last row without it. Rows that hold one update are read as
this update from any place where none is open, so the argument goes update by update.
-/

namespace Zeron.Edge.UpdateLog

/-- A table with an autoincrement key: the rows by key, and the largest key ever given out. -/
structure Table (Row : Type) where
  rows : List (Nat × Row)
  lastSeq : Nat
  ascending : rows.Pairwise fun a b => a.1 < b.1
  issued : ∀ row ∈ rows, row.1 ≤ lastSeq

namespace Table

variable {Row Row' : Type} (table : Table Row)

def empty : Table Row := { rows := [], lastSeq := 0, ascending := .nil, issued := by simp }

def insert (row : Row) : Table Row where
  rows := table.rows ++ [(table.lastSeq + 1, row)]
  lastSeq := table.lastSeq + 1
  ascending := by
    rw [List.pairwise_append]
    refine ⟨table.ascending, List.pairwise_singleton _ _, fun other hother new hnew => ?_⟩
    rw [List.mem_singleton.mp hnew]
    exact Nat.lt_succ_of_le (table.issued other hother)
  issued := by
    intro other hother
    obtain hold | hnew := List.mem_append.mp hother
    · exact Nat.le_succ_of_le (table.issued other hold)
    · exact Nat.le_of_eq (congrArg Prod.fst (List.mem_singleton.mp hnew))

/-- `ALTER TABLE .. ADD COLUMN`, with the value that all rows have in it. -/
def addColumn (f : Row → Row') : Table Row' where
  rows := table.rows.map fun row => (row.1, f row.2)
  lastSeq := table.lastSeq
  ascending := by
    rw [List.pairwise_map]
    exact table.ascending
  issued := by
    intro row hrow
    obtain ⟨other, hother, rfl⟩ := List.mem_map.mp hrow
    exact table.issued other hother

/-- `SELECT .. ORDER BY seq` -/
def orderBySeq : List Row :=
  (table.rows.mergeSort fun a b => decide (a.1 ≤ b.1)).map (·.2)

theorem orderBySeq_eq : table.orderBySeq = table.rows.map (·.2) := by
  unfold orderBySeq
  rw [List.mergeSort_of_pairwise]
  exact table.ascending.imp fun h => decide_eq_true (Nat.le_of_lt h)

@[simp]
theorem orderBySeq_insert (row : Row) :
    (table.insert row).orderBySeq = table.orderBySeq ++ [row] := by
  rw [orderBySeq_eq, orderBySeq_eq, insert, List.map_append, List.map_singleton]

@[simp]
theorem orderBySeq_addColumn (f : Row → Row') :
    (table.addColumn f).orderBySeq = table.orderBySeq.map f := by
  rw [orderBySeq_eq, orderBySeq_eq, addColumn, List.map_map, List.map_map]
  rfl

end Table

structure OldRow where
  bytes : Bytes
  receivedAt : Nat

structure UpdateRow where
  bytes : Bytes
  receivedAt : Nat
  cont : Nat
  deriving DecidableEq

inductive Schema where
  | missing
  | unchunked (table : Table OldRow)
  | chunked (table : Table UpdateRow)

def OldRow.migrate (row : OldRow) : UpdateRow :=
  { bytes := row.bytes, receivedAt := row.receivedAt, cont := 0 }

def ensureUpdateLog : Schema → Table UpdateRow
  | .missing => .empty
  | .unchunked table => table.addColumn OldRow.migrate
  | .chunked table => table

/-- A view of an array buffer. -/
structure Uint8Array where
  buffer : Bytes
  byteOffset : Nat
  byteLength : Nat
  fits : byteOffset + byteLength ≤ buffer.length

def Uint8Array.bytes (view : Uint8Array) : Bytes :=
  (view.buffer.drop view.byteOffset).take view.byteLength

/-- `ArrayBuffer.slice` -/
def slice (buffer : Bytes) (start stop : Nat) : Bytes := (buffer.drop start).take (stop - start)

theorem chunkBytes_pos : 0 < chunkBytes := by decide

theorem remaining_lt {off length : Nat} (h : off < length) :
    length - (off + chunkBytes) < length - off :=
  Nat.sub_lt_sub_left h (Nat.lt_add_of_pos_right chunkBytes_pos)

def chunkRow (update : Uint8Array) (receivedAt : Nat) (off : Nat) : UpdateRow :=
  let stop := min (off + chunkBytes) update.byteLength
  { bytes := slice update.buffer (update.byteOffset + off) (update.byteOffset + stop)
    receivedAt
    cont := if off = 0 then 0 else 1 }

def appendFrom (update : Uint8Array) (receivedAt : Nat) (off : Nat) (sql : Table UpdateRow) :
    Table UpdateRow :=
  if off < update.byteLength then
    appendFrom update receivedAt (off + chunkBytes) (sql.insert (chunkRow update receivedAt off))
  else sql
termination_by update.byteLength - off
decreasing_by exact remaining_lt ‹_›

def appendUpdateRow (sql : Table UpdateRow) (update : Uint8Array) (receivedAt : Nat) :
    Table UpdateRow :=
  appendFrom update receivedAt 0 sql

def join (group : List Bytes) : Bytes :=
  match group with
  | [part] => part
  | group => group.foldl (fun out part => out ++ part) []

def readFrom (parts : List Bytes) : List UpdateRow → List Bytes
  | [] => if parts.length > 0 then [join parts] else []
  | row :: rows =>
      if row.cont = 0 ∧ parts.length > 0 then join parts :: readFrom [row.bytes] rows
      else readFrom (parts ++ [row.bytes]) rows

def readUpdateRows (sql : Table UpdateRow) : List Bytes := readFrom [] sql.orderBySeq

section Reading

theorem join_eq (group : List Bytes) : join group = group.flatten := by
  unfold join
  split
  · simp
  · rw [List.foldl_append_eq_append]
    simp

/-- The rows of one update. -/
structure Holds (rows : List UpdateRow) (bytes : Bytes) : Prop where
  head : rows.head?.map (·.cont) = some 0
  tail : ∀ row ∈ rows.tail, row.cont ≠ 0
  flatten : (rows.map (·.bytes)).flatten = bytes

theorem readFrom_continued {rows : List UpdateRow} (h : ∀ row ∈ rows, row.cont ≠ 0)
    (parts : List Bytes) (rest : List UpdateRow) :
    readFrom parts (rows ++ rest) = readFrom (parts ++ rows.map (·.bytes)) rest := by
  induction rows generalizing parts with
  | nil => simp
  | cons row rows ih =>
      rw [List.forall_mem_cons] at h
      rw [List.cons_append, readFrom, if_neg (by simp [h.1]), ih h.2]
      simp

theorem readFrom_holds {parts : List Bytes} {rows : List UpdateRow} {bytes : Bytes}
    (h : Holds rows bytes) (rest : List UpdateRow) :
    ∃ more, more ≠ [] ∧ join more = bytes ∧ readFrom parts (rows ++ rest) =
      (if parts.length > 0 then [join parts] else []) ++ readFrom more rest := by
  cases rows with
  | nil => cases h.head
  | cons row rows =>
      have hcont : row.cont = 0 := by simpa using h.head
      have htail : ∀ row ∈ rows, row.cont ≠ 0 := h.tail
      refine ⟨row.bytes :: rows.map (·.bytes), by simp, ?_, ?_⟩
      · rw [join_eq]
        exact h.flatten
      · rw [List.cons_append, readFrom]
        by_cases hparts : parts.length > 0
        · rw [if_pos ⟨hcont, hparts⟩, if_pos hparts, readFrom_continued htail]
          rfl
        · obtain rfl : parts = [] := by simpa using hparts
          rw [if_neg (by simp), readFrom_continued htail]
          rfl

theorem readFrom_flatten {groups : List (List UpdateRow)} {updates : List Bytes}
    (h : List.Forall₂ Holds groups updates) (parts : List Bytes) :
    readFrom parts groups.flatten =
      (if parts.length > 0 then [join parts] else []) ++ updates := by
  induction h generalizing parts with
  | nil => simp [readFrom]
  | cons hgroup hgroups ih =>
      obtain ⟨more, hne, hjoin, hread⟩ := @readFrom_holds parts _ _ hgroup _
      rw [List.flatten_cons, hread, ih, if_pos (List.length_pos_of_ne_nil hne), hjoin]
      rfl

end Reading

section Writing

variable (update : Uint8Array) (receivedAt : Nat)

theorem length_bytes : update.bytes.length = update.byteLength := by
  have hfits := update.fits
  rw [Uint8Array.bytes, List.length_take, List.length_drop]
  omega

theorem slice_bytes {stop : Nat} (hstop : stop ≤ update.byteLength) (off : Nat) :
    slice update.buffer (update.byteOffset + off) (update.byteOffset + stop) =
      (update.bytes.drop off).take (stop - off) := by
  rw [slice, Uint8Array.bytes, List.drop_take, List.drop_drop, List.take_take]
  congr 1
  omega

/-- The rows that are stored from an offset on. -/
theorem appendFrom_rows (off : Nat) (sql : Table UpdateRow) :
    ∃ rows, (appendFrom update receivedAt off sql).orderBySeq = sql.orderBySeq ++ rows ∧
      (rows.map (·.bytes)).flatten = update.bytes.drop off ∧
      (off < update.byteLength → (rows.head?.map (·.cont)) = some (if off = 0 then 0 else 1)) ∧
      (∀ row ∈ rows.tail, row.cont ≠ 0) ∧ (0 < off → ∀ row ∈ rows, row.cont ≠ 0) ∧
      ∀ row ∈ rows, row.bytes.length ≤ chunkBytes := by
  have hlength := length_bytes update
  rw [appendFrom]
  by_cases hoff : off < update.byteLength
  · rw [if_pos hoff]
    have hchunk := chunkBytes_pos
    obtain ⟨rows, hrows, hflatten, -, -, hcont, hsize⟩ := appendFrom_rows (off + chunkBytes)
      (sql.insert (chunkRow update receivedAt off))
    have hslice : (chunkRow update receivedAt off).bytes =
        (update.bytes.drop off).take (min (off + chunkBytes) update.byteLength - off) :=
      slice_bytes update (Nat.min_le_right _ _) off
    have hlater := hcont (by omega)
    rw [hrows, Table.orderBySeq_insert, List.append_assoc]
    refine ⟨_, rfl, ?_, fun _ => rfl, hlater, ?_, ?_⟩
    · calc
        _ = (update.bytes.drop off).take (min (off + chunkBytes) update.byteLength - off) ++
              update.bytes.drop (off + chunkBytes) := by
            rw [List.singleton_append, List.map_cons, List.flatten_cons, hflatten, hslice]
        _ = (update.bytes.drop off).take chunkBytes ++ (update.bytes.drop off).drop chunkBytes := by
            rw [List.drop_drop, List.take_eq_take_iff.mpr]
            rw [List.length_drop, hlength]
            omega
        _ = update.bytes.drop off := List.take_append_drop _ _
    · intro hpos row hrow
      obtain rfl | hrow := List.mem_cons.mp hrow
      · simp [chunkRow, Nat.ne_of_gt hpos]
      · exact hlater row hrow
    · intro row hrow
      obtain rfl | hrow := List.mem_cons.mp hrow
      · rw [hslice, List.length_take]
        omega
      · exact hsize row hrow
  · rw [if_neg hoff]
    refine ⟨[], by simp, ?_, fun h => absurd h hoff, by simp, by simp, by simp⟩
    rw [List.drop_eq_nil_of_le (by omega)]
    rfl
termination_by update.byteLength - off
decreasing_by
  have hchunk := chunkBytes_pos
  omega

theorem appendUpdateRow_rows (sql : Table UpdateRow) (h : 0 < update.byteLength) :
    ∃ rows, (appendUpdateRow sql update receivedAt).orderBySeq = sql.orderBySeq ++ rows ∧
      Holds rows update.bytes ∧ ∀ row ∈ rows, row.bytes.length ≤ chunkBytes := by
  obtain ⟨rows, hrows, hflatten, hhead, htail, -, hsize⟩ :=
    appendFrom_rows update receivedAt 0 sql
  exact ⟨rows, hrows, ⟨hhead h, htail, hflatten⟩, hsize⟩

end Writing

def appendAll (sql : Table UpdateRow) (updates : List (Uint8Array × Nat)) : Table UpdateRow :=
  updates.foldl (fun sql update => appendUpdateRow sql update.1 update.2) sql

theorem appendAll_rows {updates : List (Uint8Array × Nat)}
    (h : ∀ update ∈ updates, 0 < update.1.byteLength) (sql : Table UpdateRow) :
    ∃ groups, (appendAll sql updates).orderBySeq = sql.orderBySeq ++ groups.flatten ∧
      List.Forall₂ Holds groups (updates.map (·.1.bytes)) ∧
      ∀ row ∈ groups.flatten, row.bytes.length ≤ chunkBytes := by
  induction updates generalizing sql with
  | nil => exact ⟨[], by simp [appendAll], .nil, by simp⟩
  | cons update updates ih =>
      rw [List.forall_mem_cons] at h
      obtain ⟨rows, hrows, hholds, hsize⟩ := appendUpdateRow_rows update.1 update.2 sql h.1
      obtain ⟨groups, hgroups, hall, hsizes⟩ := ih h.2 (appendUpdateRow sql update.1 update.2)
      refine ⟨rows :: groups, ?_, .cons hholds hall, ?_⟩
      · rw [appendAll, List.foldl_cons, List.flatten_cons, ← List.append_assoc, ← hrows]
        exact hgroups
      · rw [List.flatten_cons, List.forall_mem_append]
        exact ⟨hsize, hsizes⟩

theorem holds_migrate (row : OldRow) : Holds [row.migrate] row.bytes :=
  ⟨rfl, by simp, by simp [OldRow.migrate]⟩

/-- **What was written is read back.** Behind the rows from before the chunking stand the updates,
each whole and in order; what the appends store is never longer than a chunk. -/
theorem read_appended (old : Table OldRow) (updates : List (Uint8Array × Nat))
    (h : ∀ update ∈ updates, 0 < update.1.byteLength) :
    let log := ensureUpdateLog (.unchunked old)
    let log' := appendAll log updates
    readUpdateRows log' = old.orderBySeq.map (·.bytes) ++ updates.map (·.1.bytes) ∧
      ∃ stored, log'.orderBySeq = log.orderBySeq ++ stored ∧
        ∀ row ∈ stored, row.bytes.length ≤ chunkBytes := by
  intro log log'
  obtain ⟨groups, hgroups, hholds, hsize⟩ := appendAll_rows h log
  refine ⟨?_, groups.flatten, hgroups, hsize⟩
  have hold : List.Forall₂ Holds (old.orderBySeq.map fun row => [row.migrate])
      (old.orderBySeq.map (·.bytes)) := by
    rw [List.forall₂_map_left_iff, List.forall₂_map_right_iff, List.forall₂_same]
    exact fun row _ => holds_migrate row
  have hrows : log.orderBySeq = (old.orderBySeq.map fun row => [row.migrate]).flatten := by
    rw [show log = old.addColumn OldRow.migrate from rfl, Table.orderBySeq_addColumn]
    exact List.map_eq_flatMap
  unfold readUpdateRows
  rw [hgroups, hrows, ← List.flatten_append, readFrom_flatten (List.rel_append hold hholds)]
  rfl

/-- The second of the updates is one byte longer than a chunk. -/
theorem read_appended_two :
    let long := List.replicate (chunkBytes + 1) 5
    let short : Uint8Array :=
      { buffer := [9, 1, 2], byteOffset := 1, byteLength := 2, fits := by simp }
    let update : Uint8Array :=
      { buffer := long, byteOffset := 0, byteLength := chunkBytes + 1, fits := by simp [long] }
    let old : Table OldRow := Table.empty.insert { bytes := [7], receivedAt := 0 }
    readUpdateRows (appendAll (ensureUpdateLog (.unchunked old)) [(short, 1), (update, 2)]) =
      [[7], [1, 2], long] := by
  intro long short update old
  have hlong : update.bytes = long := by
    simp [Uint8Array.bytes, update, long]
  have hread := (read_appended old [(short, 1), (update, 2)] (by simp [short, update])).1
  rw [Table.orderBySeq_insert, Table.orderBySeq_eq] at hread
  rw [hread, List.map_cons, List.map_cons, List.map_nil, hlong]
  rfl

end Zeron.Edge.UpdateLog
