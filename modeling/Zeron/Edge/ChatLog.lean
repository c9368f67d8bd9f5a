import Mathlib.Algebra.GroupWithZero.Nat
import Mathlib.Algebra.Order.BigOperators.Group.List
import Mathlib.Data.List.Induction
import Zeron.Edge.Blobs

/-!
# The log of a chat's room

`edge/src/chat-log.ts` over its SQLite tables, with the push quota of `edge/src/chat-room.ts`. The
numbers beside the table of rows agree with it after any sequence of calls.
-/

namespace Zeron.Edge

def maxRowBytes : Nat := 1024 * 1024

def checkpointBlob : String := "checkpoint"

def frontierBlob : String := "checkpoint-frontier"

structure LogRow where
  seq : Nat
  device : String
  batchId : String
  bytes : Bytes
  receivedAt : Nat
  deriving DecidableEq

/-- The three tables: rows in the order of their insertion, the numbers of `meta`, the blobs. -/
structure ChatDb where
  rows : List LogRow
  numbers : Std.ExtTreeMap String Nat
  blobs : BlobStore

inductive AppendError where
  | tooLarge
  | empty
  deriving DecidableEq

inductive CheckpointError where
  | floorRegression
  | aheadOfHead
  | empty
  deriving DecidableEq

structure Appended where
  seq : Nat
  dup : Bool
  deriving DecidableEq

structure Committed where
  seqFloor : Nat
  pruned : Nat
  deriving DecidableEq

structure LogStats where
  headSeq : Nat
  seqFloor : Nat
  rowCount : Nat
  rowBytes : Nat
  checkpointSeq : Nat
  checkpointSize : Nat
  checkpointAt : Nat
  deriving DecidableEq

namespace ChatDb

section Calls

variable (db : ChatDb)

def empty : ChatDb := { rows := [], numbers := ∅, blobs := ∅ }

def getMeta (key : String) : Nat := (db.numbers[key]?).getD 0

def setMeta (key : String) (value : Nat) : ChatDb :=
  { db with numbers := db.numbers.insert key value }

def putBlob (name : String) (bytes : Bytes) : ChatDb := { db with blobs := BlobStore.put db.blobs name bytes }

def headSeq : Nat := db.getMeta "headSeq"

def seqFloor : Nat := db.getMeta "seqFloor"

/-- None is a constraint of the table that the row violates: `seq` is its key, `batch_id` unique. -/
def insertRow (row : LogRow) : Option ChatDb :=
  if db.rows.any fun other => other.seq = row.seq ∨ other.batchId = row.batchId then none
  else some { db with rows := db.rows ++ [row] }

def appendRow (device batchId : String) (bytes : Bytes) (receivedAt : Nat) :
    Option (ChatDb × Except AppendError Appended) :=
  if bytes.length = 0 then some (db, .error .empty)
  else if maxRowBytes < bytes.length then some (db, .error .tooLarge)
  else
    match db.rows.find? (·.batchId = batchId) with
    | some existing => some (db, .ok { seq := existing.seq, dup := true })
    | none =>
        let seq := db.headSeq + 1
        (db.insertRow { seq, device, batchId, bytes, receivedAt }).map fun db =>
          (db.setMeta "headSeq" seq, .ok { seq, dup := false })

/-- `ORDER BY seq`; an empty device excludes nothing. -/
def rowsAfter (after : Nat) (excludeDevice : Option String) : List LogRow :=
  (db.rows.filter fun row => after < row.seq &&
    excludeDevice.all fun device => device = "" || row.device ≠ device).mergeSort
      fun row other => row.seq ≤ other.seq

def rowCount : Nat := db.rows.length

def commitCheckpoint (seqCovered : Nat) (frontier bytes : Bytes) (committedAt : Nat) :
    ChatDb × Except CheckpointError Committed :=
  if bytes.length = 0 then (db, .error .empty)
  else if seqCovered < db.seqFloor then (db, .error .floorRegression)
  else if db.headSeq < seqCovered then (db, .error .aheadOfHead)
  else
    let stored := (db.putBlob checkpointBlob bytes).putBlob frontierBlob frontier
    let before := stored.rowCount
    let kept := { stored with rows := stored.rows.filter fun row => ¬ row.seq ≤ seqCovered }
    ((((kept.setMeta "seqFloor" seqCovered).setMeta "checkpointSeq" seqCovered).setMeta
        "checkpointSize" bytes.length).setMeta "checkpointAt" committedAt,
      .ok { seqFloor := seqCovered, pruned := before - kept.rowCount })

/-- `COUNT(*)` and `SUM(LENGTH(bytes))` over the table, the rest from the numbers beside it. -/
def logStats : LogStats :=
  { headSeq := db.headSeq
    seqFloor := db.seqFloor
    rowCount := db.rowCount
    rowBytes := db.rows.foldl (fun sum row => sum + row.bytes.length) 0
    checkpointSeq := db.getMeta "checkpointSeq"
    checkpointSize := db.getMeta "checkpointSize"
    checkpointAt := db.getMeta "checkpointAt" }

end Calls

section Numbers

variable {db : ChatDb}

@[simp]
theorem getMeta_setMeta (key key' : String) (value : Nat) :
    (db.setMeta key value).getMeta key' = if key = key' then value else db.getMeta key' := by
  unfold getMeta setMeta
  rw [Std.ExtTreeMap.getElem?_insert]
  by_cases hkey : key = key'
  · subst hkey
    simp
  · simp [hkey]

/-- The rows are exactly those above the floor, one for each number up to the head. -/
structure Structured (db : ChatDb) : Prop where
  seqs : db.rows.map (·.seq) = List.range' (db.seqFloor + 1) (db.headSeq - db.seqFloor)
  floor : db.seqFloor ≤ db.headSeq

theorem structured_empty : empty.Structured := ⟨rfl, le_refl _⟩

theorem Structured.seq_le (h : db.Structured) {row : LogRow} (hrow : row ∈ db.rows) :
    db.seqFloor < row.seq ∧ row.seq ≤ db.headSeq := by
  have hseq := List.mem_map_of_mem (f := LogRow.seq) hrow
  have hfloor := h.floor
  rw [h.seqs, List.mem_range'_1] at hseq
  omega

theorem Structured.sorted (h : db.Structured) :
    db.rows.Pairwise fun row other => row.seq < other.seq := by
  have hsorted : (db.rows.map (·.seq)).Pairwise (· < ·) := by
    rw [h.seqs]
    exact List.pairwise_lt_range'
  exact List.pairwise_map.mp hsorted

end Numbers

section Appends

variable {db : ChatDb}

def Fits (bytes : Bytes) : Prop := 0 < bytes.length ∧ bytes.length ≤ maxRowBytes

instance (bytes : Bytes) : Decidable (Fits bytes) := inferInstanceAs (Decidable (_ ∧ _))

def added (db : ChatDb) (row : LogRow) : ChatDb :=
  { db with rows := db.rows ++ [row] }.setMeta "headSeq" row.seq

theorem headSeq_added (row : LogRow) : (db.added row).headSeq = row.seq := by
  simp [added, headSeq]

theorem seqFloor_added (row : LogRow) : (db.added row).seqFloor = db.seqFloor := by
  simp only [added, seqFloor, getMeta_setMeta, String.reduceEq, if_false]
  rfl

theorem Structured.added (h : db.Structured) {row : LogRow} (hseq : row.seq = db.headSeq + 1) :
    (db.added row).Structured := by
  have hfloor := h.floor
  refine ⟨?_, ?_⟩
  · rw [headSeq_added, seqFloor_added, hseq]
    have hsub : db.headSeq + 1 - db.seqFloor = db.headSeq - db.seqFloor + 1 := by omega
    have hlast : db.seqFloor + 1 + (db.headSeq - db.seqFloor) = db.headSeq + 1 := by omega
    change (db.rows ++ [row]).map (·.seq) = _
    rw [List.map_append, h.seqs, hsub, List.range'_1_concat, hlast, List.map_singleton, hseq]
  · rw [headSeq_added, seqFloor_added, hseq]
    omega

/-- An append is refused, or finds its batch, or adds a row; the table never refuses it. -/
theorem Structured.appendRow_cases (h : db.Structured) (device batchId : String) (bytes : Bytes)
    (receivedAt : Nat) :
    (¬ Fits bytes ∧ ∃ error, db.appendRow device batchId bytes receivedAt = some (db, .error error)) ∨
    (Fits bytes ∧ ∃ row ∈ db.rows, row.batchId = batchId ∧
      db.appendRow device batchId bytes receivedAt = some (db, .ok { seq := row.seq, dup := true })) ∨
    (Fits bytes ∧ (∀ row ∈ db.rows, row.batchId ≠ batchId) ∧
      db.appendRow device batchId bytes receivedAt =
        some (db.added ⟨db.headSeq + 1, device, batchId, bytes, receivedAt⟩,
          .ok { seq := db.headSeq + 1, dup := false })) := by
  unfold appendRow
  by_cases hempty : bytes.length = 0
  · rw [if_pos hempty]
    exact .inl ⟨fun hfits => absurd hempty (by have := hfits.1; omega), _, rfl⟩
  by_cases hlarge : maxRowBytes < bytes.length
  · rw [if_neg hempty, if_pos hlarge]
    exact .inl ⟨fun hfits => absurd hfits.2 (not_le.mpr hlarge), _, rfl⟩
  have hfits : Fits bytes := ⟨by omega, not_lt.mp hlarge⟩
  rw [if_neg hempty, if_neg hlarge]
  cases hfind : db.rows.find? (·.batchId = batchId) with
  | some row =>
      have hbatch := List.find?_some hfind
      exact .inr (.inl ⟨hfits, row, List.mem_of_find?_eq_some hfind, of_decide_eq_true hbatch, rfl⟩)
  | none =>
      have habsent : ∀ row ∈ db.rows, row.batchId ≠ batchId := fun row hrow =>
        of_decide_eq_false (by simpa using List.find?_eq_none.mp hfind row hrow)
      refine .inr (.inr ⟨hfits, habsent, ?_⟩)
      dsimp only
      unfold insertRow
      rw [if_neg]
      · rfl
      · rw [List.any_eq_true]
        rintro ⟨row, hrow, hclash⟩
        obtain hseq | hbatch := of_decide_eq_true hclash
        · have hseq : row.seq = db.headSeq + 1 := hseq
          have := (h.seq_le hrow).2
          omega
        · exact habsent row hrow hbatch

end Appends

section Checkpoints

variable {db : ChatDb}

def covered (db : ChatDb) (seqCovered : Nat) (frontier bytes : Bytes) (committedAt : Nat) : ChatDb :=
  ((({ (db.putBlob checkpointBlob bytes).putBlob frontierBlob frontier with
        rows := db.rows.filter fun row => ¬ row.seq ≤ seqCovered }.setMeta
      "seqFloor" seqCovered).setMeta "checkpointSeq" seqCovered).setMeta
    "checkpointSize" bytes.length).setMeta "checkpointAt" committedAt

variable (seqCovered : Nat) (frontier bytes : Bytes) (committedAt : Nat)

theorem commitCheckpoint_cases (db : ChatDb) :
    (∃ error, db.commitCheckpoint seqCovered frontier bytes committedAt = (db, .error error)) ∨
    (bytes ≠ [] ∧ db.seqFloor ≤ seqCovered ∧ seqCovered ≤ db.headSeq ∧ ∃ outcome,
      db.commitCheckpoint seqCovered frontier bytes committedAt =
        (db.covered seqCovered frontier bytes committedAt, .ok outcome)) := by
  unfold commitCheckpoint
  by_cases hempty : bytes.length = 0
  · rw [if_pos hempty]
    exact .inl ⟨_, rfl⟩
  by_cases hfloor : seqCovered < db.seqFloor
  · rw [if_neg hempty, if_pos hfloor]
    exact .inl ⟨_, rfl⟩
  by_cases hhead : db.headSeq < seqCovered
  · rw [if_neg hempty, if_neg hfloor, if_pos hhead]
    exact .inl ⟨_, rfl⟩
  · rw [if_neg hempty, if_neg hfloor, if_neg hhead]
    exact .inr ⟨fun hnil => hempty (List.length_eq_zero_iff.mpr hnil), not_lt.mp hfloor,
      not_lt.mp hhead, _, rfl⟩

theorem headSeq_covered :
    (db.covered seqCovered frontier bytes committedAt).headSeq = db.headSeq := by
  simp only [covered, headSeq, getMeta_setMeta, String.reduceEq, if_false]
  rfl

theorem seqFloor_covered :
    (db.covered seqCovered frontier bytes committedAt).seqFloor = seqCovered := by
  simp [covered, seqFloor]

theorem filter_range' {floor head cut : Nat} (hfloor : floor ≤ cut) (hhead : cut ≤ head) :
    (List.range' (floor + 1) (head - floor)).filter (cut < ·) =
      List.range' (cut + 1) (head - cut) := by
  have hsplit : List.range' (floor + 1) (head - floor) =
      List.range' (floor + 1) (cut - floor) ++ List.range' (cut + 1) (head - cut) := by
    have hstart : cut + 1 = floor + 1 + (cut - floor) := by omega
    have hlength : head - floor = cut - floor + (head - cut) := by omega
    rw [hstart, List.range'_append_1, hlength]
  rw [hsplit, List.filter_append, List.filter_eq_nil_iff.mpr, List.filter_eq_self.mpr,
    List.nil_append]
  · intro n hn
    rw [List.mem_range'_1] at hn
    exact decide_eq_true (by omega)
  · intro n hn
    rw [List.mem_range'_1] at hn
    rw [decide_eq_true_iff]
    omega

theorem Structured.seqs_above (h : db.Structured) {cut : Nat} (hfloor : db.seqFloor ≤ cut)
    (hhead : cut ≤ db.headSeq) :
    (db.rows.filter (cut < ·.seq)).map (·.seq) = List.range' (cut + 1) (db.headSeq - cut) := by
  rw [← filter_range' hfloor hhead, ← h.seqs, List.filter_map]
  rfl

theorem Structured.covered (h : db.Structured) (hfloor : db.seqFloor ≤ seqCovered)
    (hhead : seqCovered ≤ db.headSeq) :
    (db.covered seqCovered frontier bytes committedAt).Structured := by
  refine ⟨?_, ?_⟩
  · rw [headSeq_covered, seqFloor_covered, ← h.seqs_above hfloor hhead]
    change (db.rows.filter fun row => ¬ row.seq ≤ seqCovered).map _ = _
    simp only [not_le]
  · rw [headSeq_covered, seqFloor_covered]
    exact hhead

end Checkpoints

section Pages

variable {db : ChatDb}

theorem Structured.rowsAfter_eq (h : db.Structured) (after : Nat) :
    db.rowsAfter after none = db.rows.filter (after < ·.seq) := by
  unfold rowsAfter
  simp only [Option.all_none, Bool.and_true]
  apply List.mergeSort_of_pairwise
  exact (h.sorted.filter _).imp fun hlt => decide_eq_true hlt.le

/-- Requests one after the other, each from the last row that the one before has brought; of an answer
as many rows arrive as the limit says. -/
def pages (db : ChatDb) : List Nat → Nat → List (List LogRow)
  | [], _ => []
  | limit :: limits, cursor =>
      let page := (db.rowsAfter cursor none).take limit
      page :: pages db limits ((page.getLast?.map (·.seq)).getD cursor)

theorem Structured.above_page (h : db.Structured) {cursor limit : Nat} {last : LogRow}
    (hlast : ((db.rows.filter (cursor < ·.seq)).take limit).getLast? = some last) :
    db.rows.filter (last.seq < ·.seq) = (db.rows.filter (cursor < ·.seq)).drop limit := by
  have hmem : last ∈ (db.rows.filter (cursor < ·.seq)).take limit := List.mem_of_getLast? hlast
  have habove : cursor < last.seq :=
    of_decide_eq_true (List.mem_filter.mp (List.mem_of_mem_take hmem)).2
  have hsorted := h.sorted.filter (cursor < ·.seq)
  have hnarrow : db.rows.filter (last.seq < ·.seq) =
      (db.rows.filter (cursor < ·.seq)).filter (last.seq < ·.seq) := by
    rw [List.filter_filter]
    refine List.filter_congr fun row _ => ?_
    by_cases hrow : last.seq < row.seq
    · simp [hrow, habove.trans hrow]
    · simp [hrow]
  rw [hnarrow]
  generalize db.rows.filter (cursor < ·.seq) = above at hlast hsorted ⊢
  obtain ⟨front, hfront⟩ := List.getLast?_eq_some_iff.mp hlast
  rw [← List.take_append_drop limit above, hfront] at hsorted
  obtain ⟨hpage, -, hrest⟩ := List.pairwise_append.mp hsorted
  conv_lhs => rw [← List.take_append_drop limit above, hfront]
  rw [List.filter_append, List.filter_eq_nil_iff.mpr, List.filter_eq_self.mpr, List.nil_append]
  · intro row hrow
    exact decide_eq_true (hrest last (List.mem_append_right _ (List.mem_singleton_self _)) row hrow)
  · intro row hrow
    obtain hrow | hrow := List.mem_append.mp hrow
    · have hlt := (List.pairwise_append.mp hpage).2.2 row hrow last (List.mem_singleton_self _)
      simpa using hlt.le
    · simp [List.mem_singleton.mp hrow]

/-- **Paging.** As many pages as there are rows bring each row once in order, and one more is empty. -/
theorem Structured.pages_eq (h : db.Structured) {limits : List Nat} (hpos : ∀ limit ∈ limits, 0 < limit)
    (cursor : Nat) (hlong : (db.rows.filter (cursor < ·.seq)).length < limits.length) :
    (db.pages limits cursor).flatten = db.rows.filter (cursor < ·.seq) ∧
      (db.pages limits cursor).getLast? = some [] := by
  induction limits generalizing cursor with
  | nil => cases hlong
  | cons limit limits ih =>
      have hrest : ∀ limit ∈ limits, 0 < limit := fun limit hmem =>
        hpos limit (List.mem_cons_of_mem _ hmem)
      have hlimit : 0 < limit := hpos limit List.mem_cons_self
      rw [pages, h.rowsAfter_eq, List.flatten_cons, List.getLast?_cons]
      cases hlast : ((db.rows.filter (cursor < ·.seq)).take limit).getLast? with
      | none =>
          -- Nothing is left: this page and all that follow are empty.
          have hpage := List.getLast?_eq_none_iff.mp hlast
          have hdone : db.rows.filter (cursor < ·.seq) = [] := by
            obtain hzero | hnil := List.take_eq_nil_iff.mp hpage
            · omega
            · exact hnil
          rw [hpage, hdone, List.nil_append]
          change (db.pages limits cursor).flatten = _ ∧ some ((db.pages limits cursor).getLast?.getD _) = _
          cases limits with
          | nil => exact ⟨rfl, rfl⟩
          | cons next limits =>
              obtain ⟨hflatten, hends⟩ := ih hrest cursor (by rw [hdone]; exact Nat.succ_pos _)
              rw [hflatten, hends, hdone]
              exact ⟨rfl, rfl⟩
      | some last =>
          have habove := h.above_page hlast
          obtain ⟨hflatten, hends⟩ := ih hrest last.seq (by
            have hpage : 0 < (db.rows.filter (cursor < ·.seq)).length :=
              List.length_pos_of_mem (List.mem_of_mem_take (List.mem_of_getLast? hlast))
            rw [habove, List.length_drop]
            rw [List.length_cons] at hlong
            omega)
          rw [Option.map_some, Option.getD_some, hflatten, hends, habove, List.take_append_drop]
          exact ⟨rfl, rfl⟩

end Pages

end ChatDb

section Room

def quotaWindowMs : Nat := 60000

def quotaMaxPushes : Nat := 300

def quotaMaxBytes : Nat := 8 * 1024 * 1024

structure QuotaWindow where
  since : Nat
  pushes : Nat
  bytes : Nat

/-- The room: its tables, and in memory, until it hibernates, the push quota of each device. -/
structure ChatRoom where
  db : ChatDb
  quotas : Std.ExtTreeMap String QuotaWindow

inductive Op where
  | appendRow (device batchId : String) (bytes : Bytes) (receivedAt : Nat)
  | commitCheckpoint (seqCovered : Nat) (frontier bytes : Bytes) (committedAt : Nat)
  | rowsAfter (after : Nat) (excludeDevice : Option String)
  | admitQuota (device : String) (bytes now : Nat)

inductive Answer where
  | appended (outcome : Except AppendError Appended)
  | committed (outcome : Except CheckpointError Committed)
  | rows (rows : List LogRow)
  | admitted (admitted : Bool)

/-- The call is refused: an append or a checkpoint with an error. -/
def Answer.Rejected : Answer → Prop
  | .appended (.error _) | .committed (.error _) => True
  | _ => False

namespace ChatRoom

variable (room : ChatRoom)

def empty : ChatRoom := { db := .empty, quotas := ∅ }

/-- The window is a new one where there is none or the last has run out. -/
def quotaWindow (key : String) (now : Nat) : QuotaWindow :=
  match room.quotas[key]? with
  | some window =>
      if now - window.since > quotaWindowMs then { since := now, pushes := 0, bytes := 0 } else window
  | none => { since := now, pushes := 0, bytes := 0 }

def admitQuota (device : String) (bytes now : Nat) : ChatRoom × Bool :=
  let key := if device = "" then "(unknown)" else device
  let window := room.quotaWindow key now
  let window := { window with pushes := window.pushes + 1, bytes := window.bytes + bytes }
  ({ room with quotas := room.quotas.insert key window },
    window.pushes ≤ quotaMaxPushes ∧ window.bytes ≤ quotaMaxBytes)

/-- One call; none where SQLite throws. -/
def call : Op → Option (ChatRoom × Answer)
  | .appendRow device batchId bytes receivedAt =>
      (room.db.appendRow device batchId bytes receivedAt).map fun (db, outcome) =>
        ({ room with db }, .appended outcome)
  | .commitCheckpoint seqCovered frontier bytes committedAt =>
      let (db, outcome) := room.db.commitCheckpoint seqCovered frontier bytes committedAt
      some ({ room with db }, .committed outcome)
  | .rowsAfter after excludeDevice => some (room, .rows (room.db.rowsAfter after excludeDevice))
  | .admitQuota device bytes now =>
      let (room, admitted) := room.admitQuota device bytes now
      some (room, .admitted admitted)

def run : ChatRoom → List Op → Option (ChatRoom × List (Op × Answer))
  | room, [] => some (room, [])
  | room, op :: ops =>
      (room.call op).bind fun (room, answer) =>
        (run room ops).map fun (room, calls) => (room, (op, answer) :: calls)

section Runs

variable {room room' : ChatRoom}

theorem call_spec (h : room.db.Structured) (op : Op) : ∃ room' answer,
    room.call op = some (room', answer) ∧ room'.db.Structured ∧
      room.db.headSeq ≤ room'.db.headSeq ∧ (answer.Rejected → room' = room) := by
  cases op with
  | appendRow device batchId bytes receivedAt =>
      obtain ⟨-, error, happend⟩ | ⟨-, row, -, -, happend⟩ | ⟨-, -, happend⟩ :=
        h.appendRow_cases device batchId bytes receivedAt
      · rw [call, happend]
        exact ⟨room, _, rfl, h, le_refl _, fun _ => rfl⟩
      · rw [call, happend]
        exact ⟨room, _, rfl, h, le_refl _, fun _ => rfl⟩
      · rw [call, happend]
        refine ⟨_, _, rfl, h.added rfl, ?_, False.elim⟩
        rw [ChatDb.headSeq_added]
        exact Nat.le_succ _
  | commitCheckpoint seqCovered frontier bytes committedAt =>
      obtain ⟨error, hcommit⟩ | ⟨-, hfloor, hhead, outcome, hcommit⟩ :=
        room.db.commitCheckpoint_cases seqCovered frontier bytes committedAt
      · rw [call, hcommit]
        exact ⟨room, _, rfl, h, le_refl _, fun _ => rfl⟩
      · rw [call, hcommit]
        refine ⟨_, _, rfl, h.covered seqCovered frontier bytes committedAt hfloor hhead, ?_,
          False.elim⟩
        rw [ChatDb.headSeq_covered]
  | rowsAfter after excludeDevice => exact ⟨room, _, rfl, h, le_refl _, fun _ => rfl⟩
  | admitQuota device bytes now => exact ⟨_, _, rfl, h, le_refl _, False.elim⟩

theorem run_spec (h : room.db.Structured) (ops : List Op) : ∃ room' calls,
    room.run ops = some (room', calls) ∧ room'.db.Structured ∧
      room.db.headSeq ≤ room'.db.headSeq := by
  induction ops generalizing room with
  | nil => exact ⟨room, [], rfl, h, le_refl _⟩
  | cons op ops ih =>
      obtain ⟨next, answer, hcall, hnext, hle, -⟩ := call_spec h op
      obtain ⟨room', calls, hrun, hroom', hle'⟩ := ih hnext
      refine ⟨room', (op, answer) :: calls, ?_, hroom', hle.trans hle'⟩
      rw [run, hcall, Option.bind_some]
      dsimp only
      rw [hrun]
      rfl

/-- **The log's structure.** After any calls: the numbers of the rows are those above the floor up to
the head, the bytes are counted, a call does not fail, lower the head or change anything when it is
refused, and pages from a cursor bring each later row once and end. -/
theorem chat_log_structured (ops : List Op) : ∃ room calls,
    ChatRoom.empty.run ops = some (room, calls) ∧
      room.db.rows.map (·.seq) =
        List.range' (room.db.seqFloor + 1) (room.db.headSeq - room.db.seqFloor) ∧
      room.db.seqFloor ≤ room.db.headSeq ∧
      room.db.logStats.rowBytes = (room.db.rows.map (·.bytes.length)).sum ∧
      (∀ op, ∃ room' answer, room.call op = some (room', answer) ∧
        room.db.headSeq ≤ room'.db.headSeq ∧ (answer.Rejected → room' = room)) ∧
      ∀ cursor, room.db.seqFloor ≤ cursor → ∀ limits : List Nat, (∀ limit ∈ limits, 0 < limit) →
        (room.db.rows.filter (cursor < ·.seq)).length < limits.length →
        (room.db.pages limits cursor).flatten = room.db.rows.filter (cursor < ·.seq) ∧
          (room.db.pages limits cursor).getLast? = some [] := by
  have hempty : ChatRoom.empty.db.Structured := ChatDb.structured_empty
  obtain ⟨room, calls, hrun, hroom, -⟩ := run_spec hempty ops
  refine ⟨room, calls, hrun, hroom.seqs, hroom.floor, ?_, fun op => ?_, fun cursor _ limits hpos hlong =>
    hroom.pages_eq hpos cursor hlong⟩
  · rw [List.sum_eq_foldl, List.foldl_map]
    rfl
  · obtain ⟨room', answer, hcall, -, hle, hrejected⟩ := call_spec hroom op
    exact ⟨room', answer, hcall, hle, hrejected⟩

end Runs

end ChatRoom

end Room

end Zeron.Edge
