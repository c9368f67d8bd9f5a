import Zeron.Edge.ChatLog

/-!
# The checkpoint of a chat's room

`GET /checkpoint` of `edge/src/chat-room.ts` with its range header, and what the room's calls do to
the checkpoint that it answers with.
-/

namespace Zeron.Edge

def maxCheckpointBytes : Nat := 16 * 1024 * 1024

/-- `Number.MAX_SAFE_INTEGER`. -/
def maxSafeInteger : Nat := 2 ^ 53 - 1

section Ranges

/-- A start above zero in `^bytes=(\d+)-$`; any other header is no range. -/
def parseRangeStart (header : Option String) : Option Nat :=
  header.bind fun header =>
    let text := header.toList
    let digits := (text.drop 6).dropLast
    if text.take 6 = "bytes=".toList ∧ digits ≠ [] ∧ digits.all Char.isDigit ∧
        text.getLast? = some '-' then
      let start := Nat.ofDigitChars 10 digits 0
      if start ≤ maxSafeInteger ∧ 0 < start then some start else none
    else none

theorem parseRangeStart_bytes {start : Nat} (hpos : 0 < start) (hsafe : start ≤ maxSafeInteger) :
    parseRangeStart (some ("bytes=" ++ toString start ++ "-")) = some start := by
  have htext : ("bytes=" ++ toString start ++ "-").toList =
      "bytes=".toList ++ (Nat.toDigits 10 start ++ ['-']) := by
    rw [String.toList_append, String.toList_append, List.append_assoc]
    congr 2
    exact Nat.toList_repr
  have hdrop : ("bytes=".toList ++ (Nat.toDigits 10 start ++ ['-'])).drop 6 =
      Nat.toDigits 10 start ++ ['-'] := rfl
  unfold parseRangeStart
  rw [Option.bind_some]
  dsimp only
  rw [htext, hdrop, List.dropLast_concat, if_pos, Nat.ofDigitChars_ten_toDigits, if_pos ⟨hsafe, hpos⟩]
  refine ⟨rfl, Nat.toDigits_ne_nil, ?_, ?_⟩
  · rw [List.all_eq_true]
    exact fun digit hdigit => Nat.isDigit_of_mem_toDigits (by decide) (by decide) hdigit
  · rw [← List.append_assoc, List.getLast?_concat]

end Ranges

/-- The body of an error, which nobody reads, is left out. -/
structure Response where
  status : Nat
  checkpointSeq : Option Nat
  body : Bytes

namespace ChatDb

variable (db : ChatDb)

def getCheckpoint (range : Option String) : Response :=
  match BlobStore.get db.blobs checkpointBlob with
  | none => { status := 404, checkpointSeq := none, body := [] }
  | some bytes =>
      match parseRangeStart range with
      | some start =>
          if bytes.length ≤ start then { status := 416, checkpointSeq := none, body := [] }
          else
            { status := 206, checkpointSeq := some (db.getMeta "checkpointSeq")
              body := bytes.drop start }
      | none => { status := 200, checkpointSeq := some (db.getMeta "checkpointSeq"), body := bytes }

def checkpoint : Option (Nat × Bytes) :=
  (BlobStore.get db.blobs checkpointBlob).map fun bytes => (db.getMeta "checkpointSeq", bytes)

variable {db}

theorem checkpoint_added (row : LogRow) : (db.added row).checkpoint = db.checkpoint := by
  unfold checkpoint added
  simp only [getMeta_setMeta, String.reduceEq, if_false]
  rfl

theorem checkpoint_covered (seqCovered : Nat) (frontier bytes : Bytes) (committedAt : Nat) :
    (db.covered seqCovered frontier bytes committedAt).checkpoint = some (seqCovered, bytes) := by
  have hget : BlobStore.get (db.covered seqCovered frontier bytes committedAt).blobs checkpointBlob =
      some bytes := by
    change BlobStore.get (BlobStore.put (BlobStore.put db.blobs checkpointBlob bytes) frontierBlob
      frontier) checkpointBlob = some bytes
    rw [BlobStore.get_put, if_neg (by decide), BlobStore.get_put, if_pos rfl]
  unfold checkpoint
  rw [hget, Option.map_some]
  simp [covered]

end ChatDb

namespace ChatRoom

variable {room room' : ChatRoom} {answer : Answer}

/-- A call leaves the checkpoint or stores another, under a number between the floor and the head. -/
theorem call_checkpoint (h : room.db.Structured) {op : Op} (hcall : room.call op = some (room', answer)) :
    (room'.db.checkpoint = room.db.checkpoint ∧ room'.db.seqFloor = room.db.seqFloor) ∨
    ∃ seqCovered frontier bytes committedAt,
      op = .commitCheckpoint seqCovered frontier bytes committedAt ∧ bytes ≠ [] ∧
        room.db.seqFloor ≤ seqCovered ∧ room'.db.checkpoint = some (seqCovered, bytes) ∧
          room'.db.seqFloor = seqCovered := by
  cases op with
  | appendRow device batchId bytes receivedAt =>
      obtain ⟨-, error, happend⟩ | ⟨-, row, -, -, happend⟩ | ⟨-, -, happend⟩ :=
        h.appendRow_cases device batchId bytes receivedAt
      · rw [call, happend] at hcall
        cases hcall
        exact .inl ⟨rfl, rfl⟩
      · rw [call, happend] at hcall
        cases hcall
        exact .inl ⟨rfl, rfl⟩
      · rw [call, happend] at hcall
        cases hcall
        exact .inl ⟨ChatDb.checkpoint_added _, ChatDb.seqFloor_added _⟩
  | commitCheckpoint seqCovered frontier bytes committedAt =>
      obtain ⟨error, hcommit⟩ | ⟨hbytes, hfloor, -, outcome, hcommit⟩ :=
        room.db.commitCheckpoint_cases seqCovered frontier bytes committedAt
      · rw [call, hcommit] at hcall
        cases hcall
        exact .inl ⟨rfl, rfl⟩
      · rw [call, hcommit] at hcall
        cases hcall
        exact .inr ⟨seqCovered, frontier, bytes, committedAt, rfl, hbytes, hfloor,
          ChatDb.checkpoint_covered .., ChatDb.seqFloor_covered ..⟩
  | rowsAfter after excludeDevice | admitQuota device bytes now =>
      cases hcall
      exact .inl ⟨rfl, rfl⟩

end ChatRoom

end Zeron.Edge
