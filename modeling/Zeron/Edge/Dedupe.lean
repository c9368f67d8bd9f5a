import Zeron.Edge.ChatLog

/-!
# Batch ids over a history

An append looks for its batch among the rows that are stored. A checkpoint deletes rows, and with
them the memory of their batches.
-/

namespace Zeron.Edge.ChatRoom

section Reports

def report : Op × Answer → Option (String × Nat)
  | (.appendRow _ batchId _ _, .appended (.ok appended)) => some (batchId, appended.seq)
  | _ => none

def reports (calls : List (Op × Answer)) : List (String × Nat) := calls.filterMap report

/-- One number for each batch id, from the first report to the last. -/
def Deduped (calls : List (Op × Answer)) : Prop :=
  ∀ batchId seq seq', (batchId, seq) ∈ reports calls → (batchId, seq') ∈ reports calls → seq = seq'

def appendedId : Op → Option String
  | .appendRow _ batchId bytes _ => if ChatDb.Fits bytes then some batchId else none
  | _ => none

/-- An append that repeats a batch finds its row, which no checkpoint has deleted. -/
def NoneForgotten (ops : List Op) : Prop :=
  ∀ before op after batchId, ops = before ++ op :: after → appendedId op = some batchId →
    batchId ∈ before.filterMap appendedId →
    ∀ room calls, ChatRoom.empty.run before = some (room, calls) →
      ∃ row ∈ room.db.rows, row.batchId = batchId

variable {calls : List (Op × Answer)}

theorem reports_concat (call : Op × Answer) :
    reports (calls ++ [call]) = reports calls ++ (report call).toList := by
  unfold reports
  rw [List.filterMap_append]
  cases hreport : report call <;> simp [hreport]

theorem mem_reports_concat {call : Op × Answer} {entry : String × Nat} :
    entry ∈ reports (calls ++ [call]) ↔ entry ∈ reports calls ∨ report call = some entry := by
  rw [reports_concat, List.mem_append, Option.mem_toList]

theorem NoneForgotten.front {ops ops' : List Op} (h : NoneForgotten (ops ++ ops')) :
    NoneForgotten ops := by
  intro before op after batchId heq
  exact h before op (after ++ ops') batchId (by rw [heq, List.append_assoc, List.cons_append])

end Reports

section Runs

variable {room room' : ChatRoom} {calls calls' : List (Op × Answer)}

theorem run_append (room : ChatRoom) (ops ops' : List Op) :
    room.run (ops ++ ops') = (room.run ops).bind fun (middle, calls) =>
      (middle.run ops').map fun (room', calls') => (room', calls ++ calls') := by
  induction ops generalizing room with
  | nil => simp [run]
  | cons op ops ih =>
      rw [List.cons_append, run, run]
      cases room.call op with
      | none => rfl
      | some next =>
          dsimp only [Option.bind_some]
          rw [ih]
          cases run next.1 ops with
          | none => rfl
          | some middle =>
              dsimp only [Option.bind_some, Option.map_some]
              cases run middle.1 ops' <;> rfl

theorem run_concat {ops : List Op} {op : Op} {answer : Answer}
    (hrun : ChatRoom.empty.run ops = some (room, calls)) (hcall : room.call op = some (room', answer)) :
    ChatRoom.empty.run (ops ++ [op]) = some (room', calls ++ [(op, answer)]) := by
  rw [run_append, hrun, Option.bind_some]
  dsimp only
  rw [run, hcall]
  rfl

/-- What the reports and the stored rows say of each other. -/
structure Known (room : ChatRoom) (calls : List (Op × Answer)) : Prop where
  structured : room.db.Structured
  stored : ∀ row ∈ room.db.rows, (row.batchId, row.seq) ∈ reports calls
  numbered : ∀ entry ∈ reports calls, entry.2 ≤ room.db.headSeq

theorem known_empty : Known .empty [] :=
  ⟨ChatDb.structured_empty, fun _ hrow => absurd hrow List.not_mem_nil,
    fun _ hentry => absurd hentry List.not_mem_nil⟩

/-- What an append is told: the number of the stored row of its batch, or the next one. -/
def Told (room : ChatRoom) (entry : String × Nat) : Prop :=
  (∃ row ∈ room.db.rows, entry = (row.batchId, row.seq)) ∨
    ((∀ row ∈ room.db.rows, row.batchId ≠ entry.1) ∧ entry.2 = room.db.headSeq + 1)

theorem Known.silent (h : Known room calls) {op : Op} {answer : Answer}
    (hreport : report (op, answer) = none) (hstructured : room'.db.Structured)
    (hrows : ∀ row ∈ room'.db.rows, row ∈ room.db.rows)
    (hhead : room'.db.headSeq = room.db.headSeq) : Known room' (calls ++ [(op, answer)]) := by
  have hsame : reports (calls ++ [(op, answer)]) = reports calls := by
    rw [reports_concat, hreport, Option.toList_none, List.append_nil]
  refine ⟨hstructured, fun row hrow => ?_, fun entry hentry => ?_⟩
  · rw [hsame]
    exact h.stored row (hrows row hrow)
  · rw [hsame] at hentry
    rw [hhead]
    exact h.numbered entry hentry

theorem Known.call (h : Known room calls) (op : Op) : ∃ room' answer,
    room.call op = some (room', answer) ∧ Known room' (calls ++ [(op, answer)]) ∧
      (report (op, answer)).map Prod.fst = appendedId op ∧
      ∀ entry, report (op, answer) = some entry → room.Told entry := by
  cases op with
  | appendRow device batchId bytes receivedAt =>
      obtain ⟨hfits, error, happend⟩ | ⟨hfits, row, hrow, hbatch, happend⟩ |
        ⟨hfits, habsent, happend⟩ := h.structured.appendRow_cases device batchId bytes receivedAt
      · refine ⟨room, .appended (.error error), ?_, h.silent rfl h.structured (fun _ => id) rfl, ?_, ?_⟩
        · rw [ChatRoom.call, happend]
          rfl
        · exact (if_neg hfits).symm
        · intro entry hreport
          cases hreport
      · refine ⟨room, .appended (.ok ⟨row.seq, true⟩), ?_, ⟨h.structured, ?_, ?_⟩, ?_, ?_⟩
        · rw [ChatRoom.call, happend]
          rfl
        · exact fun other hother => mem_reports_concat.mpr (.inl (h.stored other hother))
        · intro entry hentry
          obtain hentry | hentry := mem_reports_concat.mp hentry
          · exact h.numbered entry hentry
          · cases hentry
            exact (h.structured.seq_le hrow).2
        · exact (if_pos hfits).symm
        · intro entry hreport
          cases hreport
          exact .inl ⟨row, hrow, by rw [hbatch]⟩
      · refine ⟨{ room with db := room.db.added ⟨room.db.headSeq + 1, device, batchId, bytes, receivedAt⟩ },
          .appended (.ok ⟨room.db.headSeq + 1, false⟩), ?_, ⟨h.structured.added rfl, ?_, ?_⟩, ?_, ?_⟩
        · rw [ChatRoom.call, happend]
          rfl
        · intro other hother
          rw [mem_reports_concat]
          obtain hother | hother := List.mem_append.mp hother
          · exact .inl (h.stored other hother)
          · rw [List.mem_singleton.mp hother]
            exact .inr rfl
        · intro entry hentry
          rw [ChatDb.headSeq_added]
          obtain hentry | hentry := mem_reports_concat.mp hentry
          · exact (h.numbered entry hentry).trans (Nat.le_succ _)
          · cases hentry
            exact le_refl _
        · exact (if_pos hfits).symm
        · intro entry hreport
          cases hreport
          exact .inr ⟨habsent, rfl⟩
  | commitCheckpoint seqCovered frontier bytes committedAt =>
      have hsilent : ∀ outcome, report (.commitCheckpoint seqCovered frontier bytes committedAt,
          .committed outcome) = none := fun _ => rfl
      obtain ⟨error, hcommit⟩ | ⟨-, hfloor, hhead, outcome, hcommit⟩ :=
        room.db.commitCheckpoint_cases seqCovered frontier bytes committedAt
      · refine ⟨room, .committed (.error error), ?_,
          h.silent (hsilent _) h.structured (fun _ => id) rfl, rfl, ?_⟩
        · rw [ChatRoom.call, hcommit]
        · intro entry hreport
          cases hreport
      · refine ⟨{ room with db := room.db.covered seqCovered frontier bytes committedAt },
          .committed (.ok outcome), ?_, h.silent (hsilent _)
            (h.structured.covered seqCovered frontier bytes committedAt hfloor hhead)
            (fun row hrow => (List.mem_filter.mp hrow).1) (ChatDb.headSeq_covered ..), rfl, ?_⟩
        · rw [ChatRoom.call, hcommit]
        · intro entry hreport
          cases hreport
  | rowsAfter after excludeDevice =>
      refine ⟨room, _, rfl, h.silent rfl h.structured (fun _ => id) rfl, rfl, ?_⟩
      intro entry hreport
      cases hreport
  | admitQuota device bytes now =>
      refine ⟨_, _, rfl, h.silent rfl h.structured (fun _ => id) rfl, rfl, ?_⟩
      intro entry hreport
      cases hreport

theorem run_known (ops : List Op) : ∃ room calls, ChatRoom.empty.run ops = some (room, calls) ∧
    Known room calls ∧ (reports calls).map Prod.fst = ops.filterMap appendedId := by
  induction ops using List.reverseRecOn with
  | nil => exact ⟨.empty, [], rfl, known_empty, rfl⟩
  | append_singleton ops op ih =>
      obtain ⟨room, calls, hrun, hknown, hids⟩ := ih
      obtain ⟨room', answer, hcall, hknown', hid, -⟩ := hknown.call op
      refine ⟨room', _, run_concat hrun hcall, hknown', ?_⟩
      have hlast : (report (op, answer)).toList.map Prod.fst = [op].filterMap appendedId := by
        cases hreport : report (op, answer) <;> rw [hreport] at hid <;> simp [← hid]
      rw [reports_concat, List.map_append, List.filterMap_append, hids, hlast]

theorem Deduped.concat {op : Op} {answer : Answer} (h : Deduped calls) (hknown : Known room calls)
    (htold : ∀ entry, report (op, answer) = some entry → room.Told entry)
    (hstored : ∀ entry, report (op, answer) = some entry → entry.1 ∈ (reports calls).map Prod.fst →
      ∃ row ∈ room.db.rows, row.batchId = entry.1) : Deduped (calls ++ [(op, answer)]) := by
  -- What is told of a batch that was reported before is what was reported.
  have hagree : ∀ batchId seq seq', (batchId, seq) ∈ reports calls →
      report (op, answer) = some (batchId, seq') → seq = seq' := by
    intro batchId seq seq' hseq hreport
    obtain ⟨row, hrow, heq⟩ | ⟨habsent, -⟩ := htold _ hreport
    · have hrow := hknown.stored row hrow
      rw [← heq] at hrow
      exact h batchId seq seq' hseq hrow
    · obtain ⟨row, hrow, hbatch⟩ := hstored _ hreport (List.mem_map.mpr ⟨_, hseq, rfl⟩)
      exact absurd hbatch (habsent row hrow)
  intro batchId seq seq' hseq hseq'
  obtain hseq | hseq := mem_reports_concat.mp hseq
  · obtain hseq' | hseq' := mem_reports_concat.mp hseq'
    · exact h batchId seq seq' hseq hseq'
    · exact hagree batchId seq seq' hseq hseq'
  · obtain hseq' | hseq' := mem_reports_concat.mp hseq'
    · exact (hagree batchId seq' seq hseq' hseq).symm
    · exact congrArg Prod.snd (Option.some.inj (hseq.symm.trans hseq'))

theorem NoneForgotten.deduped {ops : List Op} (h : NoneForgotten ops) :
    ∀ room calls, ChatRoom.empty.run ops = some (room, calls) → Deduped calls := by
  induction ops using List.reverseRecOn with
  | nil =>
      intro room calls hrun
      cases hrun
      exact fun _ _ _ hseq => absurd hseq List.not_mem_nil
  | append_singleton ops op ih =>
      intro room' calls' hrun
      obtain ⟨room, calls, hbefore, hknown, hids⟩ := run_known ops
      obtain ⟨next, answer, hcall, -, hid, htold⟩ := hknown.call op
      rw [run_concat hbefore hcall] at hrun
      cases hrun
      refine (ih h.front room calls hbefore).concat hknown htold fun entry hreport hmem => ?_
      rw [hreport] at hid
      rw [hids] at hmem
      exact h ops op [] entry.1 rfl hid.symm hmem room calls hbefore

/-- A repeated batch that finds no row is given a number above all that were reported. -/
theorem noneForgotten_of_deduped {ops : List Op}
    (h : ∀ room calls, ChatRoom.empty.run ops = some (room, calls) → Deduped calls) :
    NoneForgotten ops := by
  intro before op after batchId heq hid hmem room calls hrun
  obtain ⟨room, calls, hrun', hknown, hids⟩ := run_known before
  rw [hrun'] at hrun
  cases hrun
  obtain ⟨next, answer, hcall, hnext, hid', htold⟩ := hknown.call op
  obtain ⟨room', calls', hafter, -⟩ := run_spec hnext.structured after
  have hwhole : ChatRoom.empty.run ops = some (room', (calls ++ [(op, answer)]) ++ calls') := by
    rw [heq, ← List.singleton_append, ← List.append_assoc, run_append, run_concat hrun' hcall,
      Option.bind_some]
    dsimp only
    rw [hafter]
    rfl
  rw [← hids] at hmem
  obtain ⟨first, hfirst, rfl⟩ := List.mem_map.mp hmem
  rw [hid] at hid'
  obtain ⟨entry, hreport, hbatch⟩ := Option.map_eq_some_iff.mp hid'
  obtain ⟨row, hrow, heq⟩ | ⟨-, hseq⟩ := htold entry hreport
  · exact ⟨row, hrow, by rw [← hbatch, heq]⟩
  · have hlast : (first.1, entry.2) ∈ reports (calls ++ [(op, answer)]) := by
      rw [← hbatch]
      exact mem_reports_concat.mpr (.inr hreport)
    have hsame : first.2 = entry.2 := by
      apply h room' _ hwhole first.1 first.2 entry.2
      · unfold reports
        rw [List.filterMap_append, List.filterMap_append]
        exact List.mem_append_left _ (List.mem_append_left _ hfirst)
      · unfold reports
        rw [List.filterMap_append]
        exact List.mem_append_left _ hlast
    have hle := hknown.numbered first hfirst
    omega

/-- **Batch ids.** Each batch has one number over a history exactly when no append repeats a batch
whose row a checkpoint has deleted. -/
theorem deduped_iff (ops : List Op) :
    (∀ room calls, ChatRoom.empty.run ops = some (room, calls) → Deduped calls) ↔
      NoneForgotten ops :=
  ⟨noneForgotten_of_deduped, NoneForgotten.deduped⟩

/-- An append whose ack was lost, a checkpoint that covers it, and the append once more. -/
def retried : List Op :=
  [.appendRow "phone" "b1" [1] 10, .commitCheckpoint 1 [] [2] 20, .appendRow "phone" "b1" [1] 30]

/-- The batch is given two numbers. -/
theorem retried_twice : ∃ room calls, ChatRoom.empty.run retried = some (room, calls) ∧
    ¬ Deduped calls := by
  obtain ⟨room, calls, hrun, hreports⟩ : ∃ room calls, ChatRoom.empty.run retried = some (room, calls) ∧
      reports calls = [("b1", 1), ("b1", 2)] := ⟨_, _, rfl, by decide⟩
  refine ⟨room, calls, hrun, fun hdeduped => ?_⟩
  have hsame : 1 = 2 := hdeduped "b1" 1 2 (by rw [hreports]; decide) (by rw [hreports]; decide)
  cases hsame

end Runs

end Zeron.Edge.ChatRoom
