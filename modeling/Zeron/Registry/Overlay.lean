import Zeron.Registry.Accepted
import Zeron.Registry.Collect
import Zeron.Registry.Laws

/-!
# The overlay as a prediction

What a replica shows before it pushes is what the room makes of its batches. Between the rows of a
batch and the acknowledgement the batch is in the rows and still pending, so a batch must leave no
trace where it is applied once more.
-/

namespace Zeron.Registry

variable {batches : List PendingBatch} {ops : List RowOp}

section Repeats

/-- Applied to a row that has all the ops behind it, they leave the row as it is. -/
def Repeats (ops : List RowOp) : Prop :=
  ∀ row, applyAll (applyAll row ops) ops = applyAll row ops

namespace Life

/-- The op is behind the row: an upsert has made sure that there is one. -/
def Settled (op : RowOp) (life : Life) : Prop :=
  life.Covers op ∧ (op.op = .upsert → life ≠ .absent)

theorem settled_next (life : Life) (op : RowOp) : (life.next op).Settled op := by
  have hself : ∀ offered, ∀ write ∈ op.offers, ∃ other ∈ offered ++ op.offers,
      other.1 = write.1 ∧ write.2 ≤ other.2 := fun offered write hwrite =>
    ⟨write, List.mem_append_right _ hwrite, rfl, le_refl _⟩
  cases hop : op.op with
  | delete =>
      refine ⟨?_, fun hupsert => by cases hop.symm.trans hupsert⟩
      cases life with
      | absent | gone _ =>
          simp only [next, hop, Covers]
          exact fun hupsert => by cases hupsert
      | alive delHlc offered =>
          simp only [next, hop]
          split
          · exact fun hupsert => by cases hop.symm.trans hupsert
          · exact fun hwrites => absurd hop hwrites
  | update =>
      refine ⟨?_, fun hupsert => by cases hop.symm.trans hupsert⟩
      cases life with
      | absent =>
          simp only [next, hop]
          trivial
      | gone delHlc =>
          simp only [next, hop]
          exact fun hupsert => by cases hop.symm.trans hupsert
      | alive delHlc offered =>
          simp only [next, hop]
          exact fun _ => hself offered
  | upsert =>
      cases life with
      | absent =>
          simp only [next, hop]
          exact ⟨fun _ => hself [], fun _ habsent => by cases habsent⟩
      | gone delHlc =>
          simp only [next, hop]
          split
          · exact ⟨fun _ => hself [], fun _ habsent => by cases habsent⟩
          · rename_i hold
            exact ⟨fun _ => Bool.eq_false_iff.mpr hold, fun _ habsent => by cases habsent⟩
      | alive delHlc offered =>
          simp only [next, hop]
          exact ⟨fun _ => hself offered, fun _ habsent => by cases habsent⟩

/-- What follows leaves an op settled. -/
def Keeps (op op' : RowOp) : Prop := ∀ life : Life, life.Settled op → (life.next op').Settled op

theorem settled_after {op : RowOp} {life : Life} (h : life.Settled op)
    (hkeeps : ∀ op' ∈ ops, Keeps op op') : (life.after ops).Settled op := by
  induction ops generalizing life with
  | nil => exact h
  | cons op' ops ih =>
      exact ih (hkeeps op' List.mem_cons_self life h)
        fun other hother => hkeeps other (List.mem_cons_of_mem _ hother)

end Life

theorem lands_applyAll {op : RowOp} (h : op ∈ ops) (row : Option RegistryRow) :
    Lands op (applyAll row ops) := by
  obtain ⟨before, after, rfl⟩ := List.append_of_mem h
  rw [applyAll_append, applyAll_cons]
  exact (lands_applyOp _ op).applyAll after

theorem repeats_of_keeps (h : ∀ op ∈ ops, ∀ op' ∈ ops, Life.Keeps op op') :
    Repeats ops := by
  intro row
  have hfixed : ∀ op ∈ ops, (applyOp (applyAll row ops) op).1 = applyAll row ops := by
    intro op hop
    have htracks := (Life.tracks_ofRow row).after ops
    refine (htracks.reapply_iff (lands_applyAll hop row)).mpr ?_
    obtain ⟨before, after, rfl⟩ := List.append_of_mem hop
    have hafter : (Life.ofRow row).after (before ++ op :: after) =
        (((Life.ofRow row).after before).next op).after after := List.foldl_append
    rw [hafter]
    apply (Life.settled_after (Life.settled_next _ op) fun op' hop' => ?_).1
    exact h op hop op' (List.mem_append_right _ (List.mem_cons_of_mem _ hop'))
  have hall : ∀ rest, (∀ op ∈ rest, op ∈ ops) →
      applyAll (applyAll row ops) rest = applyAll row ops := by
    intro rest
    induction rest with
    | nil => exact fun _ => rfl
    | cons op rest ih =>
        intro hrest
        rw [applyAll_cons, hfixed op (hrest op List.mem_cons_self)]
        exact ih fun other hother => hrest other (List.mem_cons_of_mem _ hother)
  exact hall ops fun _ => id

/-- Without an upsert no row comes back, so that nothing is refused at first and taken later. -/
theorem keeps_of_no_upsert {op op' : RowOp} (hop : op.op ≠ .upsert) (hop' : op'.op ≠ .upsert) :
    Life.Keeps op op' := by
  intro life hsettled
  refine ⟨?_, fun hupsert => absurd hupsert hop⟩
  cases life with
  | absent =>
      cases hkind : op'.op with
      | upsert => exact absurd hkind hop'
      | update =>
          simp only [Life.next, hkind]
          trivial
      | delete =>
          simp only [Life.next, hkind]
          exact fun hupsert => absurd hupsert hop
  | gone delHlc =>
      cases hkind : op'.op with
      | upsert => exact absurd hkind hop'
      | update =>
          simp only [Life.next, hkind]
          exact hsettled.1
      | delete =>
          simp only [Life.next, hkind]
          exact fun hupsert => absurd hupsert hop
  | alive delHlc offered =>
      cases hkind : op'.op with
      | upsert => exact absurd hkind hop'
      | update =>
          simp only [Life.next, hkind]
          intro hwrites write hwrite
          obtain ⟨other, hother, hle⟩ := hsettled.1 hwrites write hwrite
          exact ⟨other, List.mem_append_left _ hother, hle⟩
      | delete =>
          simp only [Life.next, hkind]
          split
          · exact fun hupsert => absurd hupsert hop
          · exact hsettled.1

/-- Upserts that write the same fields, each with its own clock: where the first is refused, what the
second writes is newer. -/
theorem keeps_of_same_fields {op op' : RowOp} (hop : op.op = .upsert) (hop' : op'.op = .upsert)
    (hclocks : op.clocks = none) (hclocks' : op'.clocks = none)
    (hfields : ∀ key : String, key ∈ op.set.getD ∅ → key ∈ op'.set.getD ∅) : Life.Keeps op op' := by
  intro life hsettled
  cases life with
  | absent => exact absurd rfl (hsettled.2 hop)
  | gone delHlc =>
      simp only [Life.next, hop']
      split
      · rename_i hnewer
        refine ⟨fun _ write hwrite => ?_, fun _ habsent => by cases habsent⟩
        obtain ⟨entry, hentry, rfl⟩ := List.mem_map.mp hwrite
        have hmem : entry.1 ∈ op'.set.getD ∅ := by
          apply hfields
          rw [Std.ExtTreeMap.mem_iff_isSome_getElem?,
            Std.ExtTreeMap.mem_toList_iff_getElem?_eq_some.mp hentry]
          rfl
        obtain ⟨value, hvalue⟩ := Option.isSome_iff_exists.mp
          (Std.ExtTreeMap.mem_iff_isSome_getElem?.mp hmem)
        refine ⟨(entry.1, op'.clockFor entry.1), List.mem_map.mpr ⟨(entry.1, value),
          Std.ExtTreeMap.mem_toList_iff_getElem?_eq_some.mpr hvalue, rfl⟩, rfl, ?_⟩
        have hfor : op.clockFor entry.1 = op.hlc := by simp [RowOp.clockFor, hclocks]
        have hfor' : op'.clockFor entry.1 = op'.hlc := by simp [RowOp.clockFor, hclocks']
        have hrefused := hsettled.1 hop
        cases delHlc with
        | none => cases hrefused
        | some d =>
            rw [hlcNewer_some] at hnewer
            have hle : op.hlc ≤ d := by
              apply not_lt.mp
              intro hlt
              rw [hlcNewer_some.mpr hlt] at hrefused
              cases hrefused
            simp only [hfor, hfor']
            exact hle.trans hnewer.le
      · exact ⟨hsettled.1, fun _ habsent => by cases habsent⟩
  | alive delHlc offered =>
      simp only [Life.next, hop']
      refine ⟨fun hwrites write hwrite => ?_, fun _ habsent => by cases habsent⟩
      obtain ⟨other, hother, hle⟩ := hsettled.1 hwrites write hwrite
      exact ⟨other, List.mem_append_left _ hother, hle⟩

theorem repeats_of_distinct (h : (ops.map RowOp.key).Nodup) (key : RowKey) :
    Repeats (ops.filter (·.key = key)) := by
  apply repeats_of_keeps
  intro op hop op' hop' life hsettled
  obtain ⟨hop, hkey⟩ := List.mem_filter.mp hop
  obtain ⟨hop', hkey'⟩ := List.mem_filter.mp hop'
  have heq : op = op' := by
    apply List.inj_on_of_nodup_map h hop hop'
    simp only [decide_eq_true_eq] at hkey hkey'
    rw [hkey, hkey']
  rw [heq]
  exact Life.settled_next life op'

end Repeats

namespace RegistryDoc

section Own

/-- The ops that one call enqueues: updates and deletes, or one op for each row, or upserts of rows
each as a whole. -/
def OwnOps (ops : List RowOp) : Prop :=
  (∀ op ∈ ops, op.op ≠ .upsert) ∨ (ops.map RowOp.key).Nodup ∨
    ∀ op ∈ ops, op.op = .upsert ∧ op.clocks = none ∧
      ∀ op' ∈ ops, op'.key = op.key → ∀ key : String, key ∈ op.set.getD ∅ → key ∈ op'.set.getD ∅

theorem OwnOps.sublist {ops ops' : List RowOp} (h : OwnOps ops) (hsub : ops'.Sublist ops) :
    OwnOps ops' := by
  obtain hwrites | hdistinct | hupserts := h
  · exact .inl fun op hop => hwrites op (hsub.subset hop)
  · exact .inr (.inl (hdistinct.sublist (hsub.map _)))
  · refine .inr (.inr fun op hop => ?_)
    obtain ⟨hkind, hclocks, hfields⟩ := hupserts op (hsub.subset hop)
    exact ⟨hkind, hclocks, fun op' hop' => hfields op' (hsub.subset hop')⟩

theorem OwnOps.repeats (h : OwnOps ops) (key : RowKey) :
    Repeats (ops.filter (·.key = key)) := by
  obtain hwrites | hdistinct | hupserts := h
  · apply repeats_of_keeps
    intro op hop op' hop'
    exact keeps_of_no_upsert (hwrites op (List.mem_filter.mp hop).1)
      (hwrites op' (List.mem_filter.mp hop').1)
  · exact repeats_of_distinct hdistinct key
  · apply repeats_of_keeps
    intro op hop op' hop'
    obtain ⟨hop, hkey⟩ := List.mem_filter.mp hop
    obtain ⟨hop', hkey'⟩ := List.mem_filter.mp hop'
    simp only [decide_eq_true_eq] at hkey hkey'
    obtain ⟨hkind, hclocks, hfields⟩ := hupserts op hop
    obtain ⟨hkind', hclocks', -⟩ := hupserts op' hop'
    exact keeps_of_same_fields hkind hkind' hclocks hclocks'
      (hfields op' hop' (hkey'.trans hkey.symm))

theorem replay_eq_applyAll (key : RowKey) (row : Option RegistryRow) (ops : List RowOp) :
    replay key row ops = applyAll row (ops.filter (·.key = key)) := by
  induction ops generalizing row with
  | nil => rfl
  | cons op ops ih =>
      change replay key (overlayOp key row op) ops = _
      rw [ih]
      by_cases hkey : op.key = key
      · subst hkey
        rw [overlayOp_eq, List.filter_cons, if_pos (by simp), applyAll_cons]
      · rw [overlayOp, if_neg hkey, List.filter_cons, if_neg (by simpa using hkey)]

theorem OwnOps.replay_replay (h : OwnOps ops) (key : RowKey) (row : Option RegistryRow) :
    replay key (replay key row ops) ops = replay key row ops := by
  rw [replay_eq_applyAll, replay_eq_applyAll]
  exact h.repeats key row

/-- Every pending batch comes from one call. -/
structure Owned (doc : RegistryDoc) : Prop where
  sound : doc.Sound
  own : ∀ b ∈ doc.pending, OwnOps b.ops

theorem mem_chunkOps_sublist {turns : Nat} {ops chunk : List RowOp}
    (h : chunk ∈ chunkOps turns ops) : chunk.Sublist ops := by
  induction turns generalizing ops with
  | zero => cases h
  | succ turns ih =>
      cases ops with
      | nil => cases h
      | cons op ops =>
          rw [chunkOps, List.mem_cons] at h
          obtain rfl | h := h
          · exact List.take_sublist _ _
          · exact (ih h).trans (List.drop_sublist _ _)

theorem Owned.enqueueOps {doc : RegistryDoc} (h : doc.Owned) (wall : Nat → Int)
    (hops : OwnOps ops) : (doc.enqueueOps wall ops).Owned := by
  refine ⟨(enqueued_enqueueOps doc wall ops).sound h.sound, fun b hb => ?_⟩
  obtain ⟨fresh, hpending, hfresh⟩ := doc.enqueueOps_pending wall ops
  rw [hpending] at hb
  obtain hb | hb := List.mem_append.mp hb
  · exact h.own b hb
  · have hchunk : b.ops ∈ chunkOps ops.length ops := hfresh ▸ List.mem_map_of_mem hb
    exact hops.sublist (mem_chunkOps_sublist hchunk)

theorem Owned.nextHlc {doc : RegistryDoc} (h : doc.Owned) (nowMs : Int) :
    (doc.nextHlc nowMs).2.Owned :=
  ⟨(enqueued_nextHlc doc nowMs).sound h.sound, h.own⟩

variable {doc : RegistryDoc} {wall : Nat → Int}

theorem Owned.write (h : doc.Owned) (kind id : String) (op : OpKind) (set : FieldMap JsonValue) :
    (doc.write wall kind id op set).Owned :=
  (h.nextHlc (wall 0)).enqueueOps _ (.inr (.inl (List.nodup_singleton _)))

theorem Owned.updateRow (h : doc.Owned) (kind id : String) (set : FieldMap JsonValue) :
    (doc.updateRow wall kind id set).1.Owned := by
  unfold RegistryDoc.updateRow
  split
  · exact h.write ..
  · exact h

theorem Owned.deleteRowOps (h : doc.Owned) (keys : List RowKey) :
    (doc.deleteRowOps wall keys).Owned := by
  apply (h.nextHlc (wall 0)).enqueueOps
  refine .inl fun op hop => ?_
  obtain ⟨key, -, rfl⟩ := List.mem_map.mp hop
  exact fun hupsert => by cases hupsert

theorem Owned.mergeDevice (h : doc.Owned) (serde : Serde) (order : HashOrder)
    (source target : String) : (doc.mergeDevice serde order wall source target).1.Owned := by
  unfold RegistryDoc.mergeDevice
  split
  · exact h
  · apply (h.nextHlc (wall 0)).enqueueOps
    refine .inl fun op hop => ?_
    obtain ⟨touched, -, rfl⟩ := List.mem_map.mp hop
    unfold Touched.stamped
    dsimp only
    split
    · exact fun hupsert => by cases hupsert
    · exact fun hupsert => by cases hupsert

theorem mem_fields {entries : List (String × JsonValue)} {key : String} :
    key ∈ fields entries ↔ key ∈ entries.map (·.1) := by
  have hfold : ∀ set : FieldMap JsonValue,
      key ∈ entries.foldl (fun set entry => set.insert entry.1 entry.2) set ↔
        key ∈ set ∨ key ∈ entries.map (·.1) := by
    induction entries with
    | nil => simp
    | cons entry entries ih =>
        intro set
        rw [List.foldl_cons, ih, Std.ExtTreeMap.mem_insert, List.map_cons, List.mem_cons,
          Std.LawfulEqCmp.compare_eq_iff_eq, eq_comm (a := key)]
        tauto
  have hempty := hfold ∅
  simpa [fields] using hempty

def namesOf (kind : String) : List String :=
  if kind = kindDevices then ["id", "name", "platform", "lastSeenAt", "createdAt", "version"]
  else if kind = kindSpaces then
    ["id", "deviceId", "path", "name", "gitDetected", "gitCheckedAt", "checkoutId", "createdAt"]
  else if kind = kindChats then
    ["id", "deviceId", "title", "archived", "cwd", "branch", "checkoutId", "config",
      "lastMessagePreview", "lastMessageAt", "createdAt", "harnessSessionId", "harnessSessionCwd",
      "spaceId", "lastSeenAt"]
  else ["chatId", "deviceId", "status", "startedAt", "updatedAt"]

theorem migratedRows_fields {state : WorkspaceState} {row : Migrated}
    (h : row ∈ migratedRows state) (key : String) : key ∈ row.set ↔ key ∈ namesOf row.key.kind := by
  simp only [migratedRows, List.mem_append, List.mem_map] at h
  obtain ((⟨device, -, rfl⟩ | ⟨space, -, rfl⟩) | ⟨chat, -, rfl⟩) | ⟨session, -, rfl⟩ := h
  · exact mem_fields
  · exact mem_fields
  · exact mem_fields
  · exact mem_fields

theorem ownOps_migrated (state : WorkspaceState) : OwnOps ((migratedRows state).map (·.op)) := by
  refine .inr (.inr fun op hop => ?_)
  obtain ⟨row, hrow, rfl⟩ := List.mem_map.mp hop
  refine ⟨rfl, rfl, fun op' hop' hkey key hmem => ?_⟩
  obtain ⟨row', hrow', rfl⟩ := List.mem_map.mp hop'
  have hkind : row'.key.kind = row.key.kind := congrArg RowKey.kind hkey
  apply (migratedRows_fields hrow' key).mpr
  rw [hkind]
  exact (migratedRows_fields hrow key).mp hmem

theorem Owned.enqueueChunks (h : doc.Owned) {chunks : List (List RowOp)}
    (hchunks : ∀ chunk ∈ chunks, OwnOps chunk) : (doc.enqueueChunks wall chunks).Owned := by
  induction chunks generalizing doc wall with
  | nil => exact h
  | cons ops chunks ih =>
      exact ih (h.enqueueOps (fun _ => wall 0) (hchunks ops List.mem_cons_self))
        fun chunk hchunk => hchunks chunk (List.mem_cons_of_mem _ hchunk)

theorem ownOps_seeds (order : HashOrder) {rows : List RegistryRow}
    (h : rows.Pairwise fun a b => a.key ≠ b.key) :
    OwnOps ((order.arrange rows).map rowToSeedOp) := by
  refine .inr (.inl ?_)
  have hkeys : ((order.arrange rows).map rowToSeedOp).map RowOp.key =
      (order.arrange rows).map RegistryRow.key := by
    rw [List.map_map]
    exact List.map_congr_left fun row _ => rowToSeedOp_key row
  rw [hkeys, ((order.perm rows).map RegistryRow.key).nodup_iff]
  exact List.pairwise_map.mpr h

theorem Owned.applyState (h : doc.Owned) (order : HashOrder) (seq : Nat) (full : Bool)
    (gcFloor : Nat) (rows : List RegistryRow) :
    (doc.applyState order wall seq full gcFloor rows).1.Owned := by
  have hkeyed := h.sound.keyed.pairwise
  unfold RegistryDoc.applyState
  dsimp only
  split
  · exact ⟨{ h.sound with keyed := h.sound.keyed.putRows rows }, h.own⟩
  · split
    · have hput : Owned { doc with
          generation := doc.generation + 1, authoritative := doc.authoritative.putRows rows
          serverSeq := seq, gcFloor } :=
        ⟨{ h.sound with keyed := h.sound.keyed.putRows rows }, h.own⟩
      split
      · exact hput
      · exact hput.enqueueOps wall (ownOps_seeds order hkeyed)
    · have hput : Owned { doc with
          generation := doc.generation + 1, authoritative := RowTable.putRows ∅ rows
          serverSeq := seq, gcFloor } :=
        ⟨{ h.sound with keyed := RowTable.keyed_empty.putRows rows }, h.own⟩
      split
      · exact hput
      · exact hput.enqueueOps wall (ownOps_seeds order (hkeyed.filter _))

theorem Owned.call (h : doc.Owned) (serde : Serde) (order : HashOrder) (call : Call) :
    (call.run serde order wall doc).Owned := by
  cases call with
  | upsertDevice _ | upsertSpace _ | upsertChat _ | upsertSession _ | claimChat _ _ _ _ =>
      exact h.write ..
  | renameDevice _ _ | setDeviceLastSeen _ _ | renameSpace _ _ | setSpaceGit _ _ _ _
  | renameChat _ _ | setChatArchived _ _ | setChatRoomGen _ _ | setChatBranch _ _ | setChatCwd _ _
  | setChatCheckout _ _ | setChatConfig _ _ | setChatHarnessSession _ _ _
  | setChatLastMessage _ _ _ => exact h.updateRow ..
  | mergeDevice source target => exact h.mergeDevice serde order source target
  | deleteSpace spaceId => exact h.deleteRowOps _
  | deleteChat chatId =>
      exact h.deleteRowOps [{ kind := kindChats, id := chatId }, { kind := kindSessions, id := chatId }]
  | setChatSeen chatId at' =>
      simp only [Call.run, setChatSeen]
      split
      · exact h
      · split
        · exact h
        · exact h.write ..
  | seedFromWorkspace state =>
      apply h.enqueueChunks
      exact fun chunk hchunk => (ownOps_migrated state).sublist (mem_chunkOps_sublist hchunk)
  | applyState seq full gcFloor rows => exact h.applyState order seq full gcFloor rows

theorem Owned.applyRows (h : doc.Owned) (seq : Nat) (rows : List RegistryRow) :
    (doc.applyRows seq rows).Owned :=
  ⟨h.sound.applyRows, h.own⟩

theorem Owned.ackBatch (h : doc.Owned) (batch : String) (seq : Nat) :
    (doc.ackBatch batch seq).1.Owned := by
  refine ⟨h.sound.ackBatch batch seq, fun b hb => ?_⟩
  obtain ⟨generation, -, heq⟩ := doc.ackBatch_fst batch seq
  rw [heq] at hb
  exact h.own b (List.mem_of_mem_filter hb)

theorem Owned.mark (h : doc.Owned) (inFlight : Bool) :
    Owned { doc with pending := doc.pending.map fun b => { b with inFlight } } := by
  refine ⟨h.sound.mark fun _ => inFlight, fun b hb => ?_⟩
  obtain ⟨b', hb', rfl⟩ := List.mem_map.mp hb
  exact h.own b' hb'

/-- A replica as it comes about: its own calls, frames of its room, connections made and lost. -/
inductive Built (serde : Serde) : RegistryDoc → Prop
  | new (deviceId : String) : Built serde (.new deviceId)
  | call {doc : RegistryDoc} (order : HashOrder) (wall : Nat → Int) (call : Call) :
      Built serde doc → Built serde (call.run serde order wall doc)
  | rows {doc : RegistryDoc} (seq : Nat) (rows : List RegistryRow) :
      Built serde doc → Built serde (doc.applyRows seq rows)
  | ack {doc : RegistryDoc} (batch : String) (seq : Nat) :
      Built serde doc → Built serde (doc.ackBatch batch seq).1
  | push {doc : RegistryDoc} : Built serde doc → Built serde doc.takePushable.2
  | disconnect {doc : RegistryDoc} : Built serde doc → Built serde doc.markDisconnected

theorem Built.owned {serde : Serde} (h : Built serde doc) : doc.Owned := by
  induction h with
  | new deviceId => exact ⟨sound_new deviceId, nofun⟩
  | call order wall call _ ih => exact ih.call serde order call
  | rows seq rows _ ih => exact ih.applyRows seq rows
  | ack batch seq _ ih => exact ih.ackBatch batch seq
  | push _ ih => exact ih.mark true
  | disconnect _ ih => exact ih.mark false

end Own

end RegistryDoc

section Pushes

/-- What the room sends the device for a batch: the rows that it changed, then the acknowledgement. -/
def Room.answer (room : Room) (b : PendingBatch) : List ServerFrame :=
  let applied := (room.touched b.ops).2
  let room' := room.applyBatch b.ops
  if 0 < applied then
    [.rows room'.seq (room.touched b.ops).1.rows, .ack b.batch room'.seq applied]
  else
    [.ack b.batch room'.seq applied]

def Room.answers (room : Room) : List PendingBatch → List ServerFrame
  | [] => []
  | b :: batches => room.answer b ++ (room.applyBatch b.ops).answers batches

namespace RegistryDoc

variable (order : HashOrder) (wall : Nat → Int)

def takeFrames (doc : RegistryDoc) (frames : List ServerFrame) : RegistryDoc :=
  frames.foldl (fun doc frame => doc.handleFrame order wall frame) doc

/-- The row under all that is pending, a tombstone too. -/
def shownRow (doc : RegistryDoc) (key : RowKey) : Option RegistryRow :=
  replay key doc.authoritative[key]? doc.pendingOps

variable {order} {wall} {doc : RegistryDoc} {room : Room}

theorem shownRow_cons {b : PendingBatch} (hpending : doc.pending = b :: batches) (key : RowKey) :
    doc.shownRow key = replay key (replay key doc.authoritative[key]? b.ops)
      (batches.flatMap (·.ops)) := by
  rw [shownRow, pendingOps, hpending, List.flatMap_cons, replay_append]

theorem shownRow_rows {b : PendingBatch} (doc' : RegistryDoc)
    (hpending : doc.pending = b :: batches) (hpending' : doc'.pending = doc.pending)
    (hown : OwnOps b.ops) (hkeyed : room.rows.Keyed)
    (hsame : ∀ key : RowKey, doc.authoritative[key]? = room.rows[key]?)
    (hsame' : ∀ key : RowKey, doc'.authoritative[key]? = (room.applyBatch b.ops).rows[key]?)
    (key : RowKey) : SameShown (doc'.shownRow key) (doc.shownRow key) := by
  rw [shownRow_cons hpending, shownRow_cons (hpending'.trans hpending), hsame, hsame']
  apply SameShown.replay
  have hrows := (sameShown_applyBatch hkeyed b.ops key).replay key b.ops
  rwa [hown.replay_replay] at hrows

theorem shownRow_ack {b : PendingBatch} {doc' : RegistryDoc} (hpending : doc.pending = b :: batches)
    (hpending' : doc'.pending = batches)
    (hkeyed : room.rows.Keyed)
    (hsame : ∀ key : RowKey, doc.authoritative[key]? = room.rows[key]?)
    (hsame' : ∀ key : RowKey, doc'.authoritative[key]? = (room.applyBatch b.ops).rows[key]?)
    (key : RowKey) : SameShown (doc'.shownRow key) (doc.shownRow key) := by
  rw [shownRow_cons hpending, hsame, shownRow, pendingOps, hpending', hsame']
  exact (sameShown_applyBatch hkeyed b.ops key).replay key _

theorem ackBatch_head {b : PendingBatch} (hpending : doc.pending = b :: batches)
    (hdistinct : (doc.pending.map (·.batch)).Nodup)
    (seq : Nat) : (doc.ackBatch b.batch seq).1.pending = batches ∧
      (doc.ackBatch b.batch seq).1.authoritative = doc.authoritative := by
  obtain ⟨generation, -, heq⟩ := doc.ackBatch_fst b.batch seq
  rw [heq]
  refine ⟨?_, rfl⟩
  dsimp only
  rw [hpending] at hdistinct ⊢
  obtain ⟨hfresh, -⟩ := List.nodup_cons.mp hdistinct
  rw [List.filter_cons, if_neg (by simp)]
  apply List.filter_eq_self.mpr
  intro other hother
  have hne : other.batch ≠ b.batch := by
    intro heq
    exact hfresh (List.mem_map.mpr ⟨other, hother, heq⟩)
  simpa using hne

/-- Whatever part of the answers has come, the rows under what is pending are the same. -/
theorem shownRow_takeFrames (howned : doc.Owned) (hpending : doc.pending = batches)
    (hsame : ∀ key : RowKey, doc.authoritative[key]? = room.rows[key]?) {frames : List ServerFrame}
    (hframes : frames <+: room.answers batches) (key : RowKey) :
    SameShown ((doc.takeFrames order wall frames).shownRow key) (doc.shownRow key) := by
  induction batches generalizing doc room frames with
  | nil =>
      rw [List.prefix_nil.mp hframes]
      rfl
  | cons b batches ih =>
      have hkeyed : room.rows.Keyed := fun k r hr => howned.sound.keyed k r ((hsame k).trans hr)
      have hown : OwnOps b.ops := howned.own b (hpending ▸ List.mem_cons_self)
      have hack (doc' : RegistryDoc) (howned' : doc'.Owned) (hpending' : doc'.pending = doc.pending)
          (hsame' : ∀ key : RowKey,
            doc'.authoritative[key]? = (room.applyBatch b.ops).rows[key]?) (seq : Nat)
          (rest : List ServerFrame) (hrest : rest <+: (room.applyBatch b.ops).answers batches) :
          SameShown (((doc'.ackBatch b.batch seq).1.takeFrames order wall rest).shownRow key)
            (doc.shownRow key) := by
        obtain ⟨hacked, hrows⟩ := ackBatch_head (hpending'.trans hpending) howned'.sound.distinct seq
        have hsame'' : ∀ key : RowKey, (doc'.ackBatch b.batch seq).1.authoritative[key]? =
            (room.applyBatch b.ops).rows[key]? := by
          rw [hrows]
          exact hsame'
        exact (ih (howned'.ackBatch b.batch seq) hacked hsame'' hrest).trans
          (shownRow_ack hpending hacked hkeyed hsame hsame'' key)
      have htouches := Room.touches_touched hkeyed b.ops
      rw [Room.answers, Room.answer] at hframes
      by_cases happlied : 0 < (room.touched b.ops).2
      · have hsame' : ∀ key : RowKey,
            (doc.authoritative.putRows (room.touched b.ops).1.rows)[key]? =
              (room.applyBatch b.ops).rows[key]? := by
          intro key
          have htop : (room.touched b.ops).1.Keyed := fun k r hr => (htouches.stamped k r hr).1
          rw [Room.applyBatch, if_pos happlied]
          rw [RowTable.getElem?_putRows_rows _ htop, RowTable.getElem?_putRows_rows _ htop, hsame]
        rw [if_pos happlied] at hframes
        obtain rfl | ⟨rest, rfl, hrest⟩ := List.prefix_cons_iff.mp hframes
        · rfl
        · obtain rfl | ⟨rest', rfl, hrest'⟩ := List.prefix_cons_iff.mp hrest
          · exact shownRow_rows (doc.applyRows _ _) hpending rfl hown hkeyed hsame hsame' key
          · exact hack _ (howned.applyRows _ _) rfl hsame' _ rest' hrest'
      · have hsame' : ∀ key : RowKey,
            doc.authoritative[key]? = (room.applyBatch b.ops).rows[key]? := by
          rw [Room.applyBatch, if_neg happlied]
          exact hsame
        rw [if_neg happlied] at hframes
        obtain rfl | ⟨rest, rfl, hrest⟩ := List.prefix_cons_iff.mp hframes
        · rfl
        · exact hack doc howned rfl hsame' _ rest hrest

theorem SameShown.live {a b : Option RegistryRow} (h : SameShown a b) :
    SameShown (a.filter (! ·.deleted)) (b.filter (! ·.deleted)) := by
  have hlive : ∀ row : Option RegistryRow,
      (row.filter (! ·.deleted)).map (fun row => { row with seq := 0 }) =
        (row.map fun row => { row with seq := 0 }).filter (! ·.deleted) := by
    intro row
    cases row with
    | none => rfl
    | some row =>
        cases hdeleted : row.deleted with
        | true | false => simp [Option.filter, hdeleted]
  unfold SameShown
  rw [hlive, hlive, h]

/-- **The overlay predicts the room.** A replica that has the room's rows shows the same rows before it
pushes its batches, after each of the frames that answer them, and at the end. -/
theorem overlay_predicts {serde : Serde} (hbuilt : Built serde doc)
    (hsame : ∀ key : RowKey, doc.authoritative[key]? = room.rows[key]?)
    {frames : List ServerFrame} (hframes : frames <+: room.answers doc.pending) (key : RowKey) :
    SameShown ((doc.takeFrames order wall frames).overlayRow key) (doc.overlayRow key) :=
  SameShown.live (shownRow_takeFrames hbuilt.owned rfl hsame hframes key)

/-- A chat is claimed, and its row has come back but not the acknowledgement. -/
theorem overlay_predicts_claimed :
    let doc := oneChat.claimChat (fun _ => 2000) "c2" none none 2000
    let room : Room := { rows := oneChat.authoritative, seq := 1, gcFloor := 0 }
    ∀ key, SameShown ((doc.takeFrames .byKey (fun _ => 2000)
      ((room.answers doc.pending).take 1)).overlayRow key) (doc.overlayRow key) := by
  intro doc room key
  let serde : Serde := { space := fun _ => none, chat := fun _ => none, session := fun _ => none }
  have hbuilt : Built serde doc :=
    .call .byKey (fun _ => 2000) (.claimChat "c2" none none 2000) (.rows 1 _ (.new "phone"))
  exact overlay_predicts hbuilt (fun _ => rfl) (List.take_prefix 1 _) key

end RegistryDoc

end Pushes

end Zeron.Registry
