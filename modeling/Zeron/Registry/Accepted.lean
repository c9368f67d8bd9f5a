import Zeron.Registry.Validate
import Zeron.Registry.Writers

/-!
# Which calls the room accepts

The writers never get the shape of an op wrong: kinds, field names, the batch cap and the fields of
a delete are always right. What is left to their arguments is the pattern of the ids, the clock and
the size.
-/

namespace Zeron.Registry

open Zeron.Lib.Digits

section Stamps

theorem length_zeroPad_ms {ms : Nat} (h : ms < 10 ^ 13) : (zeroPad 13 ms).length = 13 := by
  have hdigits : (Nat.toDigits 10 ms).length ≤ 13 :=
    (Nat.length_toDigits_le_iff (by decide) (by decide)).mpr h
  change ((Nat.toDigits 10 ms).leftpad 13 '0').length = 13
  rw [List.leftpad, List.length_append, List.length_replicate]
  omega

theorem digits_dash_inj {digits digits' rest rest' : List Char}
    (hdigits : ∀ c ∈ digits, c.isDigit = true) (hdigits' : ∀ c ∈ digits', c.isDigit = true)
    (h : digits ++ '-' :: rest = digits' ++ '-' :: rest') : digits = digits' ∧ rest = rest' := by
  have hdash : '-'.isDigit = false := by decide
  induction digits generalizing digits' with
  | nil =>
      cases digits' with
      | nil => exact ⟨rfl, (List.cons.inj h).2⟩
      | cons d digits' =>
          have hd := hdigits' d List.mem_cons_self
          rw [← (List.cons.inj h).1, hdash] at hd
          cases hd
  | cons c digits ih =>
      cases digits' with
      | nil =>
          have hc := hdigits c List.mem_cons_self
          rw [(List.cons.inj h).1, hdash] at hc
          cases hc
      | cons d digits' =>
          obtain ⟨rfl, htail⟩ := List.cons.inj h
          obtain ⟨rfl, hrest⟩ := ih (fun c hc => hdigits c (List.mem_cons_of_mem _ hc))
            (fun c hc => hdigits' c (List.mem_cons_of_mem _ hc)) htail
          exact ⟨rfl, hrest⟩

theorem encodeHlc_toList (ms : Int) (counter : Nat) (device : String) :
    (encodeHlc ms counter device).toList =
      zeroPad 13 ms ++ '-' :: (zeroPad 6 counter ++ '-' :: device.toList) :=
  String.toList_ofList

theorem isHlc_encodeHlc_iff {ms : Int} {counter : Nat} {device : String} (h : counter ≤ 999999) :
    isHlc (encodeHlc ms counter device) = true ↔
      (0 ≤ ms ∧ ms < 10 ^ 13) ∧ isDevice device.toList = true := by
  rw [isHlc_iff, encodeHlc_toList]
  constructor
  · rintro ⟨digits, digits', device', heq, ⟨hlen, hdigits⟩, ⟨-, hdigits'⟩, hdevice⟩
    cases ms with
    | ofNat n =>
        obtain ⟨hms, hrest⟩ := digits_dash_inj (fun c => leftpad_isDigit) hdigits heq
        obtain ⟨-, hdev⟩ := digits_dash_inj (fun c => leftpad_isDigit) hdigits' hrest
        refine ⟨⟨Int.natCast_nonneg n, ?_⟩, hdev ▸ hdevice⟩
        have hdigitsLen : (Nat.toDigits 10 n).length ≤ 13 := by
          rw [← hlen, ← hms, List.leftpad, List.length_append]
          omega
        have hlt : (n : Int) < 10 ^ 13 := by
          exact_mod_cast (Nat.length_toDigits_le_iff (by decide) (by decide)).mp hdigitsLen
        exact hlt
    | negSucc n =>
        obtain ⟨d, digits, rfl⟩ := List.exists_cons_of_length_pos (l := digits) (by omega)
        have hd := hdigits d List.mem_cons_self
        rw [← (List.cons.inj heq).1] at hd
        exact absurd hd (by decide)
  · rintro ⟨⟨hpos, hlt⟩, hdevice⟩
    obtain ⟨n, rfl⟩ := Int.eq_ofNat_of_zero_le hpos
    have hn : n < 10 ^ 13 := by exact_mod_cast hlt
    exact ⟨zeroPad 13 n, zeroPad 6 counter, device.toList, rfl,
      ⟨length_zeroPad_ms hn, fun c => leftpad_isDigit⟩,
      ⟨length_zeroPad_counter h, fun c => leftpad_isDigit⟩, hdevice⟩

theorem length_encodeHlc {ms : Int} {counter : Nat} {device : String} (h : counter ≤ 999999)
    (hpos : 0 ≤ ms) (hlt : ms < 10 ^ 13) :
    (encodeHlc ms counter device).length = 21 + device.length := by
  obtain ⟨n, rfl⟩ := Int.eq_ofNat_of_zero_le hpos
  have hn : n < 10 ^ 13 := by exact_mod_cast hlt
  rw [← String.length_toList, encodeHlc_toList]
  simp only [List.length_append, List.length_cons, length_zeroPad_ms hn, length_zeroPad_counter h,
    String.length_toList]
  omega

end Stamps

variable {set : FieldMap JsonValue}

section Sizes

theorem isId_length {id : String} (h : isId id = true) : id.length ≤ 256 := by
  simp only [isId, decide_eq_true_eq] at h
  exact h.2.1

theorem isKind_length {kind : String} (h : isKind kind = true) : kind.length ≤ 32 := by
  unfold isKind at h
  split at h
  · cases h
  · rename_i c rest hkind
    simp only [decide_eq_true_eq] at h
    rw [← String.length_toList, hkind, List.length_cons]
    omega

theorem isPlain_of_isKind {kind : String} (h : isKind kind = true) :
    ∀ c ∈ kind.toList, IsPlain c := by
  unfold isKind at h
  split at h
  · cases h
  · rename_i c rest hkind
    simp only [decide_eq_true_eq, List.all_eq_true] at h
    rw [hkind]
    intro d hd
    obtain rfl | hd := List.mem_cons.mp hd
    · refine isPlain_of_isAlphanum ?_
      change (d.isUpper || d.isLower || d.isDigit) = true
      rw [h.1, Bool.or_true, Bool.true_or]
    · exact isPlain_of_isAlphanum (h.2.2 d hd)

theorem isHlc_length {hlc : Hlc} (h : isHlc hlc = true) : hlc.length ≤ 149 := by
  obtain ⟨ms, counter, device, hlc', ⟨hms, -⟩, ⟨hcounter, -⟩, hdevice⟩ := isHlc_iff.mp h
  simp only [isDevice, decide_eq_true_eq] at hdevice
  rw [← String.length_toList, hlc']
  simp only [List.length_append, List.length_cons]
  omega

theorem textLength_eq (op : RowOp) (hkind : isKind op.kind = true) (hid : isId op.id = true)
    (hhlc : isHlc op.hlc = true) :
    op.textLength = 42 + op.kind.length + op.id.length + op.hlc.length +
      (op.set.elim 0 fun set => 7 + fieldsLength set) +
      (op.clocks.elim 0 fun clocks => 10 + clocksLength clocks) := by
  have hop : jsonStringLength op.op.text = 8 := by cases op.op <;> decide
  unfold RowOp.textLength jsonCommas
  rw [jsonStringLength_of_plain (isPlain_of_isKind hkind), hop,
    jsonStringLength_of_plain (isPlain_of_isId hid),
    jsonStringLength_of_plain (isPlain_of_isHlc hhlc)]
  cases op.set <;> cases op.clocks <;> simp <;> omega

theorem validateOp_write_iff {kind id : String} {op : OpKind} {hlc : Hlc}
    (hkind : isKind kind = true) (hop : op ≠ .delete) (hset : ∀ key ∈ set.keys, isField key = true) :
    validateOp { kind, id, op, set := some set, hlc, clocks := none } = none ↔
      isId id = true ∧ isHlc hlc = true ∧
        49 + kind.length + id.length + hlc.length + fieldsLength set ≤ maxOpBytes := by
  have hfields : validateSet { kind, id, op, set := some set, hlc, clocks := none } = none := by
    cases op with
    | delete => exact absurd rfl hop
    | upsert | update => simpa [validateSet, List.find?_eq_none] using hset
  have hlength := textLength_eq { kind, id, op, set := some set, hlc, clocks := none } hkind
  simp only [Option.elim_some, Option.elim_none] at hlength
  rw [validateOp_eq_none_iff]
  constructor
  · rintro ⟨-, hid, hhlc, -, -, hsize⟩
    rw [hlength hid hhlc] at hsize
    exact ⟨hid, hhlc, by omega⟩
  · rintro ⟨hid, hhlc, hsize⟩
    refine ⟨hkind, hid, hhlc, hfields, by simp, ?_⟩
    rw [hlength hid hhlc]
    omega

theorem validateOp_delete_iff {kind id : String} {hlc : Hlc} (hkind : isKind kind = true) :
    validateOp { kind, id, op := .delete, set := none, hlc, clocks := none } = none ↔
      isId id = true ∧ isHlc hlc = true := by
  have hlength := textLength_eq { kind, id, op := .delete, set := none, hlc, clocks := none } hkind
  simp only [Option.elim_none] at hlength
  rw [validateOp_eq_none_iff]
  constructor
  · rintro ⟨-, hid, hhlc, -⟩
    exact ⟨hid, hhlc⟩
  · rintro ⟨hid, hhlc⟩
    refine ⟨hkind, hid, hhlc, rfl, by simp, ?_⟩
    rw [hlength hid hhlc, maxOpBytes]
    have hk := isKind_length hkind
    have hi := isId_length hid
    have hh := isHlc_length hhlc
    omega

end Sizes

section Batches

theorem refuses_eq_none_iff {ops : List RowOp} (hpos : 0 < ops.length)
    (hcap : ops.length ≤ maxBatchOps) :
    refuses ops = none ↔ ∀ op ∈ ops, validateOp op = none := by
  unfold refuses
  rw [if_neg (by omega), List.findSome?_eq_none_iff]
  simp only [Option.map_eq_none_iff]

namespace RegistryDoc

def enqueued (doc doc' : RegistryDoc) : List PendingBatch := doc'.pending.drop doc.pending.length

/-- The room refuses none of them. -/
def Accepted (doc doc' : RegistryDoc) : Prop :=
  ∀ batch ∈ doc.enqueued doc', refuses batch.ops = none

theorem pushBatches_pending (doc : RegistryDoc) (wall : Nat → Int) (chunks : List (List RowOp)) :
    ∃ fresh, (doc.pushBatches wall chunks).pending = doc.pending ++ fresh ∧
      fresh.map (·.ops) = chunks := by
  induction chunks generalizing doc wall with
  | nil => exact ⟨[], by simp [pushBatches], rfl⟩
  | cons ops chunks ih =>
      obtain ⟨fresh, hpending, hops⟩ := ih (doc.pushBatch (wall 0) ops) (fun i => wall (i + 1))
      refine ⟨{ batch := "b-" ++ (doc.nextHlc (wall 0)).1, ops, inFlight := false } :: fresh, ?_, ?_⟩
      · rw [pushBatches, hpending]
        exact List.append_assoc doc.pending [_] fresh
      · rw [List.map_cons, hops]

theorem enqueueOps_pending (doc : RegistryDoc) (wall : Nat → Int) (ops : List RowOp) :
    ∃ fresh, (doc.enqueueOps wall ops).pending = doc.pending ++ fresh ∧
      fresh.map (·.ops) = chunkOps ops.length ops := by
  unfold enqueueOps
  split
  · rename_i hempty
    rw [List.isEmpty_iff.mp hempty]
    exact ⟨[], by simp, rfl⟩
  · exact pushBatches_pending { doc with generation := doc.generation + 1 } wall _

theorem accepted_iff_of_pending {doc doc' : RegistryDoc} {fresh : List PendingBatch}
    {ops : List RowOp} (hpending : doc'.pending = doc.pending ++ fresh)
    (hfresh : fresh.map (·.ops) = chunkOps ops.length ops) :
    doc.Accepted doc' ↔ ∀ op ∈ ops, validateOp op = none := by
  have hchunk : ∀ chunk ∈ chunkOps ops.length ops,
      refuses chunk = none ↔ ∀ op ∈ chunk, validateOp op = none := by
    intro chunk h
    obtain ⟨hpos, hcap⟩ := chunkOps_length h
    exact refuses_eq_none_iff hpos (hcap.trans (by decide))
  have hbatches : doc.Accepted doc' ↔ ∀ chunk ∈ chunkOps ops.length ops, refuses chunk = none := by
    unfold Accepted enqueued
    rw [hpending, List.drop_left, ← hfresh, List.forall_mem_map]
  rw [hbatches]
  constructor
  · intro h op hop
    rw [← chunkOps_flatten (le_refl ops.length), List.mem_flatten] at hop
    obtain ⟨chunk, hmem, hop⟩ := hop
    exact (hchunk chunk hmem).mp (h chunk hmem) op hop
  · intro h chunk hmem
    refine (hchunk chunk hmem).mpr fun op hop => h op ?_
    rw [← chunkOps_flatten (le_refl ops.length), List.mem_flatten]
    exact ⟨chunk, hmem, hop⟩

theorem accepted_enqueueOps_iff {doc base : RegistryDoc} (wall : Nat → Int) (ops : List RowOp)
    (hbase : base.pending = doc.pending) :
    doc.Accepted (base.enqueueOps wall ops) ↔ ∀ op ∈ ops, validateOp op = none := by
  obtain ⟨fresh, hpending, hfresh⟩ := base.enqueueOps_pending wall ops
  rw [hbase] at hpending
  exact accepted_iff_of_pending hpending hfresh

theorem accepted_self (doc : RegistryDoc) : doc.Accepted doc := by
  simp [Accepted, enqueued]

section Fields

theorem isKind_devices : isKind kindDevices = true := by decide

theorem isKind_spaces : isKind kindSpaces = true := by decide

theorem isKind_chats : isKind kindChats = true := by decide

theorem isKind_sessions : isKind kindSessions = true := by decide

theorem insert_isField {key : String} {value : JsonValue}
    (h : ∀ field ∈ set.keys, isField field = true) (hkey : isField key = true) :
    ∀ field ∈ (set.insert key value).keys, isField field = true := by
  intro field hfield
  rw [Std.ExtTreeMap.mem_keys, Std.ExtTreeMap.mem_insert] at hfield
  obtain heq | hmem := hfield
  · rwa [← Std.LawfulEqCmp.compare_eq_iff_eq.mp heq]
  · exact h field (Std.ExtTreeMap.mem_keys.mpr hmem)

theorem fields_isField (entries : List (String × JsonValue)) (names : List String)
    (hnames : entries.map (·.1) = names) (h : ∀ name ∈ names, isField name = true) :
    ∀ field ∈ (fields entries).keys, isField field = true := by
  have hfold : ∀ set : FieldMap JsonValue, (∀ field ∈ set.keys, isField field = true) →
      ∀ field ∈ (entries.foldl (fun set entry => set.insert entry.1 entry.2) set).keys,
        isField field = true := by
    subst hnames
    induction entries with
    | nil => exact fun set hset => hset
    | cons entry entries ih =>
        intro set hset
        refine ih (fun name hname => h name (List.mem_cons_of_mem _ hname)) _ ?_
        exact insert_isField hset (h entry.1 List.mem_cons_self)
  exact hfold ∅ (by simp)

theorem device_set_isField (device : Device) : ∀ field ∈ device.set.keys, isField field = true :=
  fields_isField _ ["id", "name", "platform", "lastSeenAt", "createdAt", "version"] rfl (by decide)

theorem space_set_isField (space : Space) : ∀ field ∈ space.set.keys, isField field = true :=
  fields_isField _ ["id", "deviceId", "path", "name", "gitDetected", "gitCheckedAt", "checkoutId",
    "createdAt"] rfl (by decide)

theorem chat_seedSet_isField (chat : Chat) : ∀ field ∈ chat.seedSet.keys, isField field = true :=
  fields_isField _ ["id", "deviceId", "title", "archived", "cwd", "branch", "checkoutId", "config",
    "lastMessagePreview", "lastMessageAt", "createdAt", "harnessSessionId", "harnessSessionCwd",
    "spaceId", "lastSeenAt"] rfl (by decide)

theorem chat_set_isField (chat : Chat) : ∀ field ∈ chat.set.keys, isField field = true :=
  insert_isField (chat_seedSet_isField chat) (by decide)

theorem session_set_isField (session : Session) :
    ∀ field ∈ session.set.keys, isField field = true :=
  fields_isField _ ["chatId", "deviceId", "status", "startedAt", "updatedAt"] rfl (by decide)

end Fields

section Writes

/-- The device can stamp: its name is well-formed and its clock shows thirteen digits. -/
def StampFits (doc : RegistryDoc) (wall : Nat → Int) : Prop :=
  isDevice doc.deviceId.toList = true ∧
    0 ≤ (doc.clock.tick (wall 0)).lastMs ∧ (doc.clock.tick (wall 0)).lastMs < 10 ^ 13

instance (doc : RegistryDoc) (wall : Nat → Int) : Decidable (doc.StampFits wall) :=
  inferInstanceAs (Decidable (_ ∧ _))

/-- A write of these fields to this row can be stamped and stays within the size of an op. -/
def WriteFits (doc : RegistryDoc) (wall : Nat → Int) (kind id : String)
    (set : FieldMap JsonValue) : Prop :=
  doc.StampFits wall ∧ isId id = true ∧
    70 + kind.length + id.length + doc.deviceId.length + fieldsLength set ≤ maxOpBytes

instance (doc : RegistryDoc) (wall : Nat → Int) (kind id : String) (set : FieldMap JsonValue) :
    Decidable (doc.WriteFits wall kind id set) :=
  inferInstanceAs (Decidable (_ ∧ _))

variable {doc : RegistryDoc} {wall : Nat → Int}

theorem isHlc_nextHlc_iff : isHlc (doc.nextHlc (wall 0)).1 = true ↔ doc.StampFits wall := by
  refine (isHlc_encodeHlc_iff (doc.clock.tick_inRange (wall 0))).trans ?_
  rw [and_comm]
  rfl

theorem length_nextHlc (h : doc.StampFits wall) :
    (doc.nextHlc (wall 0)).1.length = 21 + doc.deviceId.length :=
  length_encodeHlc (doc.clock.tick_inRange (wall 0)) h.2.1 h.2.2

theorem accepted_afterStamp_iff (ops : List RowOp) :
    doc.Accepted ((doc.nextHlc (wall 0)).2.enqueueOps (fun i => wall (i + 1)) ops) ↔
      ∀ op ∈ ops, validateOp op = none :=
  accepted_enqueueOps_iff _ ops rfl

theorem validateOp_stamped_iff {kind id : String} {op : OpKind} (hkind : isKind kind = true)
    (hop : op ≠ .delete) (hset : ∀ key ∈ set.keys, isField key = true) :
    validateOp { kind, id, op, set := some set, hlc := (doc.nextHlc (wall 0)).1, clocks := none } =
      none ↔ doc.WriteFits wall kind id set := by
  rw [validateOp_write_iff hkind hop hset, isHlc_nextHlc_iff, and_left_comm]
  refine and_congr_right fun hstamp => and_congr_right fun _ => ?_
  rw [length_nextHlc hstamp]
  omega

theorem accepted_write_iff {kind id : String} {op : OpKind} (hkind : isKind kind = true)
    (hop : op ≠ .delete) (hset : ∀ key ∈ set.keys, isField key = true) :
    doc.Accepted (doc.write wall kind id op set) ↔ doc.WriteFits wall kind id set := by
  refine (accepted_afterStamp_iff _).trans ?_
  rw [List.forall_mem_singleton]
  exact validateOp_stamped_iff hkind hop hset

theorem accepted_updateRow_iff {kind id : String} (hkind : isKind kind = true)
    (hset : ∀ key ∈ set.keys, isField key = true) :
    doc.Accepted (doc.updateRow wall kind id set).1 ↔
      (doc.rowExists kind id = true → doc.WriteFits wall kind id set) := by
  unfold updateRow
  by_cases h : doc.rowExists kind id = true
  · rw [if_pos h, accepted_write_iff hkind (by simp) hset]
    simp [h]
  · rw [if_neg h]
    simp [h, accepted_self]

theorem accepted_deleteRowOps_iff {keys : List RowKey} (hkeys : keys ≠ [])
    (hkind : ∀ key ∈ keys, isKind key.kind = true) :
    doc.Accepted (doc.deleteRowOps wall keys) ↔
      doc.StampFits wall ∧ ∀ key ∈ keys, isId key.id = true := by
  refine (accepted_afterStamp_iff _).trans ?_
  rw [List.forall_mem_map]
  constructor
  · intro h
    have hvalid := fun key hkey => (validateOp_delete_iff (hkind key hkey)).mp (h key hkey)
    obtain ⟨key, hkey⟩ := List.exists_mem_of_ne_nil keys hkeys
    exact ⟨isHlc_nextHlc_iff.mp (hvalid key hkey).2, fun key hkey => (hvalid key hkey).1⟩
  · rintro ⟨hstamp, hids⟩ key hkey
    exact (validateOp_delete_iff (hkind key hkey)).mpr
      ⟨hids key hkey, isHlc_nextHlc_iff.mpr hstamp⟩

/-- The chats, spaces and sessions of the device that is merged away can be written under the ids
they carry, and the chats have room for where they move to. -/
def MergeFits (serde : Serde) (doc : RegistryDoc) (order : HashOrder) (wall : Nat → Int)
    (source target : String) : Prop :=
  let sourceSpaces := (doc.readSpaces serde order).filter (·.deviceId = source)
  let targetSpaces := (doc.readSpaces serde order).filter (·.deviceId = target)
  (doc.StampFits wall ∧ isId source = true) ∧
    (∀ chat ∈ (doc.readChats serde order).filter (·.deviceId = source),
      doc.WriteFits wall kindChats chat.id (rehomedChat sourceSpaces targetSpaces target chat)) ∧
    (∀ space ∈ sourceSpaces,
      if (lastWith (·.path = space.path) targetSpaces).isSome then isId space.id = true
      else doc.WriteFits wall kindSpaces space.id (rehomedSpace target)) ∧
    ∀ session ∈ (doc.readSessions serde order).filter (·.deviceId = source),
      isId session.chatId = true

theorem rehomedChat_isField (sourceSpaces targetSpaces : List Space) (target : String) (chat : Chat) :
    ∀ key ∈ (rehomedChat sourceSpaces targetSpaces target chat).keys, isField key = true := by
  have hset := fields_isField [("deviceId", .string target)] ["deviceId"] rfl (by decide)
  unfold rehomedChat
  simp only
  split
  · exact insert_isField (insert_isField hset (by decide)) (by decide)
  · split
    · exact insert_isField hset (by decide)
    · exact hset

theorem accepted_mergeDevice_iff {serde : Serde} {order : HashOrder} {source target : String}
    (h : ¬ (source = target ∨ ¬ doc.rowExists kindDevices source = true ∨
      ¬ doc.rowExists kindDevices target = true)) :
    doc.Accepted (doc.mergeDevice serde order wall source target).1 ↔
      doc.MergeFits serde order wall source target := by
  unfold mergeDevice
  rw [if_neg h]
  refine (accepted_afterStamp_iff _).trans ?_
  have hdelete : ∀ key : RowKey, isKind key.kind = true →
      (validateOp (Touched.stamped { key, set := none } (doc.nextHlc (wall 0)).1) = none ↔
        isId key.id = true ∧ doc.StampFits wall) := by
    intro key hkind
    rw [← isHlc_nextHlc_iff]
    exact validateOp_delete_iff hkind
  have hwrite : ∀ (key : RowKey) (set : FieldMap JsonValue), isKind key.kind = true →
      (∀ field ∈ set.keys, isField field = true) →
      (validateOp (Touched.stamped { key, set := some set } (doc.nextHlc (wall 0)).1) = none ↔
        doc.WriteFits wall key.kind key.id set) :=
    fun key set hkind hset => validateOp_stamped_iff hkind (by simp) hset
  have hspaceSet := fields_isField
    [("deviceId", .string target), ("gitCheckedAt", .null), ("checkoutId", .null)]
    ["deviceId", "gitCheckedAt", "checkoutId"] rfl (by decide)
  unfold mergeTouches MergeFits
  simp only [List.forall_mem_map, List.forall_mem_append, List.forall_mem_singleton]
  constructor
  · rintro ⟨⟨⟨hchats, hspaces⟩, hsessions⟩, hdevice⟩
    obtain ⟨hsource, hstamp⟩ := (hdelete _ isKind_devices).mp hdevice
    refine ⟨⟨hstamp, hsource⟩, fun chat h => ?_, fun space h => ?_, fun session h => ?_⟩
    · exact (hwrite _ _ isKind_chats (rehomedChat_isField _ _ _ _)).mp (hchats chat h)
    · have hvalid := hspaces space h
      split at hvalid
      · rename_i hcoalesced
        rw [if_pos hcoalesced]
        exact ((hdelete _ isKind_spaces).mp hvalid).1
      · rename_i hunique
        rw [if_neg hunique]
        exact (hwrite _ _ isKind_spaces hspaceSet).mp hvalid
    · exact ((hdelete _ isKind_sessions).mp (hsessions session h)).1
  · rintro ⟨⟨hstamp, hsource⟩, hchats, hspaces, hsessions⟩
    refine ⟨⟨⟨fun chat h => ?_, fun space h => ?_⟩, fun session h => ?_⟩, ?_⟩
    · exact (hwrite _ _ isKind_chats (rehomedChat_isField _ _ _ _)).mpr (hchats chat h)
    · have hfits := hspaces space h
      split
      · rename_i hcoalesced
        rw [if_pos hcoalesced] at hfits
        exact (hdelete _ isKind_spaces).mpr ⟨hfits, hstamp⟩
      · rename_i hunique
        rw [if_neg hunique] at hfits
        exact (hwrite _ _ isKind_spaces hspaceSet).mpr hfits
    · exact (hdelete _ isKind_sessions).mpr ⟨hsessions session h, hstamp⟩
    · exact (hdelete _ isKind_devices).mpr ⟨hsource, hstamp⟩

end Writes

section Migration

/-- A migrated row keeps its id, and its newest time is at most thirteen digits long. -/
def Migrated.Fits (row : Migrated) : Prop :=
  isId row.key.id = true ∧ row.ms < 10 ^ 13 ∧
    79 + row.key.kind.length + row.key.id.length + fieldsLength row.set ≤ maxOpBytes

theorem chunkOps_of_le {turns : Nat} {ops : List RowOp} (hpos : 0 < ops.length)
    (hcap : ops.length ≤ maxOpsPerBatch) : chunkOps (turns + 1) ops = [ops] := by
  cases ops with
  | nil => cases hpos
  | cons op ops =>
      rw [chunkOps, List.take_of_length_le hcap, List.drop_eq_nil_of_le hcap]
      cases turns <;> rfl

theorem enqueueChunks_pending (doc : RegistryDoc) (wall : Nat → Int) (chunks : List (List RowOp))
    (h : ∀ chunk ∈ chunks, 0 < chunk.length ∧ chunk.length ≤ maxOpsPerBatch) :
    ∃ fresh, (doc.enqueueChunks wall chunks).pending = doc.pending ++ fresh ∧
      fresh.map (·.ops) = chunks := by
  induction chunks generalizing doc wall with
  | nil => exact ⟨[], by simp [enqueueChunks], rfl⟩
  | cons ops chunks ih =>
      obtain ⟨hpos, hcap⟩ := h ops List.mem_cons_self
      obtain ⟨batch, hbatch, hone⟩ := doc.enqueueOps_pending (fun _ => wall 0) ops
      obtain ⟨fresh, hpending, hops⟩ := ih (doc.enqueueOps (fun _ => wall 0) ops)
        (fun i => wall (i + 1)) fun chunk hchunk => h chunk (List.mem_cons_of_mem _ hchunk)
      obtain ⟨turns, hturns⟩ := Nat.exists_eq_succ_of_ne_zero hpos.ne'
      rw [hturns, chunkOps_of_le hpos hcap] at hone
      refine ⟨batch ++ fresh, ?_, ?_⟩
      · rw [enqueueChunks, hpending, hbatch, List.append_assoc]
      · rw [List.map_append, hone, hops]
        rfl

theorem migratedRows_shape {state : WorkspaceState} {row : Migrated}
    (h : row ∈ migratedRows state) :
    isKind row.key.kind = true ∧ ∀ field ∈ row.set.keys, isField field = true := by
  simp only [migratedRows, List.mem_append, List.mem_map] at h
  obtain ((⟨device, -, rfl⟩ | ⟨space, -, rfl⟩) | ⟨chat, -, rfl⟩) | ⟨session, -, rfl⟩ := h
  · exact ⟨isKind_devices, device_set_isField device⟩
  · exact ⟨isKind_spaces, space_set_isField space⟩
  · exact ⟨isKind_chats, chat_seedSet_isField chat⟩
  · exact ⟨isKind_sessions, session_set_isField session⟩

theorem validateOp_migrated_iff {row : Migrated} (hkind : isKind row.key.kind = true)
    (hset : ∀ field ∈ row.set.keys, isField field = true) :
    validateOp row.op = none ↔ row.Fits := by
  have hstamp : isHlc (encodeHlc (max row.ms 1) 0 "migration") = true ↔ row.ms < 10 ^ 13 := by
    have hdevice : isDevice "migration".toList = true := by decide
    rw [isHlc_encodeHlc_iff (by decide)]
    simp only [hdevice, and_true]
    omega
  refine (validateOp_write_iff hkind (by simp) hset).trans ?_
  rw [hstamp]
  refine and_congr_right fun _ => and_congr_right fun hms => ?_
  rw [length_encodeHlc (by decide) (by omega) (by omega)]
  have hlength : "migration".length = 9 := by decide
  rw [hlength]
  omega

theorem accepted_seedFromWorkspace_iff {doc : RegistryDoc} {wall : Nat → Int}
    {state : WorkspaceState} :
    doc.Accepted (doc.seedFromWorkspace wall state).1 ↔
      ∀ row ∈ migratedRows state, row.Fits := by
  obtain ⟨fresh, hpending, hfresh⟩ := doc.enqueueChunks_pending wall
    (chunkOps ((migratedRows state).map (·.op)).length ((migratedRows state).map (·.op)))
    fun chunk h => chunkOps_length h
  rw [seedFromWorkspace, accepted_iff_of_pending hpending hfresh, List.forall_mem_map]
  refine forall_congr' fun row => forall_congr' fun hrow => ?_
  obtain ⟨hkind, hset⟩ := migratedRows_shape hrow
  exact validateOp_migrated_iff hkind hset

end Migration

end RegistryDoc

end Batches

section Seeds

/-- A row the room would take back as one op: its names and clocks are well-formed, and what it has
accumulated over many ops is still within the size of one. -/
def RegistryRow.SeedFits (row : RegistryRow) : Prop :=
  isKind row.kind = true ∧ isId row.id = true ∧ (∀ clock ∈ row.newest, isHlc clock = true) ∧
    (row.deleted = false →
      (∀ field ∈ row.fields.keys, isField field = true) ∧
        (∀ entry ∈ row.clocks.toList, isField entry.1 = true ∧ isHlc entry.2 = true) ∧
        59 + row.kind.length + row.id.length + (row.maxClock.getD (encodeHlc 0 0 "seed")).length +
          fieldsLength row.fields + clocksLength row.clocks ≤ maxOpBytes)

theorem isHlc_getD_iff {clock : Option Hlc} :
    isHlc (clock.getD (encodeHlc 0 0 "seed")) = true ↔ ∀ c ∈ clock, isHlc c = true := by
  have hseed : isHlc (encodeHlc 0 0 "seed") = true := by decide
  cases clock with
  | none => simp [hseed]
  | some c => simp

theorem validateOp_rowToSeedOp_iff (row : RegistryRow) :
    validateOp (rowToSeedOp row) = none ↔ row.SeedFits := by
  unfold rowToSeedOp RegistryRow.SeedFits RegistryRow.newest
  by_cases hdeleted : row.deleted = true
  · rw [if_pos hdeleted, if_pos hdeleted, ← isHlc_getD_iff]
    simp only [hdeleted, Bool.true_eq_false, false_implies, and_true]
    constructor
    · intro h
      have hkind := (validateOp_eq_none_iff.mp h).1
      exact ⟨hkind, (validateOp_delete_iff hkind).mp h⟩
    · rintro ⟨hkind, h⟩
      exact (validateOp_delete_iff hkind).mpr h
  · rw [if_neg hdeleted, if_neg hdeleted, ← isHlc_getD_iff, validateOp_eq_none_iff]
    have hlive : row.deleted = false := by simpa using hdeleted
    have hset : validateSet
        { kind := row.kind, id := row.id, op := .upsert, set := some row.fields
          hlc := row.maxClock.getD (encodeHlc 0 0 "seed"), clocks := some row.clocks } = none ↔
          ∀ field ∈ row.fields.keys, isField field = true := by
      simp [validateSet, List.find?_eq_none]
    have hlength := textLength_eq
      { kind := row.kind, id := row.id, op := .upsert, set := some row.fields
        hlc := row.maxClock.getD (encodeHlc 0 0 "seed"), clocks := some row.clocks }
    simp only [Option.elim_some] at hlength
    constructor
    · rintro ⟨hkind, hid, hhlc, hfields, hclocks, hsize⟩
      rw [hlength hkind hid hhlc] at hsize
      exact ⟨hkind, hid, hhlc, fun _ => ⟨hset.mp hfields,
        validateClocks_eq_none_iff.mp (hclocks row.clocks rfl), by omega⟩⟩
    · rintro ⟨hkind, hid, hhlc, hrow⟩
      obtain ⟨hfields, hclocks, hsize⟩ := hrow hlive
      refine ⟨hkind, hid, hhlc, hset.mpr hfields, ?_, ?_⟩
      · rintro clocks ⟨⟩
        exact validateClocks_eq_none_iff.mpr hclocks
      · rw [hlength hkind hid hhlc]
        omega

namespace RegistryDoc

/-- The rows a full answer makes the client push: all of them where the room is behind, else those
the room does not have. -/
def Seeds (doc : RegistryDoc) (seq : Nat) (full : Bool) (rows : List RegistryRow)
    (row : RegistryRow) : Prop :=
  full = true ∧ row ∈ doc.authoritative.rows ∧
    (seq < doc.serverSeq ∨ (RowTable.putRows ∅ rows)[row.key]? = none)

theorem accepted_applyState_iff (doc : RegistryDoc) (order : HashOrder) (wall : Nat → Int)
    (seq : Nat) (full : Bool) (gcFloor : Nat) (rows : List RegistryRow) :
    doc.Accepted (doc.applyState order wall seq full gcFloor rows).1 ↔
      ∀ row, doc.Seeds seq full rows row → row.SeedFits := by
  have hseeds : ∀ (base : RegistryDoc) (seeds : List RegistryRow), base.pending = doc.pending →
      (doc.Accepted (base.enqueueOps wall ((order.arrange seeds).map rowToSeedOp)) ↔
        ∀ row ∈ seeds, row.SeedFits) := by
    intro base seeds hbase
    rw [accepted_enqueueOps_iff wall _ hbase, List.forall_mem_map]
    refine forall_congr' fun row => ?_
    rw [order.mem_arrange, validateOp_rowToSeedOp_iff]
  -- An empty seed enqueues nothing, either way.
  have hif : ∀ (base : RegistryDoc) (seed : List RowOp),
      (if seed.isEmpty then base else base.enqueueOps wall seed) = base.enqueueOps wall seed := by
    intro base seed
    unfold enqueueOps
    split <;> rfl
  cases full with
  | false =>
      have hsame : doc.Accepted (doc.applyState order wall seq false gcFloor rows).1 := by
        simp [Accepted, enqueued, applyState]
      simp [hsame, Seeds]
  | true =>
      unfold applyState
      by_cases hbehind : seq < doc.serverSeq
      · simp only [not_true_eq_false, if_false, if_pos hbehind, hif]
        refine (hseeds _ _ ?_).trans ?_
        · rfl
        · simp [Seeds, hbehind]
      · have hfst : ∀ (base : RegistryDoc) (seed : List RowOp),
            (if seed.isEmpty then (base, StateOutcome.replaced)
              else (base.enqueueOps wall seed, .reseeded)).1 = base.enqueueOps wall seed := by
          intro base seed
          rw [← hif]
          split <;> rfl
        simp only [not_true_eq_false, if_false, if_neg hbehind, hfst]
        refine (hseeds _ _ ?_).trans ?_
        · rfl
        · simp [Seeds, hbehind]

end RegistryDoc

end Seeds

section Calls

namespace RegistryDoc

/-- What is left to the arguments of a call: ids, the stamp and the size of what it writes. -/
def Call.Fits (serde : Serde) (order : HashOrder) (wall : Nat → Int) (doc : RegistryDoc) :
    Call → Prop
  | .upsertDevice device => doc.WriteFits wall kindDevices device.id device.set
  | .renameDevice deviceId name => doc.rowExists kindDevices deviceId = true →
      doc.WriteFits wall kindDevices deviceId (fields [("name", .string name)])
  | .mergeDevice source target =>
      source ≠ target → doc.rowExists kindDevices source = true →
        doc.rowExists kindDevices target = true → doc.MergeFits serde order wall source target
  | .setDeviceLastSeen deviceId at' => doc.rowExists kindDevices deviceId = true →
      doc.WriteFits wall kindDevices deviceId (fields [("lastSeenAt", .int at')])
  | .upsertSpace space => doc.WriteFits wall kindSpaces space.id space.set
  | .renameSpace spaceId name => doc.rowExists kindSpaces spaceId = true →
      doc.WriteFits wall kindSpaces spaceId (fields [("name", optStr name)])
  | .setSpaceGit spaceId detected checkoutId checkedAt =>
      doc.rowExists kindSpaces spaceId = true → doc.WriteFits wall kindSpaces spaceId
        (fields [("gitDetected", .bool detected), ("checkoutId", optStr checkoutId),
          ("gitCheckedAt", .int checkedAt)])
  | .deleteSpace spaceId => doc.StampFits wall ∧ isId spaceId = true ∧
      ∀ chatId ∈ doc.chatIdsOf serde order spaceId, isId chatId = true
  | .upsertChat chat => doc.WriteFits wall kindChats chat.id chat.set
  | .claimChat chatId cwd spaceId createdAt =>
      doc.WriteFits wall kindChats chatId (claimSet doc.deviceId chatId cwd spaceId createdAt)
  | .setChatSeen chatId at' =>
      ∀ row ∈ doc.overlayRow { kind := kindChats, id := chatId }, seenBy row at' = false →
        doc.WriteFits wall kindChats chatId (fields [("lastSeenAt", .int at')])
  | .renameChat chatId title => doc.rowExists kindChats chatId = true →
      doc.WriteFits wall kindChats chatId (fields [("title", .string title)])
  | .setChatArchived chatId archived => doc.rowExists kindChats chatId = true →
      doc.WriteFits wall kindChats chatId (fields [("archived", .bool archived)])
  | .setChatRoomGen chatId roomGen => doc.rowExists kindChats chatId = true →
      doc.WriteFits wall kindChats chatId (fields [("roomGen", .int roomGen)])
  | .setChatBranch chatId branch => doc.rowExists kindChats chatId = true →
      doc.WriteFits wall kindChats chatId (fields [("branch", .string branch)])
  | .setChatCwd chatId cwd => doc.rowExists kindChats chatId = true →
      doc.WriteFits wall kindChats chatId (fields [("cwd", .string cwd)])
  | .setChatCheckout chatId checkoutId => doc.rowExists kindChats chatId = true →
      doc.WriteFits wall kindChats chatId (fields [("checkoutId", .string checkoutId)])
  | .setChatConfig chatId config => doc.rowExists kindChats chatId = true →
      doc.WriteFits wall kindChats chatId (fields [("config", config)])
  | .setChatHarnessSession chatId sessionId cwd => doc.rowExists kindChats chatId = true →
      doc.WriteFits wall kindChats chatId
        (fields [("harnessSessionId", .string sessionId), ("harnessSessionCwd", .string cwd)])
  | .setChatLastMessage chatId preview at' => doc.rowExists kindChats chatId = true →
      doc.WriteFits wall kindChats chatId
        (fields [("lastMessagePreview", .string preview), ("lastMessageAt", .int at')])
  | .deleteChat chatId => doc.StampFits wall ∧ isId chatId = true
  | .upsertSession session => doc.WriteFits wall kindSessions session.chatId session.set
  | .seedFromWorkspace state => ∀ row ∈ migratedRows state, row.Fits
  | .applyState seq full _ rows => ∀ row, doc.Seeds seq full rows row → row.SeedFits

theorem claimSet_isField (deviceId chatId : String) (cwd spaceId : Option String) (createdAt : Int) :
    ∀ field ∈ (claimSet deviceId chatId cwd spaceId createdAt).keys, isField field = true := by
  have hset := fields_isField [("id", .string chatId), ("deviceId", .string deviceId),
    ("createdAt", .int createdAt)] ["id", "deviceId", "createdAt"] rfl (by decide)
  unfold claimSet
  cases cwd with
  | none =>
      cases spaceId with
      | none => exact hset
      | some spaceId => exact insert_isField hset (by decide)
  | some cwd =>
      cases spaceId with
      | none => exact insert_isField hset (by decide)
      | some spaceId => exact insert_isField (insert_isField hset (by decide)) (by decide)

theorem accepted_deleteSpace_iff {serde : Serde} {doc : RegistryDoc} {order : HashOrder}
    {wall : Nat → Int} {spaceId : String} :
    doc.Accepted (doc.deleteSpace serde order wall spaceId).1 ↔
      doc.StampFits wall ∧ isId spaceId = true ∧
        ∀ chatId ∈ doc.chatIdsOf serde order spaceId, isId chatId = true := by
  unfold deleteSpace
  refine (accepted_deleteRowOps_iff (by simp) ?_).trans (and_congr_right fun _ => ?_)
  · intro key hkey
    simp only [List.mem_append, List.mem_flatMap, List.mem_cons, List.not_mem_nil, or_false] at hkey
    obtain ⟨id, -, rfl | rfl⟩ | rfl := hkey
    · exact isKind_chats
    · exact isKind_sessions
    · exact isKind_spaces
  · rw [List.forall_mem_append, List.forall_mem_flatMap, List.forall_mem_singleton, and_comm]
    refine and_congr_right fun _ => forall_congr' fun id => forall_congr' fun _ => ?_
    rw [List.forall_mem_cons, List.forall_mem_singleton, and_self]

theorem accepted_setChatSeen_iff {doc : RegistryDoc} {wall : Nat → Int} {chatId : String}
    {at' : Int} :
    doc.Accepted (doc.setChatSeen wall chatId at').1 ↔
      ∀ row ∈ doc.overlayRow { kind := kindChats, id := chatId }, seenBy row at' = false →
        doc.WriteFits wall kindChats chatId (fields [("lastSeenAt", .int at')]) := by
  have hset := fields_isField [("lastSeenAt", .int at')] ["lastSeenAt"] rfl (by decide)
  unfold setChatSeen
  cases hrow : doc.overlayRow { kind := kindChats, id := chatId } with
  | none => simp [accepted_self]
  | some row =>
      by_cases hseen : seenBy row at' = true
      · simp [hseen, accepted_self]
      · simp only [Option.mem_some_iff, forall_eq', hseen, true_implies]
        exact accepted_write_iff isKind_chats (by simp) hset

/-- **What the room accepts.** Every batch of a call passes exactly where the stamp, the ids and
the sizes of what the call writes do. -/
theorem accepted_iff_fits (serde : Serde) (order : HashOrder) (wall : Nat → Int) (doc : RegistryDoc)
    (call : Call) :
    doc.Accepted (call.run serde order wall doc) ↔ call.Fits serde order wall doc := by
  have hupdate {kind id : String} {set : FieldMap JsonValue} (hkind : isKind kind = true)
      (hset : ∀ key ∈ set.keys, isField key = true) :
      doc.Accepted (doc.updateRow wall kind id set).1 ↔
        (doc.rowExists kind id = true → doc.WriteFits wall kind id set) :=
    accepted_updateRow_iff hkind hset
  cases call with
  | upsertDevice device =>
      exact accepted_write_iff isKind_devices (by simp) (device_set_isField device)
  | renameDevice deviceId name =>
      exact hupdate isKind_devices (fields_isField _ ["name"] rfl (by decide))
  | mergeDevice source target =>
      by_cases h : source = target ∨ ¬ doc.rowExists kindDevices source = true ∨
          ¬ doc.rowExists kindDevices target = true
      · simp only [Call.run, mergeDevice, if_pos h, accepted_self, true_iff]
        intro hne hsource htarget
        exact absurd h (by simp [hne, hsource, htarget])
      · refine (accepted_mergeDevice_iff h).trans ⟨fun hfits _ _ _ => hfits, fun hfits => ?_⟩
        simp only [not_or, not_not] at h
        exact hfits h.1 h.2.1 h.2.2
  | setDeviceLastSeen deviceId at' =>
      exact hupdate isKind_devices (fields_isField _ ["lastSeenAt"] rfl (by decide))
  | upsertSpace space => exact accepted_write_iff isKind_spaces (by simp) (space_set_isField space)
  | renameSpace spaceId name =>
      exact hupdate isKind_spaces (fields_isField _ ["name"] rfl (by decide))
  | setSpaceGit spaceId detected checkoutId checkedAt =>
      exact hupdate isKind_spaces
        (fields_isField _ ["gitDetected", "checkoutId", "gitCheckedAt"] rfl (by decide))
  | deleteSpace spaceId => exact accepted_deleteSpace_iff
  | upsertChat chat => exact accepted_write_iff isKind_chats (by simp) (chat_set_isField chat)
  | claimChat chatId cwd spaceId createdAt =>
      exact accepted_write_iff isKind_chats (by simp) (claimSet_isField _ _ _ _ _)
  | setChatSeen chatId at' => exact accepted_setChatSeen_iff
  | renameChat chatId title => exact hupdate isKind_chats (fields_isField _ ["title"] rfl (by decide))
  | setChatArchived chatId archived =>
      exact hupdate isKind_chats (fields_isField _ ["archived"] rfl (by decide))
  | setChatRoomGen chatId roomGen =>
      exact hupdate isKind_chats (fields_isField _ ["roomGen"] rfl (by decide))
  | setChatBranch chatId branch =>
      exact hupdate isKind_chats (fields_isField _ ["branch"] rfl (by decide))
  | setChatCwd chatId cwd => exact hupdate isKind_chats (fields_isField _ ["cwd"] rfl (by decide))
  | setChatCheckout chatId checkoutId =>
      exact hupdate isKind_chats (fields_isField _ ["checkoutId"] rfl (by decide))
  | setChatConfig chatId config =>
      exact hupdate isKind_chats (fields_isField _ ["config"] rfl (by decide))
  | setChatHarnessSession chatId sessionId cwd =>
      exact hupdate isKind_chats
        (fields_isField _ ["harnessSessionId", "harnessSessionCwd"] rfl (by decide))
  | setChatLastMessage chatId preview at' =>
      exact hupdate isKind_chats
        (fields_isField _ ["lastMessagePreview", "lastMessageAt"] rfl (by decide))
  | deleteChat chatId =>
      refine (accepted_deleteRowOps_iff (by simp) ?_).trans (and_congr_right fun _ => ?_)
      · simpa using ⟨isKind_chats, isKind_sessions⟩
      · simp
  | upsertSession session =>
      exact accepted_write_iff isKind_sessions (by simp) (session_set_isField session)
  | seedFromWorkspace state => exact accepted_seedFromWorkspace_iff
  | applyState seq full gcFloor rows => exact doc.accepted_applyState_iff order wall seq full gcFloor rows

theorem fieldsLength_singleton (name : String) (value : JsonValue) :
    fieldsLength (fields [(name, value)]) = 3 + jsonStringLength name + value.textLength := by
  have hlist : (fields [(name, value)]).toList = [(name, value)] := rfl
  rw [fieldsLength, hlist]
  simp only [JsonValue.textLength, entriesLength, jsonCommas, List.length_singleton]
  omega

def oneChat : RegistryDoc :=
  (RegistryDoc.new "phone").applyRows 1
    [{ kind := kindChats, id := "c1", seq := 1, deleted := false, delHlc := none
       fields := fields [("id", .string "c1")]
       clocks := ({} : FieldMap Hlc).insert "id" (encodeHlc 1000 0 "desk") }]

def titleOf (letters : Nat) : String := String.ofList (List.replicate letters 'a')

theorem jsonStringLength_titleOf (letters : Nat) :
    jsonStringLength (titleOf letters) = letters + 2 := by
  have hplain : ∀ c ∈ (titleOf letters).toList, IsPlain c := by
    intro c hc
    rw [titleOf, String.toList_ofList] at hc
    rw [List.eq_of_mem_replicate hc]
    decide
  rw [jsonStringLength_of_plain hplain, titleOf, String.length_ofList, List.length_replicate]

/-- The title may be as long as its caller likes, and nothing on the way shortens it. -/
theorem longTitle_refused :
    ¬ oneChat.Accepted (oneChat.renameChat (fun _ => 2000) "c1" (titleOf 17000)).1 := by
  intro haccepted
  have hfits := (accepted_updateRow_iff isKind_chats
    (fields_isField [("title", .string (titleOf 17000))] ["title"] rfl (by decide))).mp haccepted
  obtain ⟨-, -, hsize⟩ := hfits (by decide)
  rw [fieldsLength_singleton, JsonValue.textLength, jsonStringLength_titleOf, maxOpBytes] at hsize
  omega

end RegistryDoc

end Calls

end Zeron.Registry
