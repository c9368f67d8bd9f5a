import Zeron.Registry.Accepted
import Zeron.Registry.Ahead

/-!
# The phone's writes to the registry

The queue of `RegistryDoc` in `RegistryCore.swift` and the writing methods of `WorkspaceStore.swift`.
Rows and ops are those of `Registry`; what the phone does in its own way is how it pads a time,
queues a batch and reads a row. `enqueue` makes one batch of whatever it is given, and only a seed
is cut into chunks below the room's cap.
-/

namespace Zeron.Ios.WorkspaceStore

open Registry

section Queue

/-- `String(n)` -/
def decimal : Int → List Char
  | .ofNat n => Nat.toDigits 10 n
  | .negSucc n => '-' :: Nat.toDigits 10 (n + 1)

/-- The zeros stand before everything, a sign included. -/
def pad (n : Int) (width : Nat) : List Char := (decimal n).leftpad width '0'

def encodeHlc (ms : Int) (counter : Nat) (device : String) : Hlc :=
  String.ofList (pad ms 13 ++ '-' :: (pad counter 6 ++ '-' :: device.toList))

def nextHlc (doc : RegistryDoc) (nowMs : Int) : Hlc × RegistryDoc :=
  let clock := doc.clock.tick nowMs
  (encodeHlc clock.lastMs clock.counter doc.deviceId, { doc with clock })

def enqueue (doc : RegistryDoc) (nowMs : Int) (ops : List RowOp) : RegistryDoc :=
  if ops.isEmpty then doc
  else
    let (hlc, doc) := nextHlc { doc with generation := doc.generation + 1 } nowMs
    { doc with pending := doc.pending ++ [{ batch := "b-" ++ hlc, ops, inFlight := false }] }

def enqueueChunks (doc : RegistryDoc) (wall : Nat → Int) : List (List RowOp) → RegistryDoc
  | [] => doc
  | ops :: chunks => enqueueChunks (enqueue doc (wall 0) ops) (fun i => wall (i + 1)) chunks

/-- The stride of `seedChunkOps`, which is the desktop's chunk of 400 ops. -/
def enqueueSeed (doc : RegistryDoc) (wall : Nat → Int) (ops : List RowOp) : RegistryDoc :=
  if ops.isEmpty then doc else enqueueChunks doc wall (RegistryDoc.chunkOps ops.length ops)

/-- `wall` is what the wall clock shows at each reading of one call, in order. -/
def write (doc : RegistryDoc) (wall : Nat → Int) (kind id : String) (op : OpKind)
    (set : FieldMap JsonValue) : RegistryDoc :=
  let (hlc, doc) := nextHlc doc (wall 0)
  enqueue doc (wall 1) [{ kind, id, op, set := some set, hlc, clocks := none }]

def deleteRows (doc : RegistryDoc) (wall : Nat → Int) (keys : List RowKey) : RegistryDoc :=
  let (hlc, doc) := nextHlc doc (wall 0)
  enqueue doc (wall 1) (keys.map fun key =>
    { kind := key.kind, id := key.id, op := .delete, set := none, hlc, clocks := none })

/-- `order` is the order in which the dictionaries hand out the rows: any. -/
def applyState (doc : RegistryDoc) (order : HashOrder) (wall : Nat → Int) (seq : Nat) (full : Bool)
    (gcFloor : Nat) (rows : List RegistryRow) : RegistryDoc × StateOutcome :=
  let doc := { doc with generation := doc.generation + 1 }
  if ¬ full then
    ({ doc with authoritative := doc.authoritative.putRows rows, serverSeq := seq, gcFloor },
      .delta)
  else if seq < doc.serverSeq then
    -- The server lost state: the local rows are the only copy.
    let seed := (order.arrange doc.authoritative.rows).map rowToSeedOp
    let doc := { doc with authoritative := doc.authoritative.putRows rows, serverSeq := seq, gcFloor }
    (enqueueSeed doc wall seed, .reseeded)
  else
    let incoming := RowTable.putRows ∅ rows
    let seed := (order.arrange
      (doc.authoritative.rows.filter fun row => incoming[row.key]?.isNone)).map rowToSeedOp
    let doc := { doc with authoritative := incoming, serverSeq := seq, gcFloor }
    if seed.isEmpty then (doc, .replaced) else (enqueueSeed doc wall seed, .reseeded)

end Queue

section Projection

def stringValue : JsonValue → Option String
  | .string text => some text
  | _ => none

/-- `truncated` is what `Int64` makes of a number that is not an integer. -/
def int64Value (truncated : String → Int) : JsonValue → Option Int
  | .int n => some n
  | .double text => some (truncated text)
  | _ => none

structure Space where
  id : String
  deviceId : String
  path : String
  createdAt : Int

structure Chat where
  id : String
  deviceId : String
  spaceId : Option String

/-- A space as `project` reads its row; none without a device or a path. -/
def projectSpace (truncated : String → Int) (row : RegistryRow) : Option Space :=
  match row.fields["deviceId"]?.bind stringValue, row.fields["path"]?.bind stringValue with
  | some deviceId, some path => some {
      id := (row.fields["id"]?.bind stringValue).getD row.id, deviceId, path
      createdAt := (row.fields["createdAt"]?.bind (int64Value truncated)).getD 0 }
  | _, _ => none

def projectChat (row : RegistryRow) : Option Chat :=
  (row.fields["deviceId"]?.bind stringValue).map fun deviceId => {
    id := (row.fields["id"]?.bind stringValue).getD row.id, deviceId
    spaceId := row.fields["spaceId"]?.bind stringValue }

/-- `spaces`: in creation order, then by id. -/
def spaces (truncated : String → Int) (doc : RegistryDoc) (order : HashOrder) : List Space :=
  ((doc.overlayRows order kindSpaces).filterMap (projectSpace truncated)).mergeSort fun a b =>
    a.createdAt < b.createdAt ∨ a.createdAt = b.createdAt ∧ a.id ≤ b.id

def chats (doc : RegistryDoc) (order : HashOrder) : List Chat :=
  (doc.overlayRows order kindChats).filterMap projectChat

end Projection

section Arguments

/-- `UUID().uuidString.lowercased()`: hexadecimal digits and hyphens, 36 of them. -/
structure Uuid where
  text : String
  length : text.length = 36
  digits : ∀ c ∈ text.toList, c ∈ ['0', '1', '2', '3', '4', '5', '6', '7', '8', '9', 'a', 'b', 'c',
    'd', 'e', 'f', '-']

structure ChatConfig where
  harness : String
  model : Option String
  reasoning : Option String
  modelOptions : FieldMap JsonValue
  sandbox : Option String

/-- A member that an encoder leaves out where there is no value. -/
def optionalMember (name : String) (value : Option String) : List (String × JsonValue) :=
  value.elim [] fun text => [(name, .string text)]

/-- `JSONValue(encodable:)` -/
def ChatConfig.encoded (config : ChatConfig) : JsonValue :=
  .object ([("harness", .string config.harness)] ++ optionalMember "model" config.model ++
    optionalMember "reasoning" config.reasoning ++
    [("modelOptions", .object config.modelOptions.toList)] ++
    optionalMember "sandbox" config.sandbox)

end Arguments

section Writes

variable (doc : RegistryDoc) (wall : Nat → Int)

/-- Field sets are updates, so the row has to be there. -/
def updateChat (chatId : String) (set : FieldMap JsonValue) : RegistryDoc :=
  if doc.rowExists kindChats chatId then write doc wall kindChats chatId .update set else doc

def setChatCheckout (chatId cwd branch : String) : RegistryDoc :=
  updateChat doc wall chatId (fields [("cwd", .string cwd), ("branch", .string branch)])

def createChatSet (nowMs : Int) (chatId : Uuid) (space : Space) (config : ChatConfig)
    (branch cwd : Option String) : FieldMap JsonValue :=
  let set := fields [("id", .string chatId.text), ("deviceId", .string space.deviceId),
    ("archived", .bool false), ("cwd", .string (cwd.getD space.path)),
    ("spaceId", .string space.id), ("createdAt", .int nowMs),
    -- Born on the second room format: there is nothing to migrate.
    ("roomGen", .int 2)]
  let set := branch.elim set fun branch => set.insert "branch" (.string branch)
  set.insert "config" config.encoded

/-- `chatId` is the identifier the call makes. -/
def createChat (chatId : Uuid) (space : Space) (config : ChatConfig) (branch cwd : Option String) :
    RegistryDoc :=
  write doc (fun i => wall (i + 1)) kindChats chatId.text .upsert
    (createChatSet (wall 0) chatId space config branch cwd)

def createSpaceSet (nowMs : Int) (spaceId : Uuid) (deviceId path : String) (gitDetected : Bool) :
    FieldMap JsonValue :=
  fields [("id", .string spaceId.text), ("deviceId", .string deviceId), ("path", .string path),
    ("gitDetected", .bool gitDetected), ("createdAt", .int nowMs)]

/-- The space of that folder. `same` is the equality of Swift's strings, which is up to canonical
equivalence. -/
def existingSpace (same : String → String → Bool) (truncated : String → Int) (order : HashOrder)
    (asked : RegistryDoc) (deviceId path : String) : Option Space :=
  (spaces truncated asked order).find? fun space => same space.deviceId deviceId && same space.path path

/-- `asked` is the document at the time of the call; the host's answer is awaited in between.
Returns the id of the space. -/
def createSpace (same : String → String → Bool) (truncated : String → Int) (order : HashOrder)
    (asked : RegistryDoc) (spaceId : Uuid) (deviceId path : String) (gitDetected viaHost : Bool) :
    RegistryDoc × String :=
  match existingSpace same truncated order asked deviceId path with
  | some existing => (doc, existing.id)
  | none =>
      if viaHost then (doc, spaceId.text)
      else
        (write doc (fun i => wall (i + 1)) kindSpaces spaceId.text .upsert
          (createSpaceSet (wall 0) spaceId deviceId path gitDetected), spaceId.text)

def setArchived (chatId : String) (archived : Bool) : RegistryDoc :=
  updateChat doc wall chatId (fields [("archived", .bool archived)])

/-- The marker the row shows is already current. -/
def seenBy (truncated : String → Int) (row : RegistryRow) (at' : Int) : Bool :=
  (row.fields["lastSeenAt"]?.bind (int64Value truncated)).any fun current => decide (at' ≤ current)

def markSeen (truncated : String → Int) (chatId : String) : RegistryDoc :=
  match doc.overlayRow { kind := kindChats, id := chatId } with
  | none => doc
  | some row =>
      if seenBy truncated row (wall 0) then doc
      else
        write doc (fun i => wall (i + 1)) kindChats chatId .update
          (fields [("lastSeenAt", .int (wall 0))])

def rename (chatId title : String) : RegistryDoc :=
  updateChat doc wall chatId (fields [("title", .string title)])

def setChatConfig (chatId : String) (config : ChatConfig) : RegistryDoc :=
  updateChat doc wall chatId (fields [("config", config.encoded)])

def deleteChat (chatId : String) : RegistryDoc :=
  deleteRows doc wall [{ kind := kindChats, id := chatId }, { kind := kindSessions, id := chatId }]

def chatsOf (same : String → String → Bool) (order : HashOrder) (spaceId : String) : List Chat :=
  (chats doc order).filter fun chat => chat.spaceId.any (same · spaceId)

def deleteSpace (same : String → String → Bool) (order : HashOrder) (spaceId : String) :
    RegistryDoc :=
  deleteRows doc wall
    (((chatsOf doc same order spaceId).flatMap fun chat =>
        [{ kind := kindChats, id := chat.id }, { kind := kindSessions, id := chat.id }]) ++
      [{ kind := kindSpaces, id := spaceId }])

end Writes

section Calls

/-- A call that may enqueue: the writing methods, and the answer to a hello with its re-seed. -/
inductive Call where
  | setChatCheckout (chatId cwd branch : String)
  | createChat (chatId : Uuid) (space : Space) (config : ChatConfig) (branch cwd : Option String)
  | createSpace (asked : RegistryDoc) (spaceId : Uuid) (deviceId path : String)
      (gitDetected viaHost : Bool)
  | setArchived (chatId : String) (archived : Bool)
  | markSeen (chatId : String)
  | rename (chatId title : String)
  | setChatConfig (chatId : String) (config : ChatConfig)
  | deleteChat (chatId : String)
  | deleteSpace (spaceId : String)
  | applyState (seq : Nat) (full : Bool) (gcFloor : Nat) (rows : List RegistryRow)

variable (same : String → String → Bool) (truncated : String → Int) (order : HashOrder)
  (wall : Nat → Int) (doc : RegistryDoc)

def Call.run : Call → RegistryDoc
  | .setChatCheckout chatId cwd branch => WorkspaceStore.setChatCheckout doc wall chatId cwd branch
  | .createChat chatId space config branch cwd =>
      WorkspaceStore.createChat doc wall chatId space config branch cwd
  | .createSpace asked spaceId deviceId path gitDetected viaHost =>
      (WorkspaceStore.createSpace doc wall same truncated order asked spaceId deviceId path
        gitDetected viaHost).1
  | .setArchived chatId archived => WorkspaceStore.setArchived doc wall chatId archived
  | .markSeen chatId => WorkspaceStore.markSeen doc wall truncated chatId
  | .rename chatId title => WorkspaceStore.rename doc wall chatId title
  | .setChatConfig chatId config => WorkspaceStore.setChatConfig doc wall chatId config
  | .deleteChat chatId => WorkspaceStore.deleteChat doc wall chatId
  | .deleteSpace spaceId => WorkspaceStore.deleteSpace doc wall same order spaceId
  | .applyState seq full gcFloor rows =>
      (WorkspaceStore.applyState doc order wall seq full gcFloor rows).1

/-- The chat, where there is one, can be written: the stamp, its id and the size of the op. -/
def UpdateFits (chatId : String) (set : FieldMap JsonValue) : Prop :=
  doc.rowExists kindChats chatId = true → doc.WriteFits wall kindChats chatId set

/-- What a call has to be given: the stamp, the ids, the sizes of what it writes and, for a space,
at most 249 chats that go with it. -/
def Call.Fits : Call → Prop
  | .setChatCheckout chatId cwd branch =>
      UpdateFits wall doc chatId (fields [("cwd", .string cwd), ("branch", .string branch)])
  | .createChat chatId space config branch cwd =>
      doc.WriteFits (fun i => wall (i + 1)) kindChats chatId.text
        (createChatSet (wall 0) chatId space config branch cwd)
  | .createSpace asked spaceId deviceId path gitDetected viaHost =>
      existingSpace same truncated order asked deviceId path = none → viaHost = false →
        doc.WriteFits (fun i => wall (i + 1)) kindSpaces spaceId.text
          (createSpaceSet (wall 0) spaceId deviceId path gitDetected)
  | .setArchived chatId archived =>
      UpdateFits wall doc chatId (fields [("archived", .bool archived)])
  | .markSeen chatId =>
      ∀ row ∈ doc.overlayRow { kind := kindChats, id := chatId },
        seenBy truncated row (wall 0) = false →
          doc.WriteFits (fun i => wall (i + 1)) kindChats chatId
            (fields [("lastSeenAt", .int (wall 0))])
  | .rename chatId title => UpdateFits wall doc chatId (fields [("title", .string title)])
  | .setChatConfig chatId config => UpdateFits wall doc chatId (fields [("config", config.encoded)])
  | .deleteChat chatId => doc.StampFits wall ∧ isId chatId = true
  | .deleteSpace spaceId =>
      (doc.StampFits wall ∧ isId spaceId = true ∧
        ∀ chat ∈ chatsOf doc same order spaceId, isId chat.id = true) ∧
      (chatsOf doc same order spaceId).length ≤ 249
  | .applyState seq full _ rows => ∀ row, doc.Seeds seq full rows row → row.SeedFits

end Calls

section Stamps

variable {doc : RegistryDoc} {nowMs : Int} {wall : Nat → Int}

theorem encodeHlc_of_nonneg {ms : Int} (h : 0 ≤ ms) (counter : Nat) (device : String) :
    encodeHlc ms counter device = Registry.encodeHlc ms counter device := by
  obtain ⟨n, rfl⟩ := Int.eq_ofNat_of_zero_le h
  rfl

theorem isHlc_encodeHlc_neg {ms : Int} (h : ms < 0) (counter : Nat) (device : String) :
    isHlc (encodeHlc ms counter device) = false := by
  obtain ⟨n, rfl⟩ := Int.eq_negSucc_of_lt_zero h
  rw [Bool.eq_false_iff]
  intro hvalid
  obtain ⟨digits, digits', device', heq, ⟨hlen, hdigits⟩, -, -⟩ := isHlc_iff.mp hvalid
  have hchars : (encodeHlc (.negSucc n) counter device).toList =
      List.replicate (13 - ('-' :: Nat.toDigits 10 (n + 1)).length) '0' ++
        '-' :: (Nat.toDigits 10 (n + 1) ++ '-' :: (pad counter 6 ++ '-' :: device.toList)) := by
    rw [encodeHlc, String.toList_ofList, pad, decimal, List.leftpad, List.append_assoc,
      List.cons_append]
  have hzero : ∀ c ∈ List.replicate (13 - ('-' :: Nat.toDigits 10 (n + 1)).length) '0',
      c.isDigit = true := by
    intro c hc
    rw [List.eq_of_mem_replicate hc]
    rfl
  rw [hchars] at heq
  obtain ⟨hzeros, -⟩ := digits_dash_inj hzero hdigits heq
  rw [← hzeros, List.length_replicate, List.length_cons] at hlen
  omega

theorem isHlc_nextHlc_iff : isHlc (nextHlc doc (wall 0)).1 = true ↔ doc.StampFits wall := by
  by_cases h : 0 ≤ (doc.clock.tick (wall 0)).lastMs
  · rw [← RegistryDoc.isHlc_nextHlc_iff]
    exact iff_of_eq (congrArg (isHlc · = true) (encodeHlc_of_nonneg h _ _))
  · refine iff_of_false ?_ fun hfits => h hfits.2.1
    rw [Bool.not_eq_true]
    exact isHlc_encodeHlc_neg (not_le.mp h) _ _

theorem nextHlc_of_fits (h : doc.StampFits wall) :
    (nextHlc doc (wall 0)).1 = (doc.nextHlc (wall 0)).1 :=
  encodeHlc_of_nonneg h.2.1 _ _

theorem validateOp_stamped_iff {kind id : String} {op : OpKind} {set : FieldMap JsonValue}
    (hkind : isKind kind = true) (hop : op ≠ .delete) (hset : ∀ key ∈ set.keys, isField key = true) :
    validateOp { kind, id, op, set := some set, hlc := (nextHlc doc (wall 0)).1, clocks := none } =
      none ↔ doc.WriteFits wall kind id set := by
  by_cases hfits : doc.StampFits wall
  · rw [nextHlc_of_fits hfits]
    exact RegistryDoc.validateOp_stamped_iff hkind hop hset
  · refine iff_of_false (fun hvalid => hfits ?_) fun hwrite => hfits hwrite.1
    exact isHlc_nextHlc_iff.mp ((validateOp_write_iff hkind hop hset).mp hvalid).2.1

end Stamps

section Batches

/-- The call puts these batches behind what was queued. -/
def Queues (doc doc' : RegistryDoc) (batches : List (List RowOp)) : Prop :=
  ∃ fresh, doc'.pending = doc.pending ++ fresh ∧ fresh.map (·.ops) = batches

/-- The overlay shows no write that the room can only reject. -/
def Clean (doc : RegistryDoc) : Prop := ∀ batch ∈ doc.pending, refuses batch.ops = none

variable {doc base doc' doc'' : RegistryDoc} {batches more : List (List RowOp)} {wall : Nat → Int}

theorem Queues.refl (doc : RegistryDoc) : Queues doc doc [] := ⟨[], by simp, rfl⟩

theorem Queues.trans (h : Queues doc doc' batches) (h' : Queues doc' doc'' more) :
    Queues doc doc'' (batches ++ more) := by
  obtain ⟨fresh, hpending, rfl⟩ := h
  obtain ⟨fresh', hpending', rfl⟩ := h'
  refine ⟨fresh ++ fresh', ?_, List.map_append⟩
  rw [hpending', hpending, List.append_assoc]

theorem Queues.accepted_iff (h : Queues doc doc' batches) :
    doc.Accepted doc' ↔ ∀ ops ∈ batches, refuses ops = none := by
  obtain ⟨fresh, hpending, rfl⟩ := h
  unfold RegistryDoc.Accepted RegistryDoc.enqueued
  rw [hpending, List.drop_left, List.forall_mem_map]

theorem Queues.clean_iff (h : Queues doc doc' batches) :
    Clean doc' ↔ Clean doc ∧ ∀ ops ∈ batches, refuses ops = none := by
  obtain ⟨fresh, hpending, rfl⟩ := h
  unfold Clean
  rw [hpending, List.forall_mem_append, List.forall_mem_map]

theorem queues_enqueue (hbase : base.pending = doc.pending) (nowMs : Int) {ops : List RowOp}
    (hops : ops ≠ []) : Queues doc (enqueue base nowMs ops) [ops] := by
  unfold enqueue
  rw [if_neg (by simpa using hops)]
  exact ⟨[_], congrArg (· ++ _) hbase, rfl⟩

theorem queues_write (doc : RegistryDoc) (wall : Nat → Int) (kind id : String) (op : OpKind)
    (set : FieldMap JsonValue) :
    Queues doc (write doc wall kind id op set)
      [[{ kind, id, op, set := some set, hlc := (nextHlc doc (wall 0)).1, clocks := none }]] :=
  queues_enqueue rfl _ (List.cons_ne_nil _ _)

theorem queues_enqueueChunks (wall : Nat → Int) {chunks : List (List RowOp)}
    (hchunks : ∀ chunk ∈ chunks, chunk ≠ []) (doc : RegistryDoc) :
    Queues doc (enqueueChunks doc wall chunks) chunks := by
  induction chunks generalizing doc wall with
  | nil => exact .refl doc
  | cons ops chunks ih =>
      have hfirst := queues_enqueue (rfl : doc.pending = doc.pending) (wall 0)
        (hchunks ops List.mem_cons_self)
      exact hfirst.trans (ih _ (fun chunk hchunk => hchunks chunk (List.mem_cons_of_mem _ hchunk)) _)

theorem queues_enqueueSeed (hbase : base.pending = doc.pending) (wall : Nat → Int)
    (ops : List RowOp) :
    Queues doc (enqueueSeed base wall ops) (RegistryDoc.chunkOps ops.length ops) := by
  have hqueues : Queues base (enqueueSeed base wall ops) (RegistryDoc.chunkOps ops.length ops) := by
    unfold enqueueSeed
    split
    · rename_i hempty
      rw [List.isEmpty_iff.mp hempty]
      exact .refl base
    · refine queues_enqueueChunks wall (fun chunk hchunk => ?_) base
      exact List.ne_nil_of_length_pos (RegistryDoc.chunkOps_length hchunk).1
  obtain ⟨fresh, hpending, hops⟩ := hqueues
  exact ⟨fresh, by rw [hpending, hbase], hops⟩

theorem chunks_taken_iff {ops : List RowOp} :
    (∀ chunk ∈ RegistryDoc.chunkOps ops.length ops, refuses chunk = none) ↔
      ∀ op ∈ ops, validateOp op = none := by
  have hchunk : ∀ chunk ∈ RegistryDoc.chunkOps ops.length ops,
      refuses chunk = none ↔ ∀ op ∈ chunk, validateOp op = none := by
    intro chunk h
    obtain ⟨hpos, hcap⟩ := RegistryDoc.chunkOps_length h
    exact refuses_eq_none_iff hpos (hcap.trans (by decide))
  calc
    (∀ chunk ∈ RegistryDoc.chunkOps ops.length ops, refuses chunk = none)
        ↔ ∀ chunk ∈ RegistryDoc.chunkOps ops.length ops, ∀ op ∈ chunk, validateOp op = none :=
      forall₂_congr hchunk
    _ ↔ ∀ op ∈ (RegistryDoc.chunkOps ops.length ops).flatten, validateOp op = none := by
      simp only [List.mem_flatten, forall_exists_index, and_imp]
      exact ⟨fun h op chunk hmem hop => h chunk hmem op hop,
        fun h chunk hmem op hop => h op chunk hmem hop⟩
    _ ↔ ∀ op ∈ ops, validateOp op = none := by
      rw [RegistryDoc.chunkOps_flatten (le_refl ops.length)]

theorem refuses_singleton_iff {op : RowOp} : refuses [op] = none ↔ validateOp op = none := by
  rw [refuses_eq_none_iff (by simp) (by simp [maxBatchOps]), List.forall_mem_singleton]

theorem refuses_iff {ops : List RowOp} (hpos : 0 < ops.length) :
    refuses ops = none ↔ ops.length ≤ maxBatchOps ∧ ∀ op ∈ ops, validateOp op = none := by
  by_cases hcap : ops.length ≤ maxBatchOps
  · rw [refuses_eq_none_iff hpos hcap, and_iff_right hcap]
  · refine iff_of_false ?_ fun h => hcap h.1
    unfold refuses
    rw [if_pos (Or.inr (not_le.mp hcap))]
    simp

end Batches

section Settled

/-- What a call queues passes exactly under the condition. -/
def Settles (doc doc' : RegistryDoc) (condition : Prop) : Prop :=
  ∃ batches, Queues doc doc' batches ∧ ((∀ ops ∈ batches, refuses ops = none) ↔ condition)

variable {doc : RegistryDoc} {wall : Nat → Int} {condition : Prop}

theorem Settles.accepted_iff {doc' : RegistryDoc} (h : Settles doc doc' condition) :
    doc.Accepted doc' ↔ condition := by
  obtain ⟨batches, hqueues, htaken⟩ := h
  exact hqueues.accepted_iff.trans htaken

theorem Settles.clean_iff {doc' : RegistryDoc} (h : Settles doc doc' condition) :
    Clean doc' ↔ Clean doc ∧ condition := by
  obtain ⟨batches, hqueues, htaken⟩ := h
  exact hqueues.clean_iff.trans (and_congr_right fun _ => htaken)

theorem settles_self (h : condition) : Settles doc doc condition :=
  ⟨[], .refl doc, by simpa using h⟩

theorem settles_write {kind id : String} {op : OpKind} {set : FieldMap JsonValue}
    (hkind : isKind kind = true) (hop : op ≠ .delete) (hset : ∀ key ∈ set.keys, isField key = true) :
    Settles doc (write doc wall kind id op set) (doc.WriteFits wall kind id set) := by
  refine ⟨_, queues_write doc wall kind id op set, ?_⟩
  rw [List.forall_mem_singleton, refuses_singleton_iff]
  exact validateOp_stamped_iff hkind hop hset

theorem settles_updateChat {chatId : String} {set : FieldMap JsonValue}
    (hset : ∀ key ∈ set.keys, isField key = true) :
    Settles doc (updateChat doc wall chatId set) (UpdateFits wall doc chatId set) := by
  unfold updateChat UpdateFits
  by_cases hrow : doc.rowExists kindChats chatId = true
  · simp only [hrow, if_true, true_implies]
    exact settles_write RegistryDoc.isKind_chats (by simp) hset
  · rw [if_neg hrow]
    exact settles_self fun h => absurd h hrow

theorem settles_deleteRows (doc : RegistryDoc) (wall : Nat → Int) (keys : List RowKey)
    (hkeys : keys ≠ []) (hkind : ∀ key ∈ keys, isKind key.kind = true) :
    Settles doc (deleteRows doc wall keys)
      (keys.length ≤ maxBatchOps ∧ doc.StampFits wall ∧ ∀ key ∈ keys, isId key.id = true) := by
  refine ⟨_, queues_enqueue rfl _ (by simpa using hkeys), ?_⟩
  rw [List.forall_mem_singleton, refuses_iff (by simpa using List.length_pos_of_ne_nil hkeys),
    List.length_map, List.forall_mem_map]
  refine and_congr_right fun _ => ⟨fun h => ?_, fun h key hkey => ?_⟩
  · have hvalid := fun key hkey => (validateOp_delete_iff (hkind key hkey)).mp (h key hkey)
    obtain ⟨key, hkey⟩ := List.exists_mem_of_ne_nil keys hkeys
    exact ⟨isHlc_nextHlc_iff.mp (hvalid key hkey).2, fun key hkey => (hvalid key hkey).1⟩
  · exact (validateOp_delete_iff (hkind key hkey)).mpr ⟨h.2 key hkey, isHlc_nextHlc_iff.mpr h.1⟩

/-- Each chat takes two ops, the space one. -/
theorem settles_deleteSpace (same : String → String → Bool) (truncated : String → Int)
    (order : HashOrder) (spaceId : String) :
    Settles doc (deleteSpace doc wall same order spaceId)
      ((Call.deleteSpace spaceId).Fits same truncated order wall doc) := by
  obtain ⟨batches, hqueues, htaken⟩ := settles_deleteRows doc wall
    (((chatsOf doc same order spaceId).flatMap fun chat =>
        [RowKey.mk kindChats chat.id, RowKey.mk kindSessions chat.id]) ++
      [RowKey.mk kindSpaces spaceId]) (by simp) (by
        intro key hkey
        simp only [List.mem_append, List.mem_flatMap, List.mem_cons, List.not_mem_nil,
          or_false] at hkey
        obtain ⟨chat, -, rfl | rfl⟩ | rfl := hkey
        · exact RegistryDoc.isKind_chats
        · exact RegistryDoc.isKind_sessions
        · exact RegistryDoc.isKind_spaces)
  refine ⟨batches, hqueues, htaken.trans ?_⟩
  have hlength : (((chatsOf doc same order spaceId).flatMap fun chat =>
        [RowKey.mk kindChats chat.id, RowKey.mk kindSessions chat.id]) ++
      [RowKey.mk kindSpaces spaceId]).length = 2 * (chatsOf doc same order spaceId).length + 1 := by
    rw [List.length_append, List.length_flatMap, List.length_singleton]
    simp [Nat.mul_comm]
  have hcap : 2 * (chatsOf doc same order spaceId).length + 1 ≤ maxBatchOps ↔
      (chatsOf doc same order spaceId).length ≤ 249 := by
    rw [maxBatchOps]
    omega
  rw [hlength, hcap, and_comm, List.forall_mem_append, List.forall_mem_flatMap,
    List.forall_mem_singleton]
  refine and_congr_left fun _ => and_congr_right fun _ => ?_
  rw [and_comm]
  refine and_congr_right fun _ => forall₂_congr fun chat _ => ?_
  rw [List.forall_mem_cons, List.forall_mem_singleton, and_self]

theorem settles_seed (wall : Nat → Int) (order : HashOrder) (base : RegistryDoc)
    (rows : List RegistryRow) (hbase : base.pending = doc.pending) :
    Settles doc (enqueueSeed base wall ((order.arrange rows).map rowToSeedOp))
      (∀ row ∈ rows, row.SeedFits) := by
  refine ⟨_, queues_enqueueSeed hbase wall _, chunks_taken_iff.trans ?_⟩
  rw [List.forall_mem_map]
  refine forall_congr' fun row => ?_
  rw [order.mem_arrange, validateOp_rowToSeedOp_iff]

theorem settles_applyState (order : HashOrder) (seq : Nat) (full : Bool) (gcFloor : Nat)
    (rows : List RegistryRow) :
    Settles doc (applyState doc order wall seq full gcFloor rows).1
      (∀ row, doc.Seeds seq full rows row → row.SeedFits) := by
  cases full with
  | false =>
      refine ⟨[], ⟨[], by simp [applyState], rfl⟩, ?_⟩
      simp [RegistryDoc.Seeds]
  | true =>
      unfold applyState
      by_cases hbehind : seq < doc.serverSeq
      · obtain ⟨batches, hqueues, htaken⟩ := @settles_seed doc wall order
          { doc with
            generation := doc.generation + 1
            authoritative := doc.authoritative.putRows rows, serverSeq := seq, gcFloor }
          doc.authoritative.rows rfl
        refine ⟨batches, ?_, htaken.trans ?_⟩
        · simpa only [not_true_eq_false, if_false, if_pos hbehind] using hqueues
        · simp [RegistryDoc.Seeds, hbehind]
      · obtain ⟨batches, hqueues, htaken⟩ := @settles_seed doc wall order
          { doc with
            generation := doc.generation + 1
            authoritative := RowTable.putRows ∅ rows, serverSeq := seq, gcFloor }
          (doc.authoritative.rows.filter fun row => (RowTable.putRows ∅ rows)[row.key]?.isNone) rfl
        -- An empty seed enqueues nothing, either way.
        have hif : ∀ (base : RegistryDoc) (seed : List RowOp),
            (if seed.isEmpty then (base, StateOutcome.replaced)
              else (enqueueSeed base wall seed, .reseeded)).1 = enqueueSeed base wall seed := by
          intro base seed
          unfold enqueueSeed
          split <;> rfl
        refine ⟨batches, ?_, htaken.trans ?_⟩
        · simpa only [not_true_eq_false, if_false, if_neg hbehind, hif] using hqueues
        · simp [RegistryDoc.Seeds, hbehind]

theorem createChatSet_isField (nowMs : Int) (chatId : Uuid) (space : Space) (config : ChatConfig)
    (branch cwd : Option String) :
    ∀ field ∈ (createChatSet nowMs chatId space config branch cwd).keys, isField field = true := by
  have hset := RegistryDoc.fields_isField [("id", .string chatId.text),
    ("deviceId", .string space.deviceId), ("archived", .bool false),
    ("cwd", .string (cwd.getD space.path)), ("spaceId", .string space.id), ("createdAt", .int nowMs),
    ("roomGen", .int 2)] ["id", "deviceId", "archived", "cwd", "spaceId", "createdAt", "roomGen"] rfl
    (by decide)
  simp only [createChatSet]
  refine RegistryDoc.insert_isField ?_ (by decide)
  cases branch with
  | none =>
      rw [Option.elim_none]
      exact hset
  | some branch =>
      rw [Option.elim_some]
      exact RegistryDoc.insert_isField hset (by decide)

theorem createSpaceSet_isField (nowMs : Int) (spaceId : Uuid) (deviceId path : String)
    (gitDetected : Bool) :
    ∀ field ∈ (createSpaceSet nowMs spaceId deviceId path gitDetected).keys, isField field = true :=
  RegistryDoc.fields_isField _ ["id", "deviceId", "path", "gitDetected", "createdAt"] rfl (by decide)

/-- One case for each method. -/
theorem settles_run (same : String → String → Bool) (truncated : String → Int) (order : HashOrder)
    (call : Call) :
    Settles doc (call.run same truncated order wall doc) (call.Fits same truncated order wall doc) := by
  cases call with
  | setChatCheckout chatId cwd branch =>
      exact settles_updateChat (RegistryDoc.fields_isField _ ["cwd", "branch"] rfl (by decide))
  | createChat chatId space config branch cwd =>
      simp only [Call.run, Call.Fits, createChat]
      exact settles_write RegistryDoc.isKind_chats (by simp) (createChatSet_isField _ _ _ _ _ _)
  | createSpace asked spaceId deviceId path gitDetected viaHost =>
      simp only [Call.run, Call.Fits, createSpace]
      cases hexisting : existingSpace same truncated order asked deviceId path with
      | some existing => exact settles_self (by simp)
      | none =>
          cases viaHost with
          | true => exact settles_self (by simp)
          | false =>
              simp only [Bool.false_eq_true, if_false, true_implies]
              exact settles_write RegistryDoc.isKind_spaces (by simp)
                (createSpaceSet_isField _ _ _ _ _)
  | setArchived chatId archived =>
      exact settles_updateChat (RegistryDoc.fields_isField _ ["archived"] rfl (by decide))
  | markSeen chatId =>
      simp only [Call.run, Call.Fits, markSeen]
      cases hrow : doc.overlayRow { kind := kindChats, id := chatId } with
      | none => exact settles_self (by simp)
      | some row =>
          simp only [Option.mem_some_iff, forall_eq']
          by_cases hseen : seenBy truncated row (wall 0) = true
          · rw [if_pos hseen]
            exact settles_self fun h => absurd hseen (by simp [h])
          · rw [if_neg hseen]
            simp only [Bool.not_eq_true] at hseen
            simp only [hseen, true_implies]
            exact settles_write RegistryDoc.isKind_chats (by simp)
              (RegistryDoc.fields_isField _ ["lastSeenAt"] rfl (by decide))
  | rename chatId title =>
      exact settles_updateChat (RegistryDoc.fields_isField _ ["title"] rfl (by decide))
  | setChatConfig chatId config =>
      exact settles_updateChat (RegistryDoc.fields_isField _ ["config"] rfl (by decide))
  | deleteChat chatId =>
      obtain ⟨batches, hqueues, htaken⟩ := settles_deleteRows doc wall
        [RowKey.mk kindChats chatId, RowKey.mk kindSessions chatId] (by simp)
        (by simpa using ⟨RegistryDoc.isKind_chats, RegistryDoc.isKind_sessions⟩)
      refine ⟨batches, hqueues, htaken.trans ?_⟩
      simp [Call.Fits, maxBatchOps]
  | deleteSpace spaceId => exact settles_deleteSpace same truncated order spaceId
  | applyState seq full gcFloor rows => exact settles_applyState order seq full gcFloor rows

/-- **What the phone enqueues.** Every batch of a call passes, and with it nothing new in the overlay
is a write the room can only reject, exactly where the stamp, the ids and the sizes of the call do
and a space goes with at most 249 chats. -/
theorem enqueues_accepted_iff (same : String → String → Bool) (truncated : String → Int)
    (order : HashOrder) (wall : Nat → Int) (doc : RegistryDoc) (call : Call) :
    (doc.Accepted (call.run same truncated order wall doc) ↔
      call.Fits same truncated order wall doc) ∧
    (Clean (call.run same truncated order wall doc) ↔
      Clean doc ∧ call.Fits same truncated order wall doc) := by
  have hsettles := @settles_run doc wall same truncated order call
  exact ⟨hsettles.accepted_iff, hsettles.clean_iff⟩

end Settled

section Crowded

/-- A name of `n + 1` letters. -/
def chatName (n : Nat) : String := String.ofList (List.replicate (n + 1) 'c')

def crowdedChat (n : Nat) : RegistryRow where
  kind := kindChats
  id := chatName n
  seq := 1
  deleted := false
  delHlc := none
  fields := fields [("id", .string (chatName n)), ("deviceId", .string "desk"),
    ("spaceId", .string "s1")]
  clocks := ["id", "deviceId", "spaceId"].foldl
    (fun clocks field => clocks.insert field (Registry.encodeHlc 1000 0 "desk")) ∅

def crowded (chats : Nat) : RegistryDoc :=
  (RegistryDoc.new "phone").applyRows 1 ((List.range chats).map crowdedChat)

theorem length_chatName (n : Nat) : (chatName n).length = n + 1 := by
  rw [chatName, String.length_ofList, List.length_replicate]

theorem crowdedChat_shown {chats n : Nat} (h : n < chats) :
    crowdedChat n ∈ (crowded chats).overlayRows .byKey kindChats := by
  have hkeyed : (crowded chats).authoritative.Keyed := RowTable.keyed_empty.putRows _
  refine (RegistryDoc.mem_overlayRows .byKey kindChats hkeyed).mpr ⟨rfl, ?_⟩
  have hstored : (crowded chats).authoritative[(crowdedChat n).key]? = some (crowdedChat n) := by
    refine (RowTable.getElem?_putRows _ _ _).trans ?_
    -- The length of a name tells which chat it is.
    refine Lib.overwrite_of_mem (fun key => some (crowdedChat (key.id.length - 1))) ?_ ?_
    · intro row hrow
      obtain ⟨i, -, rfl⟩ := List.mem_map.mp hrow
      change some (crowdedChat ((chatName i).length - 1)) = _
      rw [length_chatName, Nat.add_sub_cancel]
    · exact List.mem_map_of_mem (List.mem_range.mpr h)
  rw [RegistryDoc.overlayRow, hstored]
  rfl

theorem chat_of_crowded (n : Nat) :
    projectChat (crowdedChat n) =
      some { id := chatName n, deviceId := "desk", spaceId := some "s1" } := by
  have hfield {name : String} {value : JsonValue}
      (h : (name, value) ∈ [("id", JsonValue.string (chatName n)), ("deviceId", .string "desk"),
        ("spaceId", .string "s1")]) : (crowdedChat n).fields[name]? = some value :=
    fields_of_mem (by simp) h
  unfold projectChat
  rw [@hfield "id" (.string (chatName n)) (by simp), @hfield "deviceId" (.string "desk") (by simp),
    @hfield "spaceId" (.string "s1") (by simp)]
  rfl

theorem length_chatsOf_crowded (chats : Nat) :
    chats ≤ (chatsOf (crowded chats) (fun a b => decide (a = b)) .byKey "s1").length := by
  have hnames : ((List.range chats).map chatName).Nodup := by
    refine List.nodup_range.map fun m n h => ?_
    have hlength := congrArg String.length h
    rw [length_chatName, length_chatName] at hlength
    omega
  have hmany : (List.range chats).map chatName ⊆
      (chatsOf (crowded chats) (fun a b => decide (a = b)) .byKey "s1").map (·.id) := by
    intro name hname
    obtain ⟨n, hn, rfl⟩ := List.mem_map.mp hname
    refine List.mem_map.mpr ⟨_, List.mem_filter.mpr ⟨List.mem_filterMap.mpr
      ⟨crowdedChat n, crowdedChat_shown (List.mem_range.mp hn), chat_of_crowded n⟩, ?_⟩, rfl⟩
    simp
  have hlength := (hnames.subperm hmany).length_le
  rwa [List.length_map, List.length_map, List.length_range] at hlength

/-- The deletion of a space with 250 chats is one batch of 501 ops. -/
theorem crowded_refused :
    ¬ (crowded 250).Accepted (Call.run (fun a b => decide (a = b)) (fun _ => 0) .byKey
      (fun _ => 2000) (crowded 250) (.deleteSpace "s1")) := by
  intro haccepted
  obtain ⟨-, hfew⟩ := (settles_deleteSpace (fun a b => decide (a = b)) (fun _ => 0) .byKey
    "s1").accepted_iff.mp haccepted
  exact absurd (length_chatsOf_crowded 250) (by omega)

end Crowded

end Zeron.Ios.WorkspaceStore
