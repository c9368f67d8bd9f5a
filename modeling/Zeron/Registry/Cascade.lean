import Mathlib.Data.List.Perm.Subperm
import Zeron.Registry.Ahead
import Zeron.Registry.Raw

/-!
# The cascade of a space

`delete_space` takes the chats of a space from what it reads as chats and deletes the rows under the
ids it has read. A row that is not read, or that carries another id than its own, escapes it.
-/

namespace Zeron.Registry.RegistryDoc

section Specification

variable (doc doc' : RegistryDoc) (spaceId : String)

def chatRows : List RegistryRow :=
  (doc.overlayRows .byKey kindChats).filter fun row =>
    row.fields["spaceId"]? = some (.string spaceId)

/-- A session row of a chat stands under the chat's id or names the chat. -/
def OfChat (session chat : RegistryRow) : Prop :=
  session.id = chat.id ∨ session.fields["chatId"]? = some (.string chat.id)

instance (session chat : RegistryRow) : Decidable (OfChat session chat) :=
  inferInstanceAs (Decidable (_ ∨ _))

def InCascade (row : RegistryRow) : Prop :=
  row.key = { kind := kindSpaces, id := spaceId } ∨ row ∈ doc.chatRows spaceId ∨
    row.kind = kindSessions ∧ ∃ chat ∈ doc.chatRows spaceId, OfChat row chat

/-- From `doc` to `doc'` the space has gone with its chats and their sessions, and nothing else. -/
structure Cascades : Prop where
  space : doc'.overlayRow { kind := kindSpaces, id := spaceId } = none
  chats : doc'.chatRows spaceId = []
  sessions : ∀ session ∈ doc'.overlayRows .byKey kindSessions, ∀ chat ∈ doc.chatRows spaceId,
    ¬ OfChat session chat
  others : ∀ key, (∀ row ∈ doc.overlayRow key, ¬ doc.InCascade spaceId row) →
    doc'.overlayRow key = doc.overlayRow key
  capped : ∀ batch ∈ doc.enqueued doc', batch.ops.length ≤ maxOpsPerBatch
  once : ∀ key, (∃ row ∈ doc.overlayRow key, doc.InCascade spaceId row) →
    ((doc.newOps doc').filter (·.key = key)).map (·.op) = [.delete]

variable (config : JsonValue → Option JsonValue) (dt : Int → Int)

/-- The ids the chats of the space are read with are those of their rows, and a session row that
names one of them stands under one of these ids too. -/
structure Filed : Prop where
  chats : ((doc.chatRows spaceId).filterMap fun row =>
    (rawChat config dt row.fields).map (·.id)).Perm ((doc.chatRows spaceId).map (·.id))
  sessions : ∀ session ∈ doc.overlayRows .byKey kindSessions, ∀ chat ∈ doc.chatRows spaceId,
    OfChat session chat → session.id ∈ (doc.chatRows spaceId).map (·.id)

end Specification

section Reads

variable {doc : RegistryDoc} {spaceId : String} {config : JsonValue → Option JsonValue}
  {dt : Int → Int}

theorem mem_chatRows (hkeyed : doc.authoritative.Keyed) {row : RegistryRow} :
    row ∈ doc.chatRows spaceId ↔ row.kind = kindChats ∧ doc.overlayRow row.key = some row ∧
      row.fields["spaceId"]? = some (.string spaceId) := by
  rw [chatRows, List.mem_filter, mem_overlayRows .byKey kindChats hkeyed, and_assoc,
    decide_eq_true_iff]

theorem chatRows_ids (hkeyed : doc.authoritative.Keyed) :
    ((doc.chatRows spaceId).map (·.id)).Nodup :=
  (overlayRows_ids .byKey kindChats hkeyed).sublist (List.filter_sublist.map _)

theorem filter_rawChat (rows : List RegistryRow) :
    ((rows.filterMap fun row => rawChat config dt row.fields).filter
      (·.spaceId = some spaceId)).map (·.id) =
    (rows.filter fun row => row.fields["spaceId"]? = some (.string spaceId)).filterMap fun row =>
      (rawChat config dt row.fields).map (·.id) := by
  induction rows with
  | nil => rfl
  | cons row rows ih =>
      rw [List.filterMap_cons, List.filter_cons]
      cases hchat : rawChat config dt row.fields with
      | none =>
          dsimp only
          rw [ih]
          split
          · rw [List.filterMap_cons, hchat]
            rfl
          · rfl
      | some chat =>
          have hspace := (rawChat_fields hchat).2.2 spaceId
          dsimp only
          rw [List.filter_cons]
          by_cases hin : chat.spaceId = some spaceId
          · rw [if_pos (decide_eq_true hin), if_pos (decide_eq_true (hspace.mp hin)),
              List.filterMap_cons, hchat, List.map_cons, ih]
            rfl
          · rw [if_neg (by simpa using hin), if_neg (by simpa using fun h => hin (hspace.mpr h)), ih]

theorem chatIdsOf_perm (hkeyed : doc.authoritative.Keyed) (order : HashOrder) :
    (doc.chatIdsOf (raw config dt) order spaceId).Perm
      ((doc.chatRows spaceId).filterMap fun row => (rawChat config dt row.fields).map (·.id)) := by
  unfold chatIdsOf readChats readKind chatRows
  rw [← filter_rawChat]
  refine List.Perm.map _ (List.Perm.filter _ ?_)
  exact (List.mergeSort_perm _ _).trans ((overlayRows_perm order kindChats hkeyed .byKey).filterMap _)

end Reads

section Deleted

variable {doc doc' : RegistryDoc} {hlc : Hlc} {keys : List RowKey} {key : RowKey}

theorem overlayRow_deleted (hahead : doc.Ahead hlc) (h : doc.Enqueued (deleteOps keys hlc) doc')
    (hkey : key ∈ keys) : doc'.overlayRow key = none := by
  obtain ⟨op, hop, rfl, hdelete, hclocks, hstamp⟩ : ∃ op ∈ deleteOps keys hlc, op.key = key ∧
      op.op = .delete ∧ op.clocks = none ∧ op.hlc = hlc :=
    ⟨_, List.mem_map_of_mem hkey, rfl, rfl, rfl, rfl⟩
  rw [h.overlayRow_of_mem (uniform_deleteOps keys hlc) hop]
  exact hahead.delete hdelete hclocks hstamp

theorem overlayRow_kept (h : doc.Enqueued (deleteOps keys hlc) doc') (hkey : key ∉ keys) :
    doc'.overlayRow key = doc.overlayRow key := by
  refine h.overlayRow_of_not_mem fun op hop heq => hkey ?_
  obtain ⟨other, hother, rfl⟩ := List.mem_map.mp hop
  have heq : other = key := heq
  rwa [← heq]

theorem deleteOps_at (hnodup : keys.Nodup) (hkey : key ∈ keys) :
    ((deleteOps keys hlc).filter (·.key = key)).map (·.op) = [.delete] := by
  have hfilter : keys.filter (· = key) = [key] := by
    rw [List.filter_eq, List.count_eq_one_of_mem hnodup hkey]
    rfl
  unfold deleteOps
  rw [List.filter_map, List.map_map]
  change (keys.filter (· = key)).map _ = _
  rw [hfilter]
  rfl

theorem deleteRowOps_capped (doc : RegistryDoc) (wall : Nat → Int) (keys : List RowKey) :
    ∀ batch ∈ doc.enqueued (doc.deleteRowOps wall keys), batch.ops.length ≤ maxOpsPerBatch := by
  rw [deleteRowOps_eq_commit]
  obtain ⟨fresh, hpending, hfresh⟩ := enqueueOps_pending (doc.nextHlc (wall 0)).2
    (fun i => wall (i + 1)) (deleteOps keys (doc.nextHlc (wall 0)).1)
  intro batch hbatch
  have hpending : (doc.commit [wall 0] (fun i => wall (i + 1))
      (deleteOps keys (doc.nextHlc (wall 0)).1)).pending = doc.pending ++ fresh := hpending
  have hmem : batch ∈ fresh := by
    rw [enqueued, ← deleteOps, hpending, List.drop_left] at hbatch
    exact hbatch
  have hops := List.mem_map_of_mem (f := PendingBatch.ops) hmem
  rw [hfresh] at hops
  exact (chunkOps_length hops).2

end Deleted

section Cascade

/-- The keys that `delete_space` deletes. -/
def cascadeKeys (chatIds : List String) (spaceId : String) : List RowKey :=
  (chatIds.flatMap fun id => [{ kind := kindChats, id }, { kind := kindSessions, id }]) ++
    [{ kind := kindSpaces, id := spaceId }]

variable {chatIds : List String} {spaceId : String}

theorem mem_cascadeKeys {key : RowKey} : key ∈ cascadeKeys chatIds spaceId ↔
    key = { kind := kindSpaces, id := spaceId } ∨
      key.id ∈ chatIds ∧ (key.kind = kindChats ∨ key.kind = kindSessions) := by
  obtain ⟨kind, id⟩ := key
  unfold cascadeKeys
  simp only [List.mem_append, List.mem_flatMap, List.mem_cons, List.not_mem_nil, or_false,
    RowKey.mk.injEq]
  constructor
  · rintro (⟨chatId, hid, ⟨hkind, rfl⟩ | ⟨hkind, rfl⟩⟩ | hspace)
    · exact .inr ⟨hid, .inl hkind⟩
    · exact .inr ⟨hid, .inr hkind⟩
    · exact .inl hspace
  · rintro (hspace | ⟨hid, hkind | hkind⟩)
    · exact .inr hspace
    · exact .inl ⟨id, hid, .inl ⟨hkind, rfl⟩⟩
    · exact .inl ⟨id, hid, .inr ⟨hkind, rfl⟩⟩

theorem cascadeKeys_nodup (h : chatIds.Nodup) : (cascadeKeys chatIds spaceId).Nodup := by
  unfold cascadeKeys
  refine List.nodup_append.mpr ⟨List.nodup_flatMap.mpr ⟨fun id _ => ?_, ?_⟩,
    List.nodup_singleton _, ?_⟩
  · simp [kindChats, kindSessions]
  · refine h.imp fun {id other} hne key hkey hkey' => hne ?_
    simp only [List.mem_cons, List.not_mem_nil, or_false] at hkey hkey'
    obtain rfl | rfl := hkey <;> obtain heq | heq := hkey' <;> exact congrArg RowKey.id heq
  · intro key hkey other hother heq
    obtain ⟨id, -, hkey⟩ := List.mem_flatMap.mp hkey
    rw [heq, List.mem_singleton.mp hother] at hkey
    simp [kindChats, kindSessions, kindSpaces] at hkey

variable {doc : RegistryDoc} {config : JsonValue → Option JsonValue} {dt : Int → Int}

theorem inCascade_iff (hkeyed : doc.authoritative.Keyed) (h : doc.Filed spaceId config dt)
    (hids : ∀ id, id ∈ chatIds ↔ id ∈ (doc.chatRows spaceId).map (·.id)) {key : RowKey}
    {row : RegistryRow} (hrow : doc.overlayRow key = some row) :
    doc.InCascade spaceId row ↔ key ∈ cascadeKeys chatIds spaceId := by
  have hkey := overlayRow_key hkeyed hrow
  subst hkey
  rw [mem_cascadeKeys, InCascade, hids]
  refine or_congr_right ⟨?_, ?_⟩
  · rintro (hchat | ⟨hkind, chat, hchat, hof⟩)
    · exact ⟨List.mem_map_of_mem hchat, .inl ((mem_chatRows hkeyed).mp hchat).1⟩
    · have hsession : row ∈ doc.overlayRows .byKey kindSessions :=
        (mem_overlayRows .byKey kindSessions hkeyed).mpr ⟨hkind, hrow⟩
      exact ⟨h.sessions row hsession chat hchat hof, .inr hkind⟩
  · rintro ⟨hid, hkind⟩
    obtain ⟨chat, hchat, hid⟩ := List.mem_map.mp hid
    obtain hkind | hkind := hkind
    · obtain ⟨hchatKind, hshown, -⟩ := (mem_chatRows hkeyed).mp hchat
      have hkey : chat.key = row.key := congrArg₂ RowKey.mk (hchatKind.trans hkind.symm) hid
      rw [hkey, hrow] at hshown
      cases hshown
      exact .inl hchat
    · exact .inr ⟨hkind, chat, hchat, .inl hid.symm⟩

/-- **Deleting a space.** With a stamp ahead of all that is stored, the cascade is exact if and only
if the chats of the space are read, under the ids that their rows have. -/
theorem deleteSpace_cascades_iff (hkeyed : doc.authoritative.Keyed) (order : HashOrder)
    (wall : Nat → Int) (spaceId : String) (hahead : doc.Ahead (doc.nextHlc (wall 0)).1) :
    doc.Cascades (doc.deleteSpace (raw config dt) order wall spaceId).1 spaceId ↔
      doc.Filed spaceId config dt := by
  have hread : (doc.chatIdsOf (raw config dt) order spaceId).Perm _ := chatIdsOf_perm hkeyed order
  change doc.Cascades (doc.deleteRowOps wall (cascadeKeys _ spaceId)) spaceId ↔ _
  generalize doc.chatIdsOf (raw config dt) order spaceId = chatIds at hread ⊢
  have hcapped := deleteRowOps_capped doc wall (cascadeKeys chatIds spaceId)
  have henqueued : doc.Enqueued _ (doc.deleteRowOps wall (cascadeKeys chatIds spaceId)) :=
    enqueued_deleteRowOps _
  generalize doc.deleteRowOps wall (cascadeKeys chatIds spaceId) = doc' at hcapped henqueued ⊢
  have hkeyed' : doc'.authoritative.Keyed := henqueued.authoritative ▸ hkeyed
  have hdeleted {key : RowKey} : key ∈ cascadeKeys chatIds spaceId → doc'.overlayRow key = none :=
    overlayRow_deleted hahead henqueued
  have hkept {key : RowKey} :
      key ∉ cascadeKeys chatIds spaceId → doc'.overlayRow key = doc.overlayRow key :=
    overlayRow_kept henqueued
  have hchatKey {chat : RegistryRow} (hchat : chat ∈ doc.chatRows spaceId) (hid : chat.id ∉ chatIds) :
      chat.key ∉ cascadeKeys chatIds spaceId := by
    rw [mem_cascadeKeys, RegistryRow.key, ((mem_chatRows hkeyed).mp hchat).1]
    rintro (hspace | ⟨hmem, -⟩)
    · simp [kindChats, kindSpaces] at hspace
    · exact hid hmem
  constructor
  · intro h
    have hcovered : (doc.chatRows spaceId).map (·.id) ⊆ chatIds := by
      intro id hid
      obtain ⟨chat, hchat, rfl⟩ := List.mem_map.mp hid
      by_contra hmissed
      obtain ⟨hkind, hshown, hspace⟩ := (mem_chatRows hkeyed).mp hchat
      have hleft : chat ∈ doc'.chatRows spaceId :=
        (mem_chatRows hkeyed').mpr ⟨hkind, (hkept (hchatKey hchat hmissed)).trans hshown, hspace⟩
      rw [h.chats] at hleft
      cases hleft
    have hperm : ((doc.chatRows spaceId).map (·.id)).Perm chatIds := by
      refine ((chatRows_ids hkeyed).subperm hcovered).perm_of_length_le ?_
      rw [hread.length_eq, List.length_map]
      exact List.length_filterMap_le _ _
    refine ⟨hread.symm.trans hperm.symm, fun session hsession chat hchat hof => ?_⟩
    by_contra hmissed
    obtain ⟨hkind, hshown⟩ := (mem_overlayRows .byKey kindSessions hkeyed).mp hsession
    have hkey : session.key ∉ cascadeKeys chatIds spaceId := by
      rw [mem_cascadeKeys, RegistryRow.key, hkind]
      rintro (hspace | ⟨hmem, -⟩)
      · simp [kindSessions, kindSpaces] at hspace
      · exact hmissed (hperm.mem_iff.mpr hmem)
    refine h.sessions session ?_ chat hchat hof
    exact (mem_overlayRows .byKey kindSessions hkeyed').mpr ⟨hkind, (hkept hkey).trans hshown⟩
  · intro h
    have hperm : chatIds.Perm ((doc.chatRows spaceId).map (·.id)) := hread.trans h.chats
    have hcascade {key : RowKey} {row : RegistryRow} (hrow : doc.overlayRow key = some row) :
        doc.InCascade spaceId row ↔ key ∈ cascadeKeys chatIds spaceId :=
      inCascade_iff hkeyed h (fun _ => hperm.mem_iff) hrow
    -- What is still shown was shown before and is outside the cascade.
    have hleft {key : RowKey} {row : RegistryRow} (hrow : doc'.overlayRow key = some row) :
        doc.overlayRow key = some row ∧ ¬ doc.InCascade spaceId row := by
      have hkey : key ∉ cascadeKeys chatIds spaceId := by
        intro hkey
        cases (hdeleted hkey).symm.trans hrow
      rw [hkept hkey] at hrow
      exact ⟨hrow, fun hin => hkey ((hcascade hrow).mp hin)⟩
    refine ⟨hdeleted (mem_cascadeKeys.mpr (.inl rfl)), ?_, ?_, ?_, hcapped, ?_⟩
    · refine List.eq_nil_iff_forall_not_mem.mpr fun row hrow => ?_
      obtain ⟨hkind, hshown, hspace⟩ := (mem_chatRows hkeyed').mp hrow
      obtain ⟨hbefore, hout⟩ := hleft hshown
      exact hout (.inr (.inl ((mem_chatRows hkeyed).mpr ⟨hkind, hbefore, hspace⟩)))
    · intro session hsession chat hchat hof
      obtain ⟨hkind, hshown⟩ := (mem_overlayRows .byKey kindSessions hkeyed').mp hsession
      exact (hleft hshown).2 (.inr (.inr ⟨hkind, chat, hchat, hof⟩))
    · intro key hout
      by_cases hkey : key ∈ cascadeKeys chatIds spaceId
      · cases hrow : doc.overlayRow key with
        | none => exact hdeleted hkey
        | some row => exact absurd ((hcascade hrow).mpr hkey) (hout row hrow)
      · exact hkept hkey
    · rintro key ⟨row, hrow, hin⟩
      have hkey := (hcascade hrow).mp hin
      have hnodup : (cascadeKeys chatIds spaceId).Nodup :=
        cascadeKeys_nodup (hperm.nodup_iff.mpr (chatRows_ids hkeyed))
      rw [henqueued.newOps]
      exact deleteOps_at hnodup hkey

/-- A space with one chat, which has a session; the harness of the chat's configuration varies. -/
def oneSpace (harness : String) : RegistryDoc :=
  let row (kind id : String) (fields : FieldMap JsonValue) : RegistryRow :=
    { kind, id, seq := 1, deleted := false, delHlc := none, fields
      clocks := ({} : FieldMap Hlc).insert "deviceId" (encodeHlc 1000 0 "desk") }
  (RegistryDoc.new "phone").applyRows 1
    [row kindSpaces "s1" (fields [("id", .string "s1"), ("deviceId", .string "desk"),
        ("path", .string "/one")]),
      row kindChats "c1" (fields [("id", .string "c1"), ("deviceId", .string "desk"),
        ("spaceId", .string "s1"), ("config", .object [("harness", .string harness),
          ("sandbox", .string "read-only")])]),
      row kindSessions "c1" (fields [("chatId", .string "c1"), ("deviceId", .string "desk"),
        ("status", .string "idle")])]

/-- The harness names of `HarnessId`; the other fields of these configurations are in order. -/
def knownConfig : JsonValue → Option JsonValue
  | .object (("harness", .string harness) :: entries) =>
      if harness ∈ ["claude-code", "codex", "cursor", "grok", "hermes", "pi", "mock"] then
        some (.object (("harness", .string harness) :: entries))
      else none
  | _ => none

theorem oneSpace_keyed (harness : String) : (oneSpace harness).authoritative.Keyed :=
  RowTable.keyed_empty.putRows _

theorem deleteSpace_oneSpace :
    let doc := oneSpace "codex"
    doc.Cascades (doc.deleteSpace (raw knownConfig id) .byKey (fun _ => 2000) "s1").1 "s1" :=
  (deleteSpace_cascades_iff (oneSpace_keyed "codex") .byKey (fun _ => 2000) "s1"
    (.of_rows (by decide) rfl)).mpr ⟨by decide, by decide⟩

/-- A newer version has set a harness that this one does not know: the chat outlives its space. -/
theorem newer_chat_orphaned :
    let doc := oneSpace "opencode"
    let doc' := (doc.deleteSpace (raw knownConfig id) .byKey (fun _ => 2000) "s1").1
    doc.Ahead (doc.nextHlc 2000).1 ∧ (doc'.chatRows "s1").map (·.id) = ["c1"] ∧
      ¬ doc.Cascades doc' "s1" := by
  have hread : (oneSpace "opencode").chatIdsOf (raw knownConfig id) .byKey "s1" = [] :=
    (chatIdsOf_perm (oneSpace_keyed "opencode") .byKey).eq_nil
  have hdeleted : ((oneSpace "opencode").deleteSpace (raw knownConfig id) .byKey (fun _ => 2000)
      "s1").1 = (oneSpace "opencode").deleteRowOps (fun _ => 2000) (cascadeKeys [] "s1") := by
    unfold deleteSpace
    rw [hread]
    rfl
  intro doc doc'
  have horphan : (doc'.chatRows "s1").map (·.id) = ["c1"] := by
    rw [show doc' = _ from hdeleted]
    decide
  refine ⟨.of_rows (by decide) rfl, horphan, fun h => ?_⟩
  rw [h.chats] at horphan
  cases horphan

end Cascade

end Zeron.Registry.RegistryDoc
