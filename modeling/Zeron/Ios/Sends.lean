import Zeron.Ios.SessionStore

/-!
# What the phone sends

A client that is made with a cursor above zero starts with an empty queue, whatever the document has
that the room lacks. Nothing is stranded in a run that makes no such client while something is owed,
and that commits nothing beside a client when the subscription is gone.
-/

namespace Zeron.Ios

open Zeron.Lib

namespace ChatRoomClient

variable {U : Type*} (client : ChatRoomClient U)

def batches : List (Nat × List U) := client.pending.map fun push => (push.batchId, push.bytes)

theorem batches_setInFlight (inFlight joined closed : Bool) :
    batches ⟨client.pending.map fun push => { push with inFlight }, joined, closed⟩ =
      client.batches := by
  unfold batches
  rw [List.map_map]
  rfl

@[simp]
theorem batches_connect : client.connect.batches = client.batches :=
  client.batches_setInFlight false false client.closed

@[simp]
theorem batches_start : client.start.batches = client.batches :=
  client.batches_setInFlight false false false

@[simp]
theorem batches_stop : client.stop.batches = client.batches := rfl

@[simp]
theorem batches_pushPending : client.pushPending.batches = client.batches :=
  client.batches_setInFlight true client.joined client.closed

@[simp]
theorem batches_pushHead : client.pushHead.batches = client.batches := by
  unfold pushHead
  split
  · rfl
  · rename_i head rest hpending
    unfold batches
    rw [hpending]
    rfl

theorem mem_batches_retire {batchId : Nat} {batch : Nat × List U} :
    batch ∈ (client.retire batchId).batches ↔ batch ∈ client.batches ∧ batch.1 ≠ batchId := by
  simp only [batches, retire, List.mem_map, List.mem_filter, decide_eq_true_eq]
  constructor
  · rintro ⟨push, ⟨hpush, hne⟩, rfl⟩
    exact ⟨⟨push, hpush, rfl⟩, hne⟩
  · rintro ⟨⟨push, hpush, rfl⟩, hne⟩
    exact ⟨push, ⟨hpush, hne⟩, rfl⟩

theorem batches_enqueue (size : List U → Nat) (batchId : Nat) (bytes : List U) :
    (client.enqueue size batchId bytes).batches =
      if maxPushBytes < size bytes then client.batches
      else client.batches ++ [(batchId, bytes)] := by
  unfold enqueue
  split
  · rfl
  · simp [batches]

end ChatRoomClient

variable {id : Nat}

namespace SessionStore

variable {U : Type*} (size : List U → Nat) (store : SessionStore U)

/-- The room took it or refused it for good, or it is over the cap of a push. -/
def Settled (update : U) : Prop :=
  update ∈ store.acked ∨ update ∈ store.refused ∨ ChatRoomClient.maxPushBytes < size [update]

def Queued (id : Nat) (update : U) : Prop :=
  ∃ batch ∈ (store.clients id).batches, update ∈ batch.2

/-- An enqueue is scheduled, or what the subscription left is yet to schedule it. -/
def Scheduled (id : Nat) (update : U) : Prop :=
  (∃ bytes, Task.enqueue id bytes ∈ store.tasks ∧ update ∈ bytes) ∨
    Task.localUpdate update ∈ store.tasks

def NothingStranded : Prop :=
  ∀ id, store.chatRoom = some id → ∀ update ∈ store.own, update ∈ store.doc →
    store.Settled size update ∨ store.Queued id update ∨ store.Scheduled id update

section

variable [DecidableEq U]

/-- The document has an update of its own that is neither settled nor waiting for the main actor. -/
def owes : Bool :=
  store.own.any fun update =>
    update ∈ store.doc && update ∉ store.acked && update ∉ store.refused
      && size [update] ≤ ChatRoomClient.maxPushBytes && .localUpdate update ∉ store.tasks

/-- A client is made with the cursor at zero and a document that fits into a push, or with nothing
owed. -/
def soundConnect : Bool :=
  !store.canConnect || (store.cursor = 0 && size store.doc ≤ ChatRoomClient.maxPushBytes)
    || !store.owes size

def sound : Action U → Bool
  | .start readable adopted => store.started || (store.load readable adopted).soundConnect size
  | .updateRoomGen gen => { store with roomGen := max store.roomGen gen }.soundConnect size
  | .kickRoom => store.soundConnect size
  | .queueCommand _ => store.chatRoom.isNone || store.subscribed
  | _ => true

def Sound (store : SessionStore U) (a : Action U) : Prop := store.sound size a = true

instance (store : SessionStore U) (a : Action U) : Decidable (Sound size store a) :=
  inferInstanceAs (Decidable (store.sound size a = true))

end

/-! ### The invariant -/

/-- An enqueue that is not refused is scheduled, or one is to come. -/
def Due (id : Nat) (update : U) : Prop :=
  (∃ bytes, Task.enqueue id bytes ∈ store.tasks ∧ update ∈ bytes ∧
      size bytes ≤ ChatRoomClient.maxPushBytes) ∨
    Task.localUpdate update ∈ store.tasks

/-- The batch is one that was minted, and all its updates are among these. -/
def Covered (batchId : Nat) (updates : List U) : Prop :=
  ∃ bytes, store.minted[batchId]? = some bytes ∧ ∀ update ∈ bytes, update ∈ updates

def Answered (reply : Reply) : Prop :=
  match reply.answer with
  | .ack _ => store.Covered reply.batchId store.acked
  | .error code => code.permanent = true → store.Covered reply.batchId store.refused

structure Ledger : Prop where
  pending : ∀ id, ∀ batch ∈ (store.clients id).batches, store.minted[batch.1]? = some batch.2
  toRoom : ∀ push ∈ store.toRoom, store.minted[push.batchId]? = some push.bytes
  toClient : ∀ reply ∈ store.toClient, store.Answered reply
  idle : store.started = false → store.chatRoom = none

def Kept : Prop :=
  ∀ id, store.chatRoom = some id → ∀ update ∈ store.own, update ∈ store.doc →
    store.Settled size update ∨ store.Queued id update ∨ store.Due size id update

structure Inv : Prop where
  ledger : store.Ledger
  kept : store.Kept size

variable {size} {store}

theorem Due.scheduled {update : U} (h : store.Due size id update) :
    store.Scheduled id update := by
  obtain ⟨bytes, htask, hmem, -⟩ | hlocal := h
  · exact .inl ⟨bytes, htask, hmem⟩
  · exact .inr hlocal

theorem Inv.nothingStranded (h : store.Inv size) : store.NothingStranded size := by
  intro id hid update hown hdoc
  obtain hsettled | hqueued | hdue := h.kept id hid update hown hdoc
  · exact .inl hsettled
  · exact .inr (.inl hqueued)
  · exact .inr (.inr hdue.scheduled)

theorem Inv.fresh : Inv size (fresh : SessionStore U) :=
  ⟨⟨nofun, nofun, nofun, fun _ => rfl⟩, nofun⟩

/-! ### What a step changes -/

variable {store' : SessionStore U}

/-- The same chat room and the same updates to look after. -/
structure Keeps (size : List U → Nat) (store store' : SessionStore U) : Prop where
  chatRoom : store'.chatRoom = store.chatRoom
  own : store'.own = store.own
  doc : ∀ update ∈ store'.doc, update ∈ store'.own → update ∈ store.doc ∨ store'.Settled size update
  settled : ∀ update, store.Settled size update → store'.Settled size update
  queued : ∀ id update, store.chatRoom = some id → store.Queued id update →
    store'.Settled size update ∨ store'.Queued id update
  due : ∀ id update, store.chatRoom = some id → store.Due size id update →
    store'.Settled size update ∨ store'.Queued id update ∨ store'.Due size id update

theorem Kept.keeps (h : store.Kept size) (hkeeps : Keeps size store store') :
    store'.Kept size := by
  intro id hid update hown hdoc
  rw [hkeeps.chatRoom] at hid
  obtain hdoc | hsettled := hkeeps.doc update hdoc hown
  · rw [hkeeps.own] at hown
    obtain hsettled | hqueued | hdue := h id hid update hown hdoc
    · exact .inl (hkeeps.settled update hsettled)
    · exact (hkeeps.queued id update hid hqueued).imp_right .inl
    · exact hkeeps.due id update hid hdue
  · exact .inl hsettled

theorem Covered.mono {batchId : Nat} {updates updates' : List U}
    (h : store.Covered batchId updates)
    (hminted : ∀ bytes, store.minted[batchId]? = some bytes → store'.minted[batchId]? = some bytes)
    (hupdates : ∀ update ∈ updates, update ∈ updates') : store'.Covered batchId updates' := by
  obtain ⟨bytes, hbytes, hall⟩ := h
  exact ⟨bytes, hminted bytes hbytes, fun update hupdate => hupdates update (hall update hupdate)⟩

theorem Answered.mono {reply : Reply} (h : store.Answered reply)
    (hminted : ∀ (i : Nat) bytes, store.minted[i]? = some bytes → store'.minted[i]? = some bytes)
    (hacked : ∀ update ∈ store.acked, update ∈ store'.acked)
    (hrefused : ∀ update ∈ store.refused, update ∈ store'.refused) : store'.Answered reply := by
  obtain ⟨client, batchId, answer⟩ := reply
  cases answer with
  | ack seq => exact Covered.mono h (hminted batchId) hacked
  | error code => exact fun hpermanent => Covered.mono (h hpermanent) (hminted batchId) hrefused

section

variable {clients : Nat → ChatRoomClient U} {roomGen cursor : Nat} {dirty : Bool}
  {saved : Option (List U × Nat)}

theorem Inv.quiet (h : store.Inv size)
    (hbatches : ∀ id, (clients id).batches = (store.clients id).batches) :
    Inv size { store with clients, roomGen, cursor, dirty, saved } := by
  have hledger := h.ledger
  refine ⟨⟨fun id batch hbatch => ?_, hledger.toRoom, hledger.toClient, hledger.idle⟩, ?_⟩
  · rw [hbatches id] at hbatch
    exact hledger.pending id batch hbatch
  · apply h.kept.keeps
    refine ⟨rfl, rfl, fun _ hdoc _ => .inl hdoc, fun _ => id, fun id update _ hqueued => ?_,
      fun _ _ _ hdue => .inr (.inr hdue)⟩
    obtain ⟨batch, hbatch, hmem⟩ := hqueued
    refine .inr ⟨batch, ?_, hmem⟩
    rwa [hbatches id]

end

theorem batches_setClient {client : ChatRoomClient U}
    (hbatches : client.batches = (store.clients id).batches) (other : Nat) :
    ((store.setClient id client).clients other).batches = (store.clients other).batches := by
  change (Function.update store.clients id client other).batches = _
  by_cases heq : other = id
  · subst heq
    rwa [Function.update_self]
  · rw [Function.update_of_ne heq]

theorem Inv.setClient (h : store.Inv size) {client : ChatRoomClient U}
    (hbatches : client.batches = (store.clients id).batches) :
    Inv size (store.setClient id client) :=
  h.quiet (batches_setClient hbatches)

theorem Inv.send (h : store.Inv size) {pushes : List (PendingPush U)}
    (hpushes : ∀ push ∈ pushes, (push.batchId, push.bytes) ∈ (store.clients id).batches) :
    Inv size (store.send id pushes) := by
  have hledger := h.ledger
  refine ⟨⟨hledger.pending, fun push hpush => ?_, hledger.toClient, hledger.idle⟩, h.kept⟩
  obtain hpush | hpush := List.mem_append.mp hpush
  · exact hledger.toRoom push hpush
  · obtain ⟨push, hsent, rfl⟩ := List.mem_map.mp hpush
    exact hledger.pending id _ (hpushes push hsent)

theorem Inv.setClient_send (h : store.Inv size) {client : ChatRoomClient U}
    {pushes : List (PendingPush U)} (hbatches : client.batches = (store.clients id).batches)
    (hpushes : ∀ push ∈ pushes, push ∈ (store.clients id).pending) :
    Inv size ((store.setClient id client).send id pushes) := by
  apply (h.setClient hbatches).send
  intro push hpush
  rw [batches_setClient hbatches id]
  exact List.mem_map_of_mem (hpushes push hpush)

theorem Inv.apply (h : store.Inv size) {bytes : List U} (seq : Nat)
    (hbytes : ∀ update ∈ bytes, update ∈ store.own → update ∈ store.acked) :
    Inv size (store.apply bytes seq) := by
  refine ⟨⟨h.ledger.pending, h.ledger.toRoom, h.ledger.toClient, h.ledger.idle⟩, ?_⟩
  apply h.kept.keeps
  refine ⟨rfl, rfl, fun update hdoc hown => ?_, fun _ => id, fun _ _ _ hqueued => .inr hqueued,
    fun _ _ _ hdue => .inr (.inr hdue)⟩
  apply (List.mem_append.mp hdoc).imp_right
  intro hmem
  exact .inl (hbytes update hmem hown)

theorem Due.mono {update : U} (h : store.Due size id update)
    (htasks : ∀ task ∈ store.tasks, task ∈ store'.tasks) : store'.Due size id update := by
  apply h.imp
  · rintro ⟨bytes, hmem, hrest⟩
    exact ⟨bytes, htasks _ hmem, hrest⟩
  · exact htasks _

theorem Inv.commit (h : store.Inv size) (update : U)
    (hsound : store.chatRoom.isNone || store.subscribed) : Inv size (store.commit update) := by
  refine ⟨⟨h.ledger.pending, h.ledger.toRoom, h.ledger.toClient, h.ledger.idle⟩, ?_⟩
  intro id hid other hown hdoc
  replace hid : store.chatRoom = some id := hid
  have hsubscribed : store.subscribed = true := by simpa [hid] using hsound
  have htasks : (store.commit update).tasks = store.tasks ++ [Task.localUpdate update] := by
    simp [SessionStore.commit, hsubscribed]
  by_cases hnew : other = update
  · subst hnew
    refine .inr (.inr (.inr ?_))
    rw [htasks]
    exact List.mem_append_right _ (List.mem_singleton_self _)
  · have hold : ∀ updates : List U, other ∈ updates ++ [update] → other ∈ updates := by
      intro updates hmem
      exact (List.mem_append.mp hmem).resolve_right fun hlast => hnew (List.mem_singleton.mp hlast)
    obtain hsettled | hqueued | hdue := h.kept id hid other (hold _ hown) (hold _ hdoc)
    · exact .inl hsettled
    · exact .inr (.inl hqueued)
    · refine .inr (.inr (hdue.mono ?_))
      rw [htasks]
      exact fun _ => List.mem_append_left _

theorem Inv.stop (h : store.Inv size) (written : Bool) : Inv size (store.stop written) :=
  ⟨⟨h.ledger.pending, h.ledger.toRoom, h.ledger.toClient, fun _ => rfl⟩, nofun⟩

theorem Inv.kill (h : store.Inv size) : Inv size store.kill :=
  ⟨⟨nofun, h.ledger.toRoom, nofun, fun _ => rfl⟩, nofun⟩

/-! ### The room -/

theorem Inv.answer (h : store.Inv size) {acked refused : List U} {reply : Reply}
    (hacked : ∀ update ∈ store.acked, update ∈ acked)
    (hrefused : ∀ update ∈ store.refused, update ∈ refused)
    (hanswered : Answered { store with acked, refused } reply) :
    Inv size { store with acked, refused, toClient := store.toClient ++ [reply] } := by
  have hledger := h.ledger
  refine ⟨⟨hledger.pending, hledger.toRoom, fun other hother => ?_, hledger.idle⟩, ?_⟩
  · obtain hother | hother := List.mem_append.mp hother
    · exact (hledger.toClient other hother).mono (fun _ _ => id) hacked hrefused
    · rw [List.mem_singleton.mp hother]
      exact hanswered
  · apply h.kept.keeps
    refine ⟨rfl, rfl, fun _ hdoc _ => .inl hdoc, fun update hsettled => ?_,
      fun _ _ _ hqueued => .inr hqueued, fun _ _ _ hdue => .inr (.inr hdue)⟩
    exact hsettled.imp (hacked update) fun hmore => hmore.imp_left (hrefused update)

theorem Inv.roomAnswers (h : store.Inv size) {push : Push U} (answer : Answer)
    (hpush : store.minted[push.batchId]? = some push.bytes) :
    Inv size (store.roomAnswers push answer) := by
  cases answer with
  | ack seq =>
      apply h.answer (fun _ => List.mem_append_left _) (fun _ => id)
      exact ⟨push.bytes, hpush, fun _ => List.mem_append_right _⟩
  | error code =>
      cases code with
      | tooLarge | empty | badPush =>
          apply h.answer (fun _ => id) (fun _ => List.mem_append_left _)
          exact fun _ => ⟨push.bytes, hpush, fun _ => List.mem_append_right _⟩
      | quota =>
          apply h.answer (fun _ => id) (fun _ => id)
          exact fun hpermanent => absurd hpermanent Bool.false_ne_true

theorem Inv.retire (h : store.Inv size) (id batchId : Nat)
    (hsettled : ∀ bytes, store.minted[batchId]? = some bytes →
      ∀ update ∈ bytes, store.Settled size update) :
    Inv size (store.setClient id ((store.clients id).retire batchId)) := by
  have hledger := h.ledger
  have hclients (other : Nat) :
      ((store.setClient id ((store.clients id).retire batchId)).clients other) =
        if other = id then (store.clients id).retire batchId else store.clients other := by
    change Function.update store.clients id _ other = _
    rw [Function.update_apply]
  refine ⟨⟨fun other batch hbatch => ?_, hledger.toRoom, hledger.toClient, hledger.idle⟩, ?_⟩
  · rw [hclients] at hbatch
    split at hbatch
    · exact hledger.pending id batch (ChatRoomClient.mem_batches_retire _ |>.mp hbatch).1
    · exact hledger.pending other batch hbatch
  · apply h.kept.keeps
    refine ⟨rfl, rfl, fun _ hdoc _ => .inl hdoc, fun _ hsettled => hsettled,
      fun other update _ hqueued => ?_, fun _ _ _ hdue => .inr (.inr hdue)⟩
    obtain ⟨batch, hbatch, hmem⟩ := hqueued
    by_cases hretired : batch.1 = batchId
    · refine .inl (hsettled batch.2 ?_ update hmem)
      rw [← hretired]
      exact hledger.pending other batch hbatch
    · refine .inr ⟨batch, ?_, hmem⟩
      rw [hclients]
      split
      · rename_i heq
        subst heq
        exact (ChatRoomClient.mem_batches_retire _).mpr ⟨hbatch, hretired⟩
      · exact hbatch

theorem Inv.receive (h : store.Inv size) {reply : Reply} (hanswered : store.Answered reply) :
    Inv size (store.receive reply) := by
  obtain ⟨id, batchId, answer⟩ := reply
  have hcovered {updates : List U} (h : store.Covered batchId updates)
      (hsettled : ∀ update ∈ updates, store.Settled size update) (bytes : List U)
      (hbytes : store.minted[batchId]? = some bytes) :
      ∀ update ∈ bytes, store.Settled size update := by
    obtain ⟨minted, hminted, hall⟩ := h
    cases hminted.symm.trans hbytes
    exact fun update hupdate => hsettled update (hall update hupdate)
  unfold SessionStore.receive
  dsimp only
  split
  · exact h
  · cases answer with
    | ack seq =>
        have hretire := h.retire id batchId (hcovered hanswered fun update hacked => .inl hacked)
        exact hretire.quiet fun _ => rfl
    | error code =>
        cases code with
        | quota =>
            exact h.setClient ((store.clients id).batches_setInFlight false _ _)
        | tooLarge | empty | badPush =>
            exact h.retire id batchId (hcovered (hanswered rfl) fun update hrefused =>
              .inr (.inl hrefused))

/-! ### Tasks -/

section

variable {i : Nat} {task : Task U}

theorem taken_or_left {other : Task U} (htask : store.tasks[i]? = some task)
    (hother : other ∈ store.tasks) : other = task ∨ other ∈ store.tasks.eraseIdx i := by
  obtain ⟨j, hj⟩ := List.mem_iff_getElem?.mp hother
  by_cases heq : j = i
  · subst heq
    exact .inl (Option.some_inj.mp (hj.symm.trans htask))
  · exact .inr (List.mem_eraseIdx_iff_getElem?.mpr ⟨j, heq, hj⟩)

theorem Due.take {update : U} (h : store.Due size id update) (htask : store.tasks[i]? = some task) :
    Due size { store with tasks := store.tasks.eraseIdx i } id update ∨
      task = .localUpdate update ∨
      ∃ bytes, task = .enqueue id bytes ∧ update ∈ bytes ∧
        size bytes ≤ ChatRoomClient.maxPushBytes := by
  obtain ⟨bytes, hmem, hupdate, hfits⟩ | hmem := h
  · obtain rfl | hleft := taken_or_left htask hmem
    · exact .inr (.inr ⟨bytes, rfl, hupdate, hfits⟩)
    · exact .inl (.inl ⟨bytes, hleft, hupdate, hfits⟩)
  · obtain rfl | hleft := taken_or_left htask hmem
    · exact .inr (.inl rfl)
    · exact .inl (.inr hleft)

theorem Inv.localUpdate (h : store.Inv size) {update : U}
    (htask : store.tasks[i]? = some (.localUpdate update)) :
    Inv size ({ store with tasks := store.tasks.eraseIdx i }.localUpdate update) := by
  refine ⟨⟨h.ledger.pending, h.ledger.toRoom, h.ledger.toClient, h.ledger.idle⟩, ?_⟩
  apply h.kept.keeps
  refine ⟨rfl, rfl, fun _ hdoc _ => .inl hdoc, fun _ hsettled => hsettled,
    fun _ _ _ hqueued => .inr hqueued, fun id other hid hdue => ?_⟩
  obtain hleft | hlocal | ⟨bytes, henqueue, -⟩ := hdue.take htask
  · exact .inr (.inr (hleft.mono fun _ => List.mem_append_left _))
  · cases hlocal
    by_cases hfits : size [update] ≤ ChatRoomClient.maxPushBytes
    · refine .inr (.inr (.inl ⟨[update], ?_, List.mem_singleton_self _, hfits⟩))
      apply List.mem_append_right
      simp [hid]
    · exact .inl (.inr (.inr (Nat.lt_of_not_le hfits)))
  · cases henqueue

theorem getElem?_concat {minted : List (List U)} {bytes more : List U} {batchId : Nat}
    (h : minted[batchId]? = some bytes) : (minted ++ [more])[batchId]? = some bytes := by
  rw [List.getElem?_append_left (List.getElem?_eq_some_iff.mp h).1]
  exact h

theorem Inv.enqueue (h : store.Inv size) {bytes : List U}
    (htask : store.tasks[i]? = some (.enqueue id bytes)) :
    Inv size ({ store with tasks := store.tasks.eraseIdx i }.enqueue size id bytes) := by
  have hledger := h.ledger
  have hbatches (other : Nat) : (Function.update store.clients id
      ((store.clients id).enqueue size store.minted.length bytes) other).batches =
        (store.clients other).batches ++
          if other = id ∧ size bytes ≤ ChatRoomClient.maxPushBytes then
            [(store.minted.length, bytes)] else [] := by
    by_cases heq : other = id
    · subst heq
      rw [Function.update_self, ChatRoomClient.batches_enqueue]
      by_cases hfits : size bytes ≤ ChatRoomClient.maxPushBytes
      · rw [if_neg (Nat.not_lt.mpr hfits), if_pos ⟨rfl, hfits⟩]
      · rw [if_pos (Nat.lt_of_not_le hfits), if_neg fun hand => hfits hand.2, List.append_nil]
    · rw [Function.update_of_ne heq, if_neg fun hand => heq hand.1, List.append_nil]
  refine ⟨⟨fun other batch hbatch => ?_, fun push hpush => getElem?_concat (hledger.toRoom push hpush),
    fun reply hreply => ?_, hledger.idle⟩, ?_⟩
  · change batch ∈ (Function.update store.clients id _ other).batches at hbatch
    rw [hbatches other] at hbatch
    obtain hbatch | hbatch := List.mem_append.mp hbatch
    · exact getElem?_concat (hledger.pending other batch hbatch)
    · split at hbatch
      · cases List.mem_singleton.mp hbatch
        exact List.getElem?_concat_length
      · cases hbatch
  · exact (hledger.toClient reply hreply).mono (fun _ _ => getElem?_concat) (fun _ hmem => hmem)
      (fun _ hmem => hmem)
  · apply h.kept.keeps
    refine ⟨rfl, rfl, fun _ hdoc _ => .inl hdoc, fun _ hsettled => hsettled,
      fun other update _ hqueued => ?_, fun other update _ hdue => ?_⟩
    · obtain ⟨batch, hbatch, hmem⟩ := hqueued
      refine .inr ⟨batch, ?_, hmem⟩
      change batch ∈ (Function.update store.clients id _ other).batches
      rw [hbatches other]
      exact List.mem_append_left _ hbatch
    · obtain hleft | hlocal | ⟨_, henqueue, hupdate, hfits⟩ := hdue.take htask
      · exact .inr (.inr hleft)
      · cases hlocal
      · cases henqueue
        refine .inr (.inl ⟨(store.minted.length, bytes), ?_, hupdate⟩)
        change _ ∈ (Function.update store.clients id _ id).batches
        rw [hbatches id, if_pos ⟨rfl, hfits⟩]
        exact List.mem_append_right _ (List.mem_singleton_self _)

theorem Inv.take (h : store.Inv size) (htask : store.tasks[i]? = some task)
    (hlocal : ∀ update, task ≠ .localUpdate update) (henqueue : ∀ id bytes, task ≠ .enqueue id bytes) :
    Inv size { store with tasks := store.tasks.eraseIdx i } := by
  refine ⟨⟨h.ledger.pending, h.ledger.toRoom, h.ledger.toClient, h.ledger.idle⟩, ?_⟩
  apply h.kept.keeps
  refine ⟨rfl, rfl, fun _ hdoc _ => .inl hdoc, fun _ hsettled => hsettled,
    fun _ _ _ hqueued => .inr hqueued, fun id update _ hdue => ?_⟩
  obtain hleft | htaken | ⟨bytes, htaken, -⟩ := hdue.take htask
  · exact .inr (.inr hleft)
  · exact absurd htaken (hlocal update)
  · exact absurd htaken (henqueue id bytes)

theorem Inv.runTask (h : store.Inv size) (htask : store.tasks[i]? = some task) :
    Inv size ({ store with tasks := store.tasks.eraseIdx i }.runTask size task) := by
  cases task with
  | localUpdate update => exact h.localUpdate htask
  | enqueue id bytes => exact h.enqueue htask
  | start id => exact (h.take htask nofun nofun).setClient (ChatRoomClient.batches_start _)
  | stop id => exact (h.take htask nofun nofun).setClient (ChatRoomClient.batches_stop _)

end

/-! ### A client is made -/

variable [DecidableEq U]

theorem not_owes {update : U} (howes : store.owes size = false) (hown : update ∈ store.own)
    (hdoc : update ∈ store.doc) :
    store.Settled size update ∨ .localUpdate update ∈ store.tasks := by
  by_contra hnone
  simp only [Settled, not_or, Nat.not_lt] at hnone
  obtain ⟨⟨hacked, hrefused, hfits⟩, htask⟩ := hnone
  have htrue : store.owes size = true := by
    refine List.any_eq_true.mpr ⟨update, hown, ?_⟩
    simp [hdoc, hacked, hrefused, hfits, htask]
  exact Bool.false_ne_true (howes.symm.trans htrue)

theorem Inv.connectIfReady (h : store.Inv size) (hsound : store.soundConnect size = true) :
    Inv size store.connectIfReady := by
  unfold SessionStore.connectIfReady
  split
  · rename_i hcan
    have hstarted : store.started = true := by
      unfold canConnect at hcan
      simp only [Bool.and_eq_true] at hcan
      exact hcan.1.1
    refine ⟨⟨fun id batch hbatch => ?_, h.ledger.toRoom, h.ledger.toClient, fun hidle => ?_⟩, ?_⟩
    · change batch ∈ (Function.update store.clients store.nextClient .new id).batches at hbatch
      rw [Function.update_apply] at hbatch
      split at hbatch
      · cases hbatch
      · exact h.ledger.pending id batch hbatch
    · exact absurd (hidle.symm.trans hstarted) Bool.false_ne_true
    · rintro id ⟨⟩ update hown hdoc
      simp only [soundConnect, hcan, Bool.not_true, Bool.false_or, Bool.or_eq_true,
        Bool.and_eq_true, decide_eq_true_eq, Bool.not_eq_true'] at hsound
      obtain ⟨hzero, hfits⟩ | howes := hsound
      · refine .inr (.inr (.inl ⟨store.doc, ?_, hdoc, hfits⟩))
        apply List.mem_append_left
        apply List.mem_append_right
        rw [if_pos]
        · exact List.mem_singleton_self _
        · exact ⟨hzero, fun hempty => List.ne_nil_of_mem hdoc (List.isEmpty_iff.mp hempty)⟩
      · obtain hsettled | htask := not_owes howes hown hdoc
        · exact .inl hsettled
        · refine .inr (.inr (.inr ?_))
          apply List.mem_append_left
          exact List.mem_append_left _ htask
  · exact h

theorem Inv.start (h : store.Inv size) {readable : Bool} {adopted : Option U}
    (hsound : store.sound size (.start readable adopted) = true) :
    Inv size (store.start readable adopted) := by
  unfold SessionStore.start
  split
  · exact h
  · rename_i hstarted
    have hidle := h.ledger.idle (Bool.not_eq_true _ ▸ hstarted)
    have hloaded : (store.load readable adopted).Inv size := by
      have hfields : (store.load readable adopted).chatRoom = none ∧
          (store.load readable adopted).clients = store.clients ∧
          (store.load readable adopted).toRoom = store.toRoom ∧
          (store.load readable adopted).toClient = store.toClient ∧
          (store.load readable adopted).minted = store.minted ∧
          (store.load readable adopted).acked = store.acked ∧
          (store.load readable adopted).refused = store.refused := by
        unfold load
        split <;> exact ⟨hidle, rfl, rfl, rfl, rfl, rfl, rfl⟩
      obtain ⟨hnone, hclients, htoRoom, htoClient, hminted, hacked, hrefused⟩ := hfields
      refine ⟨⟨?_, ?_, ?_, fun _ => hnone⟩, fun id hid => ?_⟩
      · rw [hclients, hminted]
        exact h.ledger.pending
      · rw [htoRoom, hminted]
        exact h.ledger.toRoom
      · rw [htoClient]
        intro reply hreply
        apply (h.ledger.toClient reply hreply).mono
        · rw [hminted]
          exact fun _ _ hbytes => hbytes
        · rw [hacked]
          exact fun _ hmem => hmem
        · rw [hrefused]
          exact fun _ hmem => hmem
      · cases hnone.symm.trans hid
    apply hloaded.connectIfReady
    simp only [sound, hstarted, Bool.false_or] at hsound
    exact hsound

theorem Inv.step (h : store.Inv size) {a : Action U} (hsound : store.sound size a = true)
    (hstep : store.step size a = some store') : store'.Inv size := by
  cases a with
  | start readable adopted =>
      simp only [SessionStore.step] at hstep
      split at hstep <;> cases hstep
      exact h.start hsound
  | updateRoomGen gen =>
      cases hstep
      have hquiet : Inv size { store with roomGen := max store.roomGen gen } := h.quiet fun _ => rfl
      exact hquiet.connectIfReady hsound
  | kickRoom =>
      cases hstep
      exact h.connectIfReady hsound
  | queueCommand update =>
      simp only [SessionStore.step] at hstep
      split at hstep <;> cases hstep
      exact h.commit update hsound
  | stop written =>
      cases hstep
      exact h.stop written
  | save _ | prune =>
      cases hstep
      exact h.quiet fun _ => rfl
  | kill =>
      cases hstep
      exact h.kill
  | runTask i =>
      obtain ⟨task, htask, rfl⟩ := Option.map_eq_some_iff.mp hstep
      exact h.runTask htask
  | connect id =>
      simp only [SessionStore.step] at hstep
      split at hstep <;> cases hstep
      exact h.setClient (ChatRoomClient.batches_connect _)
  | disconnect id =>
      cases hstep
      exact h.setClient rfl
  | rowsDone id =>
      simp only [SessionStore.step] at hstep
      split at hstep <;> cases hstep
      exact h.setClient rfl
  | apply id bytes seq =>
      simp only [SessionStore.step] at hstep
      split at hstep <;> cases hstep
      rename_i hrefused
      apply h.apply
      intro update hmem hown
      by_contra hacked
      exact hrefused (.inr ⟨update, hmem, hown, hacked⟩)
  | pushPending id =>
      simp only [SessionStore.step] at hstep
      split at hstep <;> cases hstep
      apply h.setClient_send (ChatRoomClient.batches_pushPending _)
      exact fun push hpush => (List.mem_filter.mp hpush).1
  | pushHead id =>
      simp only [SessionStore.step] at hstep
      split at hstep <;> cases hstep
      apply h.setClient_send (ChatRoomClient.batches_pushHead _)
      exact fun push hpush => List.mem_of_mem_head? (Option.mem_toList.mp hpush)
  | roomReceives i answer =>
      obtain ⟨push, hpush, rfl⟩ := Option.map_eq_some_iff.mp hstep
      have htaken : Inv size { store with toRoom := store.toRoom.eraseIdx i } :=
        ⟨⟨h.ledger.pending, fun other hother =>
          h.ledger.toRoom other (List.mem_of_mem_eraseIdx hother), h.ledger.toClient,
          h.ledger.idle⟩, h.kept⟩
      exact htaken.roomAnswers answer (h.ledger.toRoom push (List.mem_of_getElem? hpush))
  | receive i =>
      obtain ⟨reply, hreply, rfl⟩ := Option.map_eq_some_iff.mp hstep
      have htaken : Inv size { store with toClient := store.toClient.eraseIdx i } :=
        ⟨⟨h.ledger.pending, h.ledger.toRoom, fun other hother =>
          h.ledger.toClient other (List.mem_of_mem_eraseIdx hother), h.ledger.idle⟩, h.kept⟩
      exact htaken.receive (h.ledger.toClient reply (List.mem_of_getElem? hreply))

/-- No step of a run that makes no client behind its back leaves an update of the phone's own where
nothing sends it. -/
theorem sends_not_stranded {store : SessionStore U}
    (h : (machine size).ReachableWhen (Sound size) store) : store.NothingStranded size := by
  refine (h.invariant (I := Inv size) ?_ ?_).nothingStranded
  · rintro _ rfl
    exact Inv.fresh
  · exact fun _ _ _ hinv hsound hstep => hinv.step hsound hstep

/-- A message from before the start goes out with the first contact, and a restart at cursor zero
sends it again. -/
theorem sends_not_stranded_restarted : ∃ store : SessionStore Nat,
    (machine List.length).ReachableWhen (Sound List.length) store ∧ store.chatRoom = some 1 ∧
      2 ∈ store.own ∧ 2 ∈ store.doc ∧ 2 ∉ store.acked ∧ store.NothingStranded List.length := by
  obtain ⟨store, hsteps, hstate⟩ :=
    Machine.exists_steps_of_runWhen (machine List.length) (Sound List.length) (s := fresh)
      [.queueCommand 2, .start true none, .updateRoomGen 2, .runTask 0, .runTask 0, .rowsDone 0,
        .apply 0 [] 0, .pushPending 0, .save true, .kill, .start true none, .updateRoomGen 2]
      (p := fun store => store.chatRoom = some 1 ∧ 2 ∈ store.own ∧ 2 ∈ store.doc ∧
        2 ∉ store.acked) (by decide)
  have hreachable : (machine List.length).ReachableWhen (Sound List.length) store :=
    ⟨fresh, rfl, hsteps⟩
  obtain ⟨hroom, hown, hdoc, hacked⟩ := of_decide_eq_true hstate
  exact ⟨store, hreachable, hroom, hown, hdoc, hacked,
    sends_not_stranded hreachable⟩

/-- A message is composed while the phone is offline, saved with a cursor above zero and lost from
the queue with the process. -/
def strandedRun : List (Action Nat) :=
  [.start true none, .updateRoomGen 2, .runTask 0, .rowsDone 0, .apply 0 [1] 1, .disconnect 0,
    .queueCommand 2, .runTask 0, .runTask 0, .save true, .kill, .start true none, .updateRoomGen 2]

/-- The store after a restart has the message and a client, and nothing sends the message. -/
theorem restart_strands : ∃ store : SessionStore Nat,
    (machine List.length).Reachable store ∧ ¬ store.NothingStranded List.length := by
  obtain ⟨store, hsteps, hstranded⟩ :=
    Machine.exists_steps_of_runWhen (machine List.length) Machine.anyStep (s := fresh) strandedRun
      (p := fun store => store.chatRoom = some 1 ∧ 2 ∈ store.own ∧ 2 ∈ store.doc ∧
        store.acked = [] ∧ store.refused = [] ∧ (store.clients 1).batches = [] ∧
        store.tasks = [.start 1]) (by decide)
  refine ⟨store, ⟨fresh, rfl, hsteps⟩, fun hnone => ?_⟩
  obtain ⟨hroom, hown, hdoc, hacked, hrefused, hbatches, htasks⟩ := of_decide_eq_true hstranded
  obtain (hmem | hmem | hover) | ⟨batch, hmem, -⟩ | ⟨bytes, hmem, -⟩ | hmem :=
    hnone 1 hroom 2 hown hdoc
  · rw [hacked] at hmem
    cases hmem
  · rw [hrefused] at hmem
    cases hmem
  · exact absurd hover (by decide)
  · rw [hbatches] at hmem
    cases hmem
  · rw [htasks] at hmem
    exact nomatch List.mem_singleton.mp hmem
  · rw [htasks] at hmem
    exact nomatch List.mem_singleton.mp hmem

end SessionStore

end Zeron.Ios
