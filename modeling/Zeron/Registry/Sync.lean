import Zeron.Registry.Follow
import Zeron.Registry.Net

/-!
# The invariant of a run

Each wipe starts a new history. A client follows the history its cursor stems from; what is under
way to it on an established session takes that history on, version by version, up to the room's.
-/

namespace Zeron.Registry

open Zeron.Lib (Versions)

variable {ι : Type}

section Feed

/-- The frames take a replica from version `n` to version `m`; `acked` says of which batches an ack
may come at a version. -/
def Feed (history : History) (acked : String → Nat → Prop) :
    Nat → List ServerFrame → Nat → Prop
  | n, [], m => n = m
  | n, .rows seq rows :: frames, m =>
      seq = n + 1 ∧ history.IsDelta n (n + 1) rows ∧ Feed history acked (n + 1) frames m
  | n, .ack batch seq _ :: frames, m => seq = n ∧ acked batch n ∧ Feed history acked n frames m
  | n, .error _ _ :: frames, m => Feed history acked n frames m
  | _, .state _ _ _ _ :: _, _ => False

variable {history history' : History} {acked acked' : String → Nat → Prop}

theorem Feed.le {n m : Nat} {frames : List ServerFrame} (h : Feed history acked n frames m) :
    n ≤ m := by
  induction frames generalizing n with
  | nil => exact Nat.le_of_eq h
  | cons frame frames ih =>
      cases frame with
      | state => exact h.elim
      | rows => exact (Nat.le_succ n).trans (ih h.2.2)
      | ack => exact ih h.2.2
      | error => exact ih h

theorem Feed.mono {n m : Nat} {frames : List ServerFrame} (h : Feed history acked n frames m)
    (htable : ∀ v ≤ m, history'.table v = history.table v)
    (hacked : ∀ batch v, v ≤ m → acked batch v → acked' batch v) :
    Feed history' acked' n frames m := by
  induction frames generalizing n with
  | nil => exact h
  | cons frame frames ih =>
      cases frame with
      | state => exact h
      | rows seq rows =>
          obtain ⟨hseq, ⟨hle, hrows⟩, hrest⟩ := h
          refine ⟨hseq, ⟨hle, fun r => ?_⟩, ih hrest⟩
          rw [htable _ hrest.le]
          exact hrows r
      | ack batch seq applied =>
          obtain ⟨hseq, hack, hrest⟩ := h
          exact ⟨hseq, hacked batch n hrest.le hack, ih hrest⟩
      | error => exact ih h

theorem Feed.append {n m m' : Nat} {frames frames' : List ServerFrame}
    (h : Feed history acked n frames m) (h' : Feed history acked m frames' m') :
    Feed history acked n (frames ++ frames') m' := by
  induction frames generalizing n with
  | nil =>
      cases h
      exact h'
  | cons frame frames ih =>
      cases frame with
      | state => exact h.elim
      | rows | ack => exact ⟨h.1, h.2.1, ih h.2.2⟩
      | error => exact ih h

end Feed

section Invariant

/-- The feed of the socket ends at the room's version, as long as the room holds its end. -/
def AtHead (wipes head : Nat) (socket : Socket ι) (m : Nat) : Prop :=
  (socket.era = wipes → m ≤ head) ∧ (socket.opened = true → m = head)

/-- What holds of the socket a client uses, whether or not the state has come. -/
structure Holds (wipes : Nat) (i : ι) (peer : Peer) (socket : Socket ι) : Prop where
  owner : socket.owner = i
  attached : socket.attached = true
  peerEra : peer.era ≤ socket.era
  era : socket.era ≤ wipes
  opened : socket.opened = true → socket.era = wipes
  pushes : ∀ batch ops, ClientFrame.push batch ops ∈ socket.toRoom →
    peer.doc.Minted batch ∧ ∀ b ∈ peer.doc.pending, b.batch = batch → b.ops = ops

structure Joins (histories : Nat → History) (wipes head : Nat) (peer : Peer) (socket : Socket ι) :
    Prop where
  ready : socket.ready = true
  era : peer.era = socket.era
  noHello : ∀ cursor device, ClientFrame.hello cursor device ∉ socket.toRoom
  feed : ∃ m, Feed (histories socket.era) (peer.doc.Acked (histories socket.era))
    peer.doc.serverSeq socket.toPeer m ∧ AtHead wipes head socket m

/-- The hello is on its way, or lost. -/
structure Asks (peer : Peer) (socket : Socket ι) : Prop where
  ready : socket.ready = false
  toPeer : socket.toPeer = []
  toRoom : socket.toRoom = [] ∨ ∃ cursor device, socket.toRoom = [.hello cursor device] ∧
    (cursor = some peer.doc.serverSeq ∨
      cursor = none ∧ peer.doc.authoritative = ∅ ∧ peer.doc.serverSeq = 0)

/-- The state is on its way, and rows behind it. -/
structure Answered (histories : Nat → History) (wipes head : Nat) (peer : Peer)
    (socket : Socket ι) : Prop where
  ready : socket.ready = true
  toRoom : socket.toRoom = []
  toPeer : ∃ seq full gcFloor rows rest m, socket.toPeer = .state seq full gcFloor rows :: rest ∧
    peer.doc.Answers (histories peer.era) (histories socket.era) seq full rows ∧
    (full = true → seq < peer.doc.serverSeq → peer.era < socket.era) ∧
    Feed (histories socket.era) (peer.doc.Acked (histories socket.era)) seq rest m ∧
    AtHead wipes head socket m

def SocketInv (histories : Nat → History) (wipes head : Nat) (i : ι) (peer : Peer)
    (socket : Socket ι) : Prop :=
  Holds wipes i peer socket ∧
    match peer.link with
    | .offline => True
    | .awaiting _ => Asks peer socket ∨ Answered histories wipes head peer socket
    | .joined _ => Joins histories wipes head peer socket

/-- `memory` says which rows to keep an eye on, each with a clock: those that were safe with a
client once. -/
structure PeerInv (memory : ι → RowKey → Option Hlc → Prop) (histories : Nat → History)
    (wipes head : Nat) (i : ι) (peer : Peer) (sockets : Nat → Option (Socket ι)) : Prop where
  follows : peer.doc.Follows (histories peer.era)
  remembers : ∀ key clock, memory i key clock →
    peer.doc.Remembers (histories peer.era) key clock
  era : peer.era ≤ wipes
  bound : peer.era = wipes → peer.doc.serverSeq ≤ head
  socket : ∀ sid, Net.linkSocket peer.link = some sid →
    ∃ socket, sockets sid = some socket ∧ SocketInv histories wipes head i peer socket

structure NetInv (memory : ι → RowKey → Option Hlc → Prop) (histories : Nat → History)
    (net : Net ι) : Prop where
  tracks : net.room.Tracks (histories net.wipes)
  gcFloor : net.room.gcFloor = 0
  fresh : ∀ sid, net.nextSocket ≤ sid → net.sockets sid = none
  peers : ∀ i, PeerInv memory histories net.wipes net.room.seq i (net.peers i) net.sockets

end Invariant

section Sockets

variable {histories histories' : Nat → History} {wipes head : Nat} {i : ι} {peer : Peer}
  {socket : Socket ι}

/-- The client's step changed its replica and left rows and cursor alone. -/
theorem SocketInv.doc {doc : RegistryDoc} (h : SocketInv histories wipes head i peer socket)
    (hauth : doc.authoritative = peer.doc.authoritative) (hseq : doc.serverSeq = peer.doc.serverSeq)
    (hminted : ∀ batch, peer.doc.Minted batch → doc.Minted batch)
    (hpending : ∀ b ∈ doc.pending, peer.doc.Minted b.batch →
      ∃ b' ∈ peer.doc.pending, b'.batch = b.batch ∧ b'.ops = b.ops) :
    SocketInv histories wipes head i { peer with doc } socket := by
  have hacked : ∀ history batch n, peer.doc.Acked history batch n → doc.Acked history batch n := by
    intro history batch n hack
    refine ⟨hminted batch hack.1, fun b hb hbatch op hop => ?_⟩
    obtain ⟨b', hb', hbatch', hops⟩ := hpending b hb (hbatch ▸ hack.1)
    exact hack.2 b' hb' (hbatch'.trans hbatch) op (hops ▸ hop)
  have hfeed : ∀ history n frames m, Feed history (peer.doc.Acked history) n frames m →
      Feed history (doc.Acked history) n frames m :=
    fun history n frames m hfeed => hfeed.mono (fun _ _ => rfl) fun batch v _ => hacked history batch v
  obtain ⟨hholds, hlink⟩ := h
  refine ⟨{ hholds with pushes := fun batch ops hpush => ?_ }, ?_⟩
  · obtain ⟨hbatch, hops⟩ := hholds.pushes batch ops hpush
    refine ⟨hminted batch hbatch, fun b hb heq => ?_⟩
    obtain ⟨b', hb', hbatch', hops'⟩ := hpending b hb (heq ▸ hbatch)
    exact hops' ▸ hops b' hb' (hbatch'.trans heq)
  · change match peer.link with
      | .offline => True
      | .awaiting _ | .joined _ => _
    cases hcase : peer.link with
    | offline => trivial
    | awaiting sid =>
        rw [hcase] at hlink
        obtain hasks | hanswered := hlink
        · refine Or.inl { hasks with toRoom := ?_ }
          simp only [hauth, hseq]
          exact hasks.toRoom
        · refine Or.inr { hanswered with toPeer := ?_ }
          obtain ⟨seq, full, gcFloor, rows, rest, m, htoPeer, hanswers, hera, hrest, hhead⟩ :=
            hanswered.toPeer
          refine ⟨seq, full, gcFloor, rows, rest, m, htoPeer, ?_, ?_, hfeed _ _ _ _ hrest, hhead⟩
          · unfold RegistryDoc.Answers
            rw [hauth, hseq]
            exact hanswers
          · rw [hseq]
            exact hera
    | joined sid =>
        rw [hcase] at hlink
        refine { hlink with feed := ?_ }
        obtain ⟨m, hm, hhead⟩ := hlink.feed
        exact ⟨m, by rw [hseq]; exact hfeed _ _ _ _ hm, hhead⟩

theorem SocketInv.enqueued {doc : RegistryDoc} {ops : List RowOp}
    (h : SocketInv histories wipes head i peer socket) (henqueued : peer.doc.Enqueued ops doc) :
    SocketInv histories wipes head i { peer with doc } socket :=
  h.doc henqueued.authoritative henqueued.serverSeq henqueued.minted fun b hb hminted =>
    ⟨b, henqueued.mem_of_minted hb hminted, rfl, rfl⟩

theorem SocketInv.marked (h : SocketInv histories wipes head i peer socket)
    (mark : PendingBatch → Bool) :
    SocketInv histories wipes head i { peer with doc := peer.doc.marked mark } socket :=
  h.doc rfl rfl (fun _ hminted => hminted) fun _ hb _ => RegistryDoc.mem_marked hb

theorem SocketInv.close (h : SocketInv histories wipes head i peer socket) :
    SocketInv histories wipes head i peer socket.close := by
  obtain ⟨hholds, hlink⟩ := h
  have hhead : ∀ m, AtHead wipes head socket m → AtHead wipes head socket.close m :=
    fun m hm => ⟨hm.1, fun hopened => Bool.noConfusion hopened⟩
  refine ⟨{ hholds with
    opened := fun hopened => Bool.noConfusion hopened
    pushes := fun _ _ hpush => by cases hpush }, ?_⟩
  cases hcase : peer.link with
  | offline => trivial
  | awaiting sid =>
      rw [hcase] at hlink
      obtain hasks | hanswered := hlink
      · exact Or.inl { hasks with toRoom := Or.inl rfl }
      · refine Or.inr { hanswered with toRoom := rfl, toPeer := ?_ }
        obtain ⟨seq, full, gcFloor, rows, rest, m, htoPeer, hanswers, hera, hrest, hm⟩ :=
          hanswered.toPeer
        exact ⟨seq, full, gcFloor, rows, rest, m, htoPeer, hanswers, hera, hrest, hhead m hm⟩
  | joined sid =>
      rw [hcase] at hlink
      obtain ⟨m, hfeed, hm⟩ := hlink.feed
      exact { hlink with
        noHello := fun _ _ hhello => by cases hhello
        feed := ⟨m, hfeed, hhead m hm⟩ }

/-- Other histories and another head serve as well, if they agree up to the versions in use. -/
theorem SocketInv.agree {wipes' head' : Nat} (h : SocketInv histories wipes head i peer socket)
    (hera : peer.era ≤ wipes) (hbound : peer.era = wipes → peer.doc.serverSeq ≤ head)
    (hagree : ∀ e ≤ wipes, ∀ n, (e = wipes → n ≤ head) → (histories' e).table n = (histories e).table n)
    (hwipes : wipes ≤ wipes')
    (hhead : socket.ready = true → ∀ m, AtHead wipes head socket m → AtHead wipes' head' socket m)
    (hopened : socket.opened = true → socket.era = wipes') :
    SocketInv histories' wipes' head' i peer socket := by
  obtain ⟨hholds, hlink⟩ := h
  refine ⟨{ hholds with era := hholds.era.trans hwipes, opened := hopened }, ?_⟩
  have hfeed : ∀ n frames m, AtHead wipes head socket m →
      Feed (histories socket.era) (peer.doc.Acked (histories socket.era)) n frames m →
      Feed (histories' socket.era) (peer.doc.Acked (histories' socket.era)) n frames m := by
    intro n frames m hm hfeed
    have htable : ∀ v ≤ m, (histories' socket.era).table v = (histories socket.era).table v :=
      fun v hv => hagree _ hholds.era v fun heq => hv.trans (hm.1 heq)
    refine hfeed.mono htable fun batch v hv hack => ?_
    unfold RegistryDoc.Acked
    rw [htable v hv]
    exact hack
  cases hcase : peer.link with
  | offline => trivial
  | awaiting sid =>
      rw [hcase] at hlink
      obtain hasks | hanswered := hlink
      · exact Or.inl hasks
      · refine Or.inr { hanswered with toPeer := ?_ }
        obtain ⟨seq, full, gcFloor, rows, rest, m, htoPeer, hanswers, hless, hrest, hm⟩ :=
          hanswered.toPeer
        refine ⟨seq, full, gcFloor, rows, rest, m, htoPeer, ?_, hless, hfeed _ _ _ hm hrest,
          hhead hanswered.ready m hm⟩
        have hseq : (histories' socket.era).table seq = (histories socket.era).table seq :=
          hagree _ hholds.era seq fun heq => hrest.le.trans (hm.1 heq)
        have hdelta : ∀ c, (histories socket.era).IsDelta c seq rows →
            (histories' socket.era).IsDelta c seq rows := by
          rintro c ⟨hle, hrows⟩
          refine ⟨hle, fun r => ?_⟩
          rw [hseq]
          exact hrows r
        obtain ⟨hfull, htable, hrows⟩ | ⟨hfull, hbehind, hrows⟩ | ⟨hfull, hempty, hzero, hrows⟩ :=
          hanswers
        · refine Or.inl ⟨hfull, ?_, hdelta _ hrows⟩
          rw [hagree _ hera _ hbound, ← htable]
          exact hagree _ hholds.era _ fun heq => hrows.1.trans (hrest.le.trans (hm.1 heq))
        · exact Or.inr (Or.inl ⟨hfull, hbehind, hdelta _ hrows⟩)
        · exact Or.inr (Or.inr ⟨hfull, hempty, hzero, hdelta _ hrows⟩)
  | joined sid =>
      rw [hcase] at hlink
      obtain ⟨m, hm, hmhead⟩ := hlink.feed
      exact { hlink with feed := ⟨m, hfeed _ _ _ hmhead hm, hhead hlink.ready m hmhead⟩ }

theorem SocketInv.append {head' : Nat} {frame : ServerFrame}
    (h : SocketInv histories wipes head i peer socket) (hready : socket.ready = true)
    (hframe : ∀ m, AtHead wipes head socket m → ∃ m',
      Feed (histories socket.era) (peer.doc.Acked (histories socket.era)) m [frame] m' ∧
        AtHead wipes head' socket m') :
    SocketInv histories wipes head' i peer { socket with toPeer := socket.toPeer ++ [frame] } := by
  obtain ⟨hholds, hlink⟩ := h
  refine ⟨{ hholds with }, ?_⟩
  cases hcase : peer.link with
  | offline => trivial
  | awaiting sid =>
      rw [hcase] at hlink
      obtain hasks | hanswered := hlink
      · exact absurd hready (by simp [hasks.ready])
      · refine Or.inr { hanswered with toPeer := ?_ }
        obtain ⟨seq, full, gcFloor, rows, rest, m, htoPeer, hanswers, hless, hrest, hm⟩ :=
          hanswered.toPeer
        obtain ⟨m', hfeed, hm'⟩ := hframe m hm
        refine ⟨seq, full, gcFloor, rows, rest ++ [frame], m', ?_, hanswers, hless,
          hrest.append hfeed, hm'⟩
        simp only [htoPeer, List.cons_append]
  | joined sid =>
      rw [hcase] at hlink
      obtain ⟨m, hm, hmhead⟩ := hlink.feed
      obtain ⟨m', hfeed, hm'⟩ := hframe m hmhead
      exact { hlink with feed := ⟨m', hm.append hfeed, hm'⟩ }

theorem SocketInv.popRoom {frame : ClientFrame} {rest : List ClientFrame}
    (h : SocketInv histories wipes head i peer socket) (hroom : socket.toRoom = frame :: rest) :
    SocketInv histories wipes head i peer { socket with toRoom := rest } := by
  obtain ⟨hholds, hlink⟩ := h
  have hsub : ∀ frame ∈ rest, frame ∈ socket.toRoom :=
    fun _ hmem => hroom ▸ List.mem_cons_of_mem _ hmem
  refine ⟨{ hholds with pushes := fun batch ops hmem => hholds.pushes batch ops (hsub _ hmem) }, ?_⟩
  cases hcase : peer.link with
  | offline => trivial
  | awaiting sid =>
      rw [hcase] at hlink
      obtain hasks | hanswered := hlink
      · refine Or.inl { hasks with toRoom := Or.inl ?_ }
        obtain hnil | ⟨cursor, device, hhello, -⟩ := hasks.toRoom
        · rw [hroom] at hnil
          cases hnil
        · rw [hroom] at hhello
          exact (List.cons.inj hhello).2
      · rw [hanswered.toRoom] at hroom
        cases hroom
  | joined sid =>
      rw [hcase] at hlink
      exact { hlink with noHello := fun cursor device hmem => hlink.noHello _ _ (hsub _ hmem) }

theorem SocketInv.broadcast {rows : List RegistryRow}
    (h : SocketInv histories wipes head i peer socket) (hera : peer.era ≤ wipes)
    (hbound : peer.era = wipes → peer.doc.serverSeq ≤ head)
    (hagree : ∀ e ≤ wipes, ∀ n, (e = wipes → n ≤ head) →
      (histories' e).table n = (histories e).table n)
    (hrows : (histories' wipes).IsDelta head (head + 1) rows) :
    SocketInv histories' wipes (head + 1) i peer (socket.broadcast (.rows (head + 1) rows)) := by
  have hopened := h.1.opened
  unfold Socket.broadcast Socket.sendToPeer
  rw [if_pos h.1.attached]
  split
  · rename_i hready
    have hsame := h.agree hera hbound hagree (le_refl _) (fun _ _ hm => hm) hopened
    refine hsame.append hready.2 fun m hm => ⟨head + 1, ?_, fun _ => le_refl _, fun _ => rfl⟩
    rw [hm.2 hready.1, hopened hready.1]
    exact ⟨rfl, hrows, rfl⟩
  · rename_i hnot
    refine h.agree hera hbound hagree (le_refl _) (fun hready m hm => ?_) hopened
    exact ⟨fun heq => (hm.1 heq).trans (Nat.le_succ _), fun hopen => absurd ⟨hopen, hready⟩ hnot⟩

theorem SocketInv.joins_of_push {batch : String} {ops : List RowOp}
    (h : SocketInv histories wipes head i peer socket)
    (hsid : (Net.linkSocket peer.link).isSome)
    (hpush : ClientFrame.push batch ops ∈ socket.toRoom) :
    Joins histories wipes head peer socket := by
  obtain ⟨hholds, hlink⟩ := h
  cases hcase : peer.link with
  | offline =>
      rw [hcase] at hsid
      cases hsid
  | awaiting sid =>
      rw [hcase] at hlink
      obtain hasks | hanswered := hlink
      · obtain hnil | ⟨cursor, device, hhello, -⟩ := hasks.toRoom
        · rw [hnil] at hpush
          cases hpush
        · rw [hhello] at hpush
          cases List.mem_singleton.mp hpush
      · rw [hanswered.toRoom] at hpush
        cases hpush
  | joined sid =>
      rw [hcase] at hlink
      exact hlink

theorem SocketInv.asks_of_hello {cursor : Option Nat} {device : String}
    {rest : List ClientFrame} (h : SocketInv histories wipes head i peer socket)
    (hsid : (Net.linkSocket peer.link).isSome)
    (hhello : socket.toRoom = .hello cursor device :: rest) :
    Asks peer socket ∧ ∃ sid, peer.link = .awaiting sid := by
  obtain ⟨hholds, hlink⟩ := h
  cases hcase : peer.link with
  | offline =>
      rw [hcase] at hsid
      cases hsid
  | awaiting sid =>
      rw [hcase] at hlink
      obtain hasks | hanswered := hlink
      · exact ⟨hasks, sid, rfl⟩
      · rw [hanswered.toRoom] at hhello
        cases hhello
  | joined sid =>
      rw [hcase] at hlink
      exact absurd (hhello ▸ List.mem_cons_self) (hlink.noHello cursor device)

end Sockets

section Guard

variable [DecidableEq ι]

/-- The wipe shows in the cursor of the hello: the cursor is of the present storage, or zero, or
above the room's seq. -/
def Net.WipeShows (net : Net ι) (i : ι) : ClientFrame → Prop
  | .hello (some cursor) _ =>
      (net.peers i).era = net.wipes ∨ cursor = 0 ∨ net.room.seq < cursor
  | _ => True

/-- The seeds of a room that is behind can carry the newest clock of each live row. -/
def Net.SeedsWhole (net : Net ι) (i : ι) : ServerFrame → Prop
  | .state seq true _ _ =>
      seq < (net.peers i).doc.serverSeq →
        ∀ row ∈ (net.peers i).doc.authoritative.rows, row.deleted = false → row.NewestShown
  | _ => True

/-- The steps from which the registry recovers: no collection, every wipe shows to the clients that
say hello after it, and re-seeding loses no clock. -/
def Net.Recovers (net : Net ι) : Action ι → Prop
  | .roomRecv sid =>
      ∀ socket ∈ net.sockets sid, (net.peers socket.owner).link = .awaiting sid →
        ∀ frame ∈ socket.toRoom.head?, net.WipeShows socket.owner frame
  | .peerRecv i _ _ =>
      ∀ sid ∈ Net.linkSocket (net.peers i).link, ∀ socket ∈ net.sockets sid,
        ∀ frame ∈ socket.toPeer.head?, net.SeedsWhole i frame
  | .collect _ => False
  | _ => True

instance (net : Net ι) (i : ι) : (frame : ClientFrame) → Decidable (net.WipeShows i frame)
  | .hello (some _) _ => inferInstanceAs (Decidable (_ ∨ _))
  | .hello none _ | .push _ _ => isTrue trivial

instance (net : Net ι) (i : ι) : (frame : ServerFrame) → Decidable (net.SeedsWhole i frame)
  | .state _ true _ _ => inferInstanceAs (Decidable (_ → _))
  | .state _ false _ _ | .rows _ _ | .ack _ _ _ | .error _ _ => isTrue trivial

instance (net : Net ι) : (action : Action ι) → Decidable (net.Recovers action)
  | .roomRecv _ => inferInstanceAs (Decidable (∀ _ ∈ net.sockets _, _))
  | .peerRecv _ _ _ => inferInstanceAs (Decidable (∀ _ ∈ Net.linkSocket _, _))
  | .collect _ => isFalse id
  | .write _ _ _ _ | .connect _ | .push _ | .disconnect _ | .close _ | .wipe => isTrue trivial

end Guard

end Zeron.Registry
