import Zeron.Registry.Sync

/-!
# Every step keeps the invariant

One lemma for each action. The room's steps extend the history of the present storage and feed the
sockets; a client's steps take the next version from its own feed.
-/

namespace Zeron.Registry

open Zeron.Lib (Versions)
open Net (linkSocket)

variable {ι : Type} [DecidableEq ι] {memory : ι → RowKey → Option Hlc → Prop}
  {histories : Nat → History} {net : Net ι}

variable {socket : Socket ι} {sid : Nat} {i : ι}

section Updates

omit [DecidableEq ι] in
theorem PeerInv.sockets_congr {wipes head : Nat} {peer : Peer} {sockets : Nat → Option (Socket ι)}
    (sockets' : Nat → Option (Socket ι))
    (h : PeerInv memory histories wipes head i peer sockets)
    (hsame : ∀ sid, linkSocket peer.link = some sid → sockets' sid = sockets sid) :
    PeerInv memory histories wipes head i peer sockets' := by
  refine { h with socket := fun sid hsid => ?_ }
  rw [hsame sid hsid]
  exact h.socket sid hsid

omit [DecidableEq ι] in
theorem NetInv.sid_ne (h : NetInv memory histories net) {i j : ι} (hij : j ≠ i) {sid sid' : Nat}
    (hi : linkSocket (net.peers i).link = some sid)
    (hj : linkSocket (net.peers j).link = some sid') : sid' ≠ sid := by
  rintro rfl
  obtain ⟨socket, hsocket, hinv⟩ := (h.peers i).socket _ hi
  obtain ⟨socket', hsocket', hinv'⟩ := (h.peers j).socket _ hj
  rw [hsocket, Option.some.injEq] at hsocket'
  subst hsocket'
  exact hij (hinv'.1.owner.symm.trans hinv.1.owner)

omit [DecidableEq ι] in
theorem NetInv.sid_lt (h : NetInv memory histories net) (hsocket : net.sockets sid = some socket) :
    sid < net.nextSocket := by
  by_contra hnot
  rw [h.fresh sid (Nat.le_of_not_lt hnot)] at hsocket
  cases hsocket

theorem NetInv.setPeer (h : NetInv memory histories net) {peer : Peer}
    (hpeer : PeerInv memory histories net.wipes net.room.seq i peer net.sockets) :
    NetInv memory histories (net.setPeer i peer) := by
  refine { h with peers := fun j => ?_ }
  by_cases hj : j = i
  · subst hj
    simpa [Net.setPeer] using hpeer
  · simpa [Net.setPeer, hj] using h.peers j

theorem NetInv.setBoth (h : NetInv memory histories net) {peer : Peer}
    (hsid : linkSocket (net.peers i).link = some sid)
    (hpeer : PeerInv memory histories net.wipes net.room.seq i peer
      (Function.update net.sockets sid (some socket))) :
    NetInv memory histories ((net.setPeer i peer).setSocket sid socket) := by
  obtain ⟨socket₀, hsocket₀, -⟩ := (h.peers i).socket sid hsid
  refine ⟨h.tracks, h.gcFloor, fun sid' hsid' => ?_, fun j => ?_⟩
  · have hne : sid' ≠ sid := Nat.ne_of_gt (Nat.lt_of_lt_of_le (h.sid_lt hsocket₀) hsid')
    simpa [Net.setSocket, Net.setPeer, hne] using h.fresh sid' hsid'
  · by_cases hj : j = i
    · subst hj
      simpa [Net.setSocket, Net.setPeer] using hpeer
    · have hcongr := (h.peers j).sockets_congr
        (Function.update net.sockets sid (some socket))
        fun sid' hsid' => Function.update_of_ne (h.sid_ne hj hsid hsid') _ _
      simpa [Net.setSocket, Net.setPeer, hj] using hcongr

omit [DecidableEq ι] in
theorem NetInv.setSocket (h : NetInv memory histories net) {socket₀ socket : Socket ι}
    (hsocket₀ : net.sockets sid = some socket₀)
    (hinv : ∀ i, linkSocket (net.peers i).link = some sid →
      SocketInv histories net.wipes net.room.seq i (net.peers i) socket) :
    NetInv memory histories (net.setSocket sid socket) := by
  refine ⟨h.tracks, h.gcFloor, fun sid' hsid' => ?_, fun j => ?_⟩
  · have hne : sid' ≠ sid := Nat.ne_of_gt (Nat.lt_of_lt_of_le (h.sid_lt hsocket₀) hsid')
    simpa [Net.setSocket, hne] using h.fresh sid' hsid'
  · refine { h.peers j with socket := fun sid' hsid' => ?_ }
    by_cases hne : sid' = sid
    · subst hne
      exact ⟨socket, by simp [Net.setSocket], hinv j hsid'⟩
    · obtain ⟨socket', hsocket', hinv'⟩ := (h.peers j).socket sid' hsid'
      exact ⟨socket', by simpa [Net.setSocket, hne] using hsocket', hinv'⟩

end Updates

section Client

theorem NetInv.write (h : NetInv memory histories net) (i : ι) (readings : List Int) (wall : Nat → Int)
    (ops : List RowOp) :
    NetInv memory histories (net.setDoc i ((net.peers i).doc.commit readings wall ops)) := by
  have henqueued := (net.peers i).doc.enqueued_commit readings wall ops
  have hpeer := h.peers i
  refine h.setPeer ⟨hpeer.follows.enqueued henqueued,
    fun key clock hmem => (hpeer.remembers key clock hmem).enqueued henqueued, hpeer.era,
    fun heq => ?_, fun sid hsid => ?_⟩
  · rw [henqueued.serverSeq]
    exact hpeer.bound heq
  · obtain ⟨socket, hsocket, hinv⟩ := hpeer.socket sid hsid
    exact ⟨socket, hsocket, hinv.enqueued henqueued⟩

theorem NetInv.connect (h : NetInv memory histories net)
    (hoffline : (net.peers i).link = .offline) :
    NetInv memory histories
      { (net.setPeer i { net.peers i with link := .awaiting net.nextSocket }).setSocket
          net.nextSocket
          { owner := i, attached := true, opened := true, ready := false
            toRoom := [.hello (net.peers i).doc.helloCursor (net.peers i).doc.deviceId]
            toPeer := [], era := net.wipes } with
        nextSocket := net.nextSocket + 1 } := by
  refine ⟨h.tracks, h.gcFloor, fun sid hsid => ?_, fun j => ?_⟩
  · have hne : sid ≠ net.nextSocket := Nat.ne_of_gt hsid
    simpa [Net.setSocket, Net.setPeer, hne] using h.fresh sid ((Nat.le_succ _).trans hsid)
  · by_cases hj : j = i
    · subst hj
      have hpeer := h.peers j
      have hasks : Asks { net.peers j with link := .awaiting net.nextSocket }
          ({ owner := j, attached := true, opened := true, ready := false
             toRoom := [.hello (net.peers j).doc.helloCursor (net.peers j).doc.deviceId]
             toPeer := [], era := net.wipes } : Socket ι) := by
        refine ⟨rfl, rfl, Or.inr ⟨_, _, rfl, ?_⟩⟩
        unfold RegistryDoc.helloCursor
        split
        · rename_i hnew
          exact Or.inr ⟨rfl, hpeer.follows.untouched hnew.2.2⟩
        · exact Or.inl rfl
      have hholds : Holds net.wipes j { net.peers j with link := .awaiting net.nextSocket }
          ({ owner := j, attached := true, opened := true, ready := false
             toRoom := [.hello (net.peers j).doc.helloCursor (net.peers j).doc.deviceId]
             toPeer := [], era := net.wipes } : Socket ι) :=
        { owner := rfl, attached := rfl, peerEra := hpeer.era, era := le_refl _
          opened := fun _ => rfl
          pushes := fun batch ops hpush => by cases List.mem_singleton.mp hpush }
      have hlinked : PeerInv memory histories net.wipes net.room.seq j
          { net.peers j with link := .awaiting net.nextSocket }
          (Function.update net.sockets net.nextSocket (some _)) :=
        ⟨hpeer.follows, hpeer.remembers, hpeer.era, hpeer.bound, fun sid hsid => by
          cases hsid
          exact ⟨_, Function.update_self _ _ _, hholds, Or.inl hasks⟩⟩
      simpa [Net.setSocket, Net.setPeer] using hlinked
    · have hcongr := (h.peers j).sockets_congr (Function.update net.sockets
          net.nextSocket (some
            { owner := i, attached := true, opened := true, ready := false
              toRoom := [.hello (net.peers i).doc.helloCursor (net.peers i).doc.deviceId]
              toPeer := [], era := net.wipes })) (fun sid hsid => by
        obtain ⟨socket, hsocket, -⟩ := (h.peers j).socket sid hsid
        exact Function.update_of_ne (Nat.ne_of_lt (h.sid_lt hsocket)) _ _)
      simpa [Net.setSocket, Net.setPeer, hj] using hcongr

theorem NetInv.push (h : NetInv memory histories net) (hlink : (net.peers i).link = .joined sid)
    (hsocket : net.sockets sid = some socket) :
    NetInv memory histories ((net.setDoc i (net.peers i).doc.takePushable.2).setSocket sid
      (socket.sendToRoom ((net.peers i).doc.takePushable.1.map fun b => .push b.batch b.ops))) := by
  have hsid : linkSocket (net.peers i).link = some sid := by rw [hlink]; rfl
  have hpeer := h.peers i
  refine h.setBoth hsid ⟨hpeer.follows.marked fun _ => true,
    fun key clock hmem => (hpeer.remembers key clock hmem).marked fun _ => true, hpeer.era,
    hpeer.bound, ?_⟩
  intro sid' hsid'
  have heq : sid' = sid := Option.some.inj (hsid'.symm.trans hsid)
  subst heq
  refine ⟨_, Function.update_self _ _ _, ?_⟩
  obtain ⟨socket₀, hsocket₀, hinv⟩ := hpeer.socket sid' hsid
  rw [hsocket, Option.some.injEq] at hsocket₀
  subst hsocket₀
  have hmarked := hinv.marked fun _ => true
  unfold Socket.sendToRoom
  split
  · -- What goes out is pending, and a pending batch is told by its id.
    obtain ⟨hholds, hjoins⟩ := hmarked
    refine ⟨{ hholds with pushes := fun batch ops hpush => ?_ }, ?_⟩
    · obtain hpush | hpush := List.mem_append.mp hpush
      · exact hholds.pushes batch ops hpush
      · obtain ⟨b, hb, heq⟩ := List.mem_map.mp hpush
        cases heq
        obtain ⟨b₀, hb₀, rfl⟩ := List.mem_map.mp hb
        have hpending := List.mem_of_mem_filter hb₀
        refine ⟨hpeer.follows.sound.minted b₀ hpending, fun b' hb' hbatch => ?_⟩
        obtain ⟨b'', hb'', hbatch'', hops⟩ := RegistryDoc.mem_marked hb'
        rw [← hops, List.inj_on_of_nodup_map hpeer.follows.sound.distinct hb'' hpending
          (hbatch''.trans hbatch)]
    · rw [hlink] at hjoins ⊢
      refine { hjoins with noHello := fun cursor device hmem => ?_ }
      obtain hmem | hmem := List.mem_append.mp hmem
      · exact hjoins.noHello cursor device hmem
      · obtain ⟨b, -, heq⟩ := List.mem_map.mp hmem
        cases heq
  · exact hmarked

theorem NetInv.disconnect (h : NetInv memory histories net)
    (hsid : linkSocket (net.peers i).link = some sid) :
    NetInv memory histories ((net.setPeer i
      { net.peers i with doc := (net.peers i).doc.markDisconnected, link := .offline }).setSocket
        sid socket.detach) := by
  have hpeer := h.peers i
  exact h.setBoth hsid
    ⟨hpeer.follows.marked fun _ => false,
      fun key clock hmem => (hpeer.remembers key clock hmem).marked fun _ => false, hpeer.era,
      hpeer.bound, fun sid' hsid' => by cases hsid'⟩

omit [DecidableEq ι] in
theorem NetInv.mem_seeds {seq gcFloor : Nat} {rows : List RegistryRow} {full : Bool}
    (h : NetInv memory histories net)
    (hwhole : net.SeedsWhole i (.state seq full gcFloor rows)) (hfull : full = true)
    (hbehind : seq < (net.peers i).doc.serverSeq) (k : RowKey) (row : RegistryRow)
    (hrow : (net.peers i).doc.authoritative[k]? = some row) (hlive : row.deleted = false) :
    row.NewestShown := by
  subst hfull
  have hkeyed := (h.peers i).follows.sound.keyed
  refine hwhole hbehind row (hkeyed.mem_rows.mpr ?_) hlive
  rw [hkeyed k row hrow]
  exact hrow

/-- The answer to the hello: the client follows the history of the storage that answered. -/
theorem NetInv.peerState (h : NetInv memory histories net) {sid seq gcFloor : Nat} {full : Bool}
    {rows : List RegistryRow} {rest : List ServerFrame} (order : HashOrder)
    (wall : Nat → Int) (hlink : (net.peers i).link = .awaiting sid)
    (hsocket : net.sockets sid = some socket)
    (hframe : socket.toPeer = .state seq full gcFloor rows :: rest)
    (hwhole : net.SeedsWhole i (.state seq full gcFloor rows)) :
    NetInv memory histories ((net.setPeer i
      { doc := ((net.peers i).doc.applyState order wall seq full gcFloor rows).1
        link := .joined sid, era := socket.era }).setSocket sid { socket with toPeer := rest }) := by
  have hsid : linkSocket (net.peers i).link = some sid := by rw [hlink]; rfl
  have hpeer := h.peers i
  obtain ⟨socket₀, hsocket₀, hholds, hawaits⟩ := hpeer.socket sid hsid
  rw [hsocket, Option.some.injEq] at hsocket₀
  subst hsocket₀
  rw [hlink] at hawaits
  obtain hasks | hanswered := hawaits
  · rw [hasks.toPeer] at hframe
    cases hframe
  · obtain ⟨seq', full', gcFloor', rows', rest', m, htoPeer, hanswers, -, hfeed, hhead⟩ :=
      hanswered.toPeer
    rw [hframe] at htoPeer
    cases htoPeer
    have hseq : ((net.peers i).doc.applyState order wall seq full gcFloor rows).1.serverSeq =
        seq := by
      obtain ⟨rfl, -⟩ | ⟨rfl, hbehind, -⟩ | ⟨rfl, -, hzero, -⟩ := hanswers
      · rfl
      · exact ((net.peers i).doc.applyState_behind order wall _ _ hbehind).serverSeq
      · exact ((net.peers i).doc.applyState_replace order wall _ _ (by omega)).serverSeq
    refine h.setBoth hsid ⟨?_, fun key clock hmem => ?_, hholds.era, fun heq => ?_,
      fun sid' hsid' => ?_⟩
    · exact hpeer.follows.applyState order wall hanswers (h.mem_seeds hwhole)
    · exact (hpeer.remembers key clock hmem).applyState hpeer.follows order wall hanswers
        (h.mem_seeds hwhole)
    · rw [hseq]
      exact hfeed.le.trans (hhead.1 heq)
    · cases hsid'
      refine ⟨_, Function.update_self _ _ _, ?_, ?_⟩
      · exact { hholds with
          peerEra := le_refl _
          pushes := fun batch ops hpush => by
            rw [show socket.toRoom = [] from hanswered.toRoom] at hpush
            cases hpush }
      · refine ⟨hanswered.ready, rfl, fun cursor device hhello => ?_, m, ?_, hhead⟩
        · rw [show socket.toRoom = [] from hanswered.toRoom] at hhello
          cases hhello
        · rw [hseq]
          exact hfeed.mono (fun _ _ => rfl) fun batch v _ hack => hack.applyState order wall

/-- A frame of the established session. -/
theorem NetInv.peerSteady (h : NetInv memory histories net) {frame : ServerFrame}
    {rest : List ServerFrame} (order : HashOrder) (wall : Nat → Int)
    (hlink : (net.peers i).link = .joined sid) (hsocket : net.sockets sid = some socket)
    (hframe : socket.toPeer = frame :: rest) :
    NetInv memory histories ((net.setDoc i ((net.peers i).doc.handleFrame order wall frame)).setSocket sid
      { socket with toPeer := rest }) := by
  have hsid : linkSocket (net.peers i).link = some sid := by rw [hlink]; rfl
  have hpeer := h.peers i
  obtain ⟨socket₀, hsocket₀, hholds, hjoins⟩ := hpeer.socket sid hsid
  rw [hsocket, Option.some.injEq] at hsocket₀
  subst hsocket₀
  rw [hlink] at hjoins
  obtain ⟨m, hfeed, hhead⟩ := hjoins.feed
  rw [hframe] at hfeed
  -- A frame moves the cursor along the feed, and at most retires pending batches.
  have hmoved : ∀ doc : RegistryDoc, doc.Follows (histories (net.peers i).era) →
      (∀ key clock, (net.peers i).doc.Remembers (histories (net.peers i).era) key clock →
        doc.Remembers (histories (net.peers i).era) key clock) →
      (∀ batch, (net.peers i).doc.Minted batch → doc.Minted batch) →
      (∀ b ∈ doc.pending, b ∈ (net.peers i).doc.pending) →
      Feed (histories socket.era) ((net.peers i).doc.Acked (histories socket.era)) doc.serverSeq
        rest m →
      NetInv memory histories ((net.setDoc i doc).setSocket sid { socket with toPeer := rest }) := by
    intro doc hfollows hremembers hminted hpending hrest
    refine h.setBoth hsid ⟨hfollows,
      fun key clock hmem => hremembers key clock (hpeer.remembers key clock hmem), hpeer.era,
      fun heq => ?_, fun sid' hsid' => ?_⟩
    · exact hrest.le.trans (hhead.1 (hjoins.era ▸ heq))
    · have heq : sid' = sid := Option.some.inj (hsid'.symm.trans hsid)
      subst heq
      refine ⟨_, Function.update_self _ _ _, ?_, ?_⟩
      · refine { hholds with pushes := fun batch ops hpush => ?_ }
        obtain ⟨hbatch, hops⟩ := hholds.pushes batch ops hpush
        exact ⟨hminted batch hbatch, fun b hb => hops b (hpending b hb)⟩
      · rw [hlink]
        refine { hjoins with feed := ⟨m, hrest.mono (fun _ _ => rfl) fun batch v _ hack => ?_, hhead⟩ }
        exact ⟨hminted batch hack.1, fun b hb => hack.2 b (hpending b hb)⟩
  cases frame with
  | state => exact hfeed.elim
  | rows seq rows =>
      obtain ⟨rfl, hrows, hrest⟩ := hfeed
      rw [← hjoins.era] at hrows
      refine hmoved ((net.peers i).doc.applyRows _ rows) (hpeer.follows.applyRows hrows)
        (fun _ _ hremembers => hremembers.applyRows rows) (fun _ hbatch => hbatch)
        (fun _ hb => hb) ?_
      have hseq : ((net.peers i).doc.applyRows ((net.peers i).doc.serverSeq + 1) rows).serverSeq =
          (net.peers i).doc.serverSeq + 1 := if_pos (Nat.lt_succ_self _)
      rw [hseq]
      exact hrest
  | ack batch seq applied =>
      obtain ⟨rfl, hack, hrest⟩ := hfeed
      rw [← hjoins.era] at hack
      have hfollows := hpeer.follows.ackBatch hack
      obtain ⟨generation, -, heq⟩ :=
        (net.peers i).doc.ackBatch_fst batch (net.peers i).doc.serverSeq
      rw [if_neg (lt_irrefl _)] at heq
      refine hmoved ((net.peers i).doc.ackBatch batch _).1 hfollows
        (fun _ _ hremembers => hremembers.ackBatch hack) ?_ ?_ ?_
      · rw [heq]
        exact fun _ hbatch => hbatch
      · rw [heq]
        exact fun b hb => List.mem_of_mem_filter hb
      · rw [heq]
        exact hrest
  | error code message =>
      exact hmoved _ hpeer.follows (fun _ _ hremembers => hremembers) (fun _ hbatch => hbatch)
        (fun _ hb => hb) hfeed

/-- What the client does with the next frame, in either state of its session. -/
theorem NetInv.peerFrame (h : NetInv memory histories net) {frame : ServerFrame}
    {rest : List ServerFrame} (order : HashOrder) (wall : Nat → Int)
    (hsid : linkSocket (net.peers i).link = some sid) (hsocket : net.sockets sid = some socket)
    (hframe : socket.toPeer = frame :: rest) (hwhole : net.SeedsWhole i frame) :
    NetInv memory histories ((net.setSocket sid { socket with toPeer := rest }).peerFrame i sid socket
      order wall frame) := by
  cases hlink : (net.peers i).link with
  | offline =>
      rw [hlink] at hsid
      cases hsid
  | awaiting sid' =>
      rw [hlink] at hsid
      cases hsid
      obtain ⟨socket₀, hsocket₀, hholds, hawaits⟩ := (h.peers i).socket sid (by rw [hlink]; rfl)
      rw [hsocket, Option.some.injEq] at hsocket₀
      subst hsocket₀
      rw [hlink] at hawaits
      -- The first frame of a session is the state.
      have hstate : ∃ seq full gcFloor rows, frame = .state seq full gcFloor rows := by
        obtain hasks | hanswered := hawaits
        · rw [hasks.toPeer] at hframe
          cases hframe
        · obtain ⟨seq, full, gcFloor, rows, _, _, htoPeer, -⟩ := hanswered.toPeer
          rw [hframe] at htoPeer
          exact ⟨seq, full, gcFloor, rows, (List.cons.inj htoPeer).1⟩
      obtain ⟨seq, full, gcFloor, rows, rfl⟩ := hstate
      have hpeers : ((net.setSocket sid { socket with toPeer := rest }).peers i).link =
          .awaiting sid := hlink
      unfold Net.peerFrame
      rw [hpeers]
      exact h.peerState order wall hlink hsocket hframe hwhole
  | joined sid' =>
      rw [hlink] at hsid
      cases hsid
      have hpeers : ((net.setSocket sid { socket with toPeer := rest }).peers i).link =
          .joined sid := hlink
      unfold Net.peerFrame
      rw [hpeers]
      exact h.peerSteady order wall hlink hsocket hframe

end Client

section Room

omit [DecidableEq ι] in
theorem NetInv.close (h : NetInv memory histories net) (hsocket : net.sockets sid = some socket) :
    NetInv memory histories (net.setSocket sid socket.close) := by
  refine h.setSocket hsocket fun i hsid => ?_
  obtain ⟨socket₀, hsocket₀, hinv⟩ := (h.peers i).socket sid hsid
  rw [hsocket, Option.some.injEq] at hsocket₀
  exact hsocket₀ ▸ hinv.close

omit [DecidableEq ι] in
theorem NetInv.wipe (h : NetInv memory histories net) :
    NetInv memory (Function.update histories (net.wipes + 1) Versions.empty)
      { net with
        room := .empty
        sockets := fun sid => (net.sockets sid).map Socket.close
        wipes := net.wipes + 1 } := by
  have hagree : ∀ e ≤ net.wipes, ∀ n, (e = net.wipes → n ≤ net.room.seq) →
      (Function.update histories (net.wipes + 1) Versions.empty e).table n =
        (histories e).table n := by
    intro e he n _
    rw [Function.update_of_ne (Nat.ne_of_lt (Nat.lt_succ_of_le he))]
  refine ⟨?_, rfl, fun sid hsid => by simp [h.fresh sid hsid], fun i => ?_⟩
  · simpa using Room.tracks_empty
  · have hpeer := h.peers i
    have hera : (net.peers i).era ≠ net.wipes + 1 := Nat.ne_of_lt (Nat.lt_succ_of_le hpeer.era)
    refine ⟨?_, ?_, hpeer.era.trans (Nat.le_succ _), fun heq => absurd heq hera,
      fun sid hsid => ?_⟩
    · rw [Function.update_of_ne hera]
      exact hpeer.follows
    · rw [Function.update_of_ne hera]
      exact hpeer.remembers
    · obtain ⟨socket, hsocket, hinv⟩ := hpeer.socket sid hsid
      refine ⟨socket.close, by simp [hsocket], ?_⟩
      refine hinv.close.agree hpeer.era hpeer.bound hagree (Nat.le_succ _) (fun _ m _ => ?_)
        fun hopened => Bool.noConfusion hopened
      have hsocketEra : socket.era ≠ net.wipes + 1 :=
        Nat.ne_of_lt (Nat.lt_succ_of_le hinv.1.era)
      exact ⟨fun heq => absurd heq hsocketEra, fun hopened => Bool.noConfusion hopened⟩

omit [DecidableEq ι] in
/-- The room answers a hello. -/
theorem NetInv.hello (h : NetInv memory histories net) {cursor : Option Nat} {device : String}
    {rest : List ClientFrame}
    (hsocket : net.sockets sid = some socket) (hopened : socket.opened = true)
    (hroom : socket.toRoom = .hello cursor device :: rest)
    (hshows : (net.peers socket.owner).link = .awaiting sid →
      net.WipeShows socket.owner (.hello cursor device)) :
    NetInv memory histories (net.setSocket sid
      ({ socket with toRoom := rest, ready := true }.sendToPeer (net.room.handleHello cursor))) := by
  refine h.setSocket hsocket fun i hsid => ?_
  obtain ⟨socket₀, hsocket₀, hinv⟩ := (h.peers i).socket sid hsid
  rw [hsocket, Option.some.injEq] at hsocket₀
  subst hsocket₀
  have hpeer := h.peers i
  obtain ⟨hasks, sid', hlink⟩ := hinv.asks_of_hello (by rw [hsid]; rfl) hroom
  have hera : socket.era = net.wipes := hinv.1.opened hopened
  rw [hinv.1.owner] at hshows
  have hshows := hshows (by
    rw [hlink] at hsid ⊢
    cases hsid
    rfl)
  obtain ⟨hholds, -⟩ := hinv.popRoom hroom
  have hnil : rest = [] := by
    obtain hnil | ⟨_, _, hhello, -⟩ := hasks.toRoom
    · rw [hnil] at hroom
      cases hroom
    · rw [hroom] at hhello
      exact (List.cons.inj hhello).2
  have hcursor : cursor = some (net.peers i).doc.serverSeq ∨ cursor = none ∧
      (net.peers i).doc.authoritative = ∅ ∧ (net.peers i).doc.serverSeq = 0 := by
    obtain hnil | ⟨_, _, hhello, hcursor⟩ := hasks.toRoom
    · rw [hnil] at hroom
      cases hroom
    · rw [hroom] at hhello
      cases hhello
      exact hcursor
  -- What the room says, and why it may say it to this replica.
  have hanswer : (net.peers i).doc.Answers (histories (net.peers i).era) (histories net.wipes)
        net.room.seq (net.room.helloIsFull cursor)
        (net.room.rowsSince (if net.room.helloIsFull cursor then 0 else cursor.getD 0)) ∧
      (net.room.helloIsFull cursor = true → net.room.seq < (net.peers i).doc.serverSeq →
        (net.peers i).era < net.wipes) := by
    have hall := h.tracks.isDelta_rowsSince (Nat.zero_le net.room.seq)
    obtain rfl | ⟨rfl, hempty, hzero⟩ := hcursor
    · by_cases hahead : net.room.seq < (net.peers i).doc.serverSeq
      · have hfull : net.room.helloIsFull (some (net.peers i).doc.serverSeq) = true := by
          simp [Room.helloIsFull, hahead]
        rw [hfull]
        refine ⟨Or.inr (Or.inl ⟨rfl, hahead, hall⟩), fun _ _ => ?_⟩
        refine Nat.lt_of_le_of_ne hpeer.era fun heq => ?_
        exact absurd (hpeer.bound heq) (Nat.not_le_of_lt hahead)
      · have hfull : net.room.helloIsFull (some (net.peers i).doc.serverSeq) = false := by
          simp [Room.helloIsFull, h.gcFloor, hahead]
        have hdelta := h.tracks.isDelta_rowsSince (Nat.le_of_not_lt hahead)
        rw [hfull]
        refine ⟨Or.inl ⟨rfl, ?_, hdelta⟩, fun hno => by cases hno⟩
        obtain hsame | hzero | hless := hshows
        · rw [hsame]
        · rw [hzero]
          exact funext fun k => ((histories _).zero k).trans ((histories _).zero k).symm
        · exact absurd hless hahead
    · refine ⟨Or.inr (Or.inr ⟨rfl, hempty, hzero, hall⟩), fun _ hless => ?_⟩
      rw [hzero] at hless
      cases hless
  have hsend : ({ socket with toRoom := rest, ready := true } : Socket ι).sendToPeer
      (net.room.handleHello cursor) =
        { socket with
          toRoom := rest, ready := true
          toPeer := socket.toPeer ++ [net.room.handleHello cursor] } := if_pos hholds.attached
  rw [hsend]
  refine ⟨{ hholds with }, ?_⟩
  rw [hlink]
  refine Or.inr ⟨rfl, hnil, net.room.seq, net.room.helloIsFull cursor, net.room.gcFloor,
    net.room.rowsSince (if net.room.helloIsFull cursor then 0 else cursor.getD 0), [],
    net.room.seq, ?_, ?_, ?_, rfl, ?_⟩
  · rw [hasks.toPeer]
    rfl
  · rw [hera]
    exact hanswer.1
  · rw [hera]
    exact hanswer.2
  · exact ⟨fun _ => le_refl _, fun _ => rfl⟩

omit [DecidableEq ι] in
theorem NetInv.reply (h : NetInv memory histories net) {batch : String} {ops : List RowOp}
    {rest : List ClientFrame} (frame : ServerFrame)
    (hsocket : net.sockets sid = some socket) (hopened : socket.opened = true)
    (hroom : socket.toRoom = .push batch ops :: rest)
    (hframe : ∀ i, linkSocket (net.peers i).link = some sid →
      Feed (histories net.wipes) ((net.peers i).doc.Acked (histories net.wipes)) net.room.seq
        [frame] net.room.seq) :
    NetInv memory histories (net.setSocket sid ({ socket with toRoom := rest }.sendToPeer frame)) := by
  refine h.setSocket hsocket fun i hsid => ?_
  obtain ⟨socket₀, hsocket₀, hinv⟩ := (h.peers i).socket sid hsid
  rw [hsocket, Option.some.injEq] at hsocket₀
  subst hsocket₀
  have hpush : ClientFrame.push batch ops ∈ socket.toRoom := hroom ▸ List.mem_cons_self
  have hjoins := hinv.joins_of_push (by rw [hsid]; rfl) hpush
  have hpopped := hinv.popRoom hroom
  unfold Socket.sendToPeer
  rw [if_pos hpopped.1.attached]
  refine hpopped.append hjoins.ready fun m hm => ⟨m, ?_, hm⟩
  rw [hm.2 hopened, show socket.era = net.wipes from hinv.1.opened hopened]
  exact hframe i hsid

section Extend

variable {histories' : Nat → History}
  (hagree : ∀ e ≤ net.wipes, ∀ n, (e = net.wipes → n ≤ net.room.seq) →
    (histories' e).table n = (histories e).table n)

include hagree

omit [DecidableEq ι] in
theorem NetInv.agree (h : NetInv memory histories net)
    (htracks : net.room.Tracks (histories' net.wipes)) : NetInv memory histories' net := by
  refine { h with tracks := htracks, peers := fun i => ?_ }
  have hpeer := h.peers i
  refine { hpeer with
    follows := hpeer.follows.congr (hagree _ hpeer.era _ hpeer.bound)
    remembers := fun key clock hmem =>
      (hpeer.remembers key clock hmem).congr (hagree _ hpeer.era _ hpeer.bound)
    socket := fun sid hsid => ?_ }
  obtain ⟨socket, hsocket, hinv⟩ := hpeer.socket sid hsid
  exact ⟨socket, hsocket, hinv.agree hpeer.era hpeer.bound hagree (le_refl _) (fun _ _ hm => hm)
    hinv.1.opened⟩

omit [DecidableEq ι] in
/-- The rows of a new version reach every client, and on one socket an ack follows them. -/
theorem NetInv.broadcast (h : NetInv memory histories net) {room : Room} {batch : String}
    {ops : List RowOp} {rest : List ClientFrame}
    {rows : List RegistryRow} {applied : Nat} (htracks : room.Tracks (histories' net.wipes))
    (hseq : room.seq = net.room.seq + 1) (hfloor : room.gcFloor = net.room.gcFloor)
    (hrows : (histories' net.wipes).IsDelta net.room.seq (net.room.seq + 1) rows)
    (hsocket : net.sockets sid = some socket) (hopened : socket.opened = true)
    (hroom : socket.toRoom = .push batch ops :: rest)
    (hacked : ∀ i, linkSocket (net.peers i).link = some sid →
      (net.peers i).doc.Acked (histories' net.wipes) batch room.seq) :
    NetInv memory histories'
      { net with
        room
        sockets := Function.update
          (fun sid => (net.sockets sid).map (·.broadcast (.rows room.seq rows))) sid
          (some (({ socket with toRoom := rest }.broadcast (.rows room.seq rows)).sendToPeer
            (.ack batch room.seq applied))) } := by
  refine ⟨htracks, hfloor.trans h.gcFloor, fun sid' hsid' => ?_, fun i => ?_⟩
  · have hne : sid' ≠ sid := Nat.ne_of_gt (Nat.lt_of_lt_of_le (h.sid_lt hsocket) hsid')
    simp [hne, h.fresh sid' hsid']
  have hpeer := h.peers i
  refine ⟨hpeer.follows.congr (hagree _ hpeer.era _ hpeer.bound), fun key clock hmem =>
    (hpeer.remembers key clock hmem).congr (hagree _ hpeer.era _ hpeer.bound), hpeer.era,
    fun heq => ?_, fun sid' hsid' => ?_⟩
  · rw [hseq]
    exact (hpeer.bound heq).trans (Nat.le_succ _)
  obtain ⟨socket', hsocket', hinv⟩ := hpeer.socket sid' hsid'
  by_cases hne : sid' = sid
  · subst hne
    rw [hsocket, Option.some.injEq] at hsocket'
    subst hsocket'
    refine ⟨({ socket with toRoom := rest }.broadcast (.rows room.seq rows)).sendToPeer
      (.ack batch room.seq applied), by simp, ?_⟩
    have hpush : ClientFrame.push batch ops ∈ socket.toRoom := hroom ▸ List.mem_cons_self
    have hjoins := hinv.joins_of_push (by rw [hsid']; rfl) hpush
    have hsent := (hinv.popRoom hroom).broadcast hpeer.era hpeer.bound hagree hrows
    have hera : socket.era = net.wipes := hinv.1.opened hopened
    have hbroadcast : ({ socket with toRoom := rest } : Socket ι).broadcast
        (.rows (net.room.seq + 1) rows) =
          { socket with
            toRoom := rest, toPeer := socket.toPeer ++ [.rows (net.room.seq + 1) rows] } := by
      simp [Socket.broadcast, Socket.sendToPeer, hopened, hjoins.ready, hinv.1.attached]
    rw [hseq] at hacked ⊢
    rw [hbroadcast] at hsent ⊢
    unfold Socket.sendToPeer
    rw [if_pos (show socket.attached = true from hinv.1.attached)]
    refine hsent.append hjoins.ready fun m hm => ⟨m, ?_, hm⟩
    rw [hm.2 hopened, hera]
    exact ⟨rfl, hacked i hsid', rfl⟩
  · refine ⟨socket'.broadcast (.rows room.seq rows), by simp [hne, hsocket'], ?_⟩
    rw [hseq]
    exact hinv.broadcast hpeer.era hpeer.bound hagree hrows

end Extend

omit [DecidableEq ι] in
/-- **Push.** Whatever the room says to a push, some histories account for it. -/
theorem NetInv.handlePush (h : NetInv memory histories net)
    (refuses : List RowOp → Option (String × String))
    {batch : String} {ops : List RowOp} {rest : List ClientFrame}
    (hsocket : net.sockets sid = some socket) (hopened : socket.opened = true)
    (hroom : socket.toRoom = .push batch ops :: rest) :
    ∃ histories', NetInv memory histories'
      (net.handlePush refuses sid { socket with toRoom := rest } batch ops) := by
  have herror : ∀ code message, NetInv memory histories (net.setSocket sid
      ({ socket with toRoom := rest }.sendToPeer (.error code message))) :=
    fun code message => h.reply _ hsocket hopened hroom fun _ _ => rfl
  unfold Net.handlePush
  split
  · exact ⟨histories, herror _ _⟩
  · split
    · exact ⟨histories, herror _ _⟩
    · obtain ⟨history', htracks, htable, hlands, hcases⟩ := h.tracks.applyBatch ops
      have hself : Function.update histories net.wipes history' net.wipes = history' :=
        Function.update_self _ _ _
      have hagree : ∀ e ≤ net.wipes, ∀ n, (e = net.wipes → n ≤ net.room.seq) →
          (Function.update histories net.wipes history' e).table n = (histories e).table n := by
        intro e _ n hn
        by_cases he : e = net.wipes
        · subst he
          rw [hself]
          exact htable n (hn rfl)
        · rw [Function.update_of_ne he]
      have hacked : ∀ i, linkSocket (net.peers i).link = some sid →
          (net.peers i).doc.Acked history' batch (net.room.applyBatch ops).seq := by
        intro i hsid
        obtain ⟨socket₀, hsocket₀, hinv⟩ := (h.peers i).socket sid hsid
        rw [hsocket, Option.some.injEq] at hsocket₀
        subst hsocket₀
        obtain ⟨hminted, hops⟩ := hinv.1.pushes batch ops (hroom ▸ List.mem_cons_self)
        refine ⟨hminted, fun b hb hbatch op hop => ?_⟩
        rw [htracks]
        exact hlands op (hops b hb hbatch ▸ hop)
      refine ⟨Function.update histories net.wipes history', ?_⟩
      rw [← hself] at htracks hacked hcases
      obtain ⟨hzero, hsame⟩ | ⟨hpos, hseq, hfloor, hdelta⟩ := hcases
      · rw [hsame] at htracks hacked ⊢
        simp only [hzero, lt_irrefl, if_false]
        refine (h.agree hagree htracks).reply _ hsocket hopened hroom fun i hsid => ?_
        exact ⟨rfl, hacked i hsid, rfl⟩
      · simp only [hpos, if_true]
        exact h.broadcast hagree htracks hseq hfloor hdelta hsocket hopened hroom hacked

end Room

section Run

omit [DecidableEq ι] in
theorem netInv_init (device : ι → String) :
    NetInv (fun _ _ _ => False) (fun _ => Versions.empty) (Net.init device) where
  tracks := Room.tracks_empty
  gcFloor := rfl
  fresh _ _ := rfl
  peers i :=
    { follows := RegistryDoc.follows_new _ _
      remembers := fun _ _ hmem => hmem.elim
      era := le_refl _
      bound := fun _ => le_refl _
      socket := fun _ hsid => by cases hsid }

/-- **Step.** Every step that recovers keeps the invariant, under histories that may be longer. -/
theorem NetInv.step (h : NetInv memory histories net)
    (refuses : List RowOp → Option (String × String)) {action : Action ι} {net' : Net ι}
    (hguard : net.Recovers action) (hstep : net.step refuses action = some net') :
    ∃ histories', NetInv memory histories' net' := by
  cases action with
  | write i readings wall ops =>
      cases hstep
      exact ⟨_, h.write i readings wall ops⟩
  | connect i =>
      simp only [Net.step] at hstep
      split at hstep
      · rename_i hoffline
        cases hstep
        exact ⟨_, h.connect hoffline⟩
      · cases hstep
  | roomRecv sid =>
      obtain ⟨socket, hsocket, hstep⟩ := Option.bind_eq_some_iff.mp hstep
      split at hstep
      · rename_i frame rest hroom
        split at hstep
        · rename_i hopened
          cases hstep
          cases frame with
          | hello cursor device =>
              have hhello := h.hello hsocket hopened hroom fun hlink =>
                hguard socket hsocket hlink _ (by rw [hroom]; rfl)
              exact ⟨_, hhello⟩
          | push batch ops => exact h.handlePush refuses hsocket hopened hroom
        · cases hstep
      · cases hstep
  | peerRecv i order wall =>
      obtain ⟨sid, hsid, hstep⟩ := Option.bind_eq_some_iff.mp hstep
      obtain ⟨socket, hsocket, hstep⟩ := Option.bind_eq_some_iff.mp hstep
      split at hstep
      · rename_i frame rest hframe
        cases hstep
        have hwhole := hguard sid hsid socket hsocket frame (by rw [hframe]; rfl)
        exact ⟨_, h.peerFrame order wall hsid hsocket hframe hwhole⟩
      · cases hstep
  | push i =>
      simp only [Net.step] at hstep
      split at hstep
      · rename_i sid hlink
        obtain ⟨socket, hsocket, hstep⟩ := Option.bind_eq_some_iff.mp hstep
        cases hstep
        exact ⟨_, h.push hlink hsocket⟩
      · cases hstep
  | disconnect i =>
      obtain ⟨sid, hsid, hstep⟩ := Option.bind_eq_some_iff.mp hstep
      obtain ⟨socket, hsocket, hstep⟩ := Option.bind_eq_some_iff.mp hstep
      cases hstep
      exact ⟨_, h.disconnect hsid⟩
  | close sid =>
      obtain ⟨socket, hsocket, hstep⟩ := Option.bind_eq_some_iff.mp hstep
      cases hstep
      exact ⟨_, h.close hsocket⟩
  | wipe =>
      cases hstep
      exact ⟨_, h.wipe⟩
  | collect horizonMs => exact hguard.elim

end Run

end Zeron.Registry
