import Zeron.Chat.Client

/-!
# The cursor of a chat's client

What a cursor stands for: the client holds every row up to it. A cursor is one number, but rows come
to the client by the relay and by the backfill, and the room forgets rows when a checkpoint covers
them.
-/

namespace Zeron.Chat

open Zeron.Lib
open Zeron.Lib.Item (carried)

namespace Session

variable {U : Type*}

def items (s : Session U) : List (Item (LogRow U)) := s.toClient.map RoomFrame.item

/-- The room has the client's hello and not yet its request for rows. -/
def inWindow (s : Session U) : Bool := s.listed && s.ready && !s.served

section

variable [DecidableEq U] (s : Session U)

/-- The client is going to fetch the checkpoint that the room then has. -/
def willFetch : Bool :=
  match s.phase, s.toClient with
  | .fetching _, _ => true
  | .hello, .state header :: _ => !s.contains header.frontier
  | _, _ => false

theorem willFetch_iff : s.willFetch = true ↔ (∃ after, s.phase = .fetching after) ∨
    (s.phase = .hello ∧ ∃ header rest, s.toClient = .state header :: rest ∧
      s.contains header.frontier = false) := by
  unfold willFetch
  split
  · rename_i after hphase
    simp [hphase]
  · rename_i header rest hphase hqueue
    simp [hphase, hqueue]
  · rename_i hfetching hhello
    refine ⟨fun h => absurd h Bool.false_ne_true, ?_⟩
    rintro (⟨after, hphase⟩ | ⟨hphase, header, rest, hqueue, -⟩)
    · exact (hfetching after hphase).elim
    · exact (hhello header rest hphase hqueue).elim

variable {s} in
theorem willFetch_keep {s' : Session U} (hwill : s.willFetch = true) (hphase : s'.phase = s.phase)
    (hqueue : ∀ header rest, s.toClient = .state header :: rest →
      s.contains header.frontier = false →
        ∃ others, s'.toClient = .state header :: others ∧ s'.contains header.frontier = false) :
    s'.willFetch = true := by
  apply s'.willFetch_iff.mpr
  rw [hphase]
  obtain hfetching | ⟨hhello, header, rest, hstate, hlack⟩ := s.willFetch_iff.mp hwill
  · exact .inl hfetching
  · obtain ⟨others, hkept⟩ := hqueue header rest hstate hlack
    exact .inr ⟨hhello, header, others, hkept⟩

/-- The client has the rows, or they are on their way to it. -/
def reaches (rows : List (LogRow U)) : Bool :=
  rows.all fun row => row.update ∈ s.doc || .row row ∈ s.toClient

theorem reaches_iff {rows : List (LogRow U)} :
    s.reaches rows = true ↔ ∀ row ∈ rows, row.update ∈ s.doc ∨ .row row ∈ s.toClient := by
  simp [reaches]

def soundCheckpoint (seqCovered : Nat) : Bool :=
  !s.inWindow || s.willFetch || s.reaches (s.log.rows.filter (·.seq ≤ seqCovered))

/-- Between hello and request for rows, the room takes another device's push only if the client lacks
no row, and a checkpoint only if the client lacks no row that it covers or is yet to fetch it. A
cursor from before a reset is ahead of the room's head when rows are all that the client asks for. Each
row taken imports, or its update is in the document already. -/
def sound : Action U → Bool
  | .otherPush device number _ =>
      !s.inWindow || s.log.rows.any (·.batchId == ⟨device, number⟩) || s.reaches s.log.rows
  | .otherCheckpoint seqCovered _ => s.soundCheckpoint seqCovered
  | .post i => (s.posts[i]?).all fun (seqCovered, _) => s.soundCheckpoint seqCovered
  | .receive imports =>
      match s.phase, s.toClient with
      | .hello, .state header :: _ =>
          s.epoch == s.dialed || s.cursor == 0 || header.headSeq < s.cursor
            || !s.contains header.frontier
      | _, .row row :: _ => imports || row.update ∈ s.doc
      | _, _ => true
  | _ => true

def Sound (s : Session U) (a : Action U) : Prop := s.sound a = true

instance (s : Session U) (a : Action U) : Decidable (Sound s a) :=
  inferInstanceAs (Decidable (s.sound a = true))

end

/-! ## The invariant -/

/-- The row's update is in the document, or a checkpoint in the document covers it. -/
def Holds (doc : List U) (covered : Nat) (row : LogRow U) : Prop :=
  row.update ∈ doc ∨ row.seq ≤ covered

theorem Holds.mono {doc doc' : List U} {covered covered' : Nat} {row : LogRow U}
    (h : Holds doc covered row) (hdoc : ∀ update ∈ doc, update ∈ doc')
    (hcovered : covered ≤ covered') : Holds doc' covered' row :=
  h.imp (hdoc _) fun hle => Nat.le_trans hle hcovered

/-- What a cursor says. -/
structure Reads (log : ChatLog U) (doc : List U) (cursor covered : Nat) : Prop where
  held : ∀ row ∈ log.history, row.seq ≤ cursor → Holds doc covered row
  cursor : cursor ≤ log.headSeq
  covered : covered ≤ log.seqFloor

theorem Reads.mono {log : ChatLog U} {doc doc' : List U} {cursor covered : Nat}
    (h : Reads log doc cursor covered) (hdoc : ∀ update ∈ doc, update ∈ doc') :
    Reads log doc' cursor covered :=
  ⟨fun row hrow hle => (h.held row hrow hle).mono hdoc (Nat.le_refl _), h.cursor, h.covered⟩

variable (me : String) (s : Session U)

/-- The queue moves the cursor over no row that the client does not hold by then. -/
def Safe (held : LogRow U → Prop) : Prop := Gapless LogRow.seq s.log.history held s.items

def Synced : Prop := ∀ row ∈ s.log.history, Holds s.doc s.covered row ∨ row ∈ carried s.items

/-- The hello is answered. What the room gave away meanwhile is covered by the checkpoint that the
answer is about, on its way, or in the checkpoint that the client will fetch. -/
structure Greeted [DecidableEq U] (header : StateHeader U) (rest : List (RoomFrame U)) : Prop where
  checkpoint : header.checkpointSeq ≤ s.log.seqFloor
  head : header.headSeq ≤ s.log.headSeq
  bare : header.frontier = none → header.checkpointSeq = 0
  safe : Gapless LogRow.seq s.log.history
    (fun row => Holds s.doc header.checkpointSeq row ∨
      (s.contains header.frontier = false ∧ row.seq ≤ s.log.seqFloor)) (rest.map RoomFrame.item)
  gone : ∀ row ∈ s.log.history, row.seq ≤ s.log.seqFloor →
    Holds s.doc header.checkpointSeq row ∨ row ∈ carried (rest.map RoomFrame.item) ∨
      s.contains header.frontier = false

structure AtFetch (after : Nat) : Prop where
  room : s.toRoom = []
  ready : s.ready = true
  unserved : s.served = false
  after_le : after ≤ s.log.seqFloor
  safe : s.Safe (Holds s.doc s.log.seqFloor)

/-- The request for rows is on its way. -/
structure Asks (after : Nat) : Prop where
  room : s.toRoom = [.rowsReq after s.resumed]
  ready : s.ready = true
  unserved : s.served = false
  epoch : s.epoch = s.dialed
  after_le : after ≤ s.log.headSeq
  safe : s.Safe (Holds s.doc s.covered)
  before : ∀ row ∈ s.log.history, row.seq ≤ after → Holds s.doc s.covered row
  gone : ∀ row ∈ s.log.history, row.seq ≤ s.log.seqFloor →
    Holds s.doc s.covered row ∨ row ∈ carried s.items

/-- The backfill is on its way. The rows behind its end are other devices'. -/
structure Fills : Prop where
  room : s.toRoom = []
  ready : s.ready = true
  served : s.served = true
  epoch : s.epoch = s.dialed
  safe : s.Safe (Holds s.doc s.covered)
  synced : s.Synced
  others : ∀ before head contents rest, s.toClient = before ++ .rowsDone head contents :: rest →
    ∀ row, .row row ∈ rest → row.device ≠ me

structure AtSteady : Prop where
  room : ∀ frame ∈ s.toRoom, ∃ batch, frame = .push batch
  ready : s.ready = true
  served : s.served = true
  epoch : s.epoch = s.dialed
  safe : s.Safe (Holds s.doc s.covered)
  synced : s.Synced

def AtPhase [DecidableEq U] : Phase → Prop
  | .offline => False
  | .hello =>
      (s.ready = false ∧ s.served = false ∧ s.toClient = [] ∧ ∃ cursor, s.toRoom = [.hello cursor]) ∨
        (s.ready = true ∧ s.served = false ∧ s.toRoom = [] ∧
          ∃ header rest, s.toClient = .state header :: rest ∧ s.Greeted header rest)
  | .fetching after => s.AtFetch after
  | .backfill after => s.Asks after ∨ s.Fills me
  | .steady => s.AtSteady

/-- What holds while the room lists the client's socket. -/
structure Connected [DecidableEq U] : Prop where
  dialed : s.dialed = s.log.epoch
  marks : ∀ item ∈ s.items, ∀ n, item.mark = some n → n ≤ s.log.headSeq
  unfinished : s.served = false → ∀ head contents, .rowsDone head contents ∉ s.toClient
  phase : s.AtPhase me s.phase

structure Inv [DecidableEq U] : Prop where
  log : s.log.WellFormed
  savedDoc : ∀ update ∈ s.saved.doc, update ∈ s.doc
  saved : s.saved.epoch = s.log.epoch →
    Reads s.log s.saved.doc s.saved.cursor s.saved.covered
  reads : s.epoch = s.log.epoch → Reads s.log s.doc s.cursor s.covered
  epochs : s.saved.epoch ≤ s.log.epoch ∧ s.epoch ≤ s.log.epoch
  pending : ∀ batch ∈ s.pending, batch.update ∈ s.doc
  pushed : ∀ batch, .push batch ∈ s.toRoom → batch.update ∈ s.doc
  own : s.resumed = true → ∀ row ∈ s.log.history, row.device = me →
    row.update ∈ s.doc ∨ row.seq ≤ s.log.seqFloor
  offline : s.phase = .offline → s.listed = false
  /-- A socket that the room has closed was opened before the last reset. -/
  lost : s.phase ≠ .offline → s.listed = false → s.dialed < s.log.epoch ∧ s.epoch ≤ s.dialed ∧
    ∀ row ∈ s.log.history, row.device ≠ me
  connected : s.listed = true → s.Connected me

variable {me} {s}

theorem mem_carried_items {row : LogRow U} {frames : List (RoomFrame U)} :
    row ∈ carried (frames.map RoomFrame.item) ↔ .row row ∈ frames := by
  simp only [carried, List.filterMap_map, List.mem_filterMap, Function.comp]
  constructor
  · rintro ⟨frame, hframe, hitem⟩
    cases frame with
    | row logged =>
        cases hitem
        exact hframe
    | state _ | rowsDone _ _ | ack _ _ _ => cases hitem
  · exact fun hrow => ⟨.row row, hrow, rfl⟩

/-! ## Frames taken -/

section Taken

variable {covered cursor nextBatch : Nat} {taken rest : List (RoomFrame U)} {doc : List U}
  {pending : List (PendingPush U)} {saved : Saved U} {posts : List (Nat × List U)}

theorem items_append (hqueue : s.toClient = taken ++ rest) :
    s.items = taken.map RoomFrame.item ++ rest.map RoomFrame.item := by
  rw [items, hqueue, List.map_append]

theorem Safe.take (h : s.Safe (Holds s.doc covered)) (hqueue : s.toClient = taken ++ rest)
    (hdoc : ∀ update ∈ s.doc, update ∈ doc) (hrows : ∀ row, .row row ∈ taken → row.update ∈ doc) :
    Gapless LogRow.seq s.log.history (Holds doc covered) (rest.map RoomFrame.item) := by
  have hsafe := h
  rw [Safe, items_append hqueue] at hsafe
  apply hsafe.drop
  · exact fun row _ hheld => hheld.mono hdoc (Nat.le_refl _)
  · exact fun row _ hmem => .inl (hrows row (mem_carried_items.mp hmem))

theorem reached_take (hqueue : s.toClient = taken ++ rest)
    (hdoc : ∀ update ∈ s.doc, update ∈ doc) (hrows : ∀ row, .row row ∈ taken → row.update ∈ doc)
    {row : LogRow U} (h : Holds s.doc covered row ∨ row ∈ carried s.items) :
    Holds doc covered row ∨ row ∈ carried (rest.map RoomFrame.item) := by
  rw [items_append hqueue, Item.carried_append, List.mem_append] at h
  obtain hheld | hmem | hmem := h
  · exact .inl (hheld.mono hdoc (Nat.le_refl _))
  · exact .inl (.inl (hrows row (mem_carried_items.mp hmem)))
  · exact .inr hmem

theorem AtFetch.take {after : Nat} (h : s.AtFetch after) (hqueue : s.toClient = taken ++ rest)
    (hdoc : ∀ update ∈ s.doc, update ∈ doc) (hrows : ∀ row, .row row ∈ taken → row.update ∈ doc) :
    AtFetch { s with toClient := rest, doc, cursor, pending, nextBatch, saved, posts } after :=
  ⟨h.room, h.ready, h.unserved, h.after_le, h.safe.take hqueue hdoc hrows⟩

theorem Asks.take {after : Nat} (h : s.Asks after) (hqueue : s.toClient = taken ++ rest)
    (hdoc : ∀ update ∈ s.doc, update ∈ doc) (hrows : ∀ row, .row row ∈ taken → row.update ∈ doc) :
    Asks { s with toClient := rest, doc, cursor, pending, nextBatch, saved, posts } after :=
  ⟨h.room, h.ready, h.unserved, h.epoch, h.after_le, h.safe.take hqueue hdoc hrows,
    fun row hrow hle => (h.before row hrow hle).mono hdoc (Nat.le_refl _),
    fun row hrow hle => reached_take hqueue hdoc hrows (h.gone row hrow hle)⟩

theorem Fills.take (h : s.Fills me) (hqueue : s.toClient = taken ++ rest)
    (hdoc : ∀ update ∈ s.doc, update ∈ doc) (hrows : ∀ row, .row row ∈ taken → row.update ∈ doc) :
    Fills me { s with toClient := rest, doc, cursor, pending, nextBatch, saved, posts } := by
  refine ⟨h.room, h.ready, h.served, h.epoch, h.safe.take hqueue hdoc hrows,
    fun row hrow => reached_take hqueue hdoc hrows (h.synced row hrow),
    fun before head contents others hsplit => ?_⟩
  dsimp only at hsplit
  exact h.others (taken ++ before) head contents others (by rw [hqueue, hsplit, List.append_assoc])

theorem AtSteady.take (h : s.AtSteady) (hqueue : s.toClient = taken ++ rest)
    (hdoc : ∀ update ∈ s.doc, update ∈ doc) (hrows : ∀ row, .row row ∈ taken → row.update ∈ doc) :
    AtSteady { s with toClient := rest, doc, cursor, pending, nextBatch, saved, posts } :=
  ⟨h.room, h.ready, h.served, h.epoch, h.safe.take hqueue hdoc hrows,
    fun row hrow => reached_take hqueue hdoc hrows (h.synced row hrow)⟩

variable [DecidableEq U]

theorem AtPhase.take {phase : Phase} (h : s.AtPhase me phase) (hphase : phase ≠ .hello)
    (hqueue : s.toClient = taken ++ rest) (hdoc : ∀ update ∈ s.doc, update ∈ doc)
    (hrows : ∀ row, .row row ∈ taken → row.update ∈ doc) :
    AtPhase me { s with toClient := rest, doc, cursor, pending, nextBatch, saved, posts } phase := by
  cases phase with
  | offline => exact h
  | hello => exact absurd rfl hphase
  | fetching after => exact AtFetch.take h hqueue hdoc hrows
  | backfill after => exact h.imp (·.take hqueue hdoc hrows) (·.take hqueue hdoc hrows)
  | steady => exact AtSteady.take h hqueue hdoc hrows

theorem Connected.take (h : s.Connected me) (hphase : s.phase ≠ .hello)
    (hqueue : s.toClient = taken ++ rest) (hdoc : ∀ update ∈ s.doc, update ∈ doc)
    (hrows : ∀ row, .row row ∈ taken → row.update ∈ doc) :
    Connected me { s with toClient := rest, doc, cursor, pending, nextBatch, saved, posts } := by
  have hrest : ∀ frame ∈ rest, frame ∈ s.toClient := fun frame hframe =>
    hqueue ▸ List.mem_append_right taken hframe
  refine ⟨h.dialed, fun item hitem => ?_, fun hserved head contents hmem => ?_,
    h.phase.take hphase hqueue hdoc hrows⟩
  · obtain ⟨frame, hframe, rfl⟩ := List.mem_map.mp hitem
    exact h.marks _ (List.mem_map_of_mem (hrest frame hframe))
  · exact h.unfinished hserved head contents (hrest _ hmem)

end Taken

variable [DecidableEq U]

theorem Inv.start : Inv me (start : Session U) :=
  ⟨ChatLog.WellFormed.empty, nofun, fun _ => ⟨nofun, Nat.le_refl _, Nat.le_refl _⟩,
    fun _ => ⟨nofun, Nat.le_refl _, Nat.le_refl _⟩, ⟨Nat.le_refl _, Nat.le_refl _⟩, nofun, nofun,
    nofun, fun _ => rfl, fun h => absurd rfl h, nofun⟩

/-! ## The client's own steps -/

section

variable {cursor nextBatch : Nat} {doc : List U} {pending : List (PendingPush U)} {saved : Saved U}
  {posts : List (Nat × List U)}

theorem Greeted.keep {header : StateHeader U} {rest : List (RoomFrame U)}
    (h : s.Greeted header rest) (hdoc : ∀ update ∈ s.doc, update ∈ doc)
    (hnew : s.contains header.frontier = false → contains { s with doc } header.frontier = false) :
    Greeted { s with doc, cursor, pending, nextBatch, saved, posts } header rest := by
  refine ⟨h.checkpoint, h.head, h.bare, h.safe.mono fun row _ hrow => ?_, fun row hrow hle => ?_⟩
  · apply hrow.imp
    · exact fun hheld => hheld.mono hdoc (Nat.le_refl _)
    · exact fun hwill => ⟨hnew hwill.1, hwill.2⟩
  · apply (h.gone row hrow hle).imp
    · exact fun hheld => hheld.mono hdoc (Nat.le_refl _)
    · exact fun hwill => hwill.imp_right hnew

theorem AtPhase.keep {phase : Phase} (h : s.AtPhase me phase)
    (hdoc : ∀ update ∈ s.doc, update ∈ doc)
    (hnew : ∀ header, .state header ∈ s.toClient → s.contains header.frontier = false →
      contains { s with doc } header.frontier = false) :
    AtPhase me { s with doc, cursor, pending, nextBatch, saved, posts } phase := by
  by_cases hphase : phase = .hello
  · subst hphase
    obtain h | ⟨hready, hserved, hroom, header, rest, hqueue, hgreeted⟩ := h
    · exact .inl h
    · exact .inr ⟨hready, hserved, hroom, header, rest, hqueue,
        hgreeted.keep hdoc (hnew header (hqueue ▸ List.mem_cons_self))⟩
  · exact h.take hphase (List.nil_append _).symm hdoc nofun

theorem Connected.keep (h : s.Connected me) (hdoc : ∀ update ∈ s.doc, update ∈ doc)
    (hnew : ∀ header, .state header ∈ s.toClient → s.contains header.frontier = false →
      contains { s with doc } header.frontier = false) :
    Connected me { s with doc, cursor, pending, nextBatch, saved, posts } :=
  ⟨h.dialed, h.marks, h.unfinished, h.phase.keep hdoc hnew⟩

theorem Inv.client {toClient : List (RoomFrame U)} (h : s.Inv me)
    (hdoc : ∀ update ∈ s.doc, update ∈ doc) (hpending : ∀ batch ∈ pending, batch.update ∈ doc)
    (hreads : s.epoch = s.log.epoch → Reads s.log doc cursor s.covered)
    (hsavedDoc : ∀ update ∈ saved.doc, update ∈ doc)
    (hsaved : saved.epoch = s.log.epoch → Reads s.log saved.doc saved.cursor saved.covered)
    (hepoch : saved.epoch ≤ s.log.epoch)
    (hconnected : s.listed = true → s.Connected me →
      Connected me { s with toClient, doc, cursor, pending, nextBatch, saved, posts }) :
    Inv me { s with toClient, doc, cursor, pending, nextBatch, saved, posts } where
  log := h.log
  savedDoc := hsavedDoc
  saved := hsaved
  reads := hreads
  epochs := ⟨hepoch, h.epochs.2⟩
  pending := hpending
  pushed := fun batch hbatch => hdoc _ (h.pushed batch hbatch)
  own := fun hresumed row hrow hdevice => (h.own hresumed row hrow hdevice).imp_left (hdoc _)
  offline := h.offline
  lost := h.lost
  connected := fun hlisted => hconnected hlisted (h.connected hlisted)

end

theorem contains_grow {update : U} {doc : List U} {frontier : Option (List U)}
    (hnew : frontier.all (update ∉ ·) = true)
    (hdoc : ∀ other ∈ doc, other ∈ s.doc ∨ other = update) (h : s.contains frontier = false) :
    contains { s with doc } frontier = false := by
  unfold contains at h ⊢
  cases frontier with
  | none => exact h
  | some updates =>
      simp only [Option.all_some, decide_eq_true_eq] at hnew
      simp only [Option.all_some, List.all_eq_false, decide_eq_true_eq] at h ⊢
      obtain ⟨other, hother, hlack⟩ := h
      refine ⟨other, hother, fun hmem => ?_⟩
      obtain hmem | heq := hdoc other hmem
      · exact hlack hmem
      · exact hnew (heq ▸ hother)

theorem contains_commit {update : U} {frontier : Option (List U)}
    (hnew : frontier.all (update ∉ ·) = true) (h : s.contains frontier = false) :
    contains { s with doc := s.doc ++ [update] } frontier = false :=
  contains_grow hnew (fun _ hother => (List.mem_append.mp hother).imp_right List.mem_singleton.mp) h

theorem Inv.localCommit (h : s.Inv me) {update : U} (hnew : s.isNew update = true)
    {pending : List (PendingPush U)} {nextBatch : Nat}
    (hpending : ∀ batch ∈ pending, batch.update ∈ s.doc ++ [update]) :
    Inv me { s with doc := s.doc ++ [update], pending, nextBatch } := by
  have hdoc : ∀ other ∈ s.doc, other ∈ s.doc ++ [update] := fun _ => List.mem_append_left _
  have hframes := (Bool.and_eq_true_iff.mp hnew).2
  rw [List.all_eq_true] at hframes
  exact h.client hdoc hpending (fun hepoch => (h.reads hepoch).mono hdoc)
    (fun other hother => hdoc other (h.savedDoc other hother)) h.saved h.epochs.1
    fun _ hconnected => hconnected.keep hdoc fun header hheader =>
      contains_commit (hframes _ hheader)

theorem Inv.save (h : s.Inv me) : Inv me { s with saved := { s.saved with doc := s.doc } } :=
  h.client (fun _ => id) h.pending h.reads (fun _ => id)
    (fun hepoch => (h.saved hepoch).mono h.savedDoc) h.epochs.1
    fun _ hconnected => hconnected.keep (fun _ => id) fun _ _ => id

theorem Inv.posts (h : s.Inv me) (posts : List (Nat × List U)) : Inv me { s with posts } :=
  h.client (fun _ => id) h.pending h.reads h.savedDoc h.saved h.epochs.1
    fun _ hconnected => hconnected.keep (fun _ => id) fun _ _ => id

/-! ## Sockets -/

theorem Inv.disconnect (h : s.Inv me) : Inv me s.disconnect where
  log := h.log
  savedDoc := h.savedDoc
  saved := h.saved
  reads := h.reads
  epochs := h.epochs
  pending := h.pending
  pushed := nofun
  own := h.own
  offline := fun _ => rfl
  lost := fun hphase => absurd rfl hphase
  connected := nofun

theorem Inv.restart (h : s.Inv me) : Inv me s.restart where
  log := h.log
  savedDoc := fun _ => id
  saved := h.saved
  reads := h.saved
  epochs := ⟨h.epochs.1, h.epochs.1⟩
  pending := nofun
  pushed := nofun
  own := nofun
  offline := fun _ => rfl
  lost := fun hphase => absurd rfl hphase
  connected := nofun

theorem Inv.dial (h : s.Inv me) : Inv me s.dial where
  log := h.log
  savedDoc := h.savedDoc
  saved := h.saved
  reads := h.reads
  epochs := h.epochs
  pending := h.pending
  pushed := fun _ hbatch => nomatch List.mem_singleton.mp hbatch
  own := h.own
  offline := nofun
  lost := fun _ => nofun
  connected := fun _ => ⟨rfl, nofun, fun _ _ _ => nofun, .inl ⟨rfl, rfl, rfl, _, rfl⟩⟩

theorem Inv.dialed_le (h : s.Inv me) (hphase : s.phase ≠ .offline) : s.dialed ≤ s.log.epoch := by
  cases hlisted : s.listed with
  | true => exact Nat.le_of_eq (h.connected hlisted).dialed
  | false => exact Nat.le_of_lt (h.lost hphase hlisted).1

theorem Inv.listed_of_dialed (h : s.Inv me) (hphase : s.phase ≠ .offline)
    (hdialed : s.dialed = s.log.epoch) : s.listed = true := by
  cases hlisted : s.listed with
  | true => rfl
  | false => exact absurd hdialed (Nat.ne_of_lt (h.lost hphase hlisted).1)

theorem Inv.reset (h : s.Inv me) : Inv me s.reset where
  log := .reset s.log
  savedDoc := h.savedDoc
  saved := fun hepoch => absurd hepoch (Nat.ne_of_lt (Nat.lt_succ_of_le h.epochs.1))
  reads := fun hepoch => absurd hepoch (Nat.ne_of_lt (Nat.lt_succ_of_le h.epochs.2))
  epochs := ⟨Nat.le_succ_of_le h.epochs.1, Nat.le_succ_of_le h.epochs.2⟩
  pending := h.pending
  pushed := nofun
  own := fun _ => nofun
  offline := fun _ => rfl
  lost := fun hphase _ => by
    refine ⟨Nat.lt_succ_of_le (h.dialed_le hphase), ?_, nofun⟩
    cases hlisted : s.listed with
    | true => exact (h.connected hlisted).dialed ▸ h.epochs.2
    | false => exact (h.lost hphase hlisted).2.1
  connected := nofun

/-! ## What the client receives -/

omit [DecidableEq U] in
theorem Reads.max {log : ChatLog U} {doc : List U} {cursor other covered : Nat}
    (h : Reads log doc cursor covered) (hother : Reads log doc other covered) :
    Reads log doc (max cursor other) covered := by
  refine ⟨fun row hrow hle => ?_, Nat.max_le.mpr ⟨h.cursor, hother.cursor⟩, h.covered⟩
  have hor : row.seq ≤ cursor ∨ row.seq ≤ other := by omega
  obtain hle | hle := hor
  · exact h.held row hrow hle
  · exact hother.held row hrow hle

def Reading (s : Session U) : Prop := s.phase = .steady ∨ ∃ after, s.phase = .backfill after

omit [DecidableEq U] in
theorem Reading.ne_offline (h : s.Reading) : s.phase ≠ .offline := by
  rintro hphase
  obtain h | ⟨after, h⟩ := h <;> rw [hphase] at h <;> cases h

omit [DecidableEq U] in
theorem Reading.ne_hello (h : s.Reading) : s.phase ≠ .hello := by
  rintro hphase
  obtain h | ⟨after, h⟩ := h <;> rw [hphase] at h <;> cases h

/-- What the client does with a frame. -/
inductive Received (s : Session U) (imports : Bool) : Session U → Prop where
  | state {header : StateHeader U} {rest : List (RoomFrame U)} (hphase : s.phase = .hello)
      (hqueue : s.toClient = .state header :: rest) :
      Received s imports (handleState { s with toClient := rest } header)
  | early {frame : RoomFrame U} {rest : List (RoomFrame U)} (hphase : s.phase = .hello)
      (hframe : ∀ header, frame ≠ .state header) (hqueue : s.toClient = frame :: rest) :
      Received s imports { s with toClient := rest }
  | finish {after head : Nat} {contents : List U} {rest : List (RoomFrame U)}
      (hphase : s.phase = .backfill after) (hqueue : s.toClient = .rowsDone head contents :: rest) :
      Received s imports (finishBackfill { s with toClient := rest })
  | row {row : LogRow U} {rest : List (RoomFrame U)} (hreading : s.Reading)
      (hqueue : s.toClient = .row row :: rest) :
      Received s imports (handleRow { s with toClient := rest } imports row)
  | ack {batchId : BatchId} {seq : Nat} {dup : Bool} {rest : List (RoomFrame U)}
      (hreading : s.Reading) (hqueue : s.toClient = .ack batchId seq dup :: rest) :
      Received s imports (handleAck { s with toClient := rest } batchId seq)
  | skip {frame : RoomFrame U} {rest : List (RoomFrame U)} (hreading : s.Reading)
      (hqueue : s.toClient = frame :: rest) (hframe : frame.item.entry = none)
      (hends : ∀ head contents, frame = .rowsDone head contents → s.phase = .steady) :
      Received s imports { s with toClient := rest }

theorem receive_cases {s' : Session U} {imports : Bool} (hstep : s.receive imports = some s') :
    s.Received imports s' := by
  unfold Session.receive at hstep
  split at hstep
  · rename_i header rest hphase hqueue
    cases hstep
    exact .state hphase hqueue
  · rename_i frame rest hframe hphase hqueue
    cases hstep
    exact .early hphase hframe hqueue
  · rename_i after head contents rest hphase hqueue
    cases hstep
    exact .finish hphase hqueue
  · rename_i after frame rest hframe hphase hqueue
    have hreading : s.Reading := .inr ⟨after, hphase⟩
    cases frame with
    | row row =>
        cases hstep
        exact .row hreading hqueue
    | ack batchId seq dup =>
        cases hstep
        exact .ack hreading hqueue
    | state header =>
        cases hstep
        exact .skip hreading hqueue rfl nofun
    | rowsDone head contents => exact absurd rfl (hframe head contents)
  · rename_i frame rest hphase hqueue
    have hreading : s.Reading := .inl hphase
    cases frame with
    | row row =>
        cases hstep
        exact .row hreading hqueue
    | ack batchId seq dup =>
        cases hstep
        exact .ack hreading hqueue
    | state header =>
        cases hstep
        exact .skip hreading hqueue rfl nofun
    | rowsDone head contents =>
        cases hstep
        exact .skip hreading hqueue rfl fun _ _ _ => hphase
  · cases hstep

theorem Connected.safe (h : s.Connected me) (hreading : s.Reading) :
    s.Safe (Holds s.doc s.covered) := by
  have hphase := h.phase
  obtain hsteady | ⟨after, hbackfill⟩ := hreading
  · rw [hsteady] at hphase
    exact AtSteady.safe hphase
  · rw [hbackfill] at hphase
    obtain hasks | hfills := hphase
    · exact hasks.safe
    · exact hfills.safe

section

variable {frame : RoomFrame U} {rest : List (RoomFrame U)}

theorem Inv.reads_frame (h : s.Inv me) (hreading : s.Reading) (hqueue : s.toClient = frame :: rest)
    (hepoch : s.epoch = s.log.epoch) {n : Nat} (hmark : frame.item.mark = some n) {doc : List U}
    (hdoc : ∀ update ∈ s.doc, update ∈ doc) (hrow : ∀ row, frame = .row row → row.update ∈ doc) :
    Reads s.log doc n s.covered := by
  have hlisted : s.listed = true := by
    cases hlisted : s.listed with
    | true => rfl
    | false =>
        have hlost := h.lost hreading.ne_offline hlisted
        omega
  have hconnected := h.connected hlisted
  have hitem : frame.item ∈ s.items := by
    rw [items, hqueue]
    exact List.mem_cons_self
  have hsafe := hconnected.safe hreading
  rw [Safe, items, hqueue] at hsafe
  refine ⟨fun row hhistory hle => ?_, hconnected.marks _ hitem n hmark, (h.reads hepoch).covered⟩
  obtain hheld | hcarried := hsafe.head hmark hhistory hle
  · exact hheld.mono hdoc (Nat.le_refl _)
  · cases frame with
    | row logged =>
        cases hcarried
        exact .inl (hrow row rfl)
    | state _ | rowsDone _ _ | ack _ _ _ => cases hcarried

omit [DecidableEq U] in
theorem mem_applyRow (s : Session U) (imports : Bool) (update : U) :
    ∀ other ∈ s.doc, other ∈ s.applyRow imports update := by
  intro other hother
  unfold applyRow
  split
  · exact List.mem_append_left _ hother
  · exact hother

theorem Sound.applied {imports : Bool} {row : LogRow U} (hsound : Sound s (.receive imports))
    (hreading : s.Reading) (hqueue : s.toClient = .row row :: rest) :
    row.update ∈ s.applyRow imports row.update := by
  have hread : imports = true ∨ row.update ∈ s.doc := by
    obtain hphase | ⟨after, hphase⟩ := hreading <;>
      simpa only [Sound, sound, hphase, hqueue, Bool.or_eq_true, decide_eq_true_eq] using hsound
  unfold applyRow
  split
  · exact List.mem_append_right _ List.mem_cons_self
  · exact hread.resolve_left (by assumption)

theorem Inv.handleRow {imports : Bool} {row : LogRow U} (h : s.Inv me) (hreading : s.Reading)
    (hqueue : s.toClient = .row row :: rest) (hsound : Sound s (.receive imports)) :
    Inv me (handleRow { s with toClient := rest } imports row) := by
  have hdoc := s.mem_applyRow imports row.update
  have hrow : ∀ other, RoomFrame.row row = .row other →
      other.update ∈ s.applyRow imports row.update := by
    rintro other ⟨⟩
    exact hsound.applied hreading hqueue
  have hreads : s.epoch = s.log.epoch →
      Reads s.log (s.applyRow imports row.update) row.seq s.covered := fun hepoch =>
    h.reads_frame hreading hqueue hepoch rfl hdoc hrow
  apply h.client hdoc
  · exact fun batch hbatch => hdoc _ (h.pending batch hbatch)
  · exact fun hepoch => ((h.reads hepoch).mono hdoc).max (hreads hepoch)
  · exact fun _ => id
  · exact hreads
  · exact h.epochs.2
  · intro _ hconnected
    have hqueue : s.toClient = [RoomFrame.row row] ++ rest := hqueue
    apply hconnected.take hreading.ne_hello hqueue hdoc
    exact fun other hother => hrow other (List.mem_singleton.mp hother).symm

theorem Inv.handleAck {batchId : BatchId} {seq : Nat} {dup : Bool} (h : s.Inv me)
    (hreading : s.Reading) (hqueue : s.toClient = .ack batchId seq dup :: rest) :
    Inv me (handleAck { s with toClient := rest } batchId seq) := by
  have hreads : s.epoch = s.log.epoch → Reads s.log s.doc (max s.cursor seq) s.covered :=
    fun hepoch => (h.reads hepoch).max
      (h.reads_frame hreading hqueue hepoch rfl (fun _ => id) nofun)
  apply h.client (fun _ => id)
  · exact fun batch hbatch => h.pending batch (List.mem_filter.mp hbatch).1
  · exact hreads
  · exact fun _ => id
  · exact hreads
  · exact h.epochs.2
  · intro _ hconnected
    have hqueue : s.toClient = [RoomFrame.ack batchId seq dup] ++ rest := hqueue
    apply hconnected.take hreading.ne_hello hqueue fun _ => id
    exact fun other hother => nomatch List.mem_singleton.mp hother

theorem Inv.skip (h : s.Inv me) (hreading : s.Reading) (hqueue : s.toClient = frame :: rest)
    (hframe : frame.item.entry = none) : Inv me { s with toClient := rest } := by
  have hqueue : s.toClient = [frame] ++ rest := hqueue
  apply h.client (fun _ => id) h.pending h.reads h.savedDoc h.saved h.epochs.1
  intro _ hconnected
  apply hconnected.take hreading.ne_hello hqueue fun _ => id
  intro other hother
  rw [← List.mem_singleton.mp hother] at hframe
  cases hframe

end

theorem Inv.finishBackfill {after head : Nat} {contents : List U} {rest : List (RoomFrame U)}
    (h : s.Inv me) (hphase : s.phase = .backfill after)
    (hqueue : s.toClient = .rowsDone head contents :: rest) :
    Inv me (finishBackfill { s with toClient := rest }) := by
  have hfills : s.listed = true → s.Fills me := by
    intro hlisted
    have hconnected := (h.connected hlisted).phase
    rw [hphase] at hconnected
    obtain hasks | hfills := hconnected
    · exact absurd (hqueue ▸ List.mem_cons_self)
        ((h.connected hlisted).unfinished hasks.unserved head contents)
    · exact hfills
  have hqueue : s.toClient = [RoomFrame.rowsDone head contents] ++ rest := hqueue
  have hnorow : ∀ row, RoomFrame.row row ∈ [RoomFrame.rowsDone head contents] →
      row.update ∈ s.doc :=
    fun row hrow => nomatch List.mem_singleton.mp hrow
  refine ⟨h.log, h.savedDoc, h.saved, h.reads, h.epochs, h.pending, fun batch hbatch => ?_,
    fun _ row hrow hdevice => ?_, nofun, fun _ => h.lost (by rw [hphase]; nofun), fun hlisted => ?_⟩
  · obtain hbatch | hbatch := List.mem_append.mp hbatch
    · exact h.pushed batch hbatch
    · obtain ⟨other, hother, heq⟩ := List.mem_map.mp hbatch
      cases heq
      exact h.pending batch hother
  · cases hlisted : s.listed with
    | false =>
        exact absurd hdevice ((h.lost (by rw [hphase]; nofun) hlisted).2.2 row hrow)
    | true =>
        have hfilled := hfills hlisted
        have hepoch := hfilled.epoch.trans (h.connected hlisted).dialed
        obtain hheld | hcarried :=
          reached_take hqueue (fun _ => id) hnorow (hfilled.synced row hrow)
        · exact hheld.imp_right fun hle => Nat.le_trans hle (h.reads hepoch).covered
        · exact absurd hdevice
            (hfilled.others [] head contents rest hqueue row (mem_carried_items.mp hcarried))
  · have hfilled := hfills hlisted
    have hconnected := h.connected hlisted
    refine ⟨hconnected.dialed, fun item hitem => ?_, fun hserved => ?_, ?_, hfilled.ready,
      hfilled.served, hfilled.epoch, ?_, fun row hrow => ?_⟩
    · apply hconnected.marks item
      rw [items, hqueue]
      exact List.mem_cons_of_mem _ hitem
    · exact absurd hserved (by rw [hfilled.served]; nofun)
    · intro frame hframe
      obtain hframe | hframe := List.mem_append.mp hframe
      · rw [show s.toRoom = [] from hfilled.room] at hframe
        cases hframe
      · obtain ⟨batch, -, rfl⟩ := List.mem_map.mp hframe
        exact ⟨batch, rfl⟩
    · exact hfilled.safe.take hqueue (fun _ => id) hnorow
    · exact reached_take hqueue (fun _ => id) hnorow (hfilled.synced row hrow)

omit [DecidableEq U] in
theorem planCatchUp_contained {cursor after : Nat} {header : StateHeader U} {contained : Bool}
    (hnone : header.frontier = none → contained = true)
    (hplan : planCatchUp cursor header contained = .rowsOnly after) : contained = true := by
  unfold planCatchUp at hplan
  dsimp only at hplan
  split at hplan
  · rename_i hbare
    exact hnone (Option.isNone_iff_eq_none.mp hbare)
  · split at hplan <;> cases hplan
    assumption

omit [DecidableEq U] in
theorem planCatchUp_rowsOnly {cursor after : Nat} {header : StateHeader U} {contained : Bool}
    (hbare : header.frontier = none → header.checkpointSeq = 0)
    (hplan : planCatchUp cursor header contained = .rowsOnly after) :
    after = max (if header.headSeq < cursor then 0 else cursor) header.checkpointSeq := by
  unfold planCatchUp at hplan
  dsimp only at hplan
  split at hplan
  · rename_i hnone
    cases hplan
    rw [hbare (Option.isNone_iff_eq_none.mp hnone), Nat.max_zero]
  · split at hplan <;> cases hplan
    rfl

omit [DecidableEq U] in
theorem planCatchUp_checkpoint {cursor after : Nat} {header : StateHeader U} {contained : Bool}
    (hplan : planCatchUp cursor header contained = .checkpointThenRows after) :
    contained = false ∧ after = header.checkpointSeq := by
  unfold planCatchUp at hplan
  dsimp only at hplan
  split at hplan
  · cases hplan
  · split at hplan <;> cases hplan
    exact ⟨Bool.not_eq_true _ |>.mp (by assumption), rfl⟩

theorem contains_of_none {frontier : Option (List U)} (hnone : frontier = none) :
    s.contains frontier = true := by
  rw [hnone]
  rfl

section

variable {header : StateHeader U} {rest : List (RoomFrame U)} {after covered : Nat} {imports : Bool}

theorem Inv.answer_first {frame : RoomFrame U} (h : s.Inv me) (hphase : s.phase = .hello)
    (hqueue : s.toClient = frame :: rest) (hlisted : s.listed = true) :
    ∃ header, frame = .state header ∧
      s.ready = true ∧ s.served = false ∧ s.toRoom = [] ∧ s.Greeted header rest := by
  have hconnected := (h.connected hlisted).phase
  rw [hphase] at hconnected
  obtain ⟨-, -, hempty, -⟩ | ⟨hready, hserved, hroom, other, others, hother, hgreeted⟩ := hconnected
  · rw [hempty] at hqueue
    cases hqueue
  · rw [hqueue] at hother
    cases hother
    exact ⟨other, rfl, hready, hserved, hroom, hgreeted⟩

theorem Inv.greeted (h : s.Inv me) (hphase : s.phase = .hello)
    (hqueue : s.toClient = .state header :: rest) (hlisted : s.listed = true) :
    s.ready = true ∧ s.served = false ∧ s.toRoom = [] ∧ s.Greeted header rest := by
  obtain ⟨other, heq, hgreeted⟩ := h.answer_first hphase hqueue hlisted
  cases heq
  exact hgreeted

/-- What the client held by its own cursor, and what the announced checkpoint covers. -/
theorem Inv.rowsOnly_held (h : s.Inv me) (hphase : s.phase = .hello)
    (hqueue : s.toClient = .state header :: rest) (hsound : Sound s (.receive imports))
    (hplan : planCatchUp s.cursor header (s.contains header.frontier) = .rowsOnly after)
    (hcovered : covered = if s.epoch = s.dialed then max s.covered header.checkpointSeq
      else header.checkpointSeq) (hlisted : s.listed = true) :
    (∀ row ∈ s.log.history, row.seq ≤ after → Holds s.doc covered row) ∧
      after ≤ s.log.headSeq ∧ covered ≤ s.log.seqFloor ∧ header.checkpointSeq ≤ covered := by
  obtain ⟨-, -, -, hgreeted⟩ := h.greeted hphase hqueue hlisted
  have hafter := planCatchUp_rowsOnly hgreeted.bare hplan
  have hcontains := planCatchUp_contained contains_of_none hplan
  have hhead := hgreeted.head
  have hcheckpoint := hgreeted.checkpoint
  have hfloor := h.log.floor
  simp only [Sound, sound, hphase, hqueue, Bool.or_eq_true, beq_iff_eq, decide_eq_true_eq, hcontains,
    Bool.not_true, Bool.false_eq_true, or_false] at hsound
  by_cases hepoch : s.epoch = s.dialed
  · have hreads := h.reads (hepoch.trans (h.connected hlisted).dialed)
    have hcursor := hreads.cursor
    have hbelow := hreads.covered
    rw [if_pos hepoch] at hcovered
    refine ⟨fun row hrow hle => ?_, ?_, by omega, by omega⟩
    · by_cases hcheck : row.seq ≤ header.checkpointSeq
      · exact .inr (by omega)
      · have hnumber : row.seq ≤ s.cursor := by
          split at hafter <;> omega
        exact (hreads.held row hrow hnumber).mono (fun _ => id) (by omega)
    · split at hafter <;> omega
  · rw [if_neg hepoch] at hcovered
    have hzero : after = header.checkpointSeq := by
      split at hafter <;> omega
    exact ⟨fun row hrow hle => .inr (by omega), by omega, by omega, by omega⟩

theorem Connected.unread (h : s.Connected me) {frame : RoomFrame U}
    (hqueue : s.toClient = frame :: rest) :
    (∀ item ∈ rest.map RoomFrame.item, ∀ n, item.mark = some n → n ≤ s.log.headSeq) ∧
      (s.served = false → ∀ head contents, .rowsDone head contents ∉ rest) := by
  have hrest : ∀ frame ∈ rest, frame ∈ s.toClient := fun frame hframe =>
    hqueue ▸ List.mem_cons_of_mem _ hframe
  refine ⟨fun item hitem => ?_, fun hserved head contents hmem => ?_⟩
  · obtain ⟨frame, hframe, rfl⟩ := List.mem_map.mp hitem
    exact h.marks _ (List.mem_map_of_mem (hrest frame hframe))
  · exact h.unfinished hserved head contents (hrest _ hmem)

omit [DecidableEq U] in
theorem pushed_requestRows {excludeOwn : Bool}
    (h : ∀ batch, .push batch ∈ s.toRoom → batch.update ∈ s.doc) (batch : PendingPush U)
    (hbatch : ClientFrame.push batch ∈ s.toRoom ++ [ClientFrame.rowsReq after excludeOwn]) :
    batch.update ∈ s.doc := by
  obtain hbatch | hbatch := List.mem_append.mp hbatch
  · exact h batch hbatch
  · exact nomatch List.mem_singleton.mp hbatch

/-- Rows are all that the client asks for, behind a number up to which it holds them. -/
theorem Inv.askRows (h : s.Inv me) (hphase : s.phase = .hello)
    (hqueue : s.toClient = .state header :: rest) {cursor : Nat} (hle : cursor ≤ after)
    (hcontains : s.contains header.frontier = true)
    (hheld : s.listed = true →
      (∀ row ∈ s.log.history, row.seq ≤ after → Holds s.doc covered row) ∧
        after ≤ s.log.headSeq ∧ covered ≤ s.log.seqFloor ∧ header.checkpointSeq ≤ covered) :
    Inv me { s with
      toClient := rest, cursor, covered, epoch := s.dialed, phase := .backfill after
      toRoom := s.toRoom ++ [.rowsReq after s.resumed] } := by
  have hoffline : s.phase ≠ .offline := by
    rw [hphase]
    nofun
  refine ⟨h.log, h.savedDoc, h.saved, fun hdialed => ?_, ⟨h.epochs.1, h.dialed_le hoffline⟩,
    h.pending, pushed_requestRows h.pushed, h.own, nofun, fun _ hlisted => ?_, fun hlisted => ?_⟩
  · obtain ⟨hheld, hhead, hfloor, -⟩ := hheld (h.listed_of_dialed hoffline hdialed)
    exact ⟨fun row hrow hcursor => hheld row hrow (Nat.le_trans hcursor hle),
      Nat.le_trans hle hhead, hfloor⟩
  · exact ⟨(h.lost hoffline hlisted).1, Nat.le_refl _, (h.lost hoffline hlisted).2.2⟩
  · have hconnected := h.connected hlisted
    obtain ⟨hready, hserved, hroom, hgreeted⟩ := h.greeted hphase hqueue hlisted
    obtain ⟨hheld, hhead, -, hcheckpoint⟩ := hheld hlisted
    refine ⟨hconnected.dialed, (hconnected.unread hqueue).1, (hconnected.unread hqueue).2,
      .inl ⟨?_, hready, hserved, rfl, hhead, ?_, hheld, fun row hrow hle => ?_⟩⟩
    · dsimp only
      rw [hroom, List.nil_append]
    · apply hgreeted.safe.mono
      rintro row - (hheld | ⟨hlack, -⟩)
      · exact hheld.mono (fun _ => id) hcheckpoint
      · rw [hcontains] at hlack
        cases hlack
    · obtain hheld | hcarried | hlack := hgreeted.gone row hrow hle
      · exact .inl (hheld.mono (fun _ => id) hcheckpoint)
      · exact .inr hcarried
      · rw [hcontains] at hlack
        cases hlack

theorem Inv.rowsOnly (h : s.Inv me) (hphase : s.phase = .hello)
    (hqueue : s.toClient = .state header :: rest) (hsound : Sound s (.receive imports))
    (hplan : planCatchUp s.cursor header (s.contains header.frontier) = .rowsOnly after)
    (hcovered : covered = if s.epoch = s.dialed then max s.covered header.checkpointSeq
      else header.checkpointSeq) :
    Inv me { s with
      toClient := rest, cursor := if after < s.cursor then after else s.cursor
      covered, epoch := s.dialed, phase := .backfill after
      toRoom := s.toRoom ++ [.rowsReq after s.resumed] } := by
  apply h.askRows hphase hqueue _ (planCatchUp_contained contains_of_none hplan)
    (h.rowsOnly_held hphase hqueue hsound hplan hcovered)
  split <;> omega

theorem Inv.fetchCheckpoint (h : s.Inv me) (hphase : s.phase = .hello)
    (hqueue : s.toClient = .state header :: rest) :
    Inv me { s with toClient := rest, phase := .fetching header.checkpointSeq } := by
  have hoffline : s.phase ≠ .offline := by
    rw [hphase]
    nofun
  refine ⟨h.log, h.savedDoc, h.saved, h.reads, h.epochs, h.pending, h.pushed, h.own, nofun,
    fun _ => h.lost hoffline, fun hlisted => ?_⟩
  have hconnected := h.connected hlisted
  obtain ⟨hready, hserved, hroom, hgreeted⟩ := h.greeted hphase hqueue hlisted
  refine ⟨hconnected.dialed, (hconnected.unread hqueue).1, (hconnected.unread hqueue).2,
    hroom, hready, hserved, hgreeted.checkpoint, ?_⟩
  apply hgreeted.safe.mono
  rintro row - (hheld | ⟨-, hle⟩)
  · exact hheld.mono (fun _ => id) hgreeted.checkpoint
  · exact .inr hle

theorem Inv.handleState (h : s.Inv me) (hphase : s.phase = .hello)
    (hqueue : s.toClient = .state header :: rest) (hsound : Sound s (.receive imports)) :
    Inv me (handleState { s with toClient := rest } header) := by
  unfold Session.handleState
  split
  · rename_i after hplan
    exact h.rowsOnly hphase hqueue hsound hplan rfl
  · rename_i after hplan
    obtain ⟨-, rfl⟩ := planCatchUp_checkpoint hplan
    exact h.fetchCheckpoint hphase hqueue

theorem Inv.at_fetch (h : s.Inv me) (hphase : s.phase = .fetching after)
    (hlisted : s.listed = true) : s.AtFetch after := by
  have hconnected := (h.connected hlisted).phase
  rwa [hphase] at hconnected

theorem Inv.reads_fetched (h : s.Inv me) (hphase : s.phase = .fetching after) (doc : List U)
    (hdialed : s.dialed = s.log.epoch) : Reads s.log doc after s.log.seqFloor := by
  have hoffline : s.phase ≠ .offline := by
    rw [hphase]
    nofun
  have hle := (h.at_fetch hphase (h.listed_of_dialed hoffline hdialed)).after_le
  exact ⟨fun row _ hcursor => .inr (Nat.le_trans hcursor hle), Nat.le_trans hle h.log.floor,
    Nat.le_refl _⟩

theorem Inv.fetched (h : s.Inv me) (hphase : s.phase = .fetching after) {doc : List U}
    {cursor : Nat} {saved : Saved U} (hcursor : cursor ≤ after)
    (hdoc : ∀ update ∈ s.doc, update ∈ doc) (hsavedDoc : ∀ update ∈ saved.doc, update ∈ doc)
    (hsaved : saved.epoch = s.log.epoch → Reads s.log saved.doc saved.cursor saved.covered)
    (hepoch : saved.epoch ≤ s.log.epoch) :
    Inv me { s with
      doc, cursor, saved, covered := s.log.seqFloor, epoch := s.dialed, phase := .backfill after
      toRoom := s.toRoom ++ [.rowsReq after s.resumed] } := by
  have hoffline : s.phase ≠ .offline := by
    rw [hphase]
    nofun
  refine ⟨h.log, hsavedDoc, hsaved, fun hdialed => ?_, ⟨hepoch, h.dialed_le hoffline⟩,
    fun batch hbatch => hdoc _ (h.pending batch hbatch),
    fun batch hbatch => hdoc _ (pushed_requestRows h.pushed batch hbatch),
    fun hresumed row hrow hdevice => (h.own hresumed row hrow hdevice).imp_left (hdoc _), nofun,
    fun _ hlisted => ?_, fun hlisted => ?_⟩
  · have hreads := h.reads_fetched hphase doc hdialed
    exact ⟨fun row hrow hle => hreads.held row hrow (Nat.le_trans hle hcursor),
      Nat.le_trans hcursor hreads.cursor, hreads.covered⟩
  · exact ⟨(h.lost hoffline hlisted).1, Nat.le_refl _, (h.lost hoffline hlisted).2.2⟩
  · have hconnected := h.connected hlisted
    have hfetch := h.at_fetch hphase hlisted
    refine ⟨hconnected.dialed, hconnected.marks, hconnected.unfinished, .inl ⟨?_, hfetch.ready,
      hfetch.unserved, rfl, Nat.le_trans hfetch.after_le h.log.floor, ?_,
      fun row _ hle => .inr (Nat.le_trans hle hfetch.after_le), fun row _ hle => .inl (.inr hle)⟩⟩
    · change s.toRoom ++ [ClientFrame.rowsReq after s.resumed] = _
      rw [hfetch.room]
      rfl
    · exact hfetch.safe.mono fun row _ hheld => hheld.mono hdoc (Nat.le_refl _)

theorem Inv.applyCheckpoint (h : s.Inv me) (hphase : s.phase = .fetching after)
    (snapshot : List U) : Inv me (s.applyCheckpoint after snapshot) := by
  have hoffline : s.phase ≠ .offline := by
    rw [hphase]
    nofun
  have hcursor : (if after < s.cursor then after else max s.cursor after) ≤ after := by
    split <;> omega
  exact h.fetched hphase hcursor (fun _ => List.mem_append_left _) (fun _ => id)
    (h.reads_fetched hphase (s.doc ++ snapshot)) (h.dialed_le hoffline)

end

theorem Inv.receive {imports : Bool} (h : s.Inv me) {s' : Session U}
    (hsound : Sound s (.receive imports)) (hstep : s.receive imports = some s') : Inv me s' := by
  cases receive_cases hstep with
  | state hphase hqueue => exact h.handleState hphase hqueue hsound
  | early hphase hframe hqueue =>
      apply h.client (fun _ => id) h.pending h.reads h.savedDoc h.saved h.epochs.1
      intro hlisted _
      obtain ⟨header, heq, -⟩ := h.answer_first hphase hqueue hlisted
      exact absurd heq (hframe header)
  | finish hphase hqueue => exact h.finishBackfill hphase hqueue
  | row hreading hqueue => exact h.handleRow hreading hqueue hsound
  | ack hreading hqueue => exact h.handleAck hreading hqueue
  | skip hreading hqueue hframe => exact h.skip hreading hqueue hframe

end Session

end Zeron.Chat
