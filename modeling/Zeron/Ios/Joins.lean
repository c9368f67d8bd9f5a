import Zeron.Chat.CatchUp
import Zeron.Ios.ChatRoom

/-!
# Joins of the phone

The phone keeps the cursor that the engine's client would lower, so a number from before a wipe can
meet the numbers after it. What the socket carries is as for the engine's client: the phone is seen as
one, with the skipped updates in its document and without a cursor. The cursor is then a number up to
which that client holds all rows.
-/

namespace Zeron.Ios

open Zeron.Lib
open Zeron.Lib.Item (carried)
open Zeron.Chat
open Zeron.Chat.Session (Holds Reads)

namespace Mirror

variable {U : Type*} (mirror : Mirror U)

/-- In the document, or skipped because the import failed. -/
def all : List U := mirror.doc ++ mirror.skipped

/-- The cursor belongs to the room's epoch, or is ahead of the head, or a checkpoint is fetched. -/
def soundJoin [DecidableEq U] (epoch : Nat) (header : StateHeader U) : Bool :=
  mirror.cursorEpoch == epoch || mirror.cursor == 0 || header.headSeq < mirror.cursor
    || !mirror.containsFrontier header.frontier

/-- A join with this document and cursor asks for every row that is not in the document. -/
def SkipsNothing [DecidableEq U] (log : ChatLog U) : Prop :=
  ∀ after, chatPlanCatchUp mirror.cursor log.state
      (mirror.containsFrontier log.state.frontier) = .rowsOnly after →
    ∀ row ∈ log.rows, row.seq ≤ after → row.update ∈ mirror.doc ∨ row.update ∈ mirror.skipped

/-- What a cursor says of the epoch that it belongs to. -/
structure Good (log : ChatLog U) : Prop where
  epoch : mirror.cursorEpoch ≤ mirror.epoch
  reads : mirror.cursorEpoch = log.epoch → Reads log mirror.all mirror.cursor mirror.covered

end Mirror

namespace Phone

variable {U : Type*} (phone : Phone U)

def link : Session U :=
  { log := phone.log, listed := phone.listed, ready := phone.ready, served := phone.served
    toRoom := phone.toRoom, toClient := phone.toClient, phase := phone.phase
    doc := phone.mirror.all, cursor := 0, covered := phone.mirror.covered
    epoch := phone.mirror.epoch, dialed := phone.dialed, pending := phone.pending
    nextBatch := phone.nextBatch, resumed := phone.resumed
    saved := ⟨phone.saved.all, 0, phone.saved.covered, phone.saved.epoch⟩, posts := [] }

/-- When a join is complete, the document has what the room had when it answered the hello. -/
def JoinComplete : Prop :=
  phone.phase = .steady → ∀ update ∈ phone.greeting,
    update ∈ phone.mirror.doc ∨ update ∈ phone.mirror.skipped

section

variable [DecidableEq U]

/-- What a checkpoint replaces is in it, or the phone has it or is sent it. -/
def keeps (seqCovered : Nat) (snapshot : List U) : Bool :=
  (phone.log.checkpoint.getD [] ++
      (phone.log.rows.filter (·.seq ≤ seqCovered)).map LogRow.update).all fun update =>
    update ∈ snapshot || update ∈ phone.mirror.all || update ∈ arriving phone.toClient

def soundCheckpoint (seqCovered : Nat) (snapshot : List U) : Bool :=
  !phone.link.inWindow ||
    if phone.link.willFetch then phone.keeps seqCovered snapshot
    else phone.link.reaches (phone.log.rows.filter (·.seq ≤ seqCovered))

/-- Between hello and request for rows, the room takes another device's push only if the phone lacks no
row. A checkpoint in between has all that it replaces if the phone is yet to fetch it; if not, the
phone lacks no row that it covers. A cursor from before a wipe is ahead of the head when rows are all
that the phone asks for. -/
def sound : Action U → Bool
  | .otherPush device number update => phone.link.sound (.otherPush device number update)
  | .checkpoint seqCovered snapshot => phone.soundCheckpoint seqCovered snapshot
  | .receive _ =>
      match phone.phase, phone.toClient with
      | .hello, .state header :: _ => phone.mirror.soundJoin phone.dialed header
      | _, _ => true
  | _ => true

def Sound (phone : Phone U) (a : Action U) : Prop := phone.sound a = true

instance (phone : Phone U) (a : Action U) : Decidable (Sound phone a) :=
  inferInstanceAs (Decidable (phone.sound a = true))

/-- What is still to come, of what the room had when it answered the hello. -/
def Awaited (update : U) : Prop :=
  update ∈ arriving phone.toClient ∨
    (phone.served = false ∧ (phone.listed = false ∨ update ∈ phone.log.rows.map LogRow.update ∨
      (phone.link.willFetch = true ∧ update ∈ phone.log.checkpoint.getD [])))

def Awaits : Prop :=
  ∀ update ∈ phone.greeting, phone.phase ≠ .offline →
    update ∈ phone.mirror.all ∨ (phone.phase ≠ .steady ∧ phone.Awaited update)

structure Inv (me : String) (phone : Phone U) : Prop where
  link : phone.link.Inv me
  mirror : phone.mirror.Good phone.log
  saved : phone.saved.Good phone.log
  unfinished : phone.served = false → ∀ head contents, .rowsDone head contents ∉ phone.toClient
  greeted : phone.listed = true → phone.ready = false → phone.greeting = []
  awaits : phone.Awaits

end

end Phone

/-! ### The cursor -/

namespace Mirror.Good

variable {U : Type*} {mirror : Mirror U} {log : ChatLog U} {doc skipped : List U}

theorem mono (h : mirror.Good log)
    (hall : ∀ update ∈ mirror.all, update ∈ doc ++ skipped) :
    Mirror.Good { mirror with doc, skipped } log :=
  ⟨h.epoch, fun hepoch => (h.reads hepoch).mono hall⟩

theorem advanceCursor (h : mirror.Good log) {seq : Nat}
    (hseq : mirror.epoch = log.epoch → Reads log mirror.all seq mirror.covered) :
    (mirror.advanceCursor seq).Good log := by
  unfold Mirror.advanceCursor
  by_cases hle : mirror.cursor ≤ seq
  · rw [if_pos hle, Nat.max_eq_right hle]
    exact ⟨Nat.le_refl _, hseq⟩
  · rw [if_neg hle, Nat.max_eq_left (Nat.le_of_not_le hle)]
    exact ⟨h.epoch, h.reads⟩

theorem addRow (h : mirror.Good log) {row : LogRow U} (hseq : row.seq = log.headSeq + 1) :
    mirror.Good (log.addRow row) :=
  ⟨h.epoch, fun hepoch => (h.reads hepoch).addRow hseq⟩

theorem commit (h : mirror.Good log) (hlog : log.WellFormed) {log' : ChatLog U} {seqCovered : Nat}
    {snapshot : List U} (hcommit : log.commitCheckpoint seqCovered snapshot = some log') :
    mirror.Good log' := by
  obtain ⟨-, hfloor, -, rfl⟩ := hlog.commit hcommit
  refine ⟨h.epoch, fun hepoch => ?_⟩
  have hreads := h.reads hepoch
  exact ⟨hreads.held, hreads.cursor, Nat.le_trans hreads.covered hfloor⟩

theorem reset (h : mirror.Good log) (hle : mirror.epoch ≤ log.epoch) : mirror.Good log.reset := by
  refine ⟨h.epoch, fun hepoch => ?_⟩
  have hle := Nat.le_trans h.epoch hle
  exact absurd hepoch (Nat.ne_of_lt (Nat.lt_succ_of_le hle))

theorem mem_all (h : mirror.Good log) (hlog : log.WellFormed) (hepoch : mirror.cursorEpoch = log.epoch)
    {row : LogRow U} (hrow : row ∈ log.rows) (hle : row.seq ≤ mirror.cursor) :
    row.update ∈ mirror.all := by
  have hreads := h.reads hepoch
  apply (hreads.held row (hlog.listed row hrow) hle).resolve_right
  have habove := hlog.above row hrow
  have hcovered := hreads.covered
  omega

theorem skipsNothing [DecidableEq U] (h : mirror.Good log) (hlog : log.WellFormed)
    (hsound : mirror.soundJoin log.epoch log.state = true) : mirror.SkipsNothing log := by
  intro after hplan row hrow hle
  have hcheckpoint := hlog.checkpoint
  have hbare : log.state.frontier = none → log.state.checkpointSeq = 0 := fun hnone =>
    hcheckpoint.1.trans (hcheckpoint.2 hnone)
  have hafter := Session.planCatchUp_rowsOnly hbare hplan
  have hcontained := Session.planCatchUp_contained (fun hnone => by rw [hnone]; rfl) hplan
  have habove := hlog.above row hrow
  have hfloor : log.state.checkpointSeq = log.seqFloor := hcheckpoint.1
  simp only [Mirror.soundJoin, hcontained, Bool.not_true, Bool.or_false, Bool.or_eq_true,
    beq_iff_eq, decide_eq_true_eq] at hsound
  obtain (hepoch | hzero) | hahead := hsound
  · have hcursor : row.seq ≤ mirror.cursor := by
      split at hafter <;> omega
    exact List.mem_append.mp (h.mem_all hlog hepoch hrow hcursor)
  · rw [hzero, ite_self] at hafter
    omega
  · rw [if_pos hahead] at hafter
    omega

end Mirror.Good

namespace Phone

variable {U : Type*} [DecidableEq U] {me : String} {phone : Phone U}

/-! ### The client's own steps -/

theorem Awaits.of_awaited (h : phone.Awaits) (hphase : phone.phase ≠ .offline) {update : U}
    (hupdate : update ∈ phone.greeting) : update ∈ phone.mirror.all ∨ phone.Awaited update :=
  (h update hupdate hphase).imp_right And.right

theorem Inv.start : Inv me (start : Phone U) :=
  ⟨Session.Inv.start, ⟨Nat.le_refl _, fun _ => ⟨nofun, Nat.le_refl _, Nat.le_refl _⟩⟩,
    ⟨Nat.le_refl _, fun _ => ⟨nofun, Nat.le_refl _, Nat.le_refl _⟩⟩, nofun, nofun, nofun⟩

theorem Inv.connect (h : phone.Inv me) : Inv me phone.connect where
  link :=
    { log := h.link.log
      savedDoc := h.link.savedDoc
      saved := h.link.saved
      reads := h.link.reads
      epochs := h.link.epochs
      pending := h.link.pending
      pushed := fun _ hbatch => nomatch List.mem_singleton.mp hbatch
      own := h.link.own
      offline := nofun
      lost := fun _ => nofun
      connected := fun _ => ⟨rfl, nofun, fun _ _ _ => nofun, .inl ⟨rfl, rfl, rfl, _, rfl⟩⟩ }
  mirror := h.mirror
  saved := h.saved
  unfinished := fun _ _ _ => nofun
  greeted := fun _ _ => rfl
  awaits := nofun

theorem Inv.disconnect (h : phone.Inv me) : Inv me phone.disconnect :=
  ⟨h.link.disconnect, h.mirror, h.saved, fun _ _ _ => nofun, nofun,
    fun _ _ hphase => absurd rfl hphase⟩

theorem Inv.kill (h : phone.Inv me) : Inv me phone.kill :=
  ⟨h.link.restart, h.saved, h.saved, fun _ _ _ => nofun, nofun,
    fun _ _ hphase => absurd rfl hphase⟩

theorem Inv.save (h : phone.Inv me) : Inv me { phone with saved := phone.mirror } := by
  have hlink := h.link
  refine ⟨?_, h.mirror, h.mirror, h.unfinished, h.greeted, h.awaits⟩
  exact hlink.client (fun _ => id) hlink.pending hlink.reads (fun _ => id) hlink.reads
    hlink.epochs.2 fun _ hconnected => hconnected.keep (fun _ => id) fun _ _ => id

theorem Inv.localCommit (h : phone.Inv me) {update : U} (hnew : phone.isNew update = true)
    {pending : List (PendingPush U)} {nextBatch : Nat}
    (hpending : ∀ batch ∈ pending, batch ∈ phone.pending ∨ batch.update = update) :
    Inv me { phone with
      mirror := { phone.mirror with doc := phone.mirror.doc ++ [update] }, pending, nextBatch } := by
  have hlink := h.link
  have hall : ∀ other ∈ phone.mirror.all,
      other ∈ (phone.mirror.doc ++ [update]) ++ phone.mirror.skipped := by
    simp only [Mirror.all, List.mem_append]
    exact fun other hother => hother.imp_left .inl
  have honly : ∀ other ∈ (phone.mirror.doc ++ [update]) ++ phone.mirror.skipped,
      other ∈ phone.mirror.all ∨ other = update := by
    simp only [Mirror.all, List.mem_append, List.mem_singleton]
    rintro other ((hdoc | heq) | hskipped)
    · exact .inl (.inl hdoc)
    · exact .inr heq
    · exact .inl (.inr hskipped)
  have hframes := (Bool.and_eq_true_iff.mp hnew).2
  rw [List.all_eq_true] at hframes
  have hlack (header : StateHeader U) (hheader : .state header ∈ phone.toClient)
      (hlacks : phone.link.contains header.frontier = false) :
      Session.contains { phone.link with
        doc := (phone.mirror.doc ++ [update]) ++ phone.mirror.skipped } header.frontier = false :=
    Session.contains_grow (hframes (.state header) hheader) honly hlacks
  refine ⟨?_, h.mirror.mono hall, h.saved, h.unfinished, h.greeted, fun other hother hphase => ?_⟩
  · apply hlink.client hall
    · intro batch hbatch
      obtain hbatch | heq := hpending batch hbatch
      · exact hall _ (hlink.pending batch hbatch)
      · rw [heq]
        simp
    · exact fun hepoch => (hlink.reads hepoch).mono hall
    · exact fun other hother => hall other (hlink.savedDoc other hother)
    · exact hlink.saved
    · exact hlink.epochs.1
    · exact fun _ hconnected => hconnected.keep hall hlack
  · apply (h.awaits other hother hphase).imp (hall other)
    rintro ⟨hsteady, hqueued | ⟨hserved, hopen⟩⟩
    · exact ⟨hsteady, .inl hqueued⟩
    · refine ⟨hsteady, .inr ⟨hserved, hopen.imp_right fun hmore => hmore.imp_right fun hwill => ?_⟩⟩
      refine ⟨Session.willFetch_keep hwill.1 rfl fun header rest hqueue hlacks => ?_, hwill.2⟩
      have hheader : .state header ∈ phone.link.toClient := hqueue ▸ List.mem_cons_self
      exact ⟨rest, hqueue, hlack header hheader hlacks⟩

theorem Inv.pushPending (h : phone.Inv me) (hphase : phone.phase = .steady) :
    Inv me phone.pushPending :=
  ⟨h.link.pushPending hphase, h.mirror, h.saved, h.unfinished, h.greeted, h.awaits⟩

/-! ### What the phone receives -/

section

variable {frame : RoomFrame U} {rest : List (RoomFrame U)}

def Listens (phone : Phone U) : Prop := phone.phase = .hello ∨ phone.link.Reading

omit [DecidableEq U] in
theorem Listens.ne_offline (h : phone.Listens) : phone.phase ≠ .offline := by
  obtain hhello | hreading := h
  · rw [hhello]
    nofun
  · exact hreading.ne_offline

theorem Inv.reading_of_listed (h : phone.Inv me) (hlistens : phone.Listens)
    (hqueue : phone.toClient = frame :: rest)
    (hstate : phone.phase = .hello → ∀ header, frame ≠ .state header)
    (hlisted : phone.listed = true) : phone.link.Reading := by
  obtain hhello | hreading := hlistens
  · have hphase := (h.link.connected hlisted).phase
    rw [show phone.link.phase = .hello from hhello] at hphase
    obtain ⟨-, -, hempty, -⟩ | ⟨-, -, -, header, others, hother, -⟩ := hphase
    · cases hempty.symm.trans hqueue
    · cases hqueue.symm.trans hother
      exact absurd rfl (hstate hhello header)
  · exact hreading

theorem Inv.listed_of_epoch (h : phone.Inv me) (hphase : phone.phase ≠ .offline)
    (hepoch : phone.mirror.epoch = phone.log.epoch) : phone.listed = true := by
  cases hlisted : phone.listed with
  | true => rfl
  | false =>
      obtain ⟨hdialed, hle, -⟩ := h.link.lost hphase hlisted
      have hlt : phone.mirror.epoch < phone.log.epoch := Nat.lt_of_le_of_lt hle hdialed
      exact absurd hepoch (Nat.ne_of_lt hlt)

theorem Inv.reads_frame (h : phone.Inv me) (hlistens : phone.Listens)
    (hqueue : phone.toClient = frame :: rest) {n : Nat} (hmark : frame.item.mark = some n)
    {doc : List U} (hdoc : ∀ update ∈ phone.mirror.all, update ∈ doc)
    (hrow : ∀ row, frame = .row row → row.update ∈ doc)
    (hepoch : phone.mirror.epoch = phone.log.epoch) :
    Reads phone.log doc n phone.mirror.covered := by
  have hreading : phone.link.Reading := by
    apply h.reading_of_listed hlistens hqueue _ (h.listed_of_epoch hlistens.ne_offline hepoch)
    rintro - header rfl
    cases hmark
  exact h.link.reads_frame hreading hqueue hepoch hmark hdoc hrow

/-- A frame that is neither the answer to the hello nor the end of the backfill. -/
theorem Inv.take (h : phone.Inv me) (hlistens : phone.Listens)
    (hqueue : phone.toClient = frame :: rest)
    (hstate : phone.phase = .hello → ∀ header, frame ≠ .state header) {mirror : Mirror U}
    {pending : List (PendingPush U)}
    (hmirror : mirror.Good phone.log) (hcovered : mirror.covered = phone.mirror.covered)
    (hepoch : mirror.epoch = phone.mirror.epoch)
    (hall : ∀ update ∈ phone.mirror.all, update ∈ mirror.all)
    (hrow : ∀ row, frame = .row row → row.update ∈ mirror.all)
    (hpending : ∀ batch ∈ pending, batch ∈ phone.pending) :
    Inv me { phone with toClient := rest, mirror, pending } := by
  have hlink := h.link
  refine ⟨?_, hmirror, h.saved, fun hserved head contents hmem => ?_, h.greeted,
    fun update hupdate hphase => ?_⟩
  · have hclient : Session.Inv me { phone.link with toClient := rest, doc := mirror.all, pending } := by
      apply hlink.client hall
      · exact fun batch hbatch => hall _ (hlink.pending batch (hpending batch hbatch))
      · exact fun hepoch => (hlink.reads hepoch).mono hall
      · exact fun other hother => hall other (hlink.savedDoc other hother)
      · exact hlink.saved
      · exact hlink.epochs.1
      · intro hlisted hconnected
        have hreading := h.reading_of_listed hlistens hqueue hstate hlisted
        have hqueue : phone.link.toClient = [frame] ++ rest := hqueue
        apply hconnected.take hreading.ne_hello hqueue hall
        exact fun row hmem => hrow row (List.mem_singleton.mp hmem).symm
    simp only [Phone.link, hcovered, hepoch]
    exact hclient
  · exact h.unfinished hserved head contents (hqueue ▸ List.mem_cons_of_mem _ hmem)
  · obtain hheld | ⟨hsteady, hawaited⟩ := h.awaits update hupdate hphase
    · exact .inl (hall update hheld)
    · obtain hqueued | ⟨hserved, hopen⟩ := hawaited
      · rw [hqueue] at hqueued
        cases frame with
        | rowsDone head contents => cases hqueued
        | row row =>
            obtain heq | hrest := List.mem_cons.mp hqueued
            · exact .inl (heq ▸ hrow row rfl)
            · exact .inr ⟨hsteady, .inl hrest⟩
        | state _ | ack _ _ _ => exact .inr ⟨hsteady, .inl hqueued⟩
      · obtain hlost | hrows | ⟨hfetch, -⟩ := hopen
        · exact .inr ⟨hsteady, .inr ⟨hserved, .inl hlost⟩⟩
        · exact .inr ⟨hsteady, .inr ⟨hserved, .inr (.inl hrows)⟩⟩
        · exfalso
          obtain ⟨after, hfetching⟩ | ⟨hhello, header, others, hother, -⟩ :=
            (Session.willFetch_iff _).mp hfetch
          · obtain hhello | hsteady | ⟨_, hbackfill⟩ := hlistens
            · cases hfetching.symm.trans hhello
            · cases hfetching.symm.trans hsteady
            · cases hfetching.symm.trans hbackfill
          · cases hqueue.symm.trans hother
            exact hstate hhello header rfl

theorem Inv.skip (h : phone.Inv me) (hlistens : phone.Listens)
    (hqueue : phone.toClient = frame :: rest)
    (hstate : phone.phase = .hello → ∀ header, frame ≠ .state header)
    (hrow : ∀ row, frame ≠ .row row) : Inv me { phone with toClient := rest } :=
  h.take hlistens hqueue hstate h.mirror rfl rfl (fun _ hmem => hmem)
    (fun row heq => absurd heq (hrow row)) fun _ hbatch => hbatch

theorem Inv.handleRow {row : LogRow U} (h : phone.Inv me) (hlistens : phone.Listens)
    (hqueue : phone.toClient = .row row :: rest) (imports : Bool) :
    Inv me (handleRow { phone with toClient := rest } row imports) := by
  -- Imported or skipped, the update joins the list of both.
  have happly : ∃ doc skipped,
      phone.mirror.applyRow row.update row.seq imports =
        Mirror.advanceCursor { phone.mirror with doc, skipped } row.seq ∧
      (∀ update ∈ phone.mirror.all, update ∈ doc ++ skipped) ∧ row.update ∈ doc ++ skipped := by
    cases imports with
    | true =>
        refine ⟨phone.mirror.doc ++ [row.update], phone.mirror.skipped, rfl, ?_, by simp⟩
        simp only [Mirror.all, List.mem_append]
        exact fun update hupdate => hupdate.imp_left .inl
    | false =>
        refine ⟨phone.mirror.doc, phone.mirror.skipped ++ [row.update], rfl, ?_, by simp⟩
        simp only [Mirror.all, List.mem_append]
        exact fun update hupdate => hupdate.imp_right .inl
  obtain ⟨doc, skipped, heq, hall, hmem⟩ := happly
  have hrow : ∀ other, RoomFrame.row row = .row other → other.update ∈ doc ++ skipped := by
    rintro other ⟨⟩
    exact hmem
  have hgood := (h.mirror.mono hall).advanceCursor (h.reads_frame hlistens hqueue rfl hall hrow)
  unfold Phone.handleRow
  dsimp only
  rw [heq]
  exact h.take hlistens hqueue (fun _ _ => nofun) hgood rfl rfl hall hrow fun _ hbatch => hbatch

theorem Inv.handleAck {batchId : BatchId} {seq : Nat} {dup : Bool} (h : phone.Inv me)
    (hlistens : phone.Listens) (hqueue : phone.toClient = .ack batchId seq dup :: rest) :
    Inv me (handleAck { phone with toClient := rest } batchId seq) := by
  have hgood := h.mirror.advanceCursor
    (h.reads_frame hlistens hqueue rfl (fun _ hmem => hmem) nofun)
  exact h.take hlistens hqueue (fun _ _ => nofun) hgood rfl rfl (fun _ hmem => hmem) nofun
    fun batch hbatch => (List.mem_filter.mp hbatch).1

theorem Inv.handleRowsDone {after head : Nat} {contents : List U} (h : phone.Inv me)
    (hphase : phone.phase = .backfill after)
    (hqueue : phone.toClient = .rowsDone head contents :: rest) :
    Inv me (handleRowsDone { phone with toClient := rest }) := by
  refine ⟨h.link.finishBackfill hphase hqueue, h.mirror, h.saved,
    fun hserved head contents hmem => ?_, h.greeted, fun update hupdate _ => ?_⟩
  · exact h.unfinished hserved head contents (hqueue ▸ List.mem_cons_of_mem _ hmem)
  · have hoffline : phone.phase ≠ .offline := by
      rw [hphase]
      nofun
    obtain hheld | ⟨-, hqueued | ⟨hserved, -⟩⟩ := h.awaits update hupdate hoffline
    · exact .inl hheld
    · rw [hqueue] at hqueued
      cases hqueued
    · exact absurd (hqueue ▸ List.mem_cons_self) (h.unfinished hserved head contents)

omit [DecidableEq U] in
theorem arriving_of_state {header : StateHeader U} {update : U}
    (hqueue : phone.toClient = .state header :: rest) (h : update ∈ arriving phone.toClient) :
    update ∈ arriving rest := by
  rw [hqueue] at h
  exact h

variable {header : StateHeader U}

theorem contains_all (h : phone.mirror.containsFrontier header.frontier = true) :
    phone.link.contains header.frontier = true := by
  unfold Mirror.containsFrontier at h
  unfold Session.contains
  cases hfrontier : header.frontier with
  | none => rfl
  | some updates =>
      simp only [hfrontier, Option.all_some, List.all_eq_true, decide_eq_true_eq] at h ⊢
      exact fun update hupdate => List.mem_append_left _ (h update hupdate)

/-- What the phone holds below the number that it asks for rows after. -/
theorem Inv.rowsOnly_held (h : phone.Inv me) (hphase : phone.phase = .hello)
    (hqueue : phone.toClient = .state header :: rest) (hlisted : phone.listed = true)
    (hsound : phone.mirror.soundJoin phone.dialed header = true)
    (hcontained : phone.mirror.containsFrontier header.frontier = true) {after covered : Nat}
    (hplan : chatPlanCatchUp phone.mirror.cursor header true = .rowsOnly after)
    (hcovered : covered = if phone.mirror.epoch = phone.dialed then
      max phone.mirror.covered header.checkpointSeq else header.checkpointSeq) :
    (∀ row ∈ phone.log.history, row.seq ≤ after → Holds phone.mirror.all covered row) ∧
      after ≤ phone.log.headSeq ∧ covered ≤ phone.log.seqFloor ∧
      header.checkpointSeq ≤ covered := by
  obtain ⟨-, -, -, hgreeted⟩ := h.link.greeted hphase hqueue hlisted
  have hdialed : phone.dialed = phone.log.epoch := (h.link.connected hlisted).dialed
  have hafter := Session.planCatchUp_rowsOnly hgreeted.bare hplan
  have hhead : header.headSeq ≤ phone.log.headSeq := hgreeted.head
  have hcheckpoint : header.checkpointSeq ≤ phone.log.seqFloor := hgreeted.checkpoint
  have hfloor := h.link.log.floor
  simp only [Phone.link] at hfloor
  have hbelow : phone.mirror.epoch = phone.dialed → phone.mirror.covered ≤ phone.log.seqFloor :=
    fun hepoch => (h.link.reads (hepoch.trans hdialed)).covered
  have hle : covered ≤ phone.log.seqFloor ∧ header.checkpointSeq ≤ covered := by
    split at hcovered
    · have hold := hbelow (by assumption)
      omega
    · omega
  simp only [Mirror.soundJoin, hcontained, Bool.not_true, Bool.or_false, Bool.or_eq_true,
    beq_iff_eq, decide_eq_true_eq] at hsound
  by_cases hzero : after = header.checkpointSeq
  · refine ⟨fun row _ hrow => .inr ?_, by omega, hle⟩
    omega
  · have hepoch : phone.mirror.cursorEpoch = phone.dialed := by
      obtain (hepoch | hnone) | hahead := hsound
      · exact hepoch
      · rw [hnone, ite_self] at hafter
        omega
      · rw [if_pos hahead] at hafter
        omega
    have hreads := h.mirror.reads (hepoch.trans hdialed)
    have hcursor := hreads.cursor
    have hsame : phone.mirror.epoch = phone.dialed := by
      have hlow := h.mirror.epoch
      have hhigh : phone.mirror.epoch ≤ phone.log.epoch := h.link.epochs.2
      omega
    rw [if_pos hsame] at hcovered
    refine ⟨fun row hrow hseq => ?_, ?_, hle⟩
    · by_cases hcheck : row.seq ≤ header.checkpointSeq
      · exact .inr (by omega)
      · have hnumber : row.seq ≤ phone.mirror.cursor := by
          split at hafter <;> omega
        exact (hreads.held row hrow hnumber).mono (fun _ hmem => hmem) (by omega)
    · split at hafter <;> omega

theorem Inv.epoch_le (h : phone.Inv me) (hphase : phone.phase ≠ .offline) :
    phone.mirror.epoch ≤ phone.dialed ∧ phone.dialed ≤ phone.log.epoch := by
  refine ⟨?_, h.link.dialed_le hphase⟩
  cases hlisted : phone.listed with
  | true =>
      have hdialed : phone.dialed = phone.log.epoch := (h.link.connected hlisted).dialed
      have hle : phone.mirror.epoch ≤ phone.log.epoch := h.link.epochs.2
      omega
  | false => exact (h.link.lost hphase hlisted).2.1

theorem Inv.handleState (h : phone.Inv me) (hphase : phone.phase = .hello)
    (hqueue : phone.toClient = .state header :: rest)
    (hsound : phone.mirror.soundJoin phone.dialed header = true) :
    Inv me (handleState { phone with toClient := rest } header) := by
  have hoffline : phone.phase ≠ .offline := by
    rw [hphase]
    nofun
  have hunfinished : phone.served = false → ∀ head contents, .rowsDone head contents ∉ rest :=
    fun hserved head contents hmem =>
      h.unfinished hserved head contents (hqueue ▸ List.mem_cons_of_mem _ hmem)
  unfold Phone.handleState
  split
  · rename_i after hplan
    have hcontained : phone.mirror.containsFrontier header.frontier = true :=
      Session.planCatchUp_contained (fun hnone => by rw [hnone]; rfl) hplan
    have hcontains := contains_all hcontained
    dsimp only at hplan
    rw [hcontained] at hplan
    have hheld (hlisted : phone.listed = true) :=
      h.rowsOnly_held hphase hqueue hlisted hsound hcontained hplan rfl
    obtain ⟨hepoch, hdialed⟩ := h.epoch_le hoffline
    refine ⟨h.link.askRows hphase hqueue (Nat.zero_le _) hcontains hheld,
      ⟨Nat.le_trans h.mirror.epoch hepoch, fun hcursor => ?_⟩, h.saved, hunfinished, h.greeted,
      fun update hupdate _ => ?_⟩
    · replace hcursor : phone.mirror.cursorEpoch = phone.log.epoch := hcursor
      have hlow := h.mirror.epoch
      have hsame : phone.mirror.epoch = phone.dialed := by omega
      have hlisted := h.link.listed_of_dialed hoffline (show phone.dialed = phone.log.epoch by omega)
      obtain ⟨-, -, hfloor, -⟩ := hheld hlisted
      have hreads := h.mirror.reads hcursor
      refine ⟨fun row hrow hle => (hreads.held row hrow hle).mono (fun _ hmem => hmem) ?_,
        hreads.cursor, hfloor⟩
      dsimp only
      rw [if_pos hsame]
      exact Nat.le_max_left _ _
    · obtain hheld | hawaited := h.awaits.of_awaited hoffline hupdate
      · exact .inl hheld
      · refine .inr ⟨nofun, hawaited.imp (arriving_of_state hqueue) ?_⟩
        rintro ⟨hserved, hopen⟩
        refine ⟨hserved, hopen.imp_right fun hmore => hmore.imp_right ?_⟩
        rintro ⟨hfetch, -⟩
        exfalso
        obtain ⟨_, hfetching⟩ | ⟨-, other, others, hother, hlacks⟩ :=
          (Session.willFetch_iff _).mp hfetch
        · cases hphase.symm.trans hfetching
        · cases hqueue.symm.trans hother
          exact Bool.false_ne_true (hlacks.symm.trans hcontains)
  · rename_i after hplan
    obtain ⟨-, rfl⟩ := Session.planCatchUp_checkpoint hplan
    refine ⟨h.link.fetchCheckpoint hphase hqueue, h.mirror, h.saved, hunfinished, h.greeted,
      fun update hupdate _ => ?_⟩
    obtain hheld | hawaited := h.awaits.of_awaited hoffline hupdate
    · exact .inl hheld
    · refine .inr ⟨nofun, hawaited.imp (arriving_of_state hqueue) ?_⟩
      rintro ⟨hserved, hopen⟩
      refine ⟨hserved, hopen.imp_right fun hmore => hmore.imp_right ?_⟩
      exact fun hwill => ⟨(Session.willFetch_iff _).mpr (.inl ⟨_, rfl⟩), hwill.2⟩

theorem Inv.handleFrame (h : phone.Inv me) (hlistens : phone.Listens)
    (hqueue : phone.toClient = frame :: rest) (imports : Bool)
    (hsound : phone.sound (.receive imports) = true) :
    Inv me (handleFrame { phone with toClient := rest } imports frame) := by
  unfold Phone.handleFrame
  split
  · rename_i header hphase
    refine h.handleState hphase hqueue ?_
    replace hphase : phone.phase = .hello := hphase
    simp only [Phone.sound, hphase, hqueue] at hsound
    exact hsound
  · rename_i hphase
    exact h.handleRowsDone hphase hqueue
  · exact h.handleRow hlistens hqueue imports
  · exact h.handleAck hlistens hqueue
  · rename_i header hhello
    exact h.skip hlistens hqueue (fun hphase _ _ => hhello hphase) nofun
  · exact h.skip hlistens hqueue (fun _ _ => nofun) nofun

theorem Inv.handleInbound (h : phone.Inv me) {imports : Bool} {phone' : Phone U}
    (hsound : phone.sound (.receive imports) = true)
    (hstep : phone.handleInbound imports = some phone') : Inv me phone' := by
  unfold Phone.handleInbound at hstep
  split at hstep
  · rename_i frame rest hphase hqueue
    cases hstep
    exact h.handleFrame (.inl hphase) hqueue imports hsound
  · rename_i after frame rest hphase hqueue
    cases hstep
    exact h.handleFrame (.inr (.inr ⟨after, hphase⟩)) hqueue imports hsound
  · rename_i frame rest hphase hqueue
    cases hstep
    exact h.handleFrame (.inr (.inl hphase)) hqueue imports hsound
  · cases hstep

theorem Inv.applyCheckpoint (h : phone.Inv me) {seq : Nat} (hphase : phone.phase = .fetching seq)
    {bytes : List U} (hcheckpoint : phone.log.checkpoint = some bytes) :
    Inv me (phone.applyCheckpoint bytes seq) := by
  have hoffline : phone.phase ≠ .offline := by
    rw [hphase]
    nofun
  have hlink := h.link
  have hall : ∀ update ∈ phone.mirror.all,
      update ∈ (phone.mirror.doc ++ bytes) ++ phone.mirror.skipped := by
    simp only [Mirror.all, List.mem_append]
    exact fun update hupdate => hupdate.imp_left .inl
  obtain ⟨hepoch, hdialed⟩ := h.epoch_le hoffline
  refine ⟨?_, ?_, h.saved, h.unfinished, h.greeted, fun update hupdate _ => ?_⟩
  · apply hlink.fetched hphase (Nat.zero_le _) hall _ hlink.saved hlink.epochs.1
    exact fun update hupdate => hall update (hlink.savedDoc update hupdate)
  · have hgood : Mirror.Good { phone.mirror with
        doc := phone.mirror.doc ++ bytes, covered := phone.log.seqFloor, epoch := phone.dialed }
        phone.log := by
      refine ⟨Nat.le_trans h.mirror.epoch hepoch, fun hcursor => ?_⟩
      have hreads := h.mirror.reads hcursor
      exact ⟨fun row hrow hle => (hreads.held row hrow hle).mono hall hreads.covered,
        hreads.cursor, Nat.le_refl _⟩
    exact hgood.advanceCursor (hlink.reads_fetched hphase _)
  · obtain hheld | hawaited := h.awaits.of_awaited hoffline hupdate
    · exact .inl (hall update hheld)
    · obtain hqueued | ⟨hserved, hlost | hrows | ⟨-, hmem⟩⟩ := hawaited
      · exact .inr ⟨nofun, .inl hqueued⟩
      · exact .inr ⟨nofun, .inr ⟨hserved, .inl hlost⟩⟩
      · exact .inr ⟨nofun, .inr ⟨hserved, .inr (.inl hrows)⟩⟩
      · rw [hcheckpoint] at hmem
        left
        exact List.mem_append_left _ (List.mem_append_right _ hmem)

end

/-! ### The room -/

theorem Inv.handleHello {cursor : Nat} {rest : List (ClientFrame U)} (h : phone.Inv me)
    (hroom : phone.toRoom = .hello cursor :: rest) (hlisted : phone.listed = true) :
    Inv me (handleHello { phone with toRoom := rest }) := by
  obtain ⟨hphase, hserved, hqueue, -⟩ := (h.link.connected hlisted).phase.of_hello hroom
  replace hqueue : phone.toClient = [] := hqueue
  refine ⟨h.link.handleHello hroom hlisted, h.mirror, h.saved, fun _ head contents hmem => ?_,
    fun _ hready => absurd hready.symm Bool.false_ne_true, fun update hupdate _ => ?_⟩
  · change RoomFrame.rowsDone head contents ∈
      phone.toClient ++ [RoomFrame.state phone.log.state] at hmem
    rw [hqueue] at hmem
    exact nomatch List.mem_singleton.mp hmem
  · by_cases hheld : update ∈ phone.mirror.all
    · exact .inl hheld
    · refine .inr ⟨?_, .inr ⟨hserved, .inr ?_⟩⟩
      · change phone.phase ≠ .steady
        rw [show phone.phase = .hello from hphase]
        nofun
      · obtain hcheckpoint | hrow := List.mem_append.mp hupdate
        · refine .inr ⟨(Session.willFetch_iff _).mpr (.inr ⟨hphase, phone.log.state, [], ?_, ?_⟩),
            hcheckpoint⟩
          · change phone.toClient ++ [RoomFrame.state phone.log.state] = _
            rw [hqueue]
            rfl
          · rw [Bool.eq_false_iff]
            intro hcontains
            replace hcheckpoint : update ∈ phone.log.checkpoint.getD [] := hcheckpoint
            cases hnone : phone.log.checkpoint with
            | none =>
                rw [hnone] at hcheckpoint
                cases hcheckpoint
            | some updates =>
                have hfrontier : phone.log.state.frontier = some updates := hnone
                rw [hnone] at hcheckpoint
                simp only [Session.contains, hfrontier, Option.all_some, List.all_eq_true,
                  decide_eq_true_eq] at hcontains
                exact hheld (hcontains update hcheckpoint)
        · exact .inl hrow

theorem Inv.handleRowsReq {after : Nat} {excludeOwn : Bool} {rest : List (ClientFrame U)}
    (h : phone.Inv me) (hroom : phone.toRoom = .rowsReq after excludeOwn :: rest)
    (hlisted : phone.listed = true) :
    Inv me (handleRowsReq me { phone with toRoom := rest } after excludeOwn) := by
  have hconnected := h.link.connected hlisted
  obtain ⟨hphase, rfl, -, hasks⟩ := hconnected.phase.of_rowsReq hroom
  have hunserved : phone.served = false := hasks.unserved
  refine ⟨h.link.handleRowsReq hroom hlisted, h.mirror, h.saved, nofun, h.greeted,
    fun update hupdate hoffline => ?_⟩
  obtain hheld | ⟨hsteady, hawaited⟩ := h.awaits update hupdate hoffline
  · exact .inl hheld
  · obtain hqueued | ⟨-, hlost | hrows | ⟨hfetch, -⟩⟩ := hawaited
    · refine .inr ⟨hsteady, .inl ?_⟩
      apply arriving_append
      exact arriving_append _ hqueued
    · exact absurd (hlost.symm.trans hlisted) Bool.false_ne_true
    · obtain ⟨row, hrow, rfl⟩ := List.mem_map.mp hrows
      have hlog := h.link.log
      have hreached := hasks.answered hlog h.link.own row (hlog.listed row hrow)
      obtain (hheld | hle) | hcarried | hanswer := hreached
      · exact .inl hheld
      · -- What the log still has is above all that the document's checkpoints cover.
        have hcovered := (h.link.reads (hasks.epoch.trans hconnected.dialed)).covered
        exact absurd (hlog.above row hrow) (Nat.not_lt.mpr (Nat.le_trans hle hcovered))
      · refine .inr ⟨hsteady, .inl ?_⟩
        apply arriving_append
        apply arriving_append
        exact arriving_of_row (h.unfinished hunserved) (Session.mem_carried_items.mp hcarried)
      · refine .inr ⟨hsteady, .inl ?_⟩
        apply arriving_append
        apply arriving_of_row
        · intro head contents hmem
          obtain hmem | hmem := List.mem_append.mp hmem
          · exact h.unfinished hunserved head contents hmem
          · obtain ⟨_, -, heq⟩ := List.mem_map.mp hmem
            cases heq
        · exact List.mem_append_right _ (List.mem_map_of_mem hanswer)
    · obtain ⟨_, hfetching⟩ | ⟨hhello, -⟩ := (Session.willFetch_iff _).mp hfetch
      · cases hphase.symm.trans hfetching
      · cases hphase.symm.trans hhello

theorem Awaits.grow (h : phone.Awaits) {log : ChatLog U} {toRoom : List (ClientFrame U)}
    {toClient : List (RoomFrame U)} (frames : List (RoomFrame U))
    (hqueue : toClient = phone.toClient ++ frames) (hrows : ∀ row ∈ phone.log.rows, row ∈ log.rows)
    (hcheckpoint : log.checkpoint = phone.log.checkpoint) :
    Awaits { phone with log, toRoom, toClient } := by
  subst hqueue
  intro update hupdate hphase
  apply (h update hupdate hphase).imp_right
  rintro ⟨hsteady, hqueued | ⟨hserved, hopen⟩⟩
  · exact ⟨hsteady, .inl (arriving_append frames hqueued)⟩
  · refine ⟨hsteady, .inr ⟨hserved, ?_⟩⟩
    obtain hlost | hrow | ⟨hfetch, hmem⟩ := hopen
    · exact .inl hlost
    · obtain ⟨row, hrow, heq⟩ := List.mem_map.mp hrow
      exact .inr (.inl (List.mem_map.mpr ⟨row, hrows row hrow, heq⟩))
    · refine .inr (.inr ⟨?_, hcheckpoint.symm ▸ hmem⟩)
      refine Session.willFetch_keep hfetch rfl fun header rest hqueue hlacks => ?_
      refine ⟨rest ++ frames, ?_, hlacks⟩
      change phone.toClient ++ frames = _
      rw [show phone.toClient = .state header :: rest from hqueue]
      rfl

theorem Inv.handlePush {batch : PendingPush U} {rest : List (ClientFrame U)} (h : phone.Inv me)
    (hroom : phone.toRoom = .push batch :: rest) (hlisted : phone.listed = true) :
    Inv me (handlePush me { phone with toRoom := rest } batch) := by
  have hlink := h.link.handlePush hroom hlisted
  have hunfinished (seq : Nat) (dup : Bool) (hserved : phone.served = false) (head : Nat)
      (contents : List U) :
      RoomFrame.rowsDone head contents ∉
        phone.toClient ++ [RoomFrame.ack batch.batchId seq dup] := by
    apply unfinished_snoc (h.unfinished hserved)
    rintro _ _ ⟨⟩
  unfold Session.handlePush at hlink
  unfold Phone.handlePush
  obtain ⟨row, -, -, hdup⟩ | ⟨-, hadded⟩ :=
    phone.log.appendRow_cases me batch.batchId batch.update
  · rw [show phone.link.log = phone.log from rfl, hdup] at hlink
    rw [hdup]
    exact ⟨hlink, h.mirror, h.saved, hunfinished _ _, h.greeted,
      h.awaits.grow _ rfl (fun _ hrow => hrow) rfl⟩
  · rw [show phone.link.log = phone.log from rfl, hadded] at hlink
    rw [hadded]
    exact ⟨hlink, h.mirror.addRow rfl, h.saved.addRow rfl, hunfinished _ _, h.greeted,
      h.awaits.grow _ rfl (fun _ hrow => List.mem_append_left _ hrow) rfl⟩

theorem Inv.roomReceives (h : phone.Inv me) {phone' : Phone U}
    (hstep : phone.roomReceives me = some phone') : Inv me phone' := by
  unfold Phone.roomReceives at hstep
  split at hstep
  · rename_i cursor rest hlisted hroom
    cases hstep
    exact h.handleHello hroom hlisted
  · rename_i after excludeOwn rest hlisted hroom
    cases hstep
    exact h.handleRowsReq hroom hlisted
  · rename_i batch rest hlisted hroom
    cases hstep
    exact h.handlePush hroom hlisted
  · cases hstep

theorem Inv.roomRefuses (h : phone.Inv me) {permanent : Bool} {phone' : Phone U}
    (hstep : phone.roomRefuses permanent = some phone') : Inv me phone' := by
  unfold Phone.roomRefuses at hstep
  split at hstep
  · rename_i batch rest hlisted hroom
    cases hstep
    have hlink := h.link
    have hrest : ∀ frame ∈ rest, frame ∈ phone.toRoom := fun frame hframe =>
      hroom ▸ List.mem_cons_of_mem _ hframe
    have htaken : Session.Inv me { phone.link with toRoom := rest } := by
      apply hlink.taken hroom hlisted
      intro hconnected
      obtain ⟨hphase, hsteady⟩ := hconnected.phase.of_push hroom
      refine ⟨hconnected.dialed, hconnected.marks, hconnected.unfinished, .of_steady hphase ?_⟩
      exact ⟨fun frame hframe => hsteady.room frame (hrest frame hframe), hsteady.ready,
        hsteady.served, hsteady.epoch, hsteady.safe, hsteady.synced⟩
    refine ⟨?_, h.mirror, h.saved, h.unfinished, h.greeted, h.awaits⟩
    apply htaken.client (fun _ hmem => hmem) _ hlink.reads hlink.savedDoc hlink.saved hlink.epochs.1
    · exact fun _ hconnected => hconnected.keep (fun _ hmem => hmem) fun _ _ hlacks => hlacks
    · intro pushed hpushed
      apply hlink.pending
      split at hpushed
      · exact (List.mem_filter.mp hpushed).1
      · exact hpushed
  · cases hstep

/-! ### Other devices -/

omit [DecidableEq U] in
theorem link_otherPush (device : String) (batchId : BatchId) (update : U) :
    (phone.otherPush device batchId update).link = phone.link.otherPush device batchId update := by
  unfold Phone.otherPush Session.otherPush
  obtain ⟨row, -, -, hdup⟩ | ⟨-, hadded⟩ := phone.log.appendRow_cases device batchId update
  · rw [show phone.link.log = phone.log from rfl, hdup]
  · rw [show phone.link.log = phone.log from rfl, hadded]
    cases hready : phone.listed && phone.ready <;>
      simp [Phone.relay, Session.relay, Phone.link, hready]

theorem Inv.otherPush (h : phone.Inv me) {device : String} {number : Nat} {update : U}
    (hdevice : device ≠ me) (hsound : phone.sound (.otherPush device number update) = true) :
    Inv me (phone.otherPush device ⟨device, number⟩ update) := by
  have hlink : Session.Inv me (phone.otherPush device ⟨device, number⟩ update).link := by
    rw [link_otherPush]
    exact h.link.otherPush hdevice hsound
  obtain ⟨row, -, -, hdup⟩ | ⟨-, hadded⟩ :=
    phone.log.appendRow_cases device ⟨device, number⟩ update
  · unfold Phone.otherPush
    rw [hdup]
    exact h
  · unfold Phone.otherPush at hlink ⊢
    rw [hadded] at hlink ⊢
    dsimp only at hlink ⊢
    unfold Phone.relay at hlink ⊢
    split
    · rename_i hready
      rw [if_pos hready] at hlink
      exact ⟨hlink, h.mirror.addRow rfl, h.saved.addRow rfl,
        fun hserved => unfinished_snoc (h.unfinished hserved) nofun, h.greeted,
        h.awaits.grow _ rfl (fun _ hrow => List.mem_append_left _ hrow) rfl⟩
    · rename_i hready
      rw [if_neg hready] at hlink
      exact ⟨hlink, h.mirror.addRow rfl, h.saved.addRow rfl, h.unfinished, h.greeted,
        h.awaits.grow [] (List.append_nil _).symm
          (fun _ hrow => List.mem_append_left _ hrow) rfl⟩

omit [DecidableEq U] in
theorem link_postCheckpoint (seqCovered : Nat) (snapshot : List U) :
    (phone.postCheckpoint seqCovered snapshot).link =
      phone.link.postCheckpoint seqCovered snapshot := by
  unfold Phone.postCheckpoint Session.postCheckpoint
  rw [show phone.link.log = phone.log from rfl]
  cases phone.log.commitCheckpoint seqCovered snapshot <;> rfl

theorem sound_link {seqCovered : Nat} {snapshot : List U}
    (hsound : phone.soundCheckpoint seqCovered snapshot = true) :
    phone.link.soundCheckpoint seqCovered = true := by
  unfold soundCheckpoint at hsound
  unfold Session.soundCheckpoint
  cases hfetch : phone.link.willFetch with
  | true => simp
  | false =>
      simp only [hfetch, Bool.false_eq_true, if_false] at hsound
      simp only [Bool.or_false]
      exact hsound

/-- A checkpoint in the window leaves what the phone lacks in the log or in its own snapshot. -/
theorem Inv.awaits_commit (h : phone.Inv me) {seqCovered : Nat} {snapshot : List U}
    {log : ChatLog U} (hsound : phone.soundCheckpoint seqCovered snapshot = true)
    (hcommit : phone.log.commitCheckpoint seqCovered snapshot = some log) :
    Awaits { phone with log } := by
  obtain ⟨-, -, -, rfl⟩ := h.link.log.commit hcommit
  intro update hupdate hphase
  obtain hheld | ⟨hsteady, hqueued | ⟨hserved, hopen⟩⟩ := h.awaits update hupdate hphase
  · exact .inl hheld
  · exact .inr ⟨hsteady, .inl hqueued⟩
  · obtain hlisted | hlisted := Bool.eq_false_or_eq_true phone.listed
    · have hready : phone.ready = true := by
        cases hready : phone.ready with
        | true => rfl
        | false =>
            rw [h.greeted hlisted hready] at hupdate
            cases hupdate
      have hwindow : phone.link.inWindow = true := by
        unfold Session.inWindow
        simp only [Phone.link, hlisted, hready, hserved]
        rfl
      simp only [soundCheckpoint, hwindow, Bool.not_true, Bool.false_or] at hsound
      -- If the phone is to fetch the checkpoint, what was replaced is in reach.
      have hkept (hfetch : phone.link.willFetch = true)
          (hmem : update ∈ phone.log.checkpoint.getD [] ++
            (phone.log.rows.filter (·.seq ≤ seqCovered)).map LogRow.update) :
          update ∈ phone.mirror.all ∨ phone.phase ≠ .steady ∧
            Awaited { phone with log := { phone.log with
              rows := phone.log.rows.filter (seqCovered < ·.seq)
              seqFloor := seqCovered
              checkpointSeq := seqCovered
              checkpoint := some snapshot } } update := by
        rw [if_pos hfetch] at hsound
        have hall := List.all_eq_true.mp hsound update hmem
        simp only [Bool.or_eq_true, decide_eq_true_eq] at hall
        obtain (hsnapshot | hheld) | hqueued := hall
        · exact .inr ⟨hsteady, .inr ⟨hserved, .inr (.inr ⟨hfetch, hsnapshot⟩)⟩⟩
        · exact .inl hheld
        · exact .inr ⟨hsteady, .inl hqueued⟩
      obtain hlost | hrows | ⟨hfetch, hmem⟩ := hopen
      · exact absurd (hlost.symm.trans hlisted) Bool.false_ne_true
      · obtain ⟨row, hrow, rfl⟩ := List.mem_map.mp hrows
        by_cases hcovered : row.seq ≤ seqCovered
        · have hremoved : row ∈ phone.log.rows.filter (·.seq ≤ seqCovered) :=
            List.mem_filter.mpr ⟨hrow, decide_eq_true hcovered⟩
          obtain hfetch | hfetch := Bool.eq_false_or_eq_true phone.link.willFetch
          · exact hkept hfetch (List.mem_append_right _ (List.mem_map_of_mem hremoved))
          · rw [hfetch] at hsound
            obtain hheld | hqueued := (phone.link.reaches_iff).mp hsound row hremoved
            · exact .inl hheld
            · exact .inr ⟨hsteady, .inl (arriving_of_row (h.unfinished hserved) hqueued)⟩
        · refine .inr ⟨hsteady, .inr ⟨hserved, .inr (.inl ?_)⟩⟩
          apply List.mem_map_of_mem
          exact List.mem_filter.mpr ⟨hrow, decide_eq_true (Nat.lt_of_not_le hcovered)⟩
      · exact hkept hfetch (List.mem_append_left _ hmem)
    · exact .inr ⟨hsteady, .inr ⟨hserved, .inl hlisted⟩⟩

theorem Inv.postCheckpoint (h : phone.Inv me) {seqCovered : Nat} {snapshot : List U}
    (hsound : phone.soundCheckpoint seqCovered snapshot = true) :
    Inv me (phone.postCheckpoint seqCovered snapshot) := by
  have hlink : Session.Inv me (phone.postCheckpoint seqCovered snapshot).link := by
    rw [link_postCheckpoint]
    exact h.link.postCheckpoint (sound_link hsound)
  unfold Phone.postCheckpoint at hlink ⊢
  split
  · rename_i log hcommit
    rw [hcommit] at hlink
    exact ⟨hlink, h.mirror.commit h.link.log hcommit, h.saved.commit h.link.log hcommit,
      h.unfinished, h.greeted, h.awaits_commit hsound hcommit⟩
  · exact h

theorem Inv.reset (h : phone.Inv me) : Inv me phone.reset := by
  refine ⟨h.link.reset, h.mirror.reset h.link.epochs.2, h.saved.reset h.link.epochs.1, h.unfinished,
    nofun, fun update hupdate hphase => ?_⟩
  apply (h.awaits update hupdate hphase).imp_right
  rintro ⟨hsteady, hqueued | ⟨hserved, -⟩⟩
  · exact ⟨hsteady, .inl hqueued⟩
  · exact ⟨hsteady, .inr ⟨hserved, .inl rfl⟩⟩

/-! ### Whole runs -/

theorem Inv.step (h : phone.Inv me) {a : Action U} {phone' : Phone U}
    (hsound : phone.sound a = true) (hstep : phone.step me a = some phone') : Inv me phone' := by
  cases a with
  | localCommit update fits =>
      simp only [Phone.step] at hstep
      split at hstep <;> cases hstep
      rename_i hnew
      split
      · refine h.localCommit hnew fun batch hbatch => ?_
        obtain hbatch | hbatch := List.mem_append.mp hbatch
        · exact .inl hbatch
        · exact .inr (by rw [List.mem_singleton.mp hbatch])
      · exact h.localCommit hnew fun batch hbatch => .inl hbatch
  | pushPending =>
      simp only [Phone.step] at hstep
      split at hstep <;> cases hstep
      rename_i hphase
      exact h.pushPending hphase
  | save =>
      cases hstep
      exact h.save
  | connect =>
      simp only [Phone.step] at hstep
      split at hstep <;> cases hstep
      exact h.connect
  | disconnect =>
      cases hstep
      exact h.disconnect
  | kill =>
      cases hstep
      exact h.kill
  | receive imports => exact h.handleInbound hsound hstep
  | fetched imports =>
      simp only [Phone.step] at hstep
      split at hstep
      · rename_i seq hphase
        split at hstep <;> cases hstep
        · rename_i bytes _ hcheckpoint
          exact h.applyCheckpoint hphase hcheckpoint
        · exact h.disconnect
      · cases hstep
  | roomReceives => exact h.roomReceives hstep
  | roomRefuses permanent => exact h.roomRefuses hstep
  | otherPush device number update =>
      simp only [Phone.step] at hstep
      split at hstep <;> cases hstep
      rename_i hdevice
      exact h.otherPush hdevice hsound
  | checkpoint seqCovered snapshot =>
      cases hstep
      exact h.postCheckpoint hsound
  | reset =>
      cases hstep
      exact h.reset

/-- A live row comes between the answer to the hello and the backfill, which the connection does not
outlast. -/
def skippedRun : List (Action Nat) :=
  [.otherPush "desk" 0 10, .connect, .roomReceives, .otherPush "desk" 1 11, .receive true,
    .receive true, .save, .disconnect, .kill, .connect, .roomReceives, .receive true, .roomReceives,
    .receive true]

end Phone

end Zeron.Ios
