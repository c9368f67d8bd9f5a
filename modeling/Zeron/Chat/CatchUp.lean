import Zeron.Chat.Gaps

/-!
# A complete catch-up

When the client takes the end of a backfill, its document has what the room had when it sent that
frame. A checkpoint that comes between hello and request for rows must bring nothing that is neither
in the document nor on its way, because the client does not fetch it.
-/

namespace Zeron.Chat

open Zeron.Lib
open Zeron.Lib.Item (carried)

variable {U : Type*}

/-! ### Frames before the end of a backfill -/

def arriving : List (RoomFrame U) → List U
  | [] | .rowsDone _ _ :: _ => []
  | .row row :: rest => row.update :: arriving rest
  | .state _ :: rest | .ack _ _ _ :: rest => arriving rest

def ending : List (RoomFrame U) → List U
  | [] => []
  | .rowsDone _ contents :: _ => contents
  | .row _ :: rest | .state _ :: rest | .ack _ _ _ :: rest => ending rest

variable {frames : List (RoomFrame U)} {frame : RoomFrame U}

theorem arriving_append (more : List (RoomFrame U)) {update : U} (h : update ∈ arriving frames) :
    update ∈ arriving (frames ++ more) := by
  induction frames with
  | nil => cases h
  | cons frame frames ih =>
      cases frame with
      | rowsDone head contents => cases h
      | row row =>
          obtain heq | hmem := List.mem_cons.mp h
          · exact List.mem_cons.mpr (.inl heq)
          · exact List.mem_cons_of_mem _ (ih hmem)
      | state header | ack batchId seq dup => exact ih h

theorem arriving_of_row {row : LogRow U}
    (hunfinished : ∀ head contents, .rowsDone head contents ∉ frames)
    (hrow : .row row ∈ frames) : row.update ∈ arriving frames := by
  induction frames with
  | nil => cases hrow
  | cons frame frames ih =>
      have hrest : ∀ head contents, .rowsDone head contents ∉ frames := fun head contents hmem =>
        hunfinished head contents (List.mem_cons_of_mem _ hmem)
      obtain heq | hrow := List.mem_cons.mp hrow
      · subst heq
        exact List.mem_cons_self
      · have hmem := ih hrest hrow
        cases frame with
        | rowsDone head contents => exact absurd List.mem_cons_self (hunfinished head contents)
        | row other => exact List.mem_cons_of_mem _ hmem
        | state header | ack batchId seq dup => exact hmem

theorem unfinished_snoc (h : ∀ head contents, .rowsDone head contents ∉ frames)
    (hframe : ∀ head contents, frame ≠ .rowsDone head contents) (head : Nat) (contents : List U) :
    .rowsDone head contents ∉ frames ++ [frame] := by
  intro hmem
  obtain hmem | hmem := List.mem_append.mp hmem
  · exact h head contents hmem
  · exact hframe head contents (List.mem_singleton.mp hmem).symm

theorem ending_cons {rest : List (RoomFrame U)}
    (hframe : ∀ head contents, frame ≠ .rowsDone head contents) :
    ending (frame :: rest) = ending rest := by
  cases frame with
  | rowsDone head contents => exact absurd rfl (hframe head contents)
  | row _ | state _ | ack batchId seq dup => rfl

theorem ending_eq_nil (h : ∀ head contents, .rowsDone head contents ∉ frames) :
    ending frames = [] := by
  induction frames with
  | nil => rfl
  | cons frame frames ih =>
      rw [ending_cons fun head contents heq => h head contents (heq ▸ List.mem_cons_self)]
      exact ih fun head contents hmem => h head contents (List.mem_cons_of_mem _ hmem)

theorem ending_append {frames more : List (RoomFrame U)}
    (h : ∀ head contents, .rowsDone head contents ∉ frames) :
    ending (frames ++ more) = ending more := by
  induction frames with
  | nil => rfl
  | cons frame frames ih =>
      rw [List.cons_append,
        ending_cons fun head contents heq => h head contents (heq ▸ List.mem_cons_self)]
      exact ih fun head contents hmem => h head contents (List.mem_cons_of_mem _ hmem)

theorem ending_snoc (hframe : ∀ head contents, frame ≠ .rowsDone head contents) :
    ending (frames ++ [frame]) = ending frames := by
  induction frames with
  | nil => exact ending_cons hframe
  | cons other frames ih =>
      cases other with
      | rowsDone head contents => rfl
      | row _ | state _ | ack _ _ _ => exact ih

theorem arriving_cons {rest : List (RoomFrame U)}
    (hframe : ∀ head contents, frame ≠ .rowsDone head contents) {update : U}
    (h : update ∈ arriving (frame :: rest)) :
    (∃ row, frame = .row row ∧ row.update = update) ∨ update ∈ arriving rest := by
  cases frame with
  | rowsDone head contents => exact absurd rfl (hframe head contents)
  | row row => exact (List.mem_cons.mp h).imp_left fun heq => ⟨row, rfl, heq.symm⟩
  | state header | ack batchId seq dup => exact .inr h

namespace Session

/-- The document has all that the room had when it ended the backfill. -/
def CaughtUp (s : Session U) : Prop :=
  ∀ after head contents rest, s.phase = .backfill after →
    s.toClient = .rowsDone head contents :: rest → ∀ update ∈ contents, update ∈ s.doc

variable [DecidableEq U] (s : Session U)

/-- All of the snapshot is in the document, on its way or in a row that stays. -/
def reachesAll (seqCovered : Nat) (snapshot : List U) : Bool :=
  snapshot.all fun update => update ∈ s.doc || update ∈ arriving s.toClient
    || update ∈ (s.log.rows.filter (seqCovered < ·.seq)).map LogRow.update

def soundSnapshot (seqCovered : Nat) (snapshot : List U) : Bool :=
  !s.inWindow || s.willFetch || s.reachesAll seqCovered snapshot

def soundCatchUp : Action U → Bool
  | .otherCheckpoint seqCovered snapshot => s.soundSnapshot seqCovered snapshot
  | .post i => (s.posts[i]?).all fun (seqCovered, snapshot) => s.soundSnapshot seqCovered snapshot
  | _ => true

/-- Beside what keeps the cursor, a checkpoint between hello and request for rows has nothing that the
client cannot have, or the client is yet to fetch it. -/
def SoundCatchUp (s : Session U) (a : Action U) : Prop :=
  Sound s a ∧ s.soundCatchUp a = true

instance (s : Session U) (a : Action U) : Decidable (SoundCatchUp s a) :=
  inferInstanceAs (Decidable (_ ∧ _))

/-! ### The invariant -/

def Reached (update : U) : Prop :=
  update ∈ s.doc ∨ update ∈ arriving s.toClient ∨ update ∈ s.log.rows.map LogRow.update

structure Catching : Prop where
  unserved : (s.phase = .hello ∨ ∃ after, s.phase = .fetching after) → s.served = false
  unfinished : s.served = false → ∀ head contents, .rowsDone head contents ∉ s.toClient
  /-- The checkpoint that the room would answer with. -/
  checkpoint : s.inWindow = true → s.willFetch = false →
    ∀ update ∈ s.log.checkpoint.getD [], s.Reached update
  ended : ∀ after, s.phase = .backfill after →
    ∀ update ∈ ending s.toClient, update ∈ s.doc ∨ update ∈ arriving s.toClient

variable {s}

omit [DecidableEq U] in
theorem unserved_of_inWindow (h : s.inWindow = true) : s.served = false := by
  simpa using (Bool.and_eq_true_iff.mp h).2

theorem Catching.caughtUp (h : s.Catching) : s.CaughtUp := by
  intro after head contents rest hphase hqueue update hupdate
  have hending := h.ended after hphase update
  rw [hqueue] at hending
  exact (hending hupdate).resolve_right nofun

theorem Catching.start : Catching (start : Session U) :=
  ⟨fun _ => rfl, fun _ _ _ => nofun, nofun, nofun⟩

/-! ### The client's steps -/

section

variable {cursor nextBatch : Nat} {doc : List U} {pending : List (PendingPush U)} {saved : Saved U}
  {posts : List (Nat × List U)}

theorem Catching.grow (h : s.Catching) (hdoc : ∀ update ∈ s.doc, update ∈ doc)
    (hnew : ∀ header, .state header ∈ s.toClient → s.contains header.frontier = false →
      contains { s with doc } header.frontier = false) :
    Catching { s with doc, cursor, pending, nextBatch, saved, posts } := by
  refine ⟨h.unserved, h.unfinished, fun hwindow hfetch update hupdate => ?_,
    fun after hphase update hupdate => (h.ended after hphase update hupdate).imp_left (hdoc _)⟩
  have hbefore : s.willFetch = false := by
    apply Bool.eq_false_iff.mpr
    intro hwill
    apply Bool.eq_false_iff.mp hfetch
    exact willFetch_keep hwill rfl fun header rest hqueue hlack =>
      ⟨rest, hqueue, hnew header (hqueue ▸ List.mem_cons_self) hlack⟩
  exact (h.checkpoint hwindow hbefore update hupdate).imp_left (hdoc _)

/-- A frame is taken behind the answer to the hello. -/
theorem Catching.take {rest : List (RoomFrame U)} (h : s.Catching) (hreading : s.Reading)
    (hqueue : s.toClient = frame :: rest)
    (hframe : ∀ after, s.phase = .backfill after → ∀ head contents, frame ≠ .rowsDone head contents)
    (hdoc : ∀ update ∈ s.doc, update ∈ doc) (hrow : ∀ row, frame = .row row → row.update ∈ doc) :
    Catching { s with toClient := rest, doc, cursor, pending, nextBatch, saved, posts } := by
  have hreached : (∀ head contents, frame ≠ .rowsDone head contents) → ∀ update,
      update ∈ arriving s.toClient → update ∈ doc ∨ update ∈ arriving rest := by
    intro hother update harriving
    rw [hqueue] at harriving
    obtain ⟨row, heq, rfl⟩ | hmem := arriving_cons hother harriving
    · exact .inl (hrow row heq)
    · exact .inr hmem
  refine ⟨h.unserved, fun hserved head contents hmem => ?_, fun hwindow hfetch update hupdate => ?_,
    fun after hphase update hupdate => ?_⟩
  · exact h.unfinished hserved head contents (hqueue ▸ List.mem_cons_of_mem _ hmem)
  · have hserved : s.served = false := unserved_of_inWindow hwindow
    have hother : ∀ head contents, frame ≠ .rowsDone head contents := by
      rintro head contents rfl
      exact h.unfinished hserved head contents (hqueue ▸ List.mem_cons_self)
    have hbefore : s.willFetch = false := by
      apply Bool.eq_false_iff.mpr
      intro hwill
      obtain ⟨after, hphase⟩ | ⟨hphase, -⟩ := s.willFetch_iff.mp hwill
      · obtain hsteady | ⟨_, hbackfill⟩ := hreading
        · cases hphase.symm.trans hsteady
        · cases hphase.symm.trans hbackfill
      · exact hreading.ne_hello hphase
    obtain hheld | harriving | hrows := h.checkpoint hwindow hbefore update hupdate
    · exact .inl (hdoc update hheld)
    · exact (hreached hother update harriving).imp_right .inl
    · exact .inr (.inr hrows)
  · have hother := hframe after hphase
    obtain hheld | harriving := h.ended after hphase update
      (by rwa [hqueue, ending_cons hother])
    · exact .inl (hdoc update hheld)
    · exact hreached hother update harriving

end

theorem Catching.localCommit (h : s.Catching) {update : U} (hnew : s.isNew update = true)
    {pending : List (PendingPush U)} {nextBatch : Nat} :
    Catching { s with doc := s.doc ++ [update], pending, nextBatch } := by
  have hframes := (Bool.and_eq_true_iff.mp hnew).2
  rw [List.all_eq_true] at hframes
  exact h.grow (fun _ => List.mem_append_left _) fun header hheader =>
    contains_commit (hframes _ hheader)

theorem Catching.offline (hphase : s.phase = .offline) (hlisted : s.listed = false)
    (hqueue : s.toClient = []) : s.Catching := by
  refine ⟨?_, fun _ head contents hmem => ?_, fun hwindow => ?_, fun after hbackfill => ?_⟩
  · rintro (hhello | ⟨after, hfetching⟩)
    · cases hphase.symm.trans hhello
    · cases hphase.symm.trans hfetching
  · rw [hqueue] at hmem
    cases hmem
  · rw [inWindow, hlisted] at hwindow
    cases hwindow
  · cases hphase.symm.trans hbackfill

section

variable {me : String} {header : StateHeader U} {rest : List (RoomFrame U)} {after : Nat}
  {snapshot : List U}

theorem Catching.handleState (h : s.Catching) (hphase : s.phase = .hello)
    (hqueue : s.toClient = .state header :: rest) :
    Catching (handleState { s with toClient := rest } header) := by
  have hserved := h.unserved (.inl hphase)
  have hunfinished : ∀ head contents, .rowsDone head contents ∉ rest := fun head contents hmem =>
    h.unfinished hserved head contents (hqueue ▸ List.mem_cons_of_mem _ hmem)
  unfold Session.handleState
  split
  · rename_i asked hplan
    have hcontains : s.contains header.frontier = true :=
      planCatchUp_contained contains_of_none hplan
    refine ⟨fun _ => hserved, fun _ => hunfinished, fun hwindow _ update hupdate => ?_,
      fun _ _ update hupdate => ?_⟩
    · have hfetch : s.willFetch = false := by
        simp [willFetch, hphase, hqueue, hcontains]
      have hreached := h.checkpoint hwindow hfetch update hupdate
      rwa [Reached, hqueue] at hreached
    · have hupdate : update ∈ ending rest := hupdate
      rw [ending_eq_nil hunfinished] at hupdate
      cases hupdate
  · refine ⟨fun _ => hserved, fun _ => hunfinished, fun _ hfetch => ?_, fun after hbackfill => ?_⟩
    · exact absurd hfetch Bool.true_eq_false.mp
    · cases hbackfill

theorem Catching.applyCheckpoint (h : s.Catching) (hphase : s.phase = .fetching after)
    (hcheckpoint : s.log.checkpoint = some snapshot) :
    Catching (s.applyCheckpoint after snapshot) := by
  have hserved := h.unserved (.inr ⟨after, hphase⟩)
  have hunfinished := h.unfinished hserved
  refine ⟨fun _ => hserved, fun _ => hunfinished, fun _ _ update hupdate => .inl ?_,
    fun _ _ update hupdate => ?_⟩
  · have hupdate : update ∈ s.log.checkpoint.getD [] := hupdate
    rw [hcheckpoint] at hupdate
    exact List.mem_append_right _ hupdate
  · have hupdate : update ∈ ending s.toClient := hupdate
    rw [ending_eq_nil hunfinished] at hupdate
    cases hupdate

theorem Catching.receive {s' : Session U} {imports : Bool} (h : s.Catching) (hinv : s.Inv me)
    (hsound : Sound s (.receive imports)) (hstep : s.receive imports = some s') : s'.Catching := by
  cases receive_cases hstep with
  | state hphase hqueue => exact h.handleState hphase hqueue
  | early hphase hframe hqueue =>
      refine ⟨h.unserved, fun hserved head contents hmem => ?_, fun hwindow => ?_,
        fun after hbackfill => ?_⟩
      · exact h.unfinished hserved head contents (hqueue ▸ List.mem_cons_of_mem _ hmem)
      · simp only [inWindow, Bool.and_eq_true] at hwindow
        obtain ⟨header, heq, -⟩ := hinv.answer_first hphase hqueue hwindow.1.1
        exact absurd heq (hframe header)
      · cases hphase.symm.trans hbackfill
  | @finish after head contents rest hphase hqueue =>
      have hunserved := fun hserved => h.unfinished hserved head contents
      rw [hqueue] at hunserved
      refine ⟨?_, fun hserved => absurd List.mem_cons_self (hunserved hserved), fun hwindow => ?_,
        fun after hbackfill => ?_⟩
      · rintro (hhello | ⟨_, hfetching⟩)
        · cases hhello
        · cases hfetching
      · exact absurd List.mem_cons_self (hunserved (unserved_of_inWindow hwindow))
      · cases hbackfill
  | @row row _ hreading hqueue =>
      refine h.take hreading hqueue (fun _ _ head contents heq => ?_)
        (s.mem_applyRow imports row.update) ?_
      · cases heq
      · rintro other ⟨⟩
        exact hsound.applied hreading hqueue
  | ack hreading hqueue =>
      refine h.take hreading hqueue (fun _ _ head contents heq => ?_) (fun _ => id)
        fun row heq => ?_
      · cases heq
      · cases heq
  | skip hreading hqueue hframe hends =>
      refine h.take hreading hqueue (fun after hbackfill head contents heq => ?_) (fun _ => id) ?_
      · cases hbackfill.symm.trans (hends head contents heq)
      · rintro row rfl
        cases hframe

end

/-! ### The room's steps -/

section

variable {me : String} {log : ChatLog U} {rest : List (ClientFrame U)} {snapshot : List U}

theorem Catching.snoc (h : s.Catching) (hframe : ∀ head contents, frame ≠ .rowsDone head contents)
    (hcheckpoint : log.checkpoint = s.log.checkpoint)
    (hrows : ∀ row ∈ s.log.rows, row ∈ log.rows) :
    Catching { s with log, toRoom := rest, toClient := s.toClient ++ [frame] } := by
  refine ⟨h.unserved, fun hserved => unfinished_snoc (h.unfinished hserved) hframe,
    fun hwindow hfetch update hupdate => ?_, fun after hphase update hupdate => ?_⟩
  · have hbefore : s.willFetch = false := by
      apply Bool.eq_false_iff.mpr
      intro hwill
      apply Bool.eq_false_iff.mp hfetch
      refine willFetch_keep hwill rfl fun header others hqueue hlack => ?_
      refine ⟨others ++ [frame], ?_, hlack⟩
      dsimp only
      rw [hqueue, List.cons_append]
    dsimp only at hupdate
    rw [hcheckpoint] at hupdate
    apply (h.checkpoint hwindow hbefore update hupdate).imp_right
    apply Or.imp (arriving_append _)
    intro hrow
    obtain ⟨row, hrow, heq⟩ := List.mem_map.mp hrow
    exact List.mem_map.mpr ⟨row, hrows row hrow, heq⟩
  · dsimp only at hupdate
    rw [ending_snoc hframe] at hupdate
    exact (h.ended after hphase update hupdate).imp_right (arriving_append _)

theorem Catching.otherPush (h : s.Catching) {device : String} {batchId : BatchId} {update : U} :
    Catching (s.otherPush device batchId update) := by
  unfold Session.otherPush
  obtain ⟨row, -, -, hdup⟩ | ⟨-, hadded⟩ := s.log.appendRow_cases device batchId update
  · rw [hdup]
    exact h
  · rw [hadded]
    dsimp only
    unfold relay
    split
    · apply h.snoc
      · rintro _ _ ⟨⟩
      · rfl
      · exact fun _ => List.mem_append_left _
    · rename_i hrelay
      exact ⟨h.unserved, h.unfinished,
        fun hwindow => absurd (Bool.and_eq_true_iff.mp hwindow).1 hrelay, h.ended⟩

theorem Catching.postCheckpoint {seqCovered : Nat} (h : s.Catching) (hlog : s.log.WellFormed)
    (hsound : s.soundSnapshot seqCovered snapshot = true) :
    Catching (s.postCheckpoint seqCovered snapshot) := by
  unfold Session.postCheckpoint
  split
  · rename_i log hcommit
    obtain ⟨-, -, -, rfl⟩ := hlog.commit hcommit
    refine ⟨h.unserved, h.unfinished, fun hwindow hfetch update hupdate => ?_, h.ended⟩
    have hwindow : s.inWindow = true := hwindow
    have hfetch : s.willFetch = false := hfetch
    simp only [soundSnapshot, hwindow, hfetch, Bool.not_true, Bool.false_or, reachesAll,
      List.all_eq_true, Bool.or_eq_true, decide_eq_true_eq] at hsound
    exact or_assoc.mp (hsound update hupdate)
  · exact h

theorem Catching.handleHello (h : s.Catching) (hphase : s.phase = .hello)
    (hqueue : s.toClient = []) : Catching (handleHello { s with toRoom := rest }) := by
  unfold Session.handleHello
  dsimp only
  rw [hqueue, List.nil_append]
  refine ⟨h.unserved, fun _ head contents hmem => ?_, fun _ hfetch update hupdate => .inl ?_,
    fun after hbackfill => ?_⟩
  · cases List.mem_singleton.mp hmem
  · have hcontains : s.contains s.log.checkpoint = true := by
      apply Bool.not_eq_false _ |>.mp
      intro hlack
      apply Bool.eq_false_iff.mp hfetch
      exact (willFetch_iff _).mpr (.inr ⟨hphase, _, _, rfl, hlack⟩)
    dsimp only at hupdate
    cases hcheckpoint : s.log.checkpoint with
    | none =>
        rw [hcheckpoint] at hupdate
        cases hupdate
    | some snapshot =>
        rw [hcheckpoint] at hupdate hcontains
        simp only [contains, Option.all_some, List.all_eq_true, decide_eq_true_eq] at hcontains
        exact hcontains update hupdate
  · cases hphase.symm.trans hbackfill

/-- All that the room has when it ends the backfill is in the document or before the end. -/
theorem Catching.handleRowsReq {after : Nat} {excludeOwn : Bool} (h : s.Catching) (hinv : s.Inv me)
    (hroom : s.toRoom = .rowsReq after excludeOwn :: rest) (hlisted : s.listed = true) :
    Catching (handleRowsReq me { s with toRoom := rest } after excludeOwn) := by
  have hconnected := hinv.connected hlisted
  obtain ⟨hphase, rfl, -, hasks⟩ := hconnected.phase.of_rowsReq hroom
  have hunfinished := h.unfinished hasks.unserved
  have hlog := hinv.log
  have hrows : ∀ head contents, .rowsDone head contents ∉
      (s.log.rowsAfter after (if s.resumed then some me else none)).map RoomFrame.row := by
    intro head contents hmem
    obtain ⟨_, -, heq⟩ := List.mem_map.mp hmem
    cases heq
  refine ⟨?_, fun hserved => absurd hserved Bool.true_eq_false.mp, fun hwindow => ?_,
    fun _ _ update hupdate => ?_⟩
  · rintro (hhello | ⟨_, hfetching⟩)
    · cases hphase.symm.trans hhello
    · cases hphase.symm.trans hfetching
  · simp [inWindow, Session.handleRowsReq] at hwindow
  · have hending : update ∈ s.contents := by
      unfold Session.handleRowsReq at hupdate
      dsimp only at hupdate
      rwa [ending_append, ending] at hupdate
      intro head contents hmem
      obtain hmem | hmem := List.mem_append.mp hmem
      · exact hunfinished head contents hmem
      · exact hrows head contents hmem
    have hreached : s.Reached update := by
      obtain hcheckpoint | hrow := List.mem_append.mp hending
      · apply h.checkpoint _ _ update hcheckpoint
        · simp [inWindow, hlisted, hasks.ready, hasks.unserved]
        · simp [willFetch, hphase]
      · exact .inr (.inr hrow)
    obtain hheld | harriving | hrow := hreached
    · exact .inl hheld
    · exact .inr (arriving_append _ (arriving_append _ harriving))
    · obtain ⟨row, hkept, rfl⟩ := List.mem_map.mp hrow
      obtain (hheld | hle) | hcarried | hanswer :=
        hasks.answered hlog hinv.own row (hlog.listed row hkept)
      · exact .inl hheld
      · -- What the log still has is above all that the document's checkpoints cover.
        have hcovered := (hinv.reads (hasks.epoch.trans hconnected.dialed)).covered
        exact absurd (hlog.above row hkept) (Nat.not_lt.mpr (Nat.le_trans hle hcovered))
      · refine .inr (arriving_append _ (arriving_append _ ?_))
        exact arriving_of_row hunfinished (mem_carried_items.mp hcarried)
      · refine .inr (arriving_append _ (arriving_of_row ?_ ?_))
        · intro head contents hmem
          obtain hmem | hmem := List.mem_append.mp hmem
          · exact hunfinished head contents hmem
          · exact hrows head contents hmem
        · exact List.mem_append_right _ (List.mem_map_of_mem hanswer)

theorem Catching.handlePush {batch : PendingPush U} (h : s.Catching) :
    Catching (handlePush me { s with toRoom := rest } batch) := by
  unfold Session.handlePush
  obtain ⟨row, -, -, hdup⟩ | ⟨-, hadded⟩ :=
    s.log.appendRow_cases me batch.batchId batch.update
  · rw [hdup]
    apply h.snoc
    · rintro _ _ ⟨⟩
    · rfl
    · exact fun _ => id
  · rw [hadded]
    apply h.snoc
    · rintro _ _ ⟨⟩
    · rfl
    · exact fun _ => List.mem_append_left _

theorem Catching.roomReceives {s' : Session U} (h : s.Catching) (hinv : s.Inv me)
    (hstep : s.roomReceives me = some s') : s'.Catching := by
  unfold Session.roomReceives at hstep
  split at hstep
  · rename_i cursor rest hlisted hroom
    cases hstep
    obtain ⟨hphase, -, hqueue, -⟩ := (hinv.connected hlisted).phase.of_hello hroom
    exact h.handleHello hphase hqueue
  · rename_i after excludeOwn rest hlisted hroom
    cases hstep
    exact h.handleRowsReq hinv hroom hlisted
  · cases hstep
    exact h.handlePush
  · cases hstep

end

/-! ### Whole runs -/

theorem Catching.step {me : String} {s' : Session U} {a : Action U} (h : s.Catching)
    (hinv : s.Inv me) (hsound : SoundCatchUp s a) (hstep : s.step me a = some s') :
    s'.Catching := by
  have hposts (posts : List (Nat × List U)) : Catching { s with posts } :=
    h.grow (fun _ => id) fun _ _ => id
  cases a with
  | localCommit update fits =>
      simp only [Session.step] at hstep
      split at hstep <;> cases hstep
      rename_i hnew
      split
      · exact h.localCommit hnew
      · exact h.localCommit hnew
  | nudge =>
      simp only [Session.step] at hstep
      split at hstep <;> cases hstep
      exact ⟨h.unserved, h.unfinished, h.checkpoint, h.ended⟩
  | save =>
      cases hstep
      exact h.grow (fun _ => id) fun _ _ => id
  | dial =>
      simp only [Session.step] at hstep
      split at hstep <;> cases hstep
      refine ⟨fun _ => rfl, fun _ _ _ => List.not_mem_nil, fun hwindow => ?_, fun after hbackfill => ?_⟩
      · exact absurd hwindow Bool.false_ne_true
      · cases hbackfill
  | disconnect | restart =>
      cases hstep
      exact .offline rfl rfl rfl
  | receive imports => exact h.receive hinv hsound.1 hstep
  | fetched =>
      simp only [Session.step] at hstep
      split at hstep
      · rename_i after hphase
        split at hstep <;> cases hstep
        · rename_i snapshot hcheckpoint
          exact h.applyCheckpoint hphase hcheckpoint
        · exact .offline rfl rfl rfl
      · cases hstep
  | roomReceives => exact h.roomReceives hinv hstep
  | otherPush device number update =>
      simp only [Session.step] at hstep
      split at hstep <;> cases hstep
      exact h.otherPush
  | otherCheckpoint seqCovered snapshot =>
      cases hstep
      exact h.postCheckpoint hinv.log hsound.2
  | capture | losePost _ =>
      cases hstep
      exact hposts _
  | post i =>
      simp only [Session.step] at hstep
      split at hstep <;> cases hstep
      rename_i seqCovered snapshot hpost
      apply (hposts (s.posts.eraseIdx i)).postCheckpoint hinv.log
      have hsnapshot := hsound.2
      simp only [soundCatchUp, hpost, Option.all_some] at hsnapshot
      exact hsnapshot
  | reset =>
      cases hstep
      exact ⟨h.unserved, h.unfinished, fun hwindow => absurd hwindow Bool.false_ne_true, h.ended⟩

end Session

end Zeron.Chat
