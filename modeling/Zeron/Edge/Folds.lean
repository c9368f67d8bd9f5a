import Zeron.Edge.SessionRoom

/-!
# Folding a session room

A fold and a trim delete the log on the strength of the cached document. A cold replay and a trim make
their copy before they await `storage.sync()` and cache it after; what another handler has imported in
between is in the document that the copy replaces, and the next fold deletes it from the log.
-/

namespace Zeron.Edge

open Zeron.Lib (Machine)

namespace SessionRoom

variable {U : Type*} {size : U → Nat} {room room' : SessionRoom U} {contents : List U}

/-- A new instance: nothing runs, nothing is cached, and what has been acknowledged is stored. -/
structure Start (room : SessionRoom U) : Prop where
  running : room.running = none
  suspended : room.suspended = []
  doc : room.doc = none
  stored : ∀ update ∈ room.acked, update ∈ room.snapshot ∨ update ∈ room.rows

def machine [DecidableEq U] (size : U → Nat) : Machine (SessionRoom U) (Action U) where
  init := Start
  step := step size

def soundPoint [DecidableEq U] (room : SessionRoom U) : Point U → Action U → Bool
  | .replay _, .replay skipped => skipped.all fun update => update ∉ room.acked
  | .cache _ _ built, .advance _ | .swap _ _ built _, .advance _ => built = room.acked.length
  | _, _ => true

/-- No update is acknowledged while the handler of a cold replay or of a trim awaits the sync between
making its copy and caching it, and no replay skips an acknowledged update. -/
def Sound [DecidableEq U] (room : SessionRoom U) (action : Action U) : Prop :=
  ∀ point ∈ room.running, room.soundPoint point action = true

instance [DecidableEq U] (room : SessionRoom U) (action : Action U) : Decidable (Sound room action) := by
  unfold Sound
  infer_instance

structure Kept (room : SessionRoom U) : Prop where
  stored : ∀ update ∈ room.acked,
    update ∈ room.snapshot ∨ update ∈ room.rows ∨ update ∈ room.pending
  cached : room.running = none → room.suspended = [] → ∀ doc contents,
    room.live = some (doc, contents) → ∀ update ∈ room.acked, update ∈ contents

/-! ### The invariant -/

def HasBuilt (acked : List U) : Point U → Prop
  | .cache _ copy built | .swap _ copy built _ =>
      built ≤ acked.length ∧ ∀ update ∈ acked.take built, update ∈ copy
  | _ => True

def NoTrim (point : Point U) : Prop := ∀ doc next, point ≠ .trim doc next

structure Core (room : SessionRoom U) : Prop where
  stored : ∀ update ∈ room.acked,
    update ∈ room.snapshot ∨ update ∈ room.rows ∨ update ∈ room.pending
  cached : ∀ doc contents, room.live = some (doc, contents) → ∀ update ∈ room.acked,
    update ∈ contents
  suspended : ∀ point ∈ room.suspended, HasBuilt room.acked point ∧ NoTrim point

structure Inv (room : SessionRoom U) : Prop where
  core : Core room
  running : ∀ point ∈ room.running, HasBuilt room.acked point
  trim : ∀ doc next, room.running = some (.trim doc next) → room.doc = some doc

theorem Start.inv (h : Start room) : Inv room := by
  refine ⟨⟨fun update hmem => (h.stored update hmem).imp_right .inl, ?_, ?_⟩, ?_, ?_⟩
  · intro doc contents hlive
    rw [live, h.doc] at hlive
    cases hlive
  · intro point hpoint
    rw [h.suspended] at hpoint
    cases hpoint
  · intro point hpoint
    have hpoint : room.running = some point := hpoint
    rw [h.running] at hpoint
    cases hpoint
  · intro doc next hrunning
    rw [h.running] at hrunning
    cases hrunning

theorem Core.kept (h : Core room) : Kept room :=
  ⟨h.stored, fun _ _ => h.cached⟩

theorem live_eq {doc : Nat} (h : room.live = some (doc, contents)) :
    room.doc = some doc ∧ room.docs doc = some contents := by
  obtain ⟨doc', hdoc, h⟩ := Option.bind_eq_some_iff.mp h
  obtain ⟨contents', hcontents, heq⟩ := Option.map_eq_some_iff.mp h
  cases heq
  exact ⟨hdoc, hcontents⟩

theorem live_of {doc : Nat} (hdoc : room.doc = some doc)
    (hcontents : room.docs doc = some contents) : room.live = some (doc, contents) := by
  simp only [live, hdoc, Option.bind_some, hcontents, Option.map_some]

/-! ### Handlers -/

theorem Core.run (h : Core room) {point : Point U} (hbuilt : HasBuilt room.acked point)
    (htrim : ∀ doc next, point = .trim doc next → room.doc = some doc) : Inv (room.run point) := by
  refine ⟨⟨h.stored, h.cached, h.suspended⟩, ?_, ?_⟩
  · rintro _ ⟨⟩
    exact hbuilt
  · intro doc next heq
    exact htrim doc next (Option.some_inj.mp heq)

theorem Core.suspend (h : Core room) {point : Point U} (hbuilt : HasBuilt room.acked point)
    (hnoTrim : NoTrim point) : Inv (room.suspend point) := by
  refine ⟨⟨h.stored, h.cached, fun other hother => ?_⟩, nofun, nofun⟩
  obtain hother | hother := List.mem_append.mp hother
  · exact h.suspended other hother
  · rw [List.mem_singleton.mp hother]
    exact ⟨hbuilt, hnoTrim⟩

theorem Core.done (h : Core room) : Inv room.done :=
  ⟨⟨h.stored, h.cached, h.suspended⟩, nofun, nofun⟩

theorem Core.storeSnapshot (h : Core room) (bytes : Nat)
    (hcontents : ∀ update ∈ room.acked, update ∈ contents) :
    Core (room.storeSnapshot contents bytes) :=
  ⟨fun update hmem => .inl (hcontents update hmem), h.cached, h.suspended⟩

theorem Core.pushCheckpoint (h : Core room) (now : Nat) : Core (room.pushCheckpoint now) :=
  ⟨h.stored, h.cached, h.suspended⟩

theorem Core.recordLoroUpdates (h : Core room) (updates : List U) :
    Core (room.recordLoroUpdates size updates) := by
  unfold SessionRoom.recordLoroUpdates
  simp only
  split
  · exact h
  · refine ⟨fun update hmem => ?_, h.cached, h.suspended⟩
    exact (h.stored update hmem).imp_right fun hmore => hmore.imp_right (List.mem_append_left _)

theorem mem_pending_of_record {updates : List U} {update : U} (hmem : update ∈ updates)
    (hsize : size update ≠ 0) : update ∈ (room.recordLoroUpdates size updates).pending := by
  have hreal : update ∈ updates.filter fun update => size update ≠ 0 :=
    List.mem_filter.mpr ⟨hmem, by simpa using hsize⟩
  unfold SessionRoom.recordLoroUpdates
  simp only
  split
  · rename_i hnone
    rw [hnone] at hreal
    cases hreal
  · exact List.mem_append_right _ hreal

theorem record_live (updates : List U) :
    (room.recordLoroUpdates size updates).live = room.live := by
  unfold SessionRoom.recordLoroUpdates
  simp only
  split <;> rfl

theorem import_live {doc : Nat} {contents updates : List U}
    (h : room.live = some (doc, contents)) :
    (room.importInto doc contents updates).live = some (doc, contents ++ updates) :=
  live_of (live_eq h).1 (by simp [importInto])

theorem Core.importInto (h : Core room) {doc : Nat} (hlive : room.live = some (doc, contents))
    (updates : List U) :
    Core (room.importInto doc contents updates) := by
  refine ⟨h.stored, fun other found hother update hmem => ?_, h.suspended⟩
  rw [import_live hlive] at hother
  cases hother
  exact List.mem_append_left _ (h.cached doc contents hlive update hmem)

theorem Core.acknowledge (h : Core room) {updates : List U}
    (hpending : ∀ update ∈ updates, update ∈ room.pending)
    (hcached : ∀ doc contents, room.live = some (doc, contents) → ∀ update ∈ updates,
      update ∈ contents) : Core (room.acknowledge updates) := by
  refine ⟨fun update hmem => ?_, fun doc contents hlive update hmem => ?_, fun point hpoint => ?_⟩
  · obtain hmem | hmem := List.mem_append.mp hmem
    · exact h.stored update hmem
    · exact .inr (.inr (hpending update hmem))
  · obtain hmem | hmem := List.mem_append.mp hmem
    · exact h.cached doc contents hlive update hmem
    · exact hcached doc contents hlive update hmem
  · obtain ⟨hbuilt, hnoTrim⟩ := h.suspended point hpoint
    refine ⟨?_, hnoTrim⟩
    cases point with
    | cache _ _ _ | swap _ _ _ _ =>
        obtain ⟨hle, hcopy⟩ := hbuilt
        refine ⟨Nat.le_trans hle ?_, ?_⟩
        · rw [SessionRoom.acknowledge, List.length_append]
          exact Nat.le_add_right _ _
        · rw [SessionRoom.acknowledge, List.take_append_of_le_length hle]
          exact hcopy
    | flush _ | flushed _ | ensure _ | replay _ | trim _ _ | trimmed _ _ | ensured _ | putting =>
        trivial

theorem Core.accept (h : Core room) {doc : Nat} (hlive : room.live = some (doc, contents))
    (updates : List U) :
    let real := updates.filter fun update => size update ≠ 0
    Core (((room.importInto doc contents real).recordLoroUpdates size updates).acknowledge
      real) := by
  intro real
  apply ((h.importInto hlive real).recordLoroUpdates updates).acknowledge
  · intro update hmem
    obtain ⟨hupdate, hsize⟩ := List.mem_filter.mp hmem
    exact mem_pending_of_record hupdate (by simpa using hsize)
  · intro other found hother update hmem
    rw [record_live, import_live hlive] at hother
    cases hother
    exact List.mem_append_right _ hmem

theorem Core.flushLog (h : Core room) (updateBytes : Nat) :
    Core { room with rows := room.rows ++ room.pending, updateBytes, pending := [] } := by
  refine ⟨fun update hmem => ?_, h.cached, h.suspended⟩
  obtain hsnapshot | hrow | hpending := h.stored update hmem
  · exact .inl hsnapshot
  · exact .inr (.inl (List.mem_append_left _ hrow))
  · exact .inr (.inl (List.mem_append_right _ hpending))

theorem Core.adopt (h : Core room) {copy : List U} {built : Nat}
    {docs : Nat → Option (List U)} (hfresh : docs room.nextDoc = some copy)
    (hbuilt : ∀ update ∈ room.acked.take built, update ∈ copy)
    (hsound : built = room.acked.length) :
    Core { room with docs, nextDoc := room.nextDoc + 1, doc := some room.nextDoc } := by
  refine ⟨h.stored, fun doc contents hlive => ?_, h.suspended⟩
  obtain ⟨hdoc, hcontents⟩ := live_eq hlive
  cases hdoc
  cases hfresh.symm.trans hcontents
  rwa [hsound, List.take_length] at hbuilt

theorem Core.flush (h : Core room) (next : AfterFlush) : Inv (room.flush size next) := by
  unfold SessionRoom.flush
  simp only
  split
  · exact h.run trivial nofun
  · split <;> exact (h.flushLog _).run trivial nofun

theorem Core.flushed (h : Core room) (next : AfterFlush) : Inv (room.flushed next) := by
  cases next with
  | finish => exact h.done
  | alarm =>
      unfold SessionRoom.flushed
      simp only
      split
      · exact h.run trivial nofun
      · exact h.done
  | read => exact h.run trivial nofun

theorem Core.ensure (h : Core room) {cont : Cont U} (hstep : room.ensure cont = some room') :
    Inv room' := by
  unfold SessionRoom.ensure at hstep
  split at hstep
  · cases hstep
    exact h.run trivial nofun
  · split at hstep <;> cases hstep
    have hcold : Core { room with doc := none, replayAttempts := room.replayAttempts + 1 } := by
      refine ⟨h.stored, fun doc contents hlive => ?_, h.suspended⟩
      cases (live_eq hlive).1
    exact hcold.suspend trivial nofun

theorem Core.cache (h : Core room) {cont : Cont U} {copy : List U} {built : Nat} (now : Nat)
    (hbuilt : HasBuilt room.acked (.cache cont copy built)) (hsound : built = room.acked.length) :
    Inv (room.cache cont copy now) := by
  have hfresh : Function.update room.docs room.nextDoc (some copy) room.nextDoc = some copy :=
    Function.update_self ..
  have hadopted := h.adopt hfresh hbuilt.2 hsound
  unfold SessionRoom.cache checkpointColdStart
  split
  · refine (hadopted.pushCheckpoint now).run trivial ?_
    rintro _ _ ⟨⟩
    rfl
  · refine hadopted.run trivial ?_
    rintro _ _ ⟨⟩
    rfl

theorem Core.trim (h : Core room) {doc : Nat} {next : AfterTrim U} (hdoc : room.doc = some doc)
    (exported : Option (Nat × Nat)) : Inv (room.trim doc next exported) := by
  unfold SessionRoom.trim
  split
  · rename_i now bytes
    split
    · rename_i trimAt contents _ hcontents
      have hall := h.cached doc contents (live_of hdoc hcontents)
      obtain ⟨hstored, hcached, hsuspended⟩ := h.storeSnapshot bytes hall
      have htrimmed : Core { room.storeSnapshot contents bytes with lastTrimAt := some trimAt } :=
        ⟨hstored, hcached, hsuspended⟩
      apply htrimmed.suspend
      · exact ⟨Nat.le_refl _, fun update hmem => hall update (List.mem_of_mem_take hmem)⟩
      · exact nofun
    · exact h.run trivial nofun
  · exact h.run trivial nofun

theorem Core.swap (h : Core room) {doc : Nat} {shallow : List U} {built : Nat}
    {next : AfterTrim U} (hbuilt : HasBuilt room.acked (.swap doc shallow built next))
    (hsound : built = room.acked.length) : Inv (room.swap doc shallow next) := by
  refine Core.run (h.adopt ?_ hbuilt.2 hsound) trivial nofun
  have hfree (docs : Nat → Option (List U)) (old : Nat) (hold : docs room.nextDoc = some shallow) :
      (if old = room.nextDoc then docs else free docs old) room.nextDoc = some shallow := by
    split
    · exact hold
    · rename_i hne
      rw [free, Function.update_of_ne (Ne.symm hne)]
      exact hold
  cases room.doc with
  | none => exact hfree _ doc (Function.update_self ..)
  | some old => exact hfree _ doc (hfree _ old (Function.update_self ..))

theorem Core.trimmed (h : Core room) (trimmed : Bool) (next : AfterTrim U) :
    Inv (room.trimmed trimmed next) := by
  cases next with
  | ensured cont => exact h.run trivial nofun
  | fold next =>
      unfold SessionRoom.trimmed
      simp only
      split <;> exact h.run trivial nofun
  | alarm =>
      unfold SessionRoom.trimmed
      simp only
      split
      · exact h.run trivial nofun
      · exact h.done

theorem Inv.start {event : Event U} (h : Inv room) (hidle : room.running = none)
    (hstep : room.start event = some room') : Inv room' := by
  cases event with
  | join | update _ | append _ | flush | alarm | read =>
      cases hstep
      exact h.core.run trivial nofun
  | releaseIdle =>
      obtain ⟨doc, -, rfl⟩ := Option.map_eq_some_iff.mp hstep
      refine ⟨⟨h.core.stored, fun other contents hlive => ?_, h.core.suspended⟩, h.running, ?_⟩
      · cases (live_eq hlive).1
      · intro other next hrunning
        rw [hidle] at hrunning
        cases hrunning

section Steps

variable [DecidableEq U]

theorem Core.replay (h : Core room) {cont : Cont U} {skipped : List U}
    (hsound : ∀ update ∈ skipped, update ∉ room.acked) : Inv (room.replay cont skipped) := by
  have hreplayed : Core { room with replayAttempts := 0 } := ⟨h.stored, h.cached, h.suspended⟩
  apply hreplayed.suspend
  · refine ⟨Nat.le_refl _, fun update hmem => ?_⟩
    have hacked : update ∈ room.acked := List.mem_of_mem_take hmem
    refine List.mem_filter.mpr ⟨?_, decide_eq_true fun hskipped => hsound update hskipped hacked⟩
    simp only [List.mem_append]
    exact or_assoc.mpr (h.stored update hacked)
  · exact nofun

theorem Core.ensured (h : Core room) {cont : Cont U} {doc : Nat} {action : Action U}
    (hlive : room.live = some (doc, contents))
    (hstep : room.ensured size cont doc contents action = some room') : Inv room' := by
  have hdoc := (live_eq hlive).1
  unfold SessionRoom.ensured at hstep
  split at hstep
  · cases hstep
    exact h.done
  · cases hstep
    exact h.done
  · simp only at hstep
    split at hstep <;> cases hstep
    · exact ((h.importInto hlive _).recordLoroUpdates _).done
    · exact (h.accept hlive _).done
  · cases hstep
    exact (h.importInto hlive _).done
  · simp only at hstep
    split at hstep <;> cases hstep
    · exact h.done
    · exact (h.accept hlive _).done
  · cases hstep
    refine h.run trivial ?_
    rintro _ _ ⟨⟩
    exact hdoc
  · cases hstep
    exact (h.storeSnapshot _ (h.cached doc contents hlive)).run trivial nofun
  · cases hstep
    exact h.done
  · cases hstep
    refine (h.pushCheckpoint _).run trivial ?_
    rintro _ _ ⟨⟩
    exact hdoc
  · cases hstep
    exact h.suspend trivial nofun
  · cases hstep
    exact h.done
  · cases hstep

theorem Inv.stepPoint {point : Point U} {action : Action U} (h : Inv room)
    (hrunning : room.running = some point) (hsound : room.soundPoint point action = true)
    (hstep : room.stepPoint size point action = some room') : Inv room' := by
  have hbuilt := h.running point hrunning
  unfold SessionRoom.stepPoint at hstep
  split at hstep
  · cases hstep
    exact h.core.flush _
  · cases hstep
    exact h.core.flushed _
  · exact h.core.ensure hstep
  · cases hstep
    apply h.core.replay
    simpa [soundPoint] using hsound
  · cases hstep
    exact h.core.cache _ hbuilt (of_decide_eq_true hsound)
  · cases hstep
    exact h.core.trim (h.trim _ _ hrunning) _
  · cases hstep
    exact h.core.trim (h.trim _ _ hrunning) _
  · cases hstep
    exact h.core.swap hbuilt (of_decide_eq_true hsound)
  · cases hstep
    exact h.core.run trivial nofun
  · cases hstep
    exact h.core.trimmed _ _
  · obtain ⟨⟨doc, contents⟩, hlive, hensured⟩ := Option.bind_eq_some_iff.mp hstep
    exact h.core.ensured hlive hensured
  · cases hstep
    exact Core.done ⟨h.core.stored, h.core.cached, h.core.suspended⟩
  · cases hstep

theorem Inv.step {action : Action U} (h : Inv room) (hsound : Sound room action)
    (hstep : room.step size action = some room') : Inv room' := by
  unfold SessionRoom.step at hstep
  cases hrunning : room.running with
  | none =>
      rw [hrunning] at hstep
      cases action with
      | event event => exact h.start hrunning hstep
      | resume i =>
          obtain ⟨point, hpoint, rfl⟩ := Option.map_eq_some_iff.mp hstep
          obtain ⟨hbuilt, hnoTrim⟩ := h.core.suspended point (List.mem_of_getElem? hpoint)
          refine ⟨⟨h.core.stored, h.core.cached, fun other hother => ?_⟩, ?_, fun doc next heq => ?_⟩
          · exact h.core.suspended other (List.mem_of_mem_eraseIdx hother)
          · rintro _ ⟨⟩
            exact hbuilt
          · exact absurd (Option.some_inj.mp heq) (hnoTrim doc next)
      | advance _ | fail | replay _ | imports _ _ | die _ | «export» _ _ => cases hstep
  | some point =>
      rw [hrunning] at hstep
      cases action with
      | event _ | resume _ => cases hstep
      | advance _ | fail | replay _ | imports _ _ | die _ | «export» _ _ =>
          exact h.stepPoint hrunning (hsound point hrunning) hstep

/-- **A fold loses no acknowledged update**, over every run that keeps to `Sound`. -/
theorem folds_keep_acknowledged (size : U → Nat) {room : SessionRoom U}
    (h : (machine size).ReachableWhen Sound room) : Kept room := by
  have hinv : Inv room := h.invariant (fun _ hstart => Start.inv hstart)
    fun _ _ _ hinv hsound hstep => hinv.step hsound hstep
  exact hinv.core.kept

end Steps

/-- The updates are their sizes in kilobytes. -/
def kilobytes (update : Nat) : Nat := 1024 * update

def fresh : SessionRoom Nat :=
  { snapshot := [], snapshotBytes := 0, rows := [], updateBytes := 0, pending := []
    docs := fun _ => none, nextDoc := 0, doc := none, replayAttempts := 0, checkpoints := []
    lastTrimAt := none, chatId := some "chat", backupDirty := false, postReset := false
    running := none, suspended := [], acked := [] }

theorem start_fresh : Start fresh :=
  ⟨rfl, rfl, rfl, nofun⟩

def push (updates : List Nat) : List (Action Nat) :=
  [.event (.update updates), .advance 0, .imports false []]

/-- The first batch of an instance: a cold replay, with no trim due. -/
def pushCold (updates : List Nat) : List (Action Nat) :=
  [.event (.update updates), .advance 0, .resume 0, .replay [], .resume 0, .advance 0, .fail,
    .advance 0, .imports false []]

def foldToSync : List (Action Nat) :=
  [.event .flush, .advance 0, .advance 0, .advance 0, .export 0 600000]

theorem folds_keep_acknowledged_trimmed :
    ∃ room : SessionRoom Nat, room.acked = [3000] ∧ room.rows = [] ∧ room.pending = [] ∧
      Kept room := by
  obtain ⟨room, hsteps, hroom⟩ := Machine.exists_steps_of_runWhen (machine kilobytes) Sound
    (s := fresh) (pushCold [3000] ++ foldToSync ++ [.resume 0, .advance 0, .advance 0, .advance 0])
    (p := fun room => room.running = none && room.acked = [3000] && room.rows = [] &&
      room.pending = []) (by decide)
  simp only [Bool.and_eq_true, decide_eq_true_eq] at hroom
  obtain ⟨⟨⟨-, hacked⟩, hrows⟩, hpending⟩ := hroom
  exact ⟨room, hacked, hrows, hpending,
    folds_keep_acknowledged kilobytes ⟨fresh, start_fresh, hsteps⟩⟩

/-- A batch is imported while a trim awaits its sync: the trimmed copy replaces the document that has
it, and the next fold deletes its row. -/
theorem trim_loses_update :
    ∃ room : SessionRoom Nat, (machine kilobytes).Reachable room ∧ ¬ Kept room := by
  obtain ⟨room, hsteps, hroom⟩ := Machine.exists_steps_of_runWhen (machine kilobytes)
    Machine.anyStep (s := fresh)
    (pushCold [3000] ++ foldToSync ++ push [1] ++ [.resume 0, .advance 0, .advance 0, .advance 0] ++
      push [4000] ++ foldToSync)
    (p := fun room => decide (1 ∈ room.acked ∧ 1 ∉ room.snapshot ∧ 1 ∉ room.rows ∧
      1 ∉ room.pending)) (by decide)
  obtain ⟨hacked, hsnapshot, hrows, hpending⟩ := of_decide_eq_true hroom
  refine ⟨room, ⟨fresh, start_fresh, hsteps⟩, fun hkept => ?_⟩
  obtain hmem | hmem | hmem := hkept.stored 1 hacked
  · exact hsnapshot hmem
  · exact hrows hmem
  · exact hpending hmem

end SessionRoom

end Zeron.Edge
