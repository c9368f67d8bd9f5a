import Zeron.Update.Headless

/-!
# Managed updates keep a way back

What a staged directory holds, what `current` names, and where `previous` points after an apply, over
every run of stage, apply and rollback calls. `previous` and `current` move one after the other and
`previous` takes whatever `current` names, so that a second apply of one version, or an apply that ends
between the two renames, loses the way back.
-/

namespace Zeron.Update

open Zeron.Lib (Machine)

/-- An artifact of the size and the digest that the manifest gives. -/
def Verified (tools : Tools) (manifest : Manifest) (bytes : List UInt8) : Prop :=
  ∃ metadata, manifest.files.lookup (tools.headlessArtifact manifest.version) = some metadata ∧
    bytes.length = metadata.size ∧ eqIgnoreAsciiCase (tools.sha256 bytes) metadata.sha256 = true

/-- What unpacking an artifact that is signed for the version gives, with its binary. -/
def Genuine (tools : Tools) (version : String) (tree : Tree) : Prop :=
  ∃ manifest bytes entries, tools.signed manifest = true ∧ manifest.version = version ∧
    Verified tools manifest bytes ∧ tools.untar bytes = (entries, true) ∧ tree = unpack entries ∧
    tree.zeronIsFile = true

theorem Tree.hasZeron_of_isFile {tree : Tree} (h : tree.zeronIsFile = true) :
    tree.hasZeron = true := by
  obtain ⟨entry, hentry, hname⟩ := List.any_eq_true.mp h
  exact List.any_eq_true.mpr ⟨entry, hentry, by simp_all⟩

theorem unpack_concat (entries : List (String × Entry)) (entry : String × Entry) :
    unpack (entries ++ [entry]) = (unpack entries).put entry := by
  simp only [unpack, List.foldl_append, List.foldl_cons, List.foldl_nil]

variable {point : StagePoint}

namespace AppRoot

variable {tools : Tools} {root root' : AppRoot} {pid : Nat} {manifest : Manifest}

/-- Nothing has run; every directory with a binary is genuine and `current` names one of them. -/
structure Start (tools : Tools) (root : AppRoot) : Prop where
  idle : root.running = none
  staged : root.staged = []
  lastChange : root.lastChange = none
  dirs : ∀ version tree, root.dirs version = some tree → tree.hasZeron = true →
    Genuine tools version tree
  current : ∀ version ∈ root.current, root.hasZeron version = true

def machine (tools : Tools) : Machine AppRoot Action where
  init := Start tools
  step := step tools

/-- The last change of the current version was an apply. -/
def lastApplied (root : AppRoot) : Bool := root.lastChange.any fun change => change.1 = .apply

def soundTask (root : AppRoot) (pid : Nat) : Task → Action → Bool
  | .stage manifest .clear, .fail => (root.stage pid manifest.version).leftover = []
  | .stage _ (.receiving _ received), .endBody written => written = received
  | .readCurrent version, .fail =>
      root.current.all fun target => target = version || root.previous = some target
  | .savePrevious version previous .rename, .advance => !root.lastApplied || previous ≠ version
  | .setCurrent .apply true _ .unlink, .fail =>
      !root.lastApplied || root.temps (.current, pid) = none
  | .setCurrent .apply true _ _, .fail | .setCurrent .apply true _ _, .crash => !root.lastApplied
  | _, _ => true

/-- No error is passed over (of the removal of a stage directory with unpacked entries, of the flush
of a download, of reading `current` before another version is set), and while the last change is an
apply, no apply of the version already current and none that ends between its two renames. -/
def Sound (root : AppRoot) (action : Action) : Prop :=
  ∀ running ∈ root.running, root.soundTask running.1 running.2 action = true

instance (root : AppRoot) (action : Action) : Decidable (Sound root action) := by
  unfold Sound
  infer_instance

/-- `previous` names the version before the last apply. -/
def WayBack (root : AppRoot) : Prop :=
  ∀ before, root.lastChange = some (.apply, before) →
    root.previous = some before ∧ root.current ≠ some before

structure Managed (tools : Tools) (root : AppRoot) : Prop where
  staged : ∀ version ∈ root.staged, ∃ tree, root.dirs version = some tree ∧
    Genuine tools version tree
  current : ∀ version ∈ root.current, ∃ tree, root.dirs version = some tree ∧
    Genuine tools version tree
  wayBack : root.running = none → ∀ before, root.lastChange = some (.apply, before) →
    root.previous = some before ∧ root.current ≠ some before ∧
      ∃ tree, root.dirs before = some tree ∧ Genuine tools before tree

/-! ### The invariant -/

/-- What holds at every step, whatever runs. -/
structure Kept (tools : Tools) (root : AppRoot) : Prop where
  dirs : ∀ version tree, root.dirs version = some tree → tree.hasZeron = true →
    Genuine tools version tree
  staged : ∀ version ∈ root.staged, root.hasZeron version = true
  current : ∀ version ∈ root.current, root.hasZeron version = true
  changed : ∀ change before, root.lastChange = some (change, before) →
    root.current.isSome = true ∧ root.hasZeron before = true

/-- What a `stage_headless` has made sure of; `placed` says that the directory is in place. -/
def AtPoint (tools : Tools) (manifest : Manifest) (stage : Stage) (placed : Bool) :
    StagePoint → Prop
  | .clear | .discard => True
  | .create | .request => stage.leftover = []
  | .receiving metadata _ => stage.leftover = [] ∧
      manifest.files.lookup (tools.headlessArtifact manifest.version) = some metadata
  | .place => stage.leftover = [] ∧ ∃ bytes, stage.partialFile = some bytes ∧
      Verified tools manifest bytes
  | .createUnpacked => stage.leftover = [] ∧ ∃ bytes, stage.tarball = some bytes ∧
      Verified tools manifest bytes
  | .extract rest succeeds => ∃ bytes entries, Verified tools manifest bytes ∧
      tools.untar bytes = (entries ++ rest, succeeds) ∧ stage.leftover = unpack entries
  | .move => ∃ bytes entries, Verified tools manifest bytes ∧
      tools.untar bytes = (entries, true) ∧ stage.leftover = unpack entries
  | .cleanUp staged => staged = true → placed = true

/-- What an apply or a rollback has made sure of before it sets `current`. -/
def Ready (root : AppRoot) (pid : Nat) (target : String) (point : SwapPoint) :
    Change → Bool → Prop
  | .rollback, _ => root.WayBack
  | .apply, false => root.WayBack ∧
      ∀ version ∈ root.current, version = target ∨ root.previous = some version
  | .apply, true => root.previous = root.current ∧ (root.lastApplied = true →
      root.current ≠ some target ∧ (point = .symlink → root.temps (.current, pid) = none))

def AtTask (tools : Tools) (root : AppRoot) : Option (Nat × Task) → Prop
  | none => root.WayBack
  | some (pid, .stage manifest point) => root.WayBack ∧ tools.signed manifest = true ∧
      AtPoint tools manifest (root.stage pid manifest.version) (root.hasZeron manifest.version) point
  | some (_, .readCurrent version) => root.WayBack ∧ root.hasZeron version = true
  | some (pid, .savePrevious version previous point) => root.WayBack ∧
      root.hasZeron version = true ∧ root.current = some previous ∧
      (point = .rename → root.temps (.previous, pid) = some previous)
  | some (pid, .setCurrent change saved target point) => root.hasZeron target = true ∧
      (point = .rename → root.temps (.current, pid) = some target) ∧
      root.Ready pid target point change saved

structure Inv (tools : Tools) (root : AppRoot) : Prop where
  kept : Kept tools root
  task : AtTask tools root root.running

theorem Start.inv (h : Start tools root) : Inv tools root := by
  refine ⟨⟨h.dirs, ?_, h.current, ?_⟩, ?_⟩
  · rw [h.staged]
    nofun
  · rw [h.lastChange]
    nofun
  · rw [h.idle]
    intro before hbefore
    rw [h.lastChange] at hbefore
    cases hbefore

theorem Kept.genuine (h : Kept tools root) {version : String}
    (hzeron : root.hasZeron version = true) :
    ∃ tree, root.dirs version = some tree ∧ Genuine tools version tree := by
  obtain ⟨tree, htree, hzeron⟩ := (Option.any_eq_true _ _).mp hzeron
  exact ⟨tree, htree, h.dirs version tree htree hzeron⟩

theorem Inv.managed (h : Inv tools root) : Managed tools root := by
  refine ⟨fun version hmem => h.kept.genuine (h.kept.staged version hmem),
    fun version hmem => h.kept.genuine (h.kept.current version hmem), fun hidle before hbefore => ?_⟩
  have hway := h.task
  rw [hidle] at hway
  obtain ⟨hprevious, hcurrent⟩ := hway before hbefore
  exact ⟨hprevious, hcurrent, h.kept.genuine (h.kept.changed _ before hbefore).2⟩

/-! ### Staging -/

@[simp]
theorem stage_setStage (version : String) (stage : Option Stage) :
    (root.setStage pid version stage).stage pid version = stage.getD .empty := by
  simp [setStage, AppRoot.stage]

theorem Kept.report (h : Kept tools root) {version : String}
    (hzeron : root.hasZeron version = true) : Kept tools (root.report version) := by
  refine ⟨h.dirs, fun other hmem => ?_, h.current, h.changed⟩
  obtain rfl | hmem := List.mem_cons.mp hmem
  · exact hzeron
  · exact h.staged other hmem

theorem Kept.install (h : Kept tools root) {version : String} {tree : Tree}
    (hgenuine : Genuine tools version tree) :
    Kept tools { root with dirs := Function.update root.dirs version (some tree) } := by
  have hfile : tree.hasZeron = true := by
    obtain ⟨_, _, _, -, -, -, -, -, hfile⟩ := hgenuine
    exact Tree.hasZeron_of_isFile hfile
  have hgrow : ∀ other, root.hasZeron other = true → AppRoot.hasZeron
      { root with dirs := Function.update root.dirs version (some tree) } other = true := by
    intro other hother
    by_cases heq : other = version
    · simp [AppRoot.hasZeron, heq, hfile]
    · simpa [AppRoot.hasZeron, heq] using hother
  refine ⟨fun other found hfound hzeron => ?_, fun other hmem => hgrow other (h.staged other hmem),
    fun other hmem => hgrow other (h.current other hmem), fun change before hchange => ?_⟩
  · by_cases heq : other = version
    · subst heq
      simp only [Function.update_self, Option.some.injEq] at hfound
      exact hfound ▸ hgenuine
    · simp only [Function.update_of_ne heq] at hfound
      exact h.dirs other found hfound hzeron
  · obtain ⟨hsome, hbefore⟩ := h.changed change before hchange
    exact ⟨hsome, hgrow before hbefore⟩

section Stage

theorem removeStage_eq {left : Stage}
    (hstep : root.removeStage pid manifest left point = some root') :
    (point = .clear ∨ ∃ staged, point = .cleanUp staged) ∧
      root' = root.setStage pid manifest.version (some left) := by
  cases point with
  | clear =>
      refine ⟨.inl rfl, ?_⟩
      simp only [AppRoot.removeStage] at hstep
      split at hstep
      · split at hstep <;> cases hstep
        rfl
      · cases hstep
  | cleanUp staged =>
      refine ⟨.inr ⟨staged, rfl⟩, ?_⟩
      simp only [AppRoot.removeStage] at hstep
      split at hstep
      · split at hstep <;> cases hstep
        rfl
      · cases hstep
  | create | request | receiving _ _ | discard | place | createUnpacked | extract _ _ | move =>
      cases hstep

variable (h : Kept tools root) (hway : root.WayBack) (hsigned : tools.signed manifest = true)
include h hway

theorem Kept.done (stages : String × Nat → Option Stage) :
    Inv tools ({ root with stages }).done := by
  exact ⟨⟨h.dirs, h.staged, h.current, h.changed⟩, hway⟩

theorem Kept.finished (staged : Bool) (stages : String × Nat → Option Stage)
    (hzeron : staged = true → root.hasZeron manifest.version = true) :
    Inv tools (if staged then ({ root with stages }).report manifest.version
      else ({ root with stages }).done) := by
  cases staged with
  | true =>
      have hkept : Kept tools { root with stages } := ⟨h.dirs, h.staged, h.current, h.changed⟩
      exact ⟨hkept.report (hzeron rfl), hway⟩
  | false => exact h.done hway stages

include hsigned

theorem Kept.at_point (stage : Option Stage)
    (hpoint : AtPoint tools manifest (stage.getD .empty) (root.hasZeron manifest.version) point) :
    Inv tools ((root.setStage pid manifest.version stage).doing pid (.stage manifest point)) := by
  refine ⟨⟨h.dirs, h.staged, h.current, h.changed⟩, hway, hsigned, ?_⟩
  change AtPoint tools manifest ((root.setStage pid manifest.version stage).stage pid
    manifest.version) _ point
  rw [stage_setStage]
  exact hpoint

theorem Kept.doing (hpoint : AtPoint tools manifest (root.stage pid manifest.version)
    (root.hasZeron manifest.version) point) :
    Inv tools (root.doing pid (.stage manifest point)) :=
  ⟨⟨h.dirs, h.staged, h.current, h.changed⟩, hway, hsigned, hpoint⟩

theorem Kept.advanceStage (hpoint : AtPoint tools manifest (root.stage pid manifest.version)
    (root.hasZeron manifest.version) point)
    (hstep : root.advanceStage tools pid manifest point = some root') : Inv tools root' := by
  cases point with
  | clear =>
      cases hstep
      exact h.at_point hway hsigned none rfl
  | create | place =>
      cases hstep
      exact h.at_point hway hsigned _ hpoint
  | request =>
      simp only [AppRoot.advanceStage] at hstep
      split at hstep
      · rename_i metadata hmetadata
        split at hstep <;> cases hstep
        · exact h.at_point hway hsigned _ ⟨hpoint, hmetadata⟩
        · exact h.doing hway hsigned nofun
      · cases hstep
        exact h.doing hway hsigned nofun
  | receiving metadata received => cases hstep
  | discard =>
      cases hstep
      exact h.at_point hway hsigned _ nofun
  | createUnpacked =>
      obtain ⟨hempty, bytes, htarball, hverified⟩ := hpoint
      cases hstep
      rw [htarball]
      exact h.at_point hway hsigned _ ⟨bytes, [], hverified, rfl, hempty⟩
  | extract rest succeeds =>
      obtain ⟨bytes, entries, hverified, huntar, hleft⟩ := hpoint
      cases rest with
      | cons entry rest =>
          cases hstep
          refine h.at_point hway hsigned _ ⟨bytes, entries ++ [entry], hverified, ?_, ?_⟩
          · rw [huntar, List.append_assoc]
            rfl
          · rw [unpack_concat, ← hleft]
            rfl
      | nil =>
          cases succeeds with
          | true =>
              cases hstep
              rw [List.append_nil] at huntar
              exact h.doing hway hsigned ⟨bytes, entries, hverified, huntar, hleft⟩
          | false =>
              cases hstep
              exact h.doing hway hsigned nofun
  | move =>
      obtain ⟨bytes, entries, hverified, huntar, hleft⟩ := hpoint
      simp only [AppRoot.advanceStage] at hstep
      split at hstep
      · rename_i hfile
        split at hstep <;> cases hstep
        · have hgenuine : Genuine tools manifest.version
              (root.stage pid manifest.version).leftover :=
            ⟨manifest, bytes, entries, hsigned, rfl, hverified, huntar, hleft, hfile⟩
          have hinstalled := h.install hgenuine
          apply @Kept.at_point _ _ _ pid _ hinstalled hway hsigned
          intro _
          simpa [AppRoot.hasZeron] using Tree.hasZeron_of_isFile hfile
        · exact h.doing hway hsigned id
      · cases hstep
        exact h.doing hway hsigned nofun
  | cleanUp staged =>
      cases hstep
      exact h.finished hway staged _ hpoint

theorem Kept.failStage (hpoint : AtPoint tools manifest (root.stage pid manifest.version)
    (root.hasZeron manifest.version) point)
    (hsound : root.soundTask pid (.stage manifest point) .fail = true) :
    Inv tools (root.failStage pid manifest point) := by
  cases point with
  | clear =>
      have hempty : (root.stage pid manifest.version).leftover = [] := of_decide_eq_true hsound
      exact h.doing hway hsigned hempty
  | create => exact h.done hway root.stages
  | move =>
      apply h.doing hway hsigned
      intro hstaged
      exact (Bool.and_eq_true_iff.mp hstaged).2
  | cleanUp staged => exact h.finished hway staged root.stages hpoint
  | request | receiving _ _ | discard | place | createUnpacked | extract _ _ =>
      exact h.doing hway hsigned nofun

theorem Kept.removeStage {left : Stage}
    (hrunning : root.running = some (pid, .stage manifest point))
    (hpoint : AtPoint tools manifest
      (root.stage pid manifest.version) (root.hasZeron manifest.version) point)
    (hstep : root.removeStage pid manifest left point = some root') : Inv tools root' := by
  obtain ⟨hat, rfl⟩ := removeStage_eq hstep
  refine ⟨⟨h.dirs, h.staged, h.current, h.changed⟩, ?_⟩
  change AtTask tools _ root.running
  rw [hrunning]
  obtain rfl | ⟨staged, rfl⟩ := hat
  · exact ⟨hway, hsigned, trivial⟩
  · exact ⟨hway, hsigned, hpoint⟩

theorem Kept.receive {bytes : List UInt8} (hpoint : AtPoint tools manifest
      (root.stage pid manifest.version) (root.hasZeron manifest.version) point)
    (hstep : root.receive pid manifest bytes point = some root') : Inv tools root' := by
  cases point with
  | receiving metadata received =>
      simp only [AppRoot.receive] at hstep
      split at hstep <;> cases hstep
      · exact h.doing hway hsigned trivial
      · exact h.at_point hway hsigned _ hpoint
  | clear | create | request | discard | place | createUnpacked | extract _ _ | move | cleanUp _ =>
      cases hstep

theorem Kept.endBody {written : List UInt8} (hpoint : AtPoint tools manifest
      (root.stage pid manifest.version) (root.hasZeron manifest.version) point)
    (hsound : root.soundTask pid (.stage manifest point) (.endBody written) = true)
    (hstep : root.endBody tools pid manifest written point = some root') : Inv tools root' := by
  cases point with
  | receiving metadata received =>
      have hwritten : written = received := of_decide_eq_true hsound
      simp only [AppRoot.endBody] at hstep
      split at hstep
      · split at hstep <;> cases hstep
        · rename_i hverified
          exact h.at_point hway hsigned _
            ⟨hpoint.1, written, rfl, metadata, hpoint.2, hwritten ▸ hverified⟩
        · exact h.doing hway hsigned trivial
      · cases hstep
  | clear | create | request | discard | place | createUnpacked | extract _ _ | move | cleanUp _ =>
      cases hstep

end Stage

/-! ### Links -/

/-- What a step of a swap leaves, by what comes after it. -/
theorem swapSymlink_spec (link : Link) {target : String} {point : SwapPoint} (succeeds : Bool)
    (htemp : point = .rename → root.temps (link, pid) = some target) :
    (∃ temps next, root.swapSymlink pid link target succeeds point =
        ({ root with temps }, .ok next) ∧ (next = .rename → temps (link, pid) = some target) ∧
        (next = .symlink → point = .unlink ∧
          (temps (link, pid) = none ∨ succeeds = false ∧ temps = root.temps))) ∨
      (root.swapSymlink pid link target succeeds point = (root, .error false) ∧
        (succeeds = false ∧ point ≠ .unlink ∨
          point = .symlink ∧ root.temps (link, pid) ≠ none)) ∨
      (point = .rename ∧ succeeds = true ∧ root.swapSymlink pid link target succeeds point =
        ((root.setLink link target).setTemp pid link none, .error true)) := by
  cases point with
  | unlink =>
      cases succeeds with
      | true => exact .inl ⟨_, .symlink, rfl, nofun, fun _ => ⟨rfl, .inl (by simp)⟩⟩
      | false => exact .inl ⟨_, .symlink, rfl, nofun, fun _ => ⟨rfl, .inr ⟨rfl, rfl⟩⟩⟩
  | symlink =>
      by_cases hfree : root.temps (link, pid) = none
      · cases succeeds with
        | true =>
            refine .inl ⟨_, .rename, if_pos (by simp [hfree]), fun _ => by simp, nofun⟩
        | false => exact .inr (.inl ⟨rfl, .inl ⟨rfl, nofun⟩⟩)
      · exact .inr (.inl ⟨if_neg (by simp [hfree]), .inr ⟨rfl, hfree⟩⟩)
  | rename =>
      have htemp := htemp rfl
      cases succeeds with
      | true =>
          refine .inr (.inr ⟨rfl, rfl, ?_⟩)
          simp only [swapSymlink, htemp, if_true]
      | false =>
          refine .inr (.inl ⟨?_, .inl ⟨rfl, nofun⟩⟩)
          simp [swapSymlink, htemp]

theorem lastApplied_of {before : String} (h : root.lastChange = some (.apply, before)) :
    root.lastApplied = true := by
  simp [lastApplied, h]

theorem WayBack.of_not_applied (h : root.lastApplied = false) : root.WayBack := by
  intro before heq
  rw [lastApplied_of heq] at h
  cases h

theorem Kept.readCurrent {version : String} {succeeds : Bool} (h : Kept tools root)
    (hway : root.WayBack) (hversion : root.hasZeron version = true)
    (hsound : succeeds = false → ∀ target ∈ root.current,
      target = version ∨ root.previous = some target)
    (hstep : root.stepLinks pid succeeds (.readCurrent version) = some root') :
    Inv tools root' := by
  simp only [stepLinks] at hstep
  split at hstep <;> cases hstep
  · rename_i previous hread
    have hcurrent : root.current = some previous := by
      cases succeeds with
      | true => exact hread
      | false => cases hread
    exact ⟨⟨h.dirs, h.staged, h.current, h.changed⟩, hway, hversion, hcurrent, nofun⟩
  · rename_i hread
    refine ⟨⟨h.dirs, h.staged, h.current, h.changed⟩, hversion, nofun, hway, fun target hmem => ?_⟩
    cases succeeds with
    | true =>
        have hnone : root.current = none := hread
        have hmem : root.current = some target := hmem
        rw [hnone] at hmem
        cases hmem
    | false => exact hsound rfl target hmem

theorem Kept.savePrevious {version previous : String} {point : SwapPoint} {succeeds : Bool}
    (h : Kept tools root) (hway : root.WayBack) (hversion : root.hasZeron version = true)
    (hcurrent : root.current = some previous)
    (htemp : point = .rename → root.temps (.previous, pid) = some previous)
    (hsound : point = .rename → succeeds = true → root.lastApplied = true → previous ≠ version)
    (hstep : root.stepLinks pid succeeds (.savePrevious version previous point) = some root') :
    Inv tools root' := by
  obtain ⟨temps, next, heq, hnext, -⟩ | ⟨heq, -⟩ | ⟨hpoint, hsucceeds, heq⟩ :=
    swapSymlink_spec .previous succeeds htemp
  · simp only [stepLinks, heq] at hstep
    cases hstep
    exact ⟨⟨h.dirs, h.staged, h.current, h.changed⟩, hway, hversion, hcurrent, hnext⟩
  · simp only [stepLinks, heq] at hstep
    cases hstep
    exact ⟨⟨h.dirs, h.staged, h.current, h.changed⟩, hway⟩
  · simp only [stepLinks, heq] at hstep
    cases hstep
    refine ⟨⟨h.dirs, h.staged, h.current, h.changed⟩, hversion, nofun, hcurrent.symm,
      fun happlied => ⟨fun hsame => ?_, nofun⟩⟩
    have hsame : root.current = some version := hsame
    rw [hcurrent, Option.some_inj] at hsame
    exact hsound hpoint hsucceeds happlied hsame

/-- The swap of `current`: what it replaces is the version before the change. -/
theorem Kept.set (h : Kept tools root) {change : Change} {saved : Bool} {target : String}
    (hzeron : root.hasZeron target = true) (hready : root.Ready pid target .rename change saved) :
    Inv tools (AppRoot.changed change root
      ((root.setLink .current target).setTemp pid .current none)).done := by
  have hset : ∀ lastChange, (∀ change before, lastChange = some (change, before) →
      root.hasZeron before = true ∧
        (change = .apply → root.previous = some before ∧ target ≠ before)) →
      Inv tools { root with
        current := some target, temps := Function.update root.temps (.current, pid) none
        running := none, lastChange } := by
    intro lastChange hlast
    refine ⟨⟨h.dirs, h.staged, ?_, fun change before heq => ⟨rfl, (hlast change before heq).1⟩⟩, ?_⟩
    · rintro version ⟨⟩
      exact hzeron
    · intro before heq
      obtain ⟨hprevious, hne⟩ := (hlast _ before heq).2 rfl
      exact ⟨hprevious, fun hsame => hne (Option.some_inj.mp hsame)⟩
  unfold AppRoot.changed
  cases hcurrent : root.current with
  | none =>
      apply hset
      intro change before heq
      have hsome := (h.changed change before heq).1
      rw [hcurrent] at hsome
      cases hsome
  | some version =>
      have hversion := h.current version hcurrent
      by_cases hsame : target = version
      · subst hsame
        simp only [setLink, setTemp, if_true]
        apply hset
        intro last before heq
        refine ⟨(h.changed last before heq).2, ?_⟩
        rintro rfl
        have hway : root.WayBack := by
          cases change with
          | rollback => exact hready
          | apply =>
              cases saved with
              | false => exact hready.1
              | true => exact absurd hcurrent (hready.2 (lastApplied_of heq)).1
        obtain ⟨hprevious, hne⟩ := hway before heq
        rw [hcurrent] at hne
        exact ⟨hprevious, fun hsame => hne (congrArg some hsame)⟩
      · simp only [setLink, setTemp, Option.some_inj, hsame, if_false]
        apply hset
        rintro _ _ ⟨⟩
        refine ⟨hversion, ?_⟩
        rintro rfl
        refine ⟨?_, hsame⟩
        cases saved with
        | false => exact (hready.2 version hcurrent).resolve_left (Ne.symm hsame)
        | true => exact hready.1.trans hcurrent

theorem Kept.setCurrent {change : Change} {saved succeeds : Bool} {target : String}
    {point : SwapPoint} (h : Kept tools root) (hzeron : root.hasZeron target = true)
    (htemp : point = .rename → root.temps (.current, pid) = some target)
    (hready : root.Ready pid target point change saved)
    (hsound : succeeds = false →
      root.soundTask pid (.setCurrent change saved target point) .fail = true)
    (hstep : root.stepLinks pid succeeds (.setCurrent change saved target point) = some root') :
    Inv tools root' := by
  obtain ⟨temps, next, heq, hnext, hfree⟩ | ⟨heq, hends⟩ | ⟨rfl, -, heq⟩ :=
    swapSymlink_spec .current succeeds htemp
  · simp only [stepLinks, heq] at hstep
    cases hstep
    refine ⟨⟨h.dirs, h.staged, h.current, h.changed⟩, hzeron, hnext, ?_⟩
    cases change with
    | rollback => exact hready
    | apply =>
        cases saved with
        | false => exact hready
        | true =>
            refine ⟨hready.1, fun happlied => ⟨(hready.2 happlied).1, fun hsymlink => ?_⟩⟩
            obtain ⟨rfl, hnone | ⟨hfails, htemps⟩⟩ := hfree hsymlink
            · exact hnone
            · have hunlink := hsound hfails
              have happlied : root.lastApplied = true := happlied
              simp only [soundTask, happlied, Bool.not_true, Bool.false_or,
                decide_eq_true_eq] at hunlink
              exact (congrFun htemps _).trans hunlink
  · simp only [stepLinks, heq] at hstep
    cases hstep
    refine ⟨⟨h.dirs, h.staged, h.current, h.changed⟩, ?_⟩
    change root.WayBack
    cases change with
    | rollback => exact hready
    | apply =>
        cases saved with
        | false => exact hready.1
        | true =>
            -- the call ends after it has moved `previous`
            apply WayBack.of_not_applied
            obtain ⟨hfails, hpoint⟩ | ⟨rfl, htaken⟩ := hends
            · have hends := hsound hfails
              cases point with
              | unlink => exact absurd rfl hpoint
              | symlink | rename => exact (Bool.not_eq_true' _).mp hends
            · by_contra happlied
              rw [Bool.not_eq_false] at happlied
              exact htaken ((hready.2 happlied).2 rfl)
  · simp only [stepLinks, heq] at hstep
    cases hstep
    exact h.set hzeron hready

/-! ### Runs -/

theorem Inv.start {call : Call} (h : Inv tools root) (hidle : root.running = none)
    (hstep : root.start tools pid call = some root') : Inv tools root' := by
  have hway : root.WayBack := by
    have htask := h.task
    rw [hidle] at htask
    exact htask
  cases call with
  | stageHeadless manifest =>
      simp only [AppRoot.start] at hstep
      split at hstep <;> cases hstep
      rename_i hsigned
      unfold stageHeadless
      split
      · rename_i hzeron
        exact ⟨h.kept.report hzeron, hway⟩
      · exact h.kept.doing hway hsigned trivial
  | applyHeadless version =>
      cases hstep
      unfold applyHeadless
      split
      · rename_i hzeron
        exact ⟨⟨h.kept.dirs, h.kept.staged, h.kept.current, h.kept.changed⟩, hway, hzeron⟩
      · exact h
  | rollbackHeadless =>
      cases hstep
      unfold rollbackHeadless
      split
      · rename_i previous _
        split
        · rename_i hfile
          obtain ⟨tree, htree, hfile⟩ := (Option.any_eq_true _ _).mp hfile
          have hzeron : root.hasZeron previous = true :=
            (Option.any_eq_true _ _).mpr ⟨tree, htree, Tree.hasZeron_of_isFile hfile⟩
          exact ⟨⟨h.kept.dirs, h.kept.staged, h.kept.current, h.kept.changed⟩, hzeron, nofun, hway⟩
        · exact h
      · exact h

theorem Inv.links {task : Task} (succeeds : Bool) (h : Inv tools root)
    (hrunning : root.running = some (pid, task))
    (hsound : root.soundTask pid task (if succeeds then .advance else .fail) = true)
    (hstep : root.stepLinks pid succeeds task = some root') : Inv tools root' := by
  have htask := h.task
  rw [hrunning] at htask
  cases task with
  | stage manifest point => cases hstep
  | readCurrent version =>
      refine h.kept.readCurrent htask.1 htask.2 ?_ hstep
      rintro rfl target hmem
      simp only [Bool.false_eq_true, if_false, soundTask, Option.all_eq_true] at hsound
      simpa using hsound target hmem
  | savePrevious version previous point =>
      obtain ⟨hway, hversion, hcurrent, htemp⟩ := htask
      refine h.kept.savePrevious hway hversion hcurrent htemp ?_ hstep
      rintro rfl rfl happlied
      simpa [soundTask, happlied] using hsound
  | setCurrent change saved target point =>
      obtain ⟨hzeron, htemp, hready⟩ := htask
      refine h.kept.setCurrent hzeron htemp hready ?_ hstep
      rintro rfl
      exact hsound

theorem Inv.crash {task : Task} (h : Inv tools root) (hrunning : root.running = some (pid, task))
    (hsound : root.soundTask pid task .crash = true) : Inv tools root.done := by
  have htask := h.task
  rw [hrunning] at htask
  refine ⟨⟨h.kept.dirs, h.kept.staged, h.kept.current, h.kept.changed⟩, ?_⟩
  change root.WayBack
  cases task with
  | stage _ _ | readCurrent _ | savePrevious _ _ _ => exact htask.1
  | setCurrent change saved target point =>
      obtain ⟨-, -, hready⟩ := htask
      cases change with
      | rollback => exact hready
      | apply =>
          cases saved with
          | false => exact hready.1
          | true =>
              apply WayBack.of_not_applied
              cases point with
              | unlink | symlink | rename => exact (Bool.not_eq_true' _).mp hsound

theorem Inv.step {action : Action} (h : Inv tools root) (hsound : root.Sound action)
    (hstep : root.step tools action = some root') : Inv tools root' := by
  unfold AppRoot.step at hstep
  cases hrunning : root.running with
  | none =>
      rw [hrunning] at hstep
      cases action with
      | call pid call => exact h.start hrunning hstep
      | advance | fail | remove _ | chunk _ | endBody _ | crash => cases hstep
  | some running =>
      obtain ⟨pid, task⟩ := running
      have hsound := hsound _ hrunning
      have htask := h.task
      rw [hrunning] at hstep htask
      cases task with
      | stage manifest point =>
          obtain ⟨hway, hsigned, hpoint⟩ := htask
          cases action with
          | call _ _ => cases hstep
          | advance => exact h.kept.advanceStage hway hsigned hpoint hstep
          | fail =>
              cases hstep
              exact h.kept.failStage hway hsigned hpoint hsound
          | remove left => exact h.kept.removeStage hway hsigned hrunning hpoint hstep
          | chunk bytes => exact h.kept.receive hway hsigned hpoint hstep
          | endBody written => exact h.kept.endBody hway hsigned hpoint hsound hstep
          | crash =>
              cases hstep
              exact h.crash hrunning hsound
      | readCurrent _ | savePrevious _ _ _ | setCurrent _ _ _ _ =>
          cases action with
          | call _ _ | remove _ | chunk _ | endBody _ => cases hstep
          | advance =>
              exact h.links true hrunning hsound hstep
          | fail =>
              exact h.links false hrunning hsound hstep
          | crash =>
              cases hstep
              exact h.crash hrunning hsound

/-- **A way back**, over every run that keeps to `Sound`. -/
theorem updates_keep_way_back (tools : Tools) {root : AppRoot}
    (h : (machine tools).ReachableWhen Sound root) : Managed tools root := by
  have hinv : Inv tools root := h.invariant (fun _ hstart => Start.inv hstart)
    fun _ _ _ hinv hsound hstep => hinv.step hsound hstep
  exact hinv.managed

/-- `zeron-0.1.0-linux-x86_64.tar.gz`, with a binary of one byte. -/
def artifact0 : List UInt8 :=
  [31, 139, 8, 0, 0, 0, 0, 0, 2, 3, 171, 74, 45, 202, 207, 211, 53, 208, 51, 212, 51, 208,
    175, 2, 177, 25, 168, 15, 12, 128, 192, 204, 196, 4, 76, 3, 1, 58, 13, 4, 134, 72, 108,
    160, 184, 161, 129, 153, 129, 49, 131, 130, 1, 3, 29, 64, 105, 113, 73, 98, 17, 208,
    122, 134, 145, 9, 70, 170, 191, 71, 193, 40, 24, 5, 163, 96, 164, 3, 0, 218, 178, 46,
    196, 0, 8, 0, 0]

def artifact1 : List UInt8 :=
  [31, 139, 8, 0, 0, 0, 0, 0, 2, 3, 171, 74, 45, 202, 207, 211, 53, 208, 51, 212, 51, 212,
    175, 2, 177, 25, 168, 15, 12, 128, 192, 204, 196, 4, 76, 3, 1, 58, 13, 4, 134, 72, 108,
    160, 184, 161, 129, 153, 129, 9, 131, 130, 1, 3, 29, 64, 105, 113, 73, 98, 17, 208, 122,
    134, 145, 9, 12, 25, 70, 193, 40, 24, 5, 163, 96, 20, 140, 68, 0, 0, 40, 45, 34, 64, 0,
    8, 0, 0]

def digest0 : String := "f68de8a8b8b827a0fd3771405f39ca9ccb3b9bd41ca35101488f21e6abc90275"

def digest1 : String := "fb64dffa764f10e13b25155d823a09505c667d89916928ace0c0d1d53708c42f"

def release0 : Manifest :=
  { version := "0.1.0"
    files := [("zeron-0.1.0-linux-x86_64.tar.gz", { sha256 := digest0, size := 87 })] }

def release1 : Manifest :=
  { version := "0.1.1"
    files := [("zeron-0.1.1-linux-x86_64.tar.gz", { sha256 := digest1, size := 88 })] }

def linux : Tools where
  os := "linux"
  arch := "x86_64"
  signed manifest := manifest = release0 ∨ manifest = release1
  sha256 bytes := if bytes = artifact0 then digest0 else if bytes = artifact1 then digest1 else ""
  untar bytes :=
    if bytes = artifact0 then ([("zeron", .file [48])], true)
    else if bytes = artifact1 then ([("zeron", .file [49])], true)
    else ([], false)

def bare : AppRoot :=
  { dirs := fun _ => none, stages := fun _ => none, current := none, previous := none
    temps := fun _ => none, running := none, staged := [], lastChange := none }

theorem start_bare : Start linux bare :=
  ⟨rfl, rfl, rfl, nofun, nofun⟩

def updating (manifest : Manifest) (artifact : List UInt8) (links : Nat) : List Action :=
  [.call 1 (.stageHeadless manifest), .advance, .advance, .advance, .chunk artifact,
    .endBody artifact] ++ List.replicate 6 .advance ++
    .call 1 (.applyHeadless manifest.version) :: List.replicate links .advance

theorem updates_keep_way_back_updated :
    ∃ root : AppRoot, root.current = some "0.1.1" ∧ root.previous = some "0.1.0" ∧
      Managed linux root := by
  obtain ⟨root, hsteps, hroot⟩ := Machine.exists_steps_of_runWhen (machine linux) Sound
    (s := bare) (updating release0 artifact0 4 ++ updating release1 artifact1 7)
    (p := fun root => root.current == some "0.1.1" && root.previous == some "0.1.0") (by decide +kernel)
  simp only [Bool.and_eq_true, beq_iff_eq] at hroot
  exact ⟨root, hroot.1, hroot.2, updates_keep_way_back linux ⟨bare, start_bare, hsteps⟩⟩

/-- The apply is repeated while the restart is pending: `previous` names the version that was to be
replaced on a rollback. -/
theorem repeated_apply_loses_way_back :
    ∃ root : AppRoot, (machine linux).Reachable root ∧ ¬ Managed linux root := by
  obtain ⟨root, hsteps, hroot⟩ := Machine.exists_steps_of_runWhen (machine linux) Machine.anyStep
    (s := bare) (updating release0 artifact0 4 ++ updating release1 artifact1 7 ++
      .call 1 (.applyHeadless "0.1.1") :: List.replicate 7 .advance)
    (p := fun root => root.running == none && root.lastChange == some (.apply, "0.1.0") &&
      root.previous == some "0.1.1")
    (by decide +kernel)
  simp only [Bool.and_eq_true, beq_iff_eq] at hroot
  obtain ⟨⟨hidle, hchange⟩, hprevious⟩ := hroot
  refine ⟨root, ⟨bare, start_bare, hsteps⟩, fun hmanaged => ?_⟩
  obtain ⟨hback, -⟩ := hmanaged.wayBack hidle "0.1.0" hchange
  rw [hprevious] at hback
  exact absurd hback (by decide)

end AppRoot

end Zeron.Update
