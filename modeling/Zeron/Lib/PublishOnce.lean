import Mathlib.Logic.Function.Basic
import Zeron.Lib.Machine

/-!
# Publishing a record once

Any number of attempts share a directory. An attempt that finds no record writes its own to a private
temporary file, links that file under the record's name, which fails if the name is taken, and removes
the temporary name; whoever does not win reads the record again. Every system call is a step of its
own, a read or a write of a file takes any number of them, each may fail, and an attempt may crash
between any two.
-/

namespace Zeron.Lib.PublishOnce

open Zeron.Lib.Machine (Steps)

/-- How records are stored. -/
structure Format (Record : Type) where
  encode : Record → List UInt8
  decode : List UInt8 → Option Record
  decode_encode : ∀ record, decode (encode record) = some record

/-- The name of the record, and the temporary name that each attempt makes up for itself. -/
structure Names (Attempt Name : Type) where
  record : Name
  temp : Attempt → Name
  temp_injective : Function.Injective temp
  temp_ne : ∀ attempt, temp attempt ≠ record

/-- Names lead to files, and a file keeps its content under every name. -/
structure Disk (Name : Type) where
  entry : Name → Option Nat
  content : Nat → List UInt8
  next : Nat

namespace Disk

variable {Name : Type} [DecidableEq Name] (disk : Disk Name)

def create (name : Name) : Disk Name :=
  { entry := Function.update disk.entry name (some disk.next)
    content := Function.update disk.content disk.next []
    next := disk.next + 1 }

def append (file : Nat) (bytes : List UInt8) : Disk Name :=
  { disk with content := Function.update disk.content file (disk.content file ++ bytes) }

def link (file : Nat) (name : Name) : Disk Name :=
  { disk with entry := Function.update disk.entry name (some file) }

def remove (name : Name) : Disk Name :=
  { disk with entry := Function.update disk.entry name none }

@[simp]
theorem create_content_next (name : Name) : (disk.create name).content disk.next = [] :=
  Function.update_self _ _ _

@[simp]
theorem link_entry_self (file : Nat) (name : Name) : (disk.link file name).entry name = some file :=
  Function.update_self _ _ _

omit [DecidableEq Name] in
@[simp]
theorem append_content_self (file : Nat) (bytes : List UInt8) :
    (disk.append file bytes).content file = disk.content file ++ bytes :=
  Function.update_self _ _ _

end Disk

inductive Failure
  | io
  | invalid
  | missing
deriving DecidableEq

/-- Where an attempt stands; `again` is set where it looks for the record after a publication. -/
inductive Stage (Record : Type)
  | looking (again : Bool)
  | reading (file : Nat) (got : List UInt8)
  | creating
  | writing (file : Nat) (rest : List UInt8)
  | linking
  | cleaning (after : Stage Record)
  | returned (result : Except Failure Record)
  | crashed

/-- How the next system call of an attempt goes. -/
inductive Outcome
  | done
  | some (bytes : Nat)
  | failed
deriving DecidableEq

inductive Action (Attempt : Type)
  | start (attempt : Attempt)
  | call (attempt : Attempt) (outcome : Outcome)
  | crash (attempt : Attempt)
deriving DecidableEq

/-- The directory with the attempts that were begun. -/
structure State (Attempt Name Record : Type) where
  disk : Disk Name
  stage : Attempt → Option (Stage Record)

variable {Attempt Name Record : Type}

section Model

variable [DecidableEq Attempt] [DecidableEq Name]

variable (format : Format Record) (names : Names Attempt Name) (own : Attempt → Record)
  (rereads : Bool)

/-- The next system call of an attempt. A read or a write of some bytes moves one at least. -/
def next (attempt : Attempt) (disk : Disk Name) :
    Stage Record → Outcome → Option (Disk Name × Stage Record)
  | .looking again, .done =>
      match disk.entry names.record with
      | some file => some (disk, .reading file [])
      | none => some (disk, if again then .returned (.error .missing) else .creating)
  | .looking _, .failed => some (disk, .returned (.error .io))
  | .reading file got, .some bytes =>
      if got.length < (disk.content file).length then
        some (disk, .reading file (got ++ ((disk.content file).drop got.length).take (bytes + 1)))
      else
        match format.decode got with
        | some record => some (disk, .returned (.ok record))
        | none => some (disk, .returned (.error .invalid))
  | .reading _ _, .failed => some (disk, .returned (.error .io))
  | .creating, .done =>
      match disk.entry (names.temp attempt) with
      | some _ => some (disk, .cleaning (.returned (.error .io)))
      | none =>
          some (disk.create (names.temp attempt), .writing disk.next (format.encode (own attempt)))
  | .creating, .failed => some (disk, .cleaning (.returned (.error .io)))
  | .writing file rest, .some bytes =>
      if rest = [] then some (disk, .linking)
      else some (disk.append file (rest.take (bytes + 1)), .writing file (rest.drop (bytes + 1)))
  | .writing _ _, .failed => some (disk, .cleaning (.returned (.error .io)))
  | .linking, .done =>
      match disk.entry (names.temp attempt), disk.entry names.record with
      | some file, none =>
          some (disk.link file names.record,
            .cleaning (if rereads then .looking true else .returned (.ok (own attempt))))
      | some _, some _ => some (disk, .cleaning (.looking true))
      | none, _ => some (disk, .cleaning (.returned (.error .io)))
  | .linking, .failed => some (disk, .cleaning (.returned (.error .io)))
  | .cleaning after, .done => some (disk.remove (names.temp attempt), after)
  | .cleaning after, .failed => some (disk, after)
  | _, _ => none

def step (s : State Attempt Name Record) : Action Attempt → Option (State Attempt Name Record)
  | .start attempt =>
      match s.stage attempt with
      | none => some { s with stage := Function.update s.stage attempt (some (.looking false)) }
      | some _ => none
  | .call attempt outcome =>
      (s.stage attempt).bind fun stage =>
        (next format names own rereads attempt s.disk stage outcome).map fun (disk, stage) =>
          { disk, stage := Function.update s.stage attempt (some stage) }
  | .crash attempt =>
      (s.stage attempt).map fun _ =>
        { s with stage := Function.update s.stage attempt (some .crashed) }

/-- At the outset there is no record, and no attempt has taken a name. -/
def directory : Machine (State Attempt Name Record) (Action Attempt) where
  init s := s.disk.entry names.record = none ∧ (∀ attempt, s.disk.entry (names.temp attempt) = none) ∧
    (∀ name file, s.disk.entry name = some file → file < s.disk.next) ∧
    ∀ attempt, s.stage attempt = none
  step := step format names own rereads

end Model

/-! ### What a run keeps -/

section Invariant

variable (format : Format Record) (names : Names Attempt Name) (own : Attempt → Record)

/-- The record's file, with a record that some attempt wrote. -/
def Published (disk : Disk Name) (record : Record) : Prop :=
  ∃ file, disk.entry names.record = some file ∧ disk.content file = format.encode record

/-- What an attempt may rely on where it stands. -/
def Holds (disk : Disk Name) (attempt : Attempt) : Stage Record → Prop
  | .looking again => again = true → (disk.entry names.record).isSome
  | .reading file got => disk.entry names.record = some file ∧ got <+: disk.content file
  | .creating => True
  | .writing file rest =>
      disk.entry (names.temp attempt) = some file ∧ disk.entry names.record ≠ some file ∧
        disk.content file ++ rest = format.encode (own attempt)
  | .linking => ∃ file, disk.entry (names.temp attempt) = some file ∧
      disk.content file = format.encode (own attempt)
  | .cleaning after => Settled disk after
  | .returned (.ok record) => Published format names disk record
  | .returned (.error failure) => failure = .io
  | .crashed => True
where
  /-- What comes after the temporary name is gone does not need it. -/
  Settled (disk : Disk Name) : Stage Record → Prop
  | .looking again => again = true → (disk.entry names.record).isSome
  | .returned (.ok record) => Published format names disk record
  | .returned (.error failure) => failure = .io
  | _ => False

/-- Files are not shared between temporary names, and the record is one that an attempt wrote. -/
structure Sound (disk : Disk Name) : Prop where
  fresh : ∀ name file, disk.entry name = some file → file < disk.next
  unshared : ∀ a b file, disk.entry (names.temp a) = some file →
    disk.entry (names.temp b) = some file → a = b
  published : ∀ file, disk.entry names.record = some file →
    ∃ attempt, disk.content file = format.encode (own attempt)

/-- A step of one attempt as the others see it: what is published stays, their temporary files stay,
and only a file of the attempt itself is published. -/
structure Frame (attempt : Attempt) (disk disk' : Disk Name) : Prop where
  published : ∀ file, disk.entry names.record = some file →
    disk'.entry names.record = some file ∧ disk'.content file = disk.content file
  others : ∀ other, other ≠ attempt → disk'.entry (names.temp other) = disk.entry (names.temp other) ∧
    ∀ file, disk.entry (names.temp other) = some file → disk'.content file = disk.content file
  new : ∀ file, disk'.entry names.record = some file → disk.entry names.record = some file ∨
    disk.entry (names.temp attempt) = some file

variable {format names own} {disk disk' : Disk Name} {attempt other : Attempt} {stage : Stage Record}

theorem Published.frame {record : Record} (h : Published format names disk record)
    (hframe : Frame names attempt disk disk') : Published format names disk' record := by
  obtain ⟨file, hentry, hcontent⟩ := h
  obtain ⟨hentry', hcontent'⟩ := hframe.published file hentry
  exact ⟨file, hentry', hcontent'.trans hcontent⟩

theorem isSome_frame (h : (disk.entry names.record).isSome) (hframe : Frame names attempt disk disk') :
    (disk'.entry names.record).isSome := by
  obtain ⟨file, hfile⟩ := Option.isSome_iff_exists.mp h
  rw [(hframe.published file hfile).1]
  rfl

theorem Settled.frame (h : Holds.Settled format names disk stage)
    (hframe : Frame names attempt disk disk') : Holds.Settled format names disk' stage := by
  cases stage with
  | looking again => exact fun hagain => isSome_frame (h hagain) hframe
  | returned result =>
      cases result with
      | ok record => exact Published.frame h hframe
      | error failure => exact h
  | reading | creating | writing | linking | cleaning | crashed => exact h

theorem Holds.frame (h : Holds format names own disk other stage) (hne : other ≠ attempt)
    (hsound : Sound format names own disk) (hframe : Frame names attempt disk disk') :
    Holds format names own disk' other stage := by
  cases stage with
  | looking again => exact fun hagain => isSome_frame (h hagain) hframe
  | reading file got =>
      obtain ⟨hentry, hgot⟩ := h
      obtain ⟨hentry', hcontent⟩ := hframe.published file hentry
      exact ⟨hentry', hcontent ▸ hgot⟩
  | creating => trivial
  | writing file rest =>
      obtain ⟨hentry, hrecord, hcontent⟩ := h
      obtain ⟨hsame, hsameContent⟩ := hframe.others other hne
      refine ⟨hsame.trans hentry, fun hnew => ?_, (hsameContent file hentry).symm ▸ hcontent⟩
      obtain hold | htemp := hframe.new file hnew
      · exact hrecord hold
      · exact hne (hsound.unshared other attempt file hentry htemp)
  | linking =>
      obtain ⟨file, hentry, hcontent⟩ := h
      obtain ⟨hsame, hsameContent⟩ := hframe.others other hne
      exact ⟨file, hsame.trans hentry, (hsameContent file hentry).trans hcontent⟩
  | cleaning after => exact Settled.frame h hframe
  | returned result =>
      cases result with
      | ok record => exact Published.frame h hframe
      | error failure => exact h
  | crashed => trivial

theorem Frame.refl (disk : Disk Name) : Frame names attempt disk disk :=
  ⟨fun _ h => ⟨h, rfl⟩, fun _ _ => ⟨rfl, fun _ _ => rfl⟩, fun _ h => .inl h⟩

variable (format names own) in
structure Valid (s : State Attempt Name Record) : Prop where
  sound : Sound format names own s.disk
  holds : ∀ attempt stage, s.stage attempt = some stage →
    Holds format names own s.disk attempt stage

theorem Format.encode_injective (format : Format Record) : Function.Injective format.encode := by
  intro record record' h
  have hdecode := congrArg format.decode h
  rw [format.decode_encode, format.decode_encode] at hdecode
  exact Option.some.inj hdecode

theorem Published.unique {record record' : Record} (h : Published format names disk record)
    (h' : Published format names disk record') : record = record' := by
  obtain ⟨file, hfile, hcontent⟩ := h
  obtain ⟨file', hfile', hcontent'⟩ := h'
  rw [hfile] at hfile'
  cases hfile'
  exact format.encode_injective (hcontent.symm.trans hcontent')

/-- **No torn read.** What an attempt has read is the beginning of a complete record, which is that of
an attempt. -/
theorem Valid.reading {s : State Attempt Name Record} (h : Valid format names own s) {a : Attempt}
    {file : Nat} {got : List UInt8} (ha : s.stage a = some (.reading file got)) :
    ∃ winner, s.disk.content file = format.encode (own winner) ∧ got <+: s.disk.content file := by
  obtain ⟨hentry, hgot⟩ := h.holds a _ ha
  obtain ⟨winner, hwinner⟩ := h.sound.published file hentry
  exact ⟨winner, hwinner, hgot⟩

/-- An attempt fails for an error of the system only. -/
theorem Valid.failure {s : State Attempt Name Record} (h : Valid format names own s) {a : Attempt}
    {failure : Failure} (ha : s.stage a = some (.returned (.error failure))) : failure = .io :=
  h.holds a _ ha

/-! ### The system calls -/

theorem Holds.settled {after : Stage Record} (h : Holds format names own disk attempt (.cleaning after)) :
    Holds format names own disk attempt after := by
  cases after with
  | looking again => exact h
  | returned result => cases result <;> exact h
  | reading => exact h.elim
  | creating => trivial
  | writing | linking | cleaning => exact h.elim
  | crashed => trivial

theorem append_frame (hsound : Sound format names own disk) {file : Nat} (bytes : List UInt8)
    (htemp : disk.entry (names.temp attempt) = some file)
    (hrecord : disk.entry names.record ≠ some file) :
    Frame names attempt disk (disk.append file bytes) ∧
      Sound format names own (disk.append file bytes) := by
  have hcontent (other : Nat) (hne : other ≠ file) :
      (disk.append file bytes).content other = disk.content other :=
    Function.update_of_ne hne _ _
  have hpublished (other : Nat) (hother : disk.entry names.record = some other) :
      (disk.append file bytes).content other = disk.content other :=
    hcontent other fun heq => hrecord (heq ▸ hother)
  refine ⟨⟨fun other hother => ⟨hother, hpublished other hother⟩, fun other hne => ⟨rfl, ?_⟩,
    fun _ h => .inl h⟩, hsound.fresh, hsound.unshared, ?_⟩
  · intro f hf
    refine hcontent f fun heq => hne ?_
    exact hsound.unshared other attempt file (heq ▸ hf) htemp
  · intro other hother
    obtain ⟨winner, hwinner⟩ := hsound.published other hother
    exact ⟨winner, (hpublished other hother).trans hwinner⟩

variable [DecidableEq Attempt] [DecidableEq Name]

theorem create_frame (hsound : Sound format names own disk) :
    Frame names attempt disk (disk.create (names.temp attempt)) ∧
      Sound format names own (disk.create (names.temp attempt)) := by
  have hname (name : Name) (hne : name ≠ names.temp attempt) :
      (disk.create (names.temp attempt)).entry name = disk.entry name :=
    Function.update_of_ne hne _ _
  have hrecord := hname _ (names.temp_ne attempt).symm
  have hother (other : Attempt) (hne : other ≠ attempt) := hname _ fun h => hne (names.temp_injective h)
  have hself : (disk.create (names.temp attempt)).entry (names.temp attempt) = some disk.next :=
    Function.update_self _ _ _
  have hcontent (name : Name) (file : Nat) (hfile : disk.entry name = some file) :
      (disk.create (names.temp attempt)).content file = disk.content file :=
    Function.update_of_ne (Nat.ne_of_lt (hsound.fresh name file hfile)) _ _
  refine ⟨⟨fun file hfile => ⟨hrecord.trans hfile, hcontent _ file hfile⟩,
    fun other hne => ⟨hother other hne, fun file => hcontent _ file⟩,
    fun file hfile => .inl (hrecord.symm.trans hfile)⟩, ?_, ?_, ?_⟩
  · intro name file hfile
    change file < disk.next + 1
    by_cases hne : name = names.temp attempt
    · rw [hne, hself] at hfile
      cases hfile
      exact Nat.lt_succ_self _
    · exact Nat.lt_succ_of_lt (hsound.fresh name file ((hname name hne).symm.trans hfile))
  · intro a b file ha hb
    by_cases hattempt : a = attempt
    · by_cases hb' : b = attempt
      · rw [hattempt, hb']
      · subst hattempt
        rw [hself] at ha
        rw [hother b hb'] at hb
        cases ha
        exact absurd (hsound.fresh _ _ hb) (Nat.lt_irrefl _)
    · rw [hother a hattempt] at ha
      by_cases hb' : b = attempt
      · subst hb'
        rw [hself] at hb
        cases hb
        exact absurd (hsound.fresh _ _ ha) (Nat.lt_irrefl _)
      · rw [hother b hb'] at hb
        exact hsound.unshared a b file ha hb
  · intro file hfile
    rw [hrecord] at hfile
    obtain ⟨winner, hwinner⟩ := hsound.published file hfile
    exact ⟨winner, (hcontent _ file hfile).trans hwinner⟩

omit [DecidableEq Attempt] in
theorem link_frame (hsound : Sound format names own disk) {file : Nat}
    (htemp : disk.entry (names.temp attempt) = some file)
    (hnone : disk.entry names.record = none)
    (hcontent : disk.content file = format.encode (own attempt)) :
    Frame names attempt disk (disk.link file names.record) ∧
      Sound format names own (disk.link file names.record) := by
  have hself : (disk.link file names.record).entry names.record = some file :=
    Function.update_self _ _ _
  have hother (name : Name) (hne : name ≠ names.record) :
      (disk.link file names.record).entry name = disk.entry name :=
    Function.update_of_ne hne _ _
  refine ⟨⟨fun f hf => ?_, fun other _ => ⟨hother _ (names.temp_ne other), fun _ _ => rfl⟩,
    fun f hf => .inr ?_⟩, ?_, ?_, ?_⟩
  · rw [hnone] at hf
    cases hf
  · rw [hself] at hf
    cases hf
    exact htemp
  · intro name f hf
    by_cases hname : name = names.record
    · rw [hname, hself] at hf
      cases hf
      exact hsound.fresh _ _ htemp
    · exact hsound.fresh name f ((hother name hname).symm.trans hf)
  · intro a b f ha hb
    rw [hother _ (names.temp_ne a)] at ha
    rw [hother _ (names.temp_ne b)] at hb
    exact hsound.unshared a b f ha hb
  · intro f hf
    rw [hself] at hf
    cases hf
    exact ⟨attempt, hcontent⟩

omit [DecidableEq Attempt] in
theorem remove_frame (hsound : Sound format names own disk) :
    Frame names attempt disk (disk.remove (names.temp attempt)) ∧
      Sound format names own (disk.remove (names.temp attempt)) := by
  have hother (name : Name) (hne : name ≠ names.temp attempt) :
      (disk.remove (names.temp attempt)).entry name = disk.entry name :=
    Function.update_of_ne hne _ _
  have hself : (disk.remove (names.temp attempt)).entry (names.temp attempt) = none :=
    Function.update_self _ _ _
  have hrecord := hother _ (names.temp_ne attempt).symm
  have hkept (name : Name) (file : Nat)
      (hfile : (disk.remove (names.temp attempt)).entry name = some file) :
      disk.entry name = some file := by
    by_cases hname : name = names.temp attempt
    · rw [hname, hself] at hfile
      cases hfile
    · rwa [hother name hname] at hfile
  refine ⟨⟨fun f hf => ⟨hrecord.trans hf, rfl⟩, fun other hne =>
    ⟨hother _ fun h => hne (names.temp_injective h), fun _ _ => rfl⟩, fun f hf => .inl (hkept _ f hf)⟩,
    fun name f hf => hsound.fresh name f (hkept name f hf),
    fun a b f ha hb => hsound.unshared a b f (hkept _ f ha) (hkept _ f hb),
    fun f hf => hsound.published f (hkept _ f hf)⟩

variable {rereads : Bool} {outcome : Outcome} {stage' : Stage Record}

/-- **One system call** leaves the directory sound, is harmless to the others, and gives the attempt
what it relies on next. -/
theorem next_keeps (hsound : Sound format names own disk)
    (hholds : Holds format names own disk attempt stage)
    (h : next format names own rereads attempt disk stage outcome = some (disk', stage')) :
    Sound format names own disk' ∧ Frame names attempt disk disk' ∧
      Holds format names own disk' attempt stage' := by
  have hsame {after : Stage Record} (heq : some (disk, after) = some (disk', stage'))
      (hafter : Holds format names own disk attempt after) :
      Sound format names own disk' ∧ Frame names attempt disk disk' ∧
        Holds format names own disk' attempt stage' := by
    obtain ⟨rfl, rfl⟩ := Prod.mk.inj (Option.some.inj heq)
    exact ⟨hsound, Frame.refl disk, hafter⟩
  cases stage with
  | looking again =>
      cases outcome with
      | done =>
          rw [next] at h
          split at h
          · rename_i file hfile
            exact hsame h ⟨hfile, List.nil_prefix⟩
          · rename_i hnone
            refine hsame h ?_
            cases again with
            | false => trivial
            | true =>
                have hsome := hholds rfl
                rw [hnone] at hsome
                cases hsome
      | some bytes => cases h
      | failed => exact hsame h rfl
  | reading file got =>
      obtain ⟨hentry, hgot⟩ := hholds
      cases outcome with
      | done => cases h
      | some bytes =>
          rw [next] at h
          split at h
          · refine hsame h ⟨hentry, ?_⟩
            obtain ⟨rest, hrest⟩ := hgot
            rw [← hrest, List.drop_left]
            exact (List.prefix_append_right_inj got).mpr (List.take_prefix _ rest)
          · rename_i hfull
            have hwhole : got = disk.content file := hgot.eq_of_length_le (Nat.le_of_not_lt hfull)
            obtain ⟨winner, hwinner⟩ := hsound.published file hentry
            rw [hwhole, hwinner, format.decode_encode] at h
            exact hsame h ⟨file, hentry, hwinner⟩
      | failed => exact hsame h rfl
  | creating =>
      cases outcome with
      | done =>
          rw [next] at h
          split at h
          · exact hsame h rfl
          · obtain ⟨rfl, rfl⟩ := Prod.mk.inj (Option.some.inj h)
            obtain ⟨hframe, hsound'⟩ : Frame names attempt disk (disk.create (names.temp attempt)) ∧
                Sound format names own (disk.create (names.temp attempt)) := create_frame hsound
            refine ⟨hsound', hframe, Function.update_self _ _ _, fun hrecord => ?_, ?_⟩
            · obtain hold | hold := hframe.new _ hrecord
              · exact absurd (hsound.fresh _ _ hold) (Nat.lt_irrefl _)
              · exact absurd (hsound.fresh _ _ hold) (Nat.lt_irrefl _)
            · rw [Disk.create_content_next, List.nil_append]
      | some bytes => cases h
      | failed => exact hsame h rfl
  | writing file rest =>
      obtain ⟨htemp, hrecord, hcontent⟩ := hholds
      cases outcome with
      | done => cases h
      | some bytes =>
          rw [next] at h
          split at h
          · rename_i hrest
            rw [hrest, List.append_nil] at hcontent
            exact hsame h ⟨file, htemp, hcontent⟩
          · obtain ⟨rfl, rfl⟩ := Prod.mk.inj (Option.some.inj h)
            obtain ⟨hframe, hsound'⟩ := append_frame hsound (rest.take (bytes + 1)) htemp hrecord
            refine ⟨hsound', hframe, htemp, hrecord, ?_⟩
            rw [Disk.append_content_self, List.append_assoc, List.take_append_drop, hcontent]
      | failed => exact hsame h rfl
  | linking =>
      obtain ⟨file, htemp, hcontent⟩ := hholds
      cases outcome with
      | done =>
          rw [next, htemp] at h
          split at h
          · rename_i file' hfile hnone
            cases hfile
            obtain ⟨rfl, rfl⟩ := Prod.mk.inj (Option.some.inj h)
            obtain ⟨hframe, hsound'⟩ := link_frame hsound htemp hnone hcontent
            have hlinked := disk.link_entry_self file names.record
            refine ⟨hsound', hframe, ?_⟩
            split
            · exact fun _ => by rw [hlinked]; rfl
            · exact ⟨file, hlinked, hcontent⟩
          · rename_i hrecord
            refine hsame h (fun _ => ?_)
            rw [hrecord]
            rfl
          · rename_i hnone
            cases hnone
      | some bytes => cases h
      | failed => exact hsame h rfl
  | cleaning after =>
      cases outcome with
      | done =>
          obtain ⟨rfl, rfl⟩ := Prod.mk.inj (Option.some.inj h)
          obtain ⟨hframe, hsound'⟩ : Frame names attempt disk (disk.remove (names.temp attempt)) ∧
              Sound format names own (disk.remove (names.temp attempt)) := remove_frame hsound
          exact ⟨hsound', hframe, Holds.settled (Settled.frame hholds hframe)⟩
      | some bytes => cases h
      | failed => exact hsame h hholds.settled
  | returned result | crashed => cases outcome <;> cases h

/-! ### Runs -/

omit [DecidableEq Name] in
/-- After a step of an attempt that is harmless to the others, all hold. -/
theorem Valid.update {s : State Attempt Name Record} (h : Valid format names own s)
    (hsound : Sound format names own disk') (hframe : Frame names attempt s.disk disk')
    (hholds : Holds format names own disk' attempt stage') :
    Valid format names own
      { disk := disk', stage := Function.update s.stage attempt (some stage') } := by
  refine ⟨hsound, fun other stage hstage => ?_⟩
  dsimp only at hstage
  by_cases hother : other = attempt
  · subst hother
    rw [Function.update_self] at hstage
    cases hstage
    exact hholds
  · rw [Function.update_of_ne hother] at hstage
    exact (h.holds other stage hstage).frame hother h.sound hframe

theorem Valid.step {s s' : State Attempt Name Record} {action : Action Attempt}
    (h : Valid format names own s)
    (hstep : PublishOnce.step format names own rereads s action = some s') :
    Valid format names own s' ∧ ∃ attempt, Frame names attempt s.disk s'.disk := by
  cases action with
  | start attempt =>
      rw [PublishOnce.step] at hstep
      split at hstep
      · obtain rfl := Option.some.inj hstep
        exact ⟨h.update h.sound (Frame.refl _) nofun, attempt, Frame.refl _⟩
      · cases hstep
  | call attempt outcome =>
      rw [PublishOnce.step] at hstep
      obtain ⟨stage, hstage, hcall⟩ := Option.bind_eq_some_iff.mp hstep
      obtain ⟨⟨disk', stage'⟩, hnext, rfl⟩ := Option.map_eq_some_iff.mp hcall
      obtain ⟨hsound, hframe, hholds⟩ := next_keeps h.sound (h.holds attempt stage hstage) hnext
      exact ⟨h.update hsound hframe hholds, attempt, hframe⟩
  | crash attempt =>
      rw [PublishOnce.step] at hstep
      obtain ⟨_, _, rfl⟩ := Option.map_eq_some_iff.mp hstep
      exact ⟨h.update h.sound (Frame.refl _) trivial, attempt, Frame.refl _⟩

theorem valid_of_reachable {s : State Attempt Name Record}
    (h : (directory format names own rereads).Reachable s) : Valid format names own s := by
  refine h.invariant (I := Valid format names own) ?_ fun s action s' hvalid _ hstep =>
    (hvalid.step hstep).1
  rintro s ⟨hrecord, htemp, hfresh, hstage⟩
  refine ⟨⟨hfresh, fun a b file ha => ?_, fun file hfile => ?_⟩, fun attempt stage hsome => ?_⟩
  · rw [htemp] at ha
    cases ha
  · rw [hrecord] at hfile
    cases hfile
  · rw [hstage] at hsome
    cases hsome

/-- What is published stays so. -/
theorem Published.steps {guard : State Attempt Name Record → Action Attempt → Prop}
    {s s' : State Attempt Name Record} {record : Record} (h : Published format names s.disk record) (hvalid : Valid format names own s)
    (hsteps : (directory format names own rereads).Steps guard s s') :
    Published format names s'.disk record := by
  refine (hsteps.invariant
    (I := fun s => Valid format names own s ∧ Published format names s.disk record) ?_ ⟨hvalid, h⟩).2
  rintro s action s' ⟨hvalid, h⟩ - hstep
  obtain ⟨hvalid', attempt, hframe⟩ := hvalid.step hstep
  exact ⟨hvalid', h.frame hframe⟩

variable (format names own rereads) in
/-- The record of the first attempt to publish is what every attempt returns from then on, and nothing
but a complete record is ever read. -/
structure FirstWins : Prop where
  agree : ∀ {guard : State Attempt Name Record → Action Attempt → Prop}
    {s s' : State Attempt Name Record} {a b : Attempt} {record record' : Record}, (directory format names own rereads).Reachable s →
    (directory format names own rereads).Steps guard s s' →
    s.stage a = some (.returned (.ok record)) → s'.stage b = some (.returned (.ok record')) →
    record' = record
  complete : ∀ {s : State Attempt Name Record} {a : Attempt} {file : Nat} {got : List UInt8},
    (directory format names own rereads).Reachable s → s.stage a = some (.reading file got) →
    ∃ winner, s.disk.content file = format.encode (own winner) ∧ got <+: s.disk.content file
  failure : ∀ {s : State Attempt Name Record} {a : Attempt} {failure : Failure},
    (directory format names own rereads).Reachable s →
    s.stage a = some (.returned (.error failure)) → failure = .io

variable (format names own rereads) in
theorem firstWins : FirstWins format names own rereads where
  agree hreach hsteps ha hb := by
    have hvalid := valid_of_reachable hreach
    have hvalid' := valid_of_reachable (hreach.steps (Steps.mono (fun _ _ _ => trivial) hsteps))
    exact Published.unique (hvalid'.holds _ _ hb) (Published.steps (hvalid.holds _ _ ha) hvalid hsteps)
  complete hreach ha := (valid_of_reachable hreach).reading ha
  failure hreach ha := (valid_of_reachable hreach).failure ha

end Invariant

end Zeron.Lib.PublishOnce
