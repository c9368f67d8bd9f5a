import Zeron.Engine.Uploads

/-!
# Uploads side by side

Appends and commits of any number of uploads in any order. Staged chunks are kept apart by the whole
id of the upload; the committed file is named by the first eight characters of it.
-/

namespace Zeron.Engine.Uploads

open Zeron.Lib (Bytes)

inductive Action where
  | append (now : Nat) (id data : List Char) (seq : Option Nat)
  | commit (id fileName : List Char)
  | restart (readOnlyRoots : List (List Char))

def Action.id : Action → Option (List Char)
  | append _ id _ _ | commit id _ => some id
  | restart _ => none

def act (s : Uploads) : Action → Uploads
  | .append now id data seq => (s.append now id data seq).2
  | .commit id fileName => (s.commit id fileName).2
  | .restart readOnlyRoots => s.restart readOnlyRoots

def uploaded (s : Uploads) (id : List Char) : Option Bytes :=
  (assemble 0 (sortedParts ((s.tmp id).getD []))).bind Lib.Base64.decode

variable {s : Uploads}

theorem append_spec (now : Nat) (id data : List Char) (seq : Option Nat) :
    ∃ staged, (s.append now id data seq).2 = s ∨
      (s.append now id data seq).2 = (s.sweep now).setTmp id staged := by
  unfold append
  dsimp only
  split_ifs
  · exact ⟨none, .inl rfl⟩
  · exact ⟨_, .inr rfl⟩
  · exact ⟨_, .inr rfl⟩
  · exact ⟨_, .inr rfl⟩

theorem commit_spec (id fileName : List Char) :
    (∃ error, s.commit id fileName = (.error error, s) ∨
        s.commit id fileName = (.error error, s.setTmp id none)) ∨
      ∃ bytes, s.uploaded id = some bytes ∧ s.commit id fileName = (.ok (s.durablePath id fileName),
        { s.setTmp id none with
          files := Function.update s.files (s.durablePath id fileName) (some bytes) }) := by
  unfold commit uploaded
  dsimp only
  split_ifs with hid hparts
  · exact .inl ⟨_, .inl rfl⟩
  · exact .inl ⟨_, .inl rfl⟩
  · cases assemble 0 (sortedParts ((s.tmp id).getD [])) with
    | none => exact .inl ⟨_, .inl rfl⟩
    | some joined =>
        cases hbytes : Lib.Base64.decode joined with
        | none =>
            left
            exact ⟨.invalidBase64, .inl (by simp [hbytes])⟩
        | some bytes =>
            by_cases hsize : maxBytes < bytes.length
            · left
              exact ⟨.tooLarge, .inr (by simp [hbytes, hsize])⟩
            · right
              exact ⟨bytes, by simp [hbytes], by simp [hbytes, hsize]⟩

/-- The action writes no file with the name. -/
def Action.Spares (name : List Char) : Action → Prop
  | commit id fileName => durableName id fileName ≠ name
  | append .. | restart _ => True

instance (name : List Char) : DecidablePred (Action.Spares name)
  | .commit id fileName => inferInstanceAs (Decidable (durableName id fileName ≠ name))
  | .append .. | .restart _ => .isTrue trivial

theorem act_tmp {id : List Char} {action : Action} (h : action.id ≠ some id) :
    (s.act action).tmp id = s.tmp id ∨ (s.act action).tmp id = none := by
  have hset : ∀ {other : List Char} (staged), other ≠ id → ∀ s : Uploads,
      (s.setTmp other staged).tmp id = s.tmp id := by
    intro other staged hne s
    exact Function.update_of_ne hne.symm _ _
  cases action with
  | restart readOnlyRoots => exact .inl rfl
  | append now other data seq =>
      have hne : other ≠ id := fun heq => h (congrArg some heq)
      obtain ⟨staged, hsame | hswept⟩ := append_spec (s := s) now other data seq
      · exact .inl (by rw [act, hsame])
      · rw [act, hswept, hset staged hne]
        cases htmp : s.tmp id with
        | none => exact .inr (by simp [sweep, htmp])
        | some files =>
            cases hexpired : expired now files with
            | false => exact .inl (by simp [sweep, htmp, Option.filter, hexpired])
            | true => exact .inr (by simp [sweep, htmp, Option.filter, hexpired])
  | commit other fileName =>
      have hne : other ≠ id := fun heq => h (congrArg some heq)
      left
      obtain ⟨error, hsame | hfailed⟩ | ⟨bytes, -, hdone⟩ := commit_spec (s := s) other fileName
      · rw [act, hsame]
      · rw [act, hfailed]
        exact hset none hne s
      · rw [act, hdone]
        exact hset none hne s

theorem act_files {name : List Char} {action : Action} (h : action.Spares name) :
    (s.act action).root = s.root ∧
      (s.act action).files (s.root ++ '/' :: name) = s.files (s.root ++ '/' :: name) := by
  cases action with
  | restart readOnlyRoots => exact ⟨rfl, rfl⟩
  | append now other data seq =>
      obtain ⟨staged, hsame | hswept⟩ := append_spec (s := s) now other data seq
      · rw [act, hsame]
        exact ⟨rfl, rfl⟩
      · rw [act, hswept]
        exact ⟨rfl, rfl⟩
  | commit other fileName =>
      obtain ⟨error, hsame | hfailed⟩ | ⟨bytes, -, hdone⟩ := commit_spec (s := s) other fileName
      · rw [act, hsame]
        exact ⟨rfl, rfl⟩
      · rw [act, hfailed]
        exact ⟨rfl, rfl⟩
      · rw [act, hdone]
        refine ⟨rfl, Function.update_of_ne ?_ _ _⟩
        intro heq
        exact h (List.cons.inj (List.append_cancel_left heq)).2.symm

theorem run_files {name : List Char} {actions : List Action}
    (h : ∀ action ∈ actions, action.Spares name) :
    (actions.foldl act s).files (s.root ++ '/' :: name) = s.files (s.root ++ '/' :: name) := by
  induction actions generalizing s with
  | nil => rfl
  | cons action actions ih =>
      obtain ⟨hroot, hfiles⟩ := act_files (s := s) (h action List.mem_cons_self)
      have hrest := ih (s := s.act action) fun other hother => h other (List.mem_cons_of_mem _ hother)
      rw [hroot] at hrest
      rw [List.foldl_cons, hrest, hfiles]

/-- **Committed files are kept.** The chunks of an upload are left to it, and the file of a commit has
the bytes of its upload in every run in which no commit of another upload has the same eight
characters of its id and the same cleaned name. -/
theorem committed_files_are_kept {id fileName path : List Char} {s' : Uploads}
    (h : s.commit id fileName = (.ok path, s')) {actions : List Action}
    (hothers : ∀ action ∈ actions, action.id ≠ some id)
    (hnames : ∀ action ∈ actions, action.Spares (durableName id fileName)) :
    (∃ bytes, s.uploaded id = some bytes ∧ (actions.foldl act s').files path = some bytes) ∧
      ∀ (t : Uploads) (action : Action), action ∈ actions →
        (t.act action).tmp id = t.tmp id ∨ (t.act action).tmp id = none := by
  constructor
  · obtain ⟨error, hfailed | hfailed⟩ | ⟨bytes, hbytes, hdone⟩ := commit_spec (s := s) id fileName
    · rw [hfailed] at h
      cases h
    · rw [hfailed] at h
      cases h
    · rw [hdone] at h
      obtain ⟨hpath, rfl⟩ := Prod.mk.inj h
      obtain rfl := Except.ok.inj hpath
      refine ⟨bytes, hbytes, ?_⟩
      have hkept := run_files (s := { s.setTmp id none with
        files := Function.update s.files (s.durablePath id fileName) (some bytes) }) hnames
      exact hkept.trans (Function.update_self _ _ _)
  · intro t action haction
    exact act_tmp (hothers action haction)

def sideBySide : Uploads :=
  [.append 0 "1a".toList ['A', 'Q', '=', '='] (some 0),
    .append 1 "2a".toList ['A', 'g', '=', '='] none].foldl act fresh

theorem side_by_side_kept :
    (∃ bytes, sideBySide.uploaded "1a".toList = some bytes ∧
      ([.commit "2a".toList "a.png".toList].foldl act
        (sideBySide.commit "1a".toList "a.png".toList).2).files "/uploads/1a-a.png".toList =
          some bytes) ∧
      ∀ (t : Uploads) (action : Action), action ∈ [.commit "2a".toList "a.png".toList] →
        (t.act action).tmp "1a".toList = t.tmp "1a".toList ∨
          (t.act action).tmp "1a".toList = none :=
  @committed_files_are_kept sideBySide "1a".toList "a.png".toList _ _ rfl _ (by decide)
    (by decide)

/-- One upload, whose id is told apart from that of the next behind the first eight characters. -/
def firstUpload : Uploads :=
  fresh.act (.append 0 "12345678-a".toList ['A', 'Q', '=', '='] (some 0))

def nextUpload : List Action :=
  [.append 1 "12345678-b".toList ['A', 'g', '=', '='] (some 0),
    .commit "12345678-b".toList "image.png".toList]

theorem same_prefix_overwrites :
    accepted "12345678-a".toList = true ∧ accepted "12345678-b".toList = true ∧
      (firstUpload.commit "12345678-a".toList "image.png".toList).1.toOption =
        some "/uploads/12345678-image.png".toList ∧
      (firstUpload.commit "12345678-a".toList "image.png".toList).2.files
        "/uploads/12345678-image.png".toList = some [1] ∧
      (nextUpload.foldl act
        (firstUpload.commit "12345678-a".toList "image.png".toList).2).files
          "/uploads/12345678-image.png".toList = some [2] := by
  refine ⟨?_, ?_, ?_, ?_, ?_⟩ <;> decide +kernel

end Zeron.Engine.Uploads
