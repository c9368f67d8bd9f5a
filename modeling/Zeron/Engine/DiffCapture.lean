import Mathlib.Data.List.Flatten
import Mathlib.Data.List.Sort
import Mathlib.Data.String.Basic
import Zeron.Engine.ChangeLists
import Zeron.Engine.PatchText

/-!
# The capture of a working tree

`capture_git` and `capture_diff_against` of `crates/engine/src/diff_sync.rs`, against a working tree
and what `git status --porcelain -z` prints of it. Patches are lists of characters.
-/

namespace Zeron.Engine.Diff

open Zeron.Doc (trim trimStart)
open Zeron.Lib (Bytes)
open Zeron.Lib.JsonString (quote)
open Zeron.Lib.Utf8

/-! ## Git -/

inductive Failure where
  | git (message : String)
  | panicked

/-- What a command prints, and the error it ends with. -/
structure GitRun where
  stdout : Bytes
  error : Option String

structure Capture where
  stdout : Bytes
  truncated : Bool

/-- A command that prints too much is killed. -/
def captureGit (run : GitRun) (maxBytes : Nat) : Except Failure Capture :=
  if maxBytes < run.stdout.length then .ok ⟨run.stdout.take maxBytes, true⟩
  else
    match run.error with
    | some message => .error (.git message)
    | none => .ok ⟨run.stdout, false⟩

def maxPatchBytes : Nat := 3 * 1024 * 1024

def maxListBytes : Nat := 2 * 1024 * 1024

/-- The commands of one capture. -/
structure GitRuns where
  head : GitRun
  branch : Option String
  names : GitRun
  nums : GitRun
  tracked : GitRun
  status : GitRun

structure Captures where
  names : Capture
  nums : Capture
  tracked : Capture
  status : Capture

def captureAll (runs : GitRuns) : Except Failure Captures := do
  let names ← captureGit runs.names maxListBytes
  let nums ← captureGit runs.nums maxListBytes
  let tracked ← captureGit runs.tracked maxPatchBytes
  let status ← captureGit runs.status maxListBytes
  return { names, nums, tracked, status }

/-! ## The records of the status -/

/-- `str::split_at`; `none` inside a character. -/
def splitAtBytes : Nat → List Char → Option (List Char × List Char)
  | 0, cs => some ([], cs)
  | _ + 1, [] => none
  | n + 1, c :: cs =>
      if c.utf8Size ≤ n + 1 then
        (splitAtBytes (n + 1 - c.utf8Size) cs).map fun (front, back) => (c :: front, back)
      else none

/-- The paths of the `??` records; the records of renames consume their extra field. -/
def untrackedPaths : List String → Except Failure (List String)
  | [] => .ok []
  | record :: rest =>
      if (encode record).length < 3 then untrackedPaths rest
      else
        match splitAtBytes 2 record.toList with
        | none => .error .panicked
        | some (code, path) =>
            if code = ['?', '?'] then
              (untrackedPaths rest).map (.ofList (trimStart path) :: ·)
            else if code.head? = some 'R' ∨ code.head? = some 'C' then
              match rest with
              | [] => .ok []
              | _ :: rest => untrackedPaths rest
            else untrackedPaths rest

/-! ## The files -/

/-- What `metadata` and `read` give for a path. -/
structure Stat where
  size : Option Nat
  read : Option Bytes

/-- What the loop over the untracked files changes. -/
structure Captured where
  files : List DiffFileSummary
  patch : List Char
  truncated : Bool

def beforeLastNewline (patch : List Char) : List Char :=
  ((patch.reverse.dropWhile (· ≠ '\n')).drop 1).reverse

def trackedPart (captures : Captures) : Captured :=
  let patch := (decodeLossy captures.tracked.stdout).toList
  { files := applyNumstat (parseNameStatus captures.names.stdout) captures.nums.stdout
    patch :=
      if captures.tracked.truncated then
        beforeLastNewline patch ++ "\n# Zeron diff truncated\n".toList
      else patch
    truncated := captures.tracked.truncated || captures.names.truncated ||
      captures.nums.truncated || captures.status.truncated }

def untrackedSummary (path : String) (additions : UInt32) (binary : Bool) : DiffFileSummary :=
  { path, oldPath := none, status := "added", additions, deletions := 0, binary }

variable (stat : Bytes → Stat)

def addUntracked (s : Captured) (path : String) : Captured :=
  let found := stat (encode path)
  if maxPatchBytes < found.size.getD 0 then
    { s with files := s.files ++ [untrackedSummary path 0 true], truncated := true }
  else
    match found.read with
    | none => s
    | some bytes =>
        if 0 ∈ bytes then { s with files := s.files ++ [untrackedSummary path 0 true] }
        else
          let text := (decodeLossy bytes).toList
          let addition := untrackedPatch path.toList text
          let files := s.files ++ [untrackedSummary path (additionsOf text) false]
          if utf8Len s.patch + utf8Len addition ≤ maxPatchBytes then
            { s with files, patch := appendPatch s.patch addition }
          else { s with files, truncated := true }

/-! ## The snapshot -/

/-- `checksummed` is what the checksum is the hash of. -/
structure DiffSnapshot where
  branch : String
  headSha : Option String
  patch : List Char
  files : List DiffFileSummary
  additions : UInt32
  deletions : UInt32
  truncated : Bool
  checksummed : Bytes

/-- The file as `serde_json` writes it. -/
def DiffFileSummary.json (file : DiffFileSummary) : List Char :=
  "\x7b\"path\":".toList ++ quote file.path.toList ++
    (match file.oldPath with
      | none => []
      | some oldPath => ",\"oldPath\":".toList ++ quote oldPath.toList) ++
    ",\"status\":".toList ++ quote file.status.toList ++
    ",\"additions\":".toList ++ Nat.toDigits 10 file.additions.toNat ++
    ",\"deletions\":".toList ++ Nat.toDigits 10 file.deletions.toNat ++
    ",\"binary\":".toList ++ (if file.binary then "true".toList else "false".toList) ++ ['\x7d']

def filesJson (files : List DiffFileSummary) : List Char :=
  '[' :: [','].intercalate (files.map DiffFileSummary.json) ++ [']']

def sortedPaths (captures : Captures) : Except Failure (List String) :=
  (untrackedPaths (splitZ captures.status.stdout)).map (·.insertionSort (· ≤ ·))

def headOf (runs : GitRuns) : String :=
  match captureGit runs.head 256 with
  | .ok capture => .ofList (trim (decodeLossy capture.stdout).toList)
  | .error _ => ""

def captureDiffAgainst (runs : GitRuns) : Except Failure DiffSnapshot := do
  let head := headOf runs
  let branch := runs.branch.getD "HEAD"
  let captures ← captureAll runs
  let paths ← sortedPaths captures
  let s := paths.foldl (addUntracked stat) (trackedPart captures)
  return {
    branch
    headSha := if head = "" then none else some head
    patch := s.patch
    files := s.files
    additions := s.files.foldl (fun sum file => sum + file.additions) 0
    deletions := s.files.foldl (fun sum file => sum + file.deletions) 0
    truncated := s.truncated
    checksummed := encode branch ++ 0 :: encode head ++ 0 :: s.patch.flatMap encodeChar ++
      0 :: (filesJson s.files).flatMap encodeChar ++ [if s.truncated then 49 else 48] }

/-! ## Working trees -/

inductive StatusCode where
  | unmodified
  | modified
  | typeChanged
  | added
  | deleted
  | unmerged
  | renamed
  | copied
deriving DecidableEq

namespace StatusCode

def char : StatusCode → Char
  | unmodified => ' '
  | modified => 'M'
  | typeChanged => 'T'
  | added => 'A'
  | deleted => 'D'
  | unmerged => 'U'
  | renamed => 'R'
  | copied => 'C'

def moves (code : StatusCode) : Bool := code == renamed || code == copied

end StatusCode

structure TrackedStatus where
  index : StatusCode
  worktree : StatusCode
  name : GitName
  origin : Option GitName
  moved : origin.isSome = (index.moves || worktree.moves)

/-- A directory that holds untracked files only has one record for all of them. -/
inductive StatusEntry where
  | tracked (status : TrackedStatus)
  | untracked (file : GitName)
  | directory (dir : GitName) (files : List GitName)

namespace StatusEntry

def fields : StatusEntry → List Bytes
  | tracked status =>
      (encode (.ofList [status.index.char, status.worktree.char, ' ']) ++ status.name.bytes) ::
        status.origin.toList.map (·.bytes)
  | untracked file => [encode "?? " ++ file.bytes]
  | directory dir _ => [encode "?? " ++ (dir.bytes ++ [0x2F])]

def files : StatusEntry → List GitName
  | tracked _ => []
  | untracked file => [file]
  | directory _ files => files

end StatusEntry

/-- The name has no effect where it is read as a record. -/
def GitName.Overlooked (name : GitName) : Prop :=
  (encode name.path).length < 3 ∨
    ∃ code path, splitAtBytes 2 name.path.toList = some (code, path) ∧ code ≠ ['?', '?'] ∧
      code.head? ≠ some 'R' ∧ code.head? ≠ some 'C'

structure WorkTree where
  changes : List Change
  entries : List StatusEntry
  stat : Bytes → Stat
  distinct : ((entries.flatMap StatusEntry.files).map (·.bytes)).Nodup
  indexed : ∀ change ∈ changes, change.kind ≠ .deleted →
    ∀ file ∈ entries.flatMap StatusEntry.files, change.name.path ≠ file.path
  unreadable : ∀ path, (stat (path ++ [0x2F])).read = none

namespace WorkTree

variable (tree : WorkTree)

def untracked : List GitName := tree.entries.flatMap StatusEntry.files

def status : Bytes := terminated (tree.entries.flatMap StatusEntry.fields)

/-- What the commands print is of this tree. -/
structure Printed (runs : GitRuns) : Prop where
  names : runs.names.stdout = nameStatus tree.changes
  status : runs.status.stdout = tree.status

/-- The old names of the renames that are not in the index are overlooked. -/
def InStep : Prop :=
  ∀ status, .tracked status ∈ tree.entries → status.index.moves = false →
    ∀ origin ∈ status.origin, origin.Overlooked

/-- The file is text, listed on its own and readable under the path of its record, and no tracked
file of this path is deleted. -/
structure Capturable (file : GitName) : Prop where
  text : encode file.path = file.bytes
  start : trimStart file.path.toList = file.path.toList
  alone : .untracked file ∈ tree.entries
  readable : (tree.stat file.bytes).read ≠ none
  undeleted : ∀ change ∈ tree.changes, change.name.path ≠ file.path

end WorkTree

/-- The lines of the content are those of a new file in the patch. -/
def Contributes (patch : List Char) (path : String) (content : List Char) : Prop :=
  ∃ front header back, Complete front ∧
    header.head? = some ("diff --git ".toList ++ quotePatchPath ('a' :: '/' :: path.toList) ++
      ' ' :: quotePatchPath ('b' :: '/' :: path.toList)) ∧
    patch = front ++ terminatedLines (header ++ (contentLines content).map ('+' :: ·)) ++ back

/-- The file has one entry, as an added file, and its lines if it is text. -/
def InSnapshot (tree : WorkTree) (snapshot : DiffSnapshot) (file : GitName) : Prop :=
  ∃ entry, snapshot.files.filter (fun entry => encode entry.path = file.bytes) = [entry] ∧
    entry.status = "added" ∧ entry.oldPath = none ∧
      ∀ bytes, (tree.stat file.bytes).read = some bytes → 0 ∉ bytes →
        Contributes snapshot.patch entry.path (decodeLossy bytes).toList

/-! ## Reading the records -/

def recordPath (name : Bytes) : String := .ofList (trimStart (decodeLossy name).toList)

def StatusEntry.listed : StatusEntry → List String
  | tracked _ => []
  | untracked file => [recordPath file.bytes]
  | directory dir _ => [recordPath (dir.bytes ++ [0x2F])]

theorem splitAtBytes_two {x y : Char} (hx : x.utf8Size = 1) (hy : y.utf8Size = 1) (cs : List Char) :
    splitAtBytes 2 (x :: y :: cs) = some ([x, y], cs) := by
  simp [splitAtBytes, hx, hy]

theorem untrackedPaths_record {x y : Char} (hx : x.utf8Size = 1) (hy : y.utf8Size = 1)
    (path : String) (rest : List String) :
    untrackedPaths ((.ofList [x, y, ' '] ++ path) :: rest) =
      if [x, y] = ['?', '?'] then
        (untrackedPaths rest).map (.ofList (trimStart path.toList) :: ·)
      else if x = 'R' ∨ x = 'C' then
        match rest with
        | [] => .ok []
        | _ :: rest => untrackedPaths rest
      else untrackedPaths rest := by
  have hlist : (String.ofList [x, y, ' '] ++ path).toList = x :: y :: ' ' :: path.toList := by
    simp
  have hlength : ¬ (encode (String.ofList [x, y, ' '] ++ path)).length < 3 := by
    have hle := length_le_length_encode (String.ofList [x, y, ' '] ++ path)
    rw [hlist] at hle
    simp only [List.length_cons] at hle
    omega
  have htrim : trimStart (' ' :: path.toList) = trimStart path.toList :=
    List.dropWhile_cons_of_pos (by decide)
  rw [untrackedPaths.eq_def]
  dsimp only
  rw [if_neg hlength, hlist, splitAtBytes_two hx hy]
  simp only [htrim, List.head?_cons, Option.some.injEq]

theorem untrackedPaths_overlooked {name : GitName} (h : name.Overlooked) (rest : List String) :
    untrackedPaths (decodeLossy name.bytes :: rest) = untrackedPaths rest := by
  change untrackedPaths (name.path :: rest) = _
  rw [untrackedPaths.eq_def]
  dsimp only
  split_ifs with hshort
  · rfl
  · obtain hlength | ⟨code, path, hsplit, hcode, hrenamed, hcopied⟩ := h
    · exact absurd hlength hshort
    · simp [hsplit, hcode, hrenamed, hcopied]

namespace StatusCode

theorem utf8Size_char (code : StatusCode) : code.char.utf8Size = 1 := by
  cases code <;> decide

theorem char_iff (code : StatusCode) : (code.char = 'R' ∨ code.char = 'C') ↔ code.moves = true := by
  cases code <;> decide

theorem char_ne (code : StatusCode) : code.char ≠ '?' ∧ code.char ≠ Char.ofNat 0 := by
  cases code <;> decide

end StatusCode

namespace StatusEntry

/-- One entry in front of every list of records. -/
theorem untrackedPaths_fields {entry : StatusEntry}
    (hstep : ∀ status, entry = .tracked status → status.index.moves = false →
      ∀ origin ∈ status.origin, origin.Overlooked) (rest : List String) :
    untrackedPaths (entry.fields.map decodeLossy ++ rest) =
      (untrackedPaths rest).map (entry.listed ++ ·) := by
  have hid : (untrackedPaths rest).map (fun paths => [] ++ paths) = untrackedPaths rest := by
    cases untrackedPaths rest <;> rfl
  cases entry with
  | tracked status =>
      have hcode : [status.index.char, status.worktree.char] ≠ ['?', '?'] := by
        intro heq
        exact status.index.char_ne.1 (List.cons.inj heq).1
      have hrecord := untrackedPaths_record status.index.utf8Size_char status.worktree.utf8Size_char
        (decodeLossy status.name.bytes) (status.origin.toList.map (decodeLossy ·.bytes) ++ rest)
      have hfields : (tracked status).fields.map decodeLossy ++ rest =
          (.ofList [status.index.char, status.worktree.char, ' '] ++ decodeLossy status.name.bytes) ::
            (status.origin.toList.map (decodeLossy ·.bytes) ++ rest) := by
        simp [fields, decodeLossy_encode_append, Function.comp_def]
      rw [hfields, hrecord, if_neg hcode]
      change _ = (untrackedPaths rest).map (fun paths => [] ++ paths)
      rw [hid]
      have hmoved := status.moved
      cases horigin : status.origin with
      | none =>
          rw [horigin] at hmoved
          have hindex : status.index.moves = false := (Bool.or_eq_false_iff.mp hmoved.symm).1
          rw [if_neg (by simp [status.index.char_iff, hindex])]
          rfl
      | some origin =>
          cases hindex : status.index.moves with
          | true =>
              rw [if_pos (status.index.char_iff.mpr hindex)]
              rfl
          | false =>
              rw [if_neg (by simp [status.index.char_iff, hindex])]
              exact untrackedPaths_overlooked (hstep status rfl hindex origin horigin) rest
  | untracked file =>
      have hrecord := untrackedPaths_record (x := '?') (y := '?') (by decide) (by decide)
        (decodeLossy file.bytes) rest
      have hfields : (untracked file).fields.map decodeLossy ++ rest =
          (.ofList ['?', '?', ' '] ++ decodeLossy file.bytes) :: rest := by
        simp [fields, decodeLossy_encode_append]
      rw [hfields, hrecord, if_pos rfl]
      rfl
  | directory dir files =>
      have hrecord := untrackedPaths_record (x := '?') (y := '?') (by decide) (by decide)
        (decodeLossy (dir.bytes ++ [0x2F])) rest
      have hfields : (directory dir files).fields.map decodeLossy ++ rest =
          (.ofList ['?', '?', ' '] ++ decodeLossy (dir.bytes ++ [0x2F])) :: rest := by
        simp [fields, decodeLossy_encode_append]
      rw [hfields, hrecord, if_pos rfl]
      rfl

theorem mem_fields {entry : StatusEntry} {field : Bytes} (h : field ∈ entry.fields) :
    (0 : UInt8) ∉ field ∧ field ≠ [] := by
  have hcode : ∀ {code : String} {name : Bytes}, Char.ofNat 0 ∉ code.toList → code ≠ "" →
      (0 : UInt8) ∉ name → (0 : UInt8) ∉ encode code ++ name ∧ encode code ++ name ≠ [] := by
    intro code name hnul hne hname
    refine ⟨?_, fun hnil => Change.encode_ne_nil hne (List.append_eq_nil_iff.mp hnil).1⟩
    rw [List.mem_append, not_or]
    exact ⟨nul_not_mem_encode hnul, hname⟩
  cases entry with
  | tracked status =>
      obtain rfl | h := List.mem_cons.mp h
      · refine hcode ?_ ?_ status.name.nulFree
        · have hindex := Ne.symm status.index.char_ne.2
          have hworktree := Ne.symm status.worktree.char_ne.2
          rw [String.toList_ofList]
          simp only [List.mem_cons, List.not_mem_nil, or_false, not_or]
          exact ⟨hindex, hworktree, by decide⟩
        · intro hempty
          have hlist := congrArg String.toList hempty
          simp at hlist
      · obtain ⟨origin, -, rfl⟩ := List.mem_map.mp h
        exact ⟨origin.nulFree, origin.nonempty⟩
  | untracked file =>
      rw [fields, List.mem_singleton] at h
      subst h
      exact hcode (by decide) (by decide) file.nulFree
  | directory dir files =>
      rw [fields, List.mem_singleton] at h
      subst h
      refine hcode (by decide) (by decide) ?_
      rw [List.mem_append, not_or]
      exact ⟨dir.nulFree, by decide⟩

end StatusEntry

variable {tree : WorkTree}

theorem WorkTree.untrackedPaths_status (hstep : tree.InStep) :
    untrackedPaths (splitZ tree.status) = .ok (tree.entries.flatMap StatusEntry.listed) := by
  rw [WorkTree.status, splitZ_terminated]
  · have hentries : ∀ entry ∈ tree.entries, ∀ status, entry = .tracked status →
        status.index.moves = false → ∀ origin ∈ status.origin, origin.Overlooked := by
      rintro entry hentry status rfl
      exact hstep status hentry
    revert hentries
    generalize tree.entries = entries
    intro hentries
    induction entries with
    | nil => rfl
    | cons entry entries ih =>
        have hrest := ih fun other hother => hentries other (List.mem_cons_of_mem _ hother)
        rw [List.flatMap_cons, List.map_append,
          StatusEntry.untrackedPaths_fields (hentries entry List.mem_cons_self), hrest]
        rfl
  · intro field hfield
    obtain ⟨entry, -, hmem⟩ := List.mem_flatMap.mp hfield
    exact (StatusEntry.mem_fields hmem).1
  · intro field hfield
    obtain ⟨entry, -, hmem⟩ := List.mem_flatMap.mp hfield
    exact (StatusEntry.mem_fields hmem).2

/-! ## The loop over the untracked files -/

def summaryOf (path : String) : Option DiffFileSummary :=
  if maxPatchBytes < (stat (encode path)).size.getD 0 then some (untrackedSummary path 0 true)
  else
    (stat (encode path)).read.map fun bytes =>
      if 0 ∈ bytes then untrackedSummary path 0 true
      else untrackedSummary path (additionsOf (decodeLossy bytes).toList) false

variable {path : String}

theorem summaryOf_eq {entry : DiffFileSummary} (h : summaryOf stat path = some entry) :
    entry.path = path ∧ entry.status = "added" ∧ entry.oldPath = none := by
  unfold summaryOf at h
  split_ifs at h
  · cases h
    exact ⟨rfl, rfl, rfl⟩
  · obtain ⟨bytes, -, hentry⟩ := Option.map_eq_some_iff.mp h
    split_ifs at hentry
    · cases hentry
      exact ⟨rfl, rfl, rfl⟩
    · cases hentry
      exact ⟨rfl, rfl, rfl⟩

theorem appendPatch_eq (patch addition : List Char) :
    ∃ newline, Complete (patch ++ newline) ∧
      appendPatch patch addition = patch ++ newline ++ addition := by
  unfold appendPatch
  split_ifs with h
  · exact ⟨['\n'], .inr (by simp), rfl⟩
  · refine ⟨[], ?_, by simp⟩
    rw [List.append_nil]
    by_cases hempty : patch = []
    · exact .inl hempty
    · right
      by_contra hlast
      exact h ⟨hempty, hlast⟩

theorem addUntracked_spec (s : Captured) (path : String) :
    (addUntracked stat s path).files = s.files ++ (summaryOf stat path).toList ∧
      (∃ back, (addUntracked stat s path).patch = s.patch ++ back) ∧
      (s.truncated = true → (addUntracked stat s path).truncated = true) ∧
      (maxPatchBytes < (stat (encode path)).size.getD 0 →
        (addUntracked stat s path).truncated = true) := by
  unfold addUntracked summaryOf
  dsimp only
  split_ifs with hsize
  · exact ⟨rfl, ⟨[], (List.append_nil _).symm⟩, fun _ => rfl, fun _ => rfl⟩
  · cases hread : (stat (encode path)).read with
    | none =>
        exact ⟨(List.append_nil _).symm, ⟨[], (List.append_nil _).symm⟩, id, (absurd · hsize)⟩
    | some bytes =>
        dsimp only
        split_ifs with hbinary hroom
        · exact ⟨by simp [hbinary], ⟨[], (List.append_nil _).symm⟩, id, (absurd · hsize)⟩
        · obtain ⟨newline, -, heq⟩ := appendPatch_eq s.patch
            (untrackedPatch path.toList (decodeLossy bytes).toList)
          have hback := heq.trans (List.append_assoc _ _ _)
          exact ⟨by simp [hbinary], ⟨_, hback⟩, id, (absurd · hsize)⟩
        · exact ⟨by simp [hbinary], ⟨[], (List.append_nil _).symm⟩, fun _ => rfl, fun _ => rfl⟩

theorem addUntracked_text {s : Captured} {bytes : Bytes}
    (hread : (stat (encode path)).read = some bytes) (htext : 0 ∉ bytes)
    (hroom : (addUntracked stat s path).truncated = false ∨
      ((stat (encode path)).size.getD 0 ≤ maxPatchBytes ∧
        utf8Len s.patch + utf8Len (untrackedPatch path.toList (decodeLossy bytes).toList) ≤
          maxPatchBytes)) :
    ∃ front, Complete front ∧ (addUntracked stat s path).patch =
      front ++ untrackedPatch path.toList (decodeLossy bytes).toList := by
  have hsize : ¬ maxPatchBytes < (stat (encode path)).size.getD 0 := by
    obtain hfalse | ⟨hsize, -⟩ := hroom
    · intro hlarge
      rw [(addUntracked_spec stat s path).2.2.2 hlarge] at hfalse
      cases hfalse
    · exact Nat.not_lt.mpr hsize
  have hfits : utf8Len s.patch + utf8Len (untrackedPatch path.toList (decodeLossy bytes).toList) ≤
      maxPatchBytes := by
    obtain hfalse | ⟨-, hfits⟩ := hroom
    · by_contra hfull
      simp [addUntracked, hsize, hread, htext, hfull] at hfalse
    · exact hfits
  obtain ⟨newline, hcomplete, heq⟩ := appendPatch_eq s.patch
    (untrackedPatch path.toList (decodeLossy bytes).toList)
  refine ⟨_, hcomplete, ?_⟩
  rw [← heq]
  simp [addUntracked, hsize, hread, htext, hfits]

theorem foldl_addUntracked (paths : List String) (s : Captured) :
    (paths.foldl (addUntracked stat) s).files = s.files ++ paths.filterMap (summaryOf stat) ∧
      (∃ back, (paths.foldl (addUntracked stat) s).patch = s.patch ++ back) ∧
      (s.truncated = true → (paths.foldl (addUntracked stat) s).truncated = true) := by
  induction paths generalizing s with
  | nil => exact ⟨by simp, ⟨[], by simp⟩, id⟩
  | cons path paths ih =>
      obtain ⟨hfiles, ⟨back, hback⟩, hmark, -⟩ := addUntracked_spec stat s path
      obtain ⟨hfiles', ⟨back', hback'⟩, hmark'⟩ := ih (addUntracked stat s path)
      refine ⟨?_, ⟨back ++ back', ?_⟩, fun h => hmark' (hmark h)⟩
      · rw [List.foldl_cons, hfiles', hfiles, List.append_assoc, List.filterMap_cons]
        cases summaryOf stat path <;> rfl
      · rw [List.foldl_cons, hback', hback, List.append_assoc]

theorem contributes_untrackedPatch {front : List Char} (h : Complete front) (path : String)
    (content back : List Char) :
    Contributes (front ++ untrackedPatch path.toList content ++ back) path content := by
  rw [untrackedPatch_eq]
  by_cases hcontent : contentLines content = []
  · refine ⟨front, patchLines path.toList content, back, h, rfl, ?_⟩
    rw [hcontent, List.map_nil, List.append_nil]
  · refine ⟨front, (patchLines path.toList content).take 5, back, h, rfl, ?_⟩
    have hbody : patchLines path.toList content =
        (patchLines path.toList content).take 5 ++ (contentLines content).map ('+' :: ·) := by
      simp [patchLines, bodyLines, hcontent]
    rw [← hbody]

/-! ## The tracked changes -/

theorem setCounts_keeps (files : List DiffFileSummary) (path : String) (adds dels : List Char) :
    (setCounts files path adds dels).map (fun file => (file.path, file.status)) =
      files.map fun file => (file.path, file.status) := by
  induction files with
  | nil => rfl
  | cons file files ih =>
      rw [setCounts]
      split_ifs
      · rfl
      · rw [List.map_cons, List.map_cons, ih]

theorem applyRecords_keeps (records : List String) (files : List DiffFileSummary) :
    (applyRecords records files).map (fun file => (file.path, file.status)) =
      files.map fun file => (file.path, file.status) := by
  fun_induction applyRecords records files <;> simp_all [setCounts_keeps]

theorem trackedPart_keeps {captures : Captures} {changes : List Change}
    (h : captures.names.stdout = nameStatus changes) :
    (trackedPart captures).files.map (fun file => (file.path, file.status)) =
      changes.map fun change => (change.name.path, statusOf change.kind.code) := by
  rw [trackedPart, h, parseNameStatus_nameStatus]
  dsimp only
  rw [applyNumstat, applyRecords_keeps, List.map_map]
  rfl

/-! ## The snapshot of a working tree -/

theorem captureGit_complete {run : GitRun} {maxBytes : Nat} {capture : Capture}
    (h : captureGit run maxBytes = .ok capture) (hall : capture.truncated = false) :
    capture.stdout = run.stdout := by
  unfold captureGit at h
  split_ifs at h
  · cases h
    cases hall
  · split at h
    · cases h
    · cases h
      rfl

theorem exists_of_bind_eq_ok {α β : Type} {x : Except Failure α} {f : α → Except Failure β} {b : β}
    (h : x >>= f = .ok b) : ∃ a, x = .ok a ∧ f a = .ok b := by
  cases x with
  | error failure => cases h
  | ok a => exact ⟨a, rfl, h⟩

variable {runs : GitRuns}

theorem captureAll_ok {captures : Captures} (h : captureAll runs = .ok captures) :
    captureGit runs.names maxListBytes = .ok captures.names ∧
      captureGit runs.status maxListBytes = .ok captures.status := by
  obtain ⟨names, hnames, h⟩ := exists_of_bind_eq_ok h
  obtain ⟨nums, -, h⟩ := exists_of_bind_eq_ok h
  obtain ⟨tracked, -, h⟩ := exists_of_bind_eq_ok h
  obtain ⟨status, hstatus, h⟩ := exists_of_bind_eq_ok h
  cases h
  exact ⟨hnames, hstatus⟩

theorem captureDiffAgainst_ok {snapshot : DiffSnapshot}
    (h : captureDiffAgainst stat runs = .ok snapshot) :
    ∃ captures paths, captureAll runs = .ok captures ∧ sortedPaths captures = .ok paths ∧
      snapshot.files = (paths.foldl (addUntracked stat) (trackedPart captures)).files ∧
      snapshot.patch = (paths.foldl (addUntracked stat) (trackedPart captures)).patch ∧
      snapshot.truncated = (paths.foldl (addUntracked stat) (trackedPart captures)).truncated := by
  obtain ⟨captures, hcaptures, h⟩ := exists_of_bind_eq_ok h
  obtain ⟨paths, hpaths, h⟩ := exists_of_bind_eq_ok h
  cases h
  exact ⟨captures, paths, hcaptures, hpaths, rfl, rfl, rfl⟩

theorem trimStart_recordPath (name : Bytes) :
    trimStart (recordPath name).toList = (recordPath name).toList := by
  rw [recordPath, String.toList_ofList]
  exact List.dropWhile_idempotent _ _

theorem encode_recordPath_slash (dir : Bytes) :
    ∃ front, encode (recordPath (dir ++ [0x2F])) = front ++ [0x2F] := by
  obtain ⟨front, hfront⟩ := @decodeLossy_concat_ascii dir 0x2F (by decide)
  have hslash : Char.ofNat (0x2F : UInt8).toNat = '/' := by decide
  rw [hslash] at hfront
  have htrim : ∃ kept, trimStart (front ++ ['/']) = kept ++ ['/'] := by
    unfold trimStart
    rw [List.dropWhile_append]
    split_ifs
    · exact ⟨[], by decide⟩
    · exact ⟨_, rfl⟩
  obtain ⟨kept, hkept⟩ := htrim
  refine ⟨kept.flatMap encodeChar, ?_⟩
  rw [recordPath, hfront, hkept, encode, String.toList_ofList, List.flatMap_append]
  congr 1

variable {file : GitName}

theorem decodeLossy_recordPath (hstart : trimStart file.path.toList = file.path.toList) :
    recordPath file.bytes = file.path := by
  unfold recordPath
  change String.ofList (trimStart file.path.toList) = file.path
  rw [hstart, String.ofList_toList]

def patchBefore (s : Captured) (paths : List String) (path : String) : List Char :=
  ((paths.takeWhile (· ≠ path)).foldl (addUntracked stat) s).patch

variable {paths : List String}

theorem foldl_split (h : path ∈ paths) (s : Captured) :
    ∃ (turn : Captured) (after : List String), patchBefore stat s paths path = turn.patch ∧
      paths.foldl (addUntracked stat) s =
        after.foldl (addUntracked stat) (addUntracked stat turn path) := by
  obtain ⟨before, after, rfl, hfirst⟩ := List.eq_append_cons_of_mem h
  refine ⟨before.foldl (addUntracked stat) s, after, ?_, by rw [List.foldl_append, List.foldl_cons]⟩
  have hbefore : (before ++ path :: after).takeWhile (· ≠ path) = before := by
    rw [List.takeWhile_append_of_pos]
    · simp
    · intro other hother
      rw [decide_eq_true_eq]
      rintro rfl
      exact hfirst hother
  rw [patchBefore, hbefore]

theorem size_le_of_unmarked (h : path ∈ paths) {s : Captured}
    (hall : (paths.foldl (addUntracked stat) s).truncated = false) :
    (stat (encode path)).size.getD 0 ≤ maxPatchBytes := by
  obtain ⟨turn, after, -, hfold⟩ := foldl_split stat h s
  by_contra hlarge
  have hmark := (addUntracked_spec stat turn path).2.2.2 (Nat.not_le.mp hlarge)
  rw [hfold, (foldl_addUntracked stat after _).2.2 hmark] at hall
  cases hall

theorem contributes_of_mem (h : path ∈ paths) {s : Captured} {bytes : Bytes}
    (hread : (stat (encode path)).read = some bytes) (htext : 0 ∉ bytes)
    (hroom : (paths.foldl (addUntracked stat) s).truncated = false ∨
      ((stat (encode path)).size.getD 0 ≤ maxPatchBytes ∧
        utf8Len (patchBefore stat s paths path) +
          utf8Len (untrackedPatch path.toList (decodeLossy bytes).toList) ≤ maxPatchBytes)) :
    Contributes (paths.foldl (addUntracked stat) s).patch path (decodeLossy bytes).toList := by
  obtain ⟨turn, after, hturn, hfold⟩ := foldl_split stat h s
  obtain ⟨-, ⟨back, hback⟩, hmark⟩ := foldl_addUntracked stat after (addUntracked stat turn path)
  rw [hfold] at hroom ⊢
  rw [hturn] at hroom
  have hturn' : (after.foldl (addUntracked stat) (addUntracked stat turn path)).truncated = false →
      (addUntracked stat turn path).truncated = false := by
    intro hall
    by_contra hmarked
    rw [hmark (by simpa using hmarked)] at hall
    cases hall
  obtain ⟨front, hfront, hpatch⟩ := addUntracked_text stat hread htext (hroom.imp_left hturn')
  rw [hback, hpatch]
  exact contributes_untrackedPatch hfront path _ back

/-- What an unmarked snapshot is made of. -/
structure Unmarked (tree : WorkTree) (snapshot : DiffSnapshot) (captures : Captures)
    (paths : List String) : Prop where
  files : snapshot.files = (trackedPart captures).files ++ paths.filterMap (summaryOf tree.stat)
  names : captures.names.stdout = nameStatus tree.changes
  perm : paths.Perm (tree.entries.flatMap StatusEntry.listed)
  small : ∀ path ∈ paths, (tree.stat (encode path)).size.getD 0 ≤ maxPatchBytes
  contributes : ∀ path ∈ paths, ∀ bytes, (tree.stat (encode path)).read = some bytes → 0 ∉ bytes →
    Contributes snapshot.patch path (decodeLossy bytes).toList

theorem sortedPaths_status (hprinted : tree.Printed runs) (hstep : tree.InStep)
    {captures : Captures}
    (hcaptures : captureAll runs = .ok captures) (hpaths : sortedPaths captures = .ok paths)
    (hall : captures.status.truncated = false) :
    paths.Perm (tree.entries.flatMap StatusEntry.listed) := by
  have hstdout := captureGit_complete (captureAll_ok hcaptures).2 hall
  rw [sortedPaths, hstdout, hprinted.status, tree.untrackedPaths_status hstep] at hpaths
  cases hpaths
  exact List.perm_insertionSort _ _

theorem unmarked_of_capture (hprinted : tree.Printed runs) (hstep : tree.InStep)
    {snapshot : DiffSnapshot}
    (h : captureDiffAgainst tree.stat runs = .ok snapshot) (hall : snapshot.truncated = false) :
    ∃ captures paths, Unmarked tree snapshot captures paths := by
  obtain ⟨captures, paths, hcaptures, hpaths, hfiles, hpatch, hmark⟩ :=
    captureDiffAgainst_ok tree.stat h
  rw [hmark] at hall
  have hstart : (trackedPart captures).truncated = false := by
    by_contra hmarked
    rw [(foldl_addUntracked tree.stat paths _).2.2 (by simpa using hmarked)] at hall
    cases hall
  simp only [trackedPart, Bool.or_eq_false_iff] at hstart
  obtain ⟨⟨⟨-, hnames⟩, -⟩, hstatus⟩ := hstart
  refine ⟨captures, paths, ⟨?_, ?_, ?_, ?_, ?_⟩⟩
  · rw [hfiles, (foldl_addUntracked tree.stat paths _).1]
  · rw [captureGit_complete (captureAll_ok hcaptures).1 hnames, hprinted.names]
  · exact sortedPaths_status hprinted hstep hcaptures hpaths hstatus
  · intro path hpath
    exact size_le_of_unmarked tree.stat hpath hall
  · intro path hpath bytes hread htext
    rw [hpatch]
    exact contributes_of_mem tree.stat hpath hread htext (.inl hall)

namespace Unmarked

variable {tree : WorkTree} {snapshot : DiffSnapshot} {captures : Captures} {paths : List String}
  (h : Unmarked tree snapshot captures paths)
include h

theorem read_of_summary (hpath : path ∈ paths) (hentry : summaryOf tree.stat path ≠ none) :
    (tree.stat (encode path)).read ≠ none := by
  unfold summaryOf at hentry
  rw [if_neg (Nat.not_lt.mpr (h.small path hpath))] at hentry
  simpa using hentry

theorem exists_alone (hpath : path ∈ paths) (hentry : summaryOf tree.stat path ≠ none) :
    ∃ file, .untracked file ∈ tree.entries ∧ path = recordPath file.bytes := by
  obtain ⟨entry, hmem, hlisted⟩ := List.mem_flatMap.mp (h.perm.mem_iff.mp hpath)
  cases entry with
  | tracked status => cases hlisted
  | untracked file => exact ⟨file, hmem, by simpa [StatusEntry.listed] using hlisted⟩
  | directory dir files =>
      rw [StatusEntry.listed, List.mem_singleton] at hlisted
      obtain ⟨front, hfront⟩ := encode_recordPath_slash dir.bytes
      have hread := h.read_of_summary hpath hentry
      rw [hlisted, hfront] at hread
      exact absurd (tree.unreadable front) hread

/-- The entry of a file in the snapshot is one of the loop. -/
theorem of_inSnapshot (hfile : file ∈ tree.untracked) (hin : InSnapshot tree snapshot file) :
    encode file.path = file.bytes ∧ (∀ change ∈ tree.changes, change.name.path ≠ file.path) ∧
      file.path ∈ paths ∧ summaryOf tree.stat file.path ≠ none := by
  obtain ⟨entry, hfilter, hstatus, -, -⟩ := hin
  have hmem : entry ∈ snapshot.files ∧ encode entry.path = file.bytes := by
    have hself : entry ∈ [entry] := List.mem_singleton_self entry
    rw [← hfilter, List.mem_filter] at hself
    exact ⟨hself.1, of_decide_eq_true hself.2⟩
  have hpath : entry.path = file.path := by
    rw [GitName.path, ← hmem.2, decodeLossy_encode]
  have hbytes : encode file.path = file.bytes := hpath ▸ hmem.2
  have hundeleted : ∀ change ∈ tree.changes, change.name.path ≠ file.path := by
    intro change hchange heq
    have hdeleted : change.kind = .deleted := by
      by_contra hkind
      exact tree.indexed change hchange hkind file hfile heq
    have hpair : (change.name.path, statusOf change.kind.code) ∈
        (trackedPart captures).files.map fun file => (file.path, file.status) := by
      rw [trackedPart_keeps h.names]
      exact List.mem_map_of_mem hchange
    obtain ⟨other, hother, hkept⟩ := List.mem_map.mp hpair
    obtain ⟨hotherPath, hotherStatus⟩ := Prod.mk.inj hkept
    have hsame : other ∈ [entry] := by
      rw [← hfilter, List.mem_filter, h.files]
      refine ⟨List.mem_append_left _ hother, decide_eq_true ?_⟩
      rw [hotherPath, heq, hbytes]
    rw [List.mem_singleton.mp hsame, hstatus, hdeleted] at hotherStatus
    exact absurd hotherStatus (by decide)
  refine ⟨hbytes, hundeleted, ?_⟩
  have hentry := hmem.1
  rw [h.files, List.mem_append] at hentry
  obtain htracked | hlisted := hentry
  · have hpair := List.mem_map_of_mem (f := fun file => (file.path, file.status)) htracked
    rw [trackedPart_keeps h.names] at hpair
    obtain ⟨change, hchange, hkept⟩ := List.mem_map.mp hpair
    exact absurd ((Prod.mk.inj hkept).1.trans hpath) (hundeleted change hchange)
  · obtain ⟨path, hpath', hsummary⟩ := List.mem_filterMap.mp hlisted
    have heq := (summaryOf_eq tree.stat hsummary).1
    rw [← hpath, heq]
    exact ⟨hpath', by rw [hsummary]; exact Option.some_ne_none _⟩

theorem capturable (hall : ∀ file ∈ tree.untracked, InSnapshot tree snapshot file)
    (hfile : file ∈ tree.untracked) : tree.Capturable file := by
  obtain ⟨htext, hundeleted, hpath, hentry⟩ := h.of_inSnapshot hfile (hall file hfile)
  obtain ⟨other, halone, heq⟩ := h.exists_alone hpath hentry
  have hother : other ∈ tree.untracked :=
    List.mem_flatMap.mpr ⟨_, halone, List.mem_singleton_self other⟩
  obtain ⟨htext', -, hpath', hentry'⟩ := h.of_inSnapshot hother (hall other hother)
  obtain ⟨third, -, heq'⟩ := h.exists_alone hpath' hentry'
  have hstart : trimStart other.path.toList = other.path.toList := by
    rw [heq']
    exact trimStart_recordPath third.bytes
  have hsame : other = file := by
    have hbytes : other.bytes = file.bytes := by
      rw [← htext, ← htext', heq, decodeLossy_recordPath hstart]
    cases other
    cases file
    cases hbytes
    rfl
  subst hsame
  exact ⟨htext, hstart, halone, htext ▸ h.read_of_summary hpath hentry, hundeleted⟩

end Unmarked

def StatusEntry.alone : StatusEntry → List GitName
  | untracked file => [file]
  | _ => []

theorem filter_bytes {files : List GitName} (hdistinct : (files.map (·.bytes)).Nodup)
    (h : file ∈ files) :
    files.filter (fun other => other.bytes = file.bytes) = [file] := by
  induction files with
  | nil => cases h
  | cons first files ih =>
      rw [List.map_cons, List.nodup_cons] at hdistinct
      obtain rfl | h := List.mem_cons.mp h
      · have hrest : files.filter (fun other => other.bytes = file.bytes) = [] := by
          rw [List.filter_eq_nil_iff]
          intro other hother hsame
          exact hdistinct.1 (List.mem_map.mpr ⟨other, hother, of_decide_eq_true hsame⟩)
        rw [List.filter_cons_of_pos (by simp), hrest]
      · have hne : first.bytes ≠ file.bytes := by
          intro hsame
          exact hdistinct.1 (List.mem_map.mpr ⟨file, h, hsame.symm⟩)
        rw [List.filter_cons_of_neg (by simpa using hne), ih hdistinct.2 h]

/-- Of the listed paths, one is that of the file. -/
theorem filter_listed (hall : ∀ file ∈ tree.untracked, tree.Capturable file)
    (hfile : file ∈ tree.untracked) :
    (tree.entries.flatMap StatusEntry.listed).filter (fun path => encode path = file.bytes) =
      [file.path] := by
  have hentry : ∀ entry ∈ tree.entries,
      entry.listed.filter (fun path => encode path = file.bytes) =
        (entry.alone.filter fun other => other.bytes = file.bytes).map GitName.path := by
    intro entry hmem
    cases entry with
    | tracked status => rfl
    | untracked other =>
        have hother := hall other (List.mem_flatMap.mpr ⟨_, hmem, List.mem_singleton_self other⟩)
        rw [StatusEntry.listed, decodeLossy_recordPath hother.start, StatusEntry.alone]
        by_cases hsame : other.bytes = file.bytes
        · simp [hother.text, hsame]
        · simp [hother.text, hsame]
    | directory dir files =>
        obtain ⟨front, hfront⟩ := encode_recordPath_slash dir.bytes
        have hne : encode (recordPath (dir.bytes ++ [0x2F])) ≠ file.bytes := by
          intro hsame
          apply (hall file hfile).readable
          rw [← hsame, hfront, tree.unreadable]
        simp [StatusEntry.listed, StatusEntry.alone, hne]
  have hdistinct : ((tree.entries.flatMap StatusEntry.alone).map (·.bytes)).Nodup := by
    have hsub : (tree.entries.flatMap StatusEntry.alone).Sublist tree.untracked := by
      apply List.Sublist.flatMap_right
      intro entry _
      cases entry with
      | tracked status => exact .slnil
      | untracked other => exact .refl _
      | directory dir files => exact List.nil_sublist files
    exact tree.distinct.sublist (hsub.map _)
  have hmem : file ∈ tree.entries.flatMap StatusEntry.alone :=
    List.mem_flatMap.mpr ⟨_, (hall file hfile).alone, List.mem_singleton_self file⟩
  calc (tree.entries.flatMap StatusEntry.listed).filter (fun path => encode path = file.bytes)
      = tree.entries.flatMap fun entry =>
          (entry.alone.filter fun other => other.bytes = file.bytes).map GitName.path := by
        rw [List.filter_flatMap]
        exact List.flatMap_congr hentry
    _ = ((tree.entries.flatMap StatusEntry.alone).filter
          fun other => other.bytes = file.bytes).map GitName.path := by
        rw [List.filter_flatMap, List.map_flatMap]
    _ = [file.path] := by rw [filter_bytes hdistinct hmem, List.map_singleton]

theorem Unmarked.inSnapshot {snapshot : DiffSnapshot} {captures : Captures}
    (h : Unmarked tree snapshot captures paths)
    (hall : ∀ file ∈ tree.untracked, tree.Capturable file)
    (hfile : file ∈ tree.untracked) : InSnapshot tree snapshot file := by
  obtain ⟨htext, hstart, halone, hreadable, hundeleted⟩ := hall file hfile
  have hpaths : paths.filter (fun path => encode path = file.bytes) = [file.path] := by
    rw [← List.perm_singleton, ← filter_listed hall hfile]
    exact h.perm.filter _
  have hmem : file.path ∈ paths := by
    have hself := List.mem_singleton_self file.path
    rw [← hpaths] at hself
    exact (List.mem_filter.mp hself).1
  obtain ⟨entry, hentry⟩ : ∃ entry, summaryOf tree.stat file.path = some entry := by
    obtain ⟨bytes, hbytes⟩ := Option.ne_none_iff_exists'.mp hreadable
    unfold summaryOf
    rw [if_neg (Nat.not_lt.mpr (h.small _ hmem)), htext, hbytes]
    exact ⟨_, rfl⟩
  obtain ⟨hpath, hstatus, hold⟩ := summaryOf_eq tree.stat hentry
  refine ⟨entry, ?_, hstatus, hold, ?_⟩
  · have htracked : (trackedPart captures).files.filter
        (fun entry => encode entry.path = file.bytes) = [] := by
      rw [List.filter_eq_nil_iff]
      intro other hother hsame
      have hpair := List.mem_map_of_mem (f := fun file => (file.path, file.status)) hother
      rw [trackedPart_keeps h.names] at hpair
      obtain ⟨change, hchange, hkept⟩ := List.mem_map.mp hpair
      apply hundeleted change hchange
      rw [(Prod.mk.inj hkept).1, GitName.path, ← of_decide_eq_true hsame, decodeLossy_encode]
    have hlisted : (paths.filterMap (summaryOf tree.stat)).filter
        (fun entry => encode entry.path = file.bytes) =
        (paths.filter fun path => encode path = file.bytes).filterMap (summaryOf tree.stat) := by
      rw [List.filter_filterMap, List.filterMap_filter]
      apply List.filterMap_congr
      intro path _
      cases hsummary : summaryOf tree.stat path with
      | none => simp
      | some entry => simp [Option.filter, (summaryOf_eq tree.stat hsummary).1]
    rw [h.files, List.filter_append, htracked, hlisted, hpaths]
    simp [hentry]
  · intro bytes hread hbinary
    rw [hpath]
    exact h.contributes _ hmem bytes (htext.symm ▸ hread) hbinary

/-- **Untracked files in a snapshot.** Where a snapshot is not marked, all untracked files are in it
if and only if each has a name that is text and does not begin with white space, is listed on its own,
can be read, and has no path of a deleted file. Where it is marked, such a file with text still
contributes if there is room when its turn comes. -/
theorem untracked_files_in_snapshot {tree : WorkTree} {runs : GitRuns}
    (hprinted : tree.Printed runs) (hstep : tree.InStep) {snapshot : DiffSnapshot}
    (h : captureDiffAgainst tree.stat runs = .ok snapshot) :
    (snapshot.truncated = false →
      ((∀ file ∈ tree.untracked, InSnapshot tree snapshot file) ↔
        ∀ file ∈ tree.untracked, tree.Capturable file)) ∧
      ∀ captures paths, captureAll runs = .ok captures → sortedPaths captures = .ok paths →
        captures.status.truncated = false →
        ∀ file ∈ tree.untracked, tree.Capturable file →
        ∀ bytes, (tree.stat file.bytes).read = some bytes → 0 ∉ bytes →
          (tree.stat file.bytes).size.getD 0 ≤ maxPatchBytes →
          utf8Len (patchBefore tree.stat (trackedPart captures) paths file.path) +
              utf8Len (untrackedPatch file.path.toList (decodeLossy bytes).toList) ≤
            maxPatchBytes →
          Contributes snapshot.patch file.path (decodeLossy bytes).toList := by
  constructor
  · intro hall
    obtain ⟨captures, paths, hmade⟩ := unmarked_of_capture hprinted hstep h hall
    constructor
    · intro hin file hfile
      exact hmade.capturable hin hfile
    · intro hcapturable file hfile
      exact hmade.inSnapshot hcapturable hfile
  · intro captures paths hcaptures hpaths hlisted file _ hfile bytes hread htext hsize hroom
    obtain ⟨captures', paths', hcaptures', hpaths', -, hpatch, -⟩ :=
      captureDiffAgainst_ok tree.stat h
    obtain rfl : captures' = captures := Except.ok.inj (hcaptures'.symm.trans hcaptures)
    obtain rfl : paths' = paths := Except.ok.inj (hpaths'.symm.trans hpaths)
    have hperm := sortedPaths_status hprinted hstep hcaptures hpaths hlisted
    have hmem : file.path ∈ paths' := by
      apply hperm.mem_iff.mpr
      refine List.mem_flatMap.mpr ⟨_, hfile.alone, ?_⟩
      rw [StatusEntry.listed, decodeLossy_recordPath hfile.start]
      exact List.mem_singleton_self _
    rw [← hfile.text] at hread hsize
    rw [hpatch]
    exact contributes_of_mem tree.stat hmem hread htext (.inr ⟨hsize, hroom⟩)

def gitName (text : String) (h : encode text ≠ [] ∧ 0 ∉ encode text) : GitName :=
  ⟨encode text, h.1, h.2⟩

def statusRuns (tree : WorkTree) : GitRuns where
  head := ⟨encode "0123abcd\n", none⟩
  branch := some "main"
  names := ⟨nameStatus tree.changes, none⟩
  nums := ⟨[], none⟩
  tracked := ⟨[], none⟩
  status := ⟨tree.status, none⟩

def onlyFile (name : String) (bytes : Bytes) (path : Bytes) : Stat :=
  if path = encode name then ⟨some bytes.length, some bytes⟩ else ⟨none, none⟩

theorem onlyFile_slash {name : String} (h : (encode name).getLast? ≠ some 0x2F)
    (bytes path : Bytes) :
    (onlyFile name bytes (path ++ [0x2F])).read = none := by
  unfold onlyFile
  rw [if_neg]
  rintro heq
  rw [← heq, List.getLast?_concat] at h
  exact h rfl

def besideRename : WorkTree where
  changes := [⟨.renamed (gitName "a" (by decide)) 100, gitName "b" (by decide), some (0, 0)⟩]
  entries := [.tracked ⟨.renamed, .unmodified, gitName "b" (by decide),
    some (gitName "a" (by decide)), by decide⟩, .untracked (gitName "new\tfile" (by decide))]
  stat := onlyFile "new\tfile" (encode "x\n")
  distinct := by decide
  indexed := by
    intro change hchange _ file hfile
    rw [List.mem_singleton.mp hchange, List.mem_singleton.mp hfile]
    decide +kernel
  unreadable := onlyFile_slash (by decide) _

theorem new_file_beside_rename :
    ∃ snapshot, captureDiffAgainst besideRename.stat (statusRuns besideRename) = .ok snapshot ∧
      ∀ file ∈ besideRename.untracked, InSnapshot besideRename snapshot file := by
  have hstep : besideRename.InStep := by
    intro status hmem hmoves
    have hindex : status.index = .renamed := by
      simp only [besideRename, List.mem_cons, StatusEntry.tracked.injEq, reduceCtorEq,
        List.not_mem_nil, or_false] at hmem
      rw [hmem]
    rw [hindex] at hmoves
    cases hmoves
  have hcapturable : ∀ file ∈ besideRename.untracked, besideRename.Capturable file := by
    intro file hfile
    rw [List.mem_singleton.mp hfile]
    refine ⟨by decide +kernel, by decide +kernel, by simp [besideRename], by decide +kernel, ?_⟩
    intro change hchange
    rw [List.mem_singleton.mp hchange]
    decide +kernel
  have hmark : (captureDiffAgainst besideRename.stat (statusRuns besideRename)).toOption.map
      (·.truncated) = some false := by decide +kernel
  cases hsnapshot : captureDiffAgainst besideRename.stat (statusRuns besideRename) with
  | error failure =>
      rw [hsnapshot] at hmark
      cases hmark
  | ok snapshot =>
      rw [hsnapshot] at hmark
      have hall : snapshot.truncated = false := Option.some.inj hmark
      exact ⟨snapshot, rfl,
        ((untracked_files_in_snapshot ⟨rfl, rfl⟩ hstep hsnapshot).1 hall).mpr hcapturable⟩

def newDirectory : WorkTree where
  changes := []
  entries := [.directory (gitName "new" (by decide)) [gitName "new/a" (by decide)]]
  stat := onlyFile "new/a" (encode "x\n")
  distinct := by decide
  indexed := by simp
  unreadable := onlyFile_slash (by decide) _

/-- The record of the directory cannot be read and is skipped; nothing marks the snapshot. -/
theorem file_in_new_directory_missing :
    newDirectory.Printed (statusRuns newDirectory) ∧
      ∃ snapshot, captureDiffAgainst newDirectory.stat (statusRuns newDirectory) = .ok snapshot ∧
        snapshot.truncated = false ∧ snapshot.files = [] ∧
        ∃ file ∈ newDirectory.untracked, ¬ InSnapshot newDirectory snapshot file := by
  have hparts : (captureDiffAgainst newDirectory.stat (statusRuns newDirectory)).toOption.map
      (fun snapshot => (snapshot.truncated, snapshot.files)) = some (false, []) := by
    decide +kernel
  refine ⟨⟨rfl, rfl⟩, ?_⟩
  cases hsnapshot : captureDiffAgainst newDirectory.stat (statusRuns newDirectory) with
  | error failure =>
      rw [hsnapshot] at hparts
      cases hparts
  | ok snapshot =>
      rw [hsnapshot] at hparts
      obtain ⟨hall, hfiles⟩ := Prod.mk.inj (Option.some.inj hparts)
      refine ⟨snapshot, rfl, hall, hfiles, _, List.mem_singleton_self _, ?_⟩
      rintro ⟨entry, hfilter, -⟩
      rw [hfiles] at hfilter
      cases hfilter

end Zeron.Engine.Diff
