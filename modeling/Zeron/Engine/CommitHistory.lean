import Zeron.Doc.Rebuild
import Zeron.Lib.Fields
import Mathlib.Data.List.Sort

/-!
# Pages of the commit history

`history` of `crates/engine/src/repos.rs` with the decoders of what `git for-each-ref` and `git log`
print. What git answers for a repository is rendered from its refs and from the list of commits that
the walk gives; a page asks for a slice of that list.
-/

namespace Zeron.Engine.History

open Zeron.Doc (isWhitespace trim trim_eq_self)
open Zeron.Lib.Fields

def nul : Char := '\x00'

inductive GitHistoryRefKind where
  | branch
  | remote
  | tag

structure GitHistoryRef where
  kind : GitHistoryRefKind
  label : List Char

structure GitHistoryCommit where
  sha : List Char
  parentShas : List (List Char)
  subject : List Char
  authorName : List Char
  authorEmail : List Char
  authoredAt : List Char
  refs : List GitHistoryRef

structure GitHistoryPage where
  commits : List GitHistoryCommit
  headSha : Option (List Char)
  nextCursor : Option Nat
  totalCount : Option Nat
  headCommitCount : Option Nat

def gitHistoryMaxLimit : Nat := 200

/-! ## The decoders -/

def boundedField (value : List Char) (maxChars : Nat) : List Char := value.take maxChars

/-- `trim_start_matches(['\r', '\n'])` -/
def trimStartNewlines (value : List Char) : List Char :=
  value.dropWhile fun c => c = '\r' ∨ c = '\n'

def isAsciiWhitespace (c : Char) : Bool := c = ' ' ∨ c = '\t' ∨ c = '\n' ∨ c = '\x0C' ∨ c = '\r'

/-- `refs_by_sha`: what was pushed, with the key it was pushed under. -/
abbrev RefsBySha := List (List Char × GitHistoryRef)

def refOrder : GitHistoryRefKind → Nat
  | .branch => 0
  | .tag => 1
  | .remote => 2

def refLe (left right : GitHistoryRef) : Prop :=
  refOrder left.kind < refOrder right.kind ∨
    (refOrder left.kind = refOrder right.kind ∧ left.label ≤ right.label)

instance (left right : GitHistoryRef) : Decidable (refLe left right) :=
  inferInstanceAs (Decidable (_ ∨ _))

def RefsBySha.get (refs : RefsBySha) (sha : List Char) : List GitHistoryRef :=
  ((refs.filter fun entry => entry.1 = sha).map Prod.snd).insertionSort refLe

def readCommit (refs : RefsBySha) : List (List Char) → Option GitHistoryCommit
  | [sha, parents, subject, authorName, authorEmail, authoredAt] =>
      let sha := trimStartNewlines sha
      if sha.isEmpty then none
      else
        some { sha, parentShas := words isAsciiWhitespace parents
               subject := boundedField subject 4096
               authorName := boundedField authorName 512
               authorEmail := boundedField authorEmail 512
               authoredAt := boundedField authoredAt 128
               refs := refs.get sha }
  | _ => none

def parseHistoryLog (output : List Char) (refs : RefsBySha) : List GitHistoryCommit :=
  (chunks 6 (output.splitOn nul)).filterMap (readCommit refs)

def stripPrefix (lead value : List Char) : Option (List Char) :=
  if lead.isPrefixOf value then some (value.drop lead.length) else none

def refLead : GitHistoryRefKind → List Char
  | .branch => "refs/heads/".toList
  | .remote => "refs/remotes/".toList
  | .tag => "refs/tags/".toList

def kindAndLabel (fullName : List Char) : Option (GitHistoryRefKind × List Char) :=
  match stripPrefix (refLead .branch) fullName with
  | some label => some (.branch, label)
  | none =>
      match stripPrefix (refLead .remote) fullName with
      | some label => some (.remote, label)
      | none => (stripPrefix (refLead .tag) fullName).map fun label => (.tag, label)

def commitType : List Char := ['c', 'o', 'm', 'm', 'i', 't']

def tagType : List Char := ['t', 'a', 'g']

def readRef : List (List Char) → Option (List Char × GitHistoryRef)
  | [name, objectSha, objectType, peeledSha, peeledType, symbolicTarget] =>
      let fullName := trimStartNewlines name
      if fullName.isEmpty || !symbolicTarget.isEmpty then none
      else
        match kindAndLabel fullName with
        | none => none
        | some (kind, label) =>
            let entry : GitHistoryRef := { kind, label := boundedField label 1024 }
            if objectType = commitType then some (objectSha, entry)
            else if objectType = tagType ∧ peeledType = commitType then
              some (peeledSha, entry)
            else none
  | _ => none

def parseHistoryRefs (output : List Char) : RefsBySha :=
  (chunks 6 (output.splitOn nul)).filterMap readRef

/-! ## What git has and prints -/

def isHexDigit (c : Char) : Bool := c.isDigit || decide ('a' ≤ c ∧ c ≤ 'f')

structure ObjectId where
  digits : List Char
  nonempty : digits ≠ []
  hex : digits.all isHexDigit = true
deriving DecidableEq

inductive GitObject where
  | commit (id : ObjectId)
  | tree (id : ObjectId)
  | blob (id : ObjectId)
  | tag (id : ObjectId) (target : GitObject)

namespace GitObject

def id : GitObject → ObjectId
  | commit id | tree id | blob id | tag id _ => id

def type : GitObject → List Char
  | commit _ => commitType
  | tree _ => ['t', 'r', 'e', 'e']
  | blob _ => ['b', 'l', 'o', 'b']
  | tag _ _ => tagType

def peel : GitObject → GitObject
  | tag _ target => target.peel
  | object => object

/-- `%(*objectname)` and `%(*objecttype)`: empty for what is no tag. -/
def starred : GitObject → List Char × List Char
  | tag _ target => (target.peel.id.digits, target.peel.type)
  | _ => ([], [])

def commit? (object : GitObject) : Option ObjectId :=
  match object.peel with
  | commit id => some id
  | _ => none

end GitObject

/-- Text without NUL. -/
structure Field where
  chars : List Char
  nulFree : nul ∉ chars

structure BoundedField (bound : Nat) extends Field where
  bounded : chars.length ≤ bound

/-- A ref below `refs/heads/`, `refs/remotes/` or `refs/tags/`; a symbolic one names another ref. -/
structure NamedRef where
  kind : GitHistoryRefKind
  label : Field
  object : GitObject
  symref : Option Field
  named : ∀ target ∈ symref, target.chars ≠ []

structure LoggedCommit where
  id : ObjectId
  parents : List ObjectId
  subject : BoundedField 4096
  authorName : BoundedField 512
  authorEmail : BoundedField 512
  authoredAt : BoundedField 128

def NamedRef.fields (ref : NamedRef) : List (List Char) :=
  [refLead ref.kind ++ ref.label.chars, ref.object.id.digits, ref.object.type,
    ref.object.starred.1, ref.object.starred.2, ref.symref.elim [] Field.chars]

def LoggedCommit.fields (commit : LoggedCommit) : List (List Char) :=
  [commit.id.digits, [' '].intercalate (commit.parents.map ObjectId.digits), commit.subject.chars,
    commit.authorName.chars, commit.authorEmail.chars, commit.authoredAt.chars]

/-- The fields of a record each with a NUL behind it, and a newline behind the record. -/
def printed (records : List (List (List Char))) : List Char :=
  records.flatMap fun record => terminated nul record ++ ['\n']

/-- What git answers: what `HEAD` resolves to, the refs, the commits that the walk from `HEAD` and the
refs gives, and the two counts. -/
structure Repo where
  head : Option ObjectId
  refs : List NamedRef
  log : List LoggedCommit
  distinct : (log.map LoggedCommit.id).Nodup
  totalCount : Option Nat
  headCommitCount : Option Nat

namespace Repo

variable (repo : Repo)

/-- `git for-each-ref`, trimmed. -/
def refsOut : List Char := trim (printed (repo.refs.map NamedRef.fields))

/-- `git log --skip --max-count`, trimmed. -/
def logOut (skip maxCount : Nat) : List Char :=
  trim (printed (((repo.log.drop skip).take maxCount).map LoggedCommit.fields))

/-- `limit.clamp(1, GIT_HISTORY_MAX_LIMIT)` -/
def pageSize (limit : Nat) : Nat := max 1 (min limit gitHistoryMaxLimit)

def history (cursor limit : Nat) : GitHistoryPage :=
  let limit := pageSize limit
  let headSha := repo.head.map ObjectId.digits
  let refs := parseHistoryRefs repo.refsOut
  if headSha.isNone && refs.isEmpty then
    { commits := [], headSha := none, nextCursor := none, totalCount := some 0
      headCommitCount := some 0 }
  else
    -- One row more than the page has tells whether there is a next one.
    let commits := parseHistoryLog (repo.logOut cursor (limit + 1)) refs
    let hasNext := decide (limit < commits.length)
    let commits := commits.take limit
    { commits, headSha
      nextCursor := if hasNext then some (cursor + commits.length) else none
      totalCount := if cursor = 0 then repo.totalCount else none
      headCommitCount := if cursor = 0 ∧ headSha.isSome then repo.headCommitCount else none }

end Repo

/-! ## Records -/

/-- A record behind another one starts with the newline of that one. -/
def mark (record : List (List Char)) : List (List Char) := record.modifyHead ('\n' :: ·)

theorem printed_cons (record : List (List Char)) (records : List (List (List Char)))
    (hrecords : ∀ record ∈ records, record ≠ []) :
    printed (record :: records) =
      terminated nul ((record :: records.map mark).flatten) ++ ['\n'] := by
  induction records generalizing record with
  | nil => simp [printed]
  | cons next records ih =>
      obtain ⟨hnext, hrest⟩ := List.forall_mem_cons.mp hrecords
      have hmark : '\n' :: terminated nul next = terminated nul (mark next) := by
        cases next with
        | nil => exact absurd rfl hnext
        | cons field fields => rfl
      calc printed (record :: next :: records)
          = terminated nul record ++ '\n' :: printed (next :: records) := by simp [printed]
        _ = terminated nul record ++
              ('\n' :: terminated nul next ++ terminated nul (records.map mark).flatten) ++ ['\n'] := by
            rw [ih next hrest, List.flatten_cons, terminated_append]
            simp
        _ = _ := by
            rw [hmark, List.map_cons, List.flatten_cons, List.flatten_cons, terminated_append,
              terminated_append]

theorem trim_append_newline {c : Char} (cs : List Char) (hc : isWhitespace c = false) :
    trim (c :: cs ++ [nul] ++ ['\n']) = c :: cs ++ [nul] := by
  have hkept : trim (c :: cs ++ [nul]) = c :: cs ++ [nul] := by
    apply trim_eq_self
    · intro d hd
      cases hd
      exact hc
    · intro d hd
      rw [List.getLast?_concat] at hd
      cases hd
      decide
  have hstart : ∀ rest, Doc.trimStart (c :: rest) = c :: rest :=
    fun rest => List.dropWhile_cons_of_neg (by simp [hc])
  have hend : Doc.trimEnd (c :: cs ++ [nul] ++ ['\n']) = Doc.trimEnd (c :: cs ++ [nul]) :=
    List.rdropWhile_concat_pos _ _ _ (by decide)
  calc trim (c :: cs ++ [nul] ++ ['\n'])
      = Doc.trimEnd (c :: cs ++ [nul] ++ ['\n']) := congrArg Doc.trimEnd (hstart _)
    _ = trim (c :: cs ++ [nul]) := hend.trans (congrArg Doc.trimEnd (hstart _)).symm
    _ = c :: cs ++ [nul] := hkept

/-- Each printed record is read as if it stood alone. -/
theorem filterMap_read {β : Type} {read : List (List Char) → Option β}
    {records : List (List (List Char))} (hlength : ∀ record ∈ records, record.length = 6)
    (hnul : ∀ record ∈ records, ∀ field ∈ record, nul ∉ field)
    (hhead : ∀ record ∈ records, ∃ c cs rest, record = (c :: cs) :: rest ∧ isWhitespace c = false)
    (hmark : ∀ record ∈ records, read (mark record) = read record) (hend : read [[]] = none) :
    (chunks 6 ((trim (printed records)).splitOn nul)).filterMap read = records.filterMap read := by
  cases records with
  | nil =>
      have hnone : chunks 6 ((trim (printed [])).splitOn nul) = [[[]]] := rfl
      rw [hnone, List.filterMap_cons_none hend]
  | cons record records =>
      obtain ⟨hrecord, hrest⟩ := List.forall_mem_cons.mp hlength
      have hne : ∀ record ∈ records, record ≠ [] := by
        rintro _ hmem rfl
        exact absurd (hrest [] hmem) (by decide)
      have hmarked : ∀ field ∈ (record :: records.map mark).flatten, nul ∉ field := by
        intro field hfield
        obtain ⟨fields, hfields, hmem⟩ := List.mem_flatten.mp hfield
        obtain rfl | hfields := List.mem_cons.mp hfields
        · exact hnul _ List.mem_cons_self field hmem
        · obtain ⟨other, hother, rfl⟩ := List.mem_map.mp hfields
          have hfree := hnul other (List.mem_cons_of_mem _ hother)
          cases other with
          | nil => exact absurd rfl (hne _ hother)
          | cons first rest =>
              obtain ⟨hfirst, hfree⟩ := List.forall_mem_cons.mp hfree
              obtain rfl | hmem := List.mem_cons.mp hmem
              · rw [List.mem_cons, not_or]
                exact ⟨by decide, hfirst⟩
              · exact hfree field hmem
      have htrim : trim (printed (record :: records)) =
          terminated nul (record :: records.map mark).flatten := by
        obtain ⟨c, cs, rest, rfl, hc⟩ := hhead record List.mem_cons_self
        obtain ⟨more, hmore⟩ :=
          exists_terminated nul (c :: cs) (rest ++ (records.map mark).flatten)
        have hflatten : (((c :: cs) :: rest) :: records.map mark).flatten =
            (c :: cs) :: (rest ++ (records.map mark).flatten) := rfl
        rw [printed_cons _ _ hne, hflatten, hmore]
        exact trim_append_newline (cs ++ more) hc
      have hsix : ∀ other ∈ record :: records.map mark, other.length = 6 := by
        intro other hmem
        obtain rfl | hmem := List.mem_cons.mp hmem
        · exact hrecord
        · obtain ⟨unmarked, hunmarked, rfl⟩ := List.mem_map.mp hmem
          rw [mark, List.length_modifyHead]
          exact hrest unmarked hunmarked
      have htail : chunks 6 [([] : List Char)] = [[[]]] := rfl
      rw [htrim, splitOn_terminated hmarked, chunks_flatten_append (by decide) hsix, htail,
        List.filterMap_append, List.filterMap_cons_none hend, List.filterMap_nil, List.append_nil]
      have hsame : (records.map mark).filterMap read = records.filterMap read := by
        rw [List.filterMap_map]
        exact List.filterMap_congr fun other hother => hmark other (List.mem_cons_of_mem _ hother)
      rw [List.filterMap_cons, List.filterMap_cons, hsame]

/-! ## What is read of what git prints -/

theorem isHexDigit_lt {c : Char} (h : isHexDigit c = true) : 48 ≤ c.toNat ∧ c.toNat ≤ 102 := by
  obtain hdigit | hletter := Bool.or_eq_true_iff.mp h
  · simp only [Char.isDigit, Bool.and_eq_true, decide_eq_true_eq] at hdigit
    exact ⟨hdigit.1, Nat.le_trans hdigit.2 (by decide)⟩
  · obtain ⟨hle, hge⟩ := of_decide_eq_true hletter
    exact ⟨Nat.le_trans (by decide) hle, hge⟩

theorem ObjectId.hex_chars (id : ObjectId) {c : Char} (h : c ∈ id.digits) :
    isWhitespace c = false ∧ isAsciiWhitespace c = false ∧ c ≠ '\r' ∧ c ≠ '\n' ∧ c ≠ nul := by
  obtain ⟨hle, hge⟩ := isHexDigit_lt (List.all_eq_true.mp id.hex c h)
  have hne : ∀ d : Char, d.toNat < 48 → c ≠ d := by
    rintro d hd rfl
    omega
  refine ⟨?_, ?_, hne _ (by decide), hne _ (by decide), hne _ (by decide)⟩
  · unfold isWhitespace
    rw [decide_eq_false_iff_not]
    omega
  · unfold isAsciiWhitespace
    rw [decide_eq_false_iff_not]
    simp only [not_or]
    exact ⟨hne _ (by decide), hne _ (by decide), hne _ (by decide), hne _ (by decide),
      hne _ (by decide)⟩

theorem ObjectId.nulFree (id : ObjectId) : nul ∉ id.digits :=
  fun hmem => (id.hex_chars hmem).2.2.2.2 rfl

theorem ObjectId.exists_cons (id : ObjectId) :
    ∃ c cs, id.digits = c :: cs ∧ isWhitespace c = false ∧ trimStartNewlines (c :: cs) = c :: cs := by
  cases hdigits : id.digits with
  | nil => exact absurd hdigits id.nonempty
  | cons c cs =>
      obtain ⟨hblank, -, hreturn, hnewline, -⟩ := id.hex_chars (hdigits ▸ List.mem_cons_self)
      exact ⟨c, cs, rfl, hblank, List.dropWhile_cons_of_neg (by simp [hreturn, hnewline])⟩

theorem trimStartNewlines_newline (value : List Char) :
    trimStartNewlines ('\n' :: value) = trimStartNewlines value :=
  List.dropWhile_cons_of_pos (by decide)

theorem BoundedField.boundedField_eq {bound : Nat} (field : BoundedField bound) :
    boundedField field.chars bound = field.chars :=
  List.take_of_length_le field.bounded

def LoggedCommit.row (commit : LoggedCommit) (refs : RefsBySha) : GitHistoryCommit :=
  { sha := commit.id.digits, parentShas := commit.parents.map ObjectId.digits
    subject := commit.subject.chars, authorName := commit.authorName.chars
    authorEmail := commit.authorEmail.chars, authoredAt := commit.authoredAt.chars
    refs := refs.get commit.id.digits }

theorem readCommit_fields (refs : RefsBySha) (commit : LoggedCommit) :
    readCommit refs commit.fields = some (commit.row refs) := by
  obtain ⟨c, cs, hdigits, -, htrim⟩ := commit.id.exists_cons
  have hparents : words isAsciiWhitespace ([' '].intercalate (commit.parents.map ObjectId.digits)) =
      commit.parents.map ObjectId.digits := by
    apply words_intercalate (by decide)
    intro word hword
    obtain ⟨parent, -, rfl⟩ := List.mem_map.mp hword
    exact ⟨parent.nonempty, fun d hd => (parent.hex_chars hd).2.1⟩
  simp [readCommit, LoggedCommit.fields, LoggedCommit.row, hdigits, htrim, hparents,
    BoundedField.boundedField_eq]

theorem stripPrefix_append (lead value : List Char) :
    stripPrefix lead (lead ++ value) = some value := by
  rw [stripPrefix, if_pos (List.isPrefixOf_iff_prefix.mpr (List.prefix_append ..)),
    List.drop_left]

theorem kindAndLabel_refLead (kind : GitHistoryRefKind) (label : List Char) :
    kindAndLabel (refLead kind ++ label) = some (kind, label) := by
  cases kind with
  | branch => rw [kindAndLabel, stripPrefix_append]
  | remote =>
      have hbranch : stripPrefix (refLead .branch) (refLead .remote ++ label) = none := rfl
      rw [kindAndLabel, hbranch, stripPrefix_append]
  | tag =>
      have hbranch : stripPrefix (refLead .branch) (refLead .tag ++ label) = none := rfl
      have hremote : stripPrefix (refLead .remote) (refLead .tag ++ label) = none := rfl
      rw [kindAndLabel, hbranch, hremote, stripPrefix_append]
      rfl

namespace NamedRef

variable (ref : NamedRef)

def historyRef : GitHistoryRef :=
  { kind := ref.kind, label := boundedField ref.label.chars 1024 }

def target? : Option ObjectId := if ref.symref.isNone then ref.object.commit? else none

theorem exists_name : ∃ cs, refLead ref.kind ++ ref.label.chars = 'r' :: cs := by
  cases ref.kind <;> exact ⟨_, rfl⟩

theorem readRef_fields :
    readRef ref.fields = ref.target?.map fun id => (id.digits, ref.historyRef) := by
  obtain ⟨cs, hname⟩ := ref.exists_name
  have htrim : trimStartNewlines (refLead ref.kind ++ ref.label.chars) =
      refLead ref.kind ++ ref.label.chars := by
    rw [hname]
    rfl
  have hnonempty : (refLead ref.kind ++ ref.label.chars).isEmpty = false := by
    rw [hname]
    rfl
  cases hsymref : ref.symref with
  | some target =>
      have htarget : target.chars.isEmpty = false := by simpa using ref.named target hsymref
      simp [readRef, fields, target?, hsymref, htarget]
  | none =>
      have hread : readRef ref.fields =
          if ref.object.type = commitType then some (ref.object.id.digits, ref.historyRef)
          else if ref.object.type = tagType ∧ ref.object.starred.2 = commitType then
            some (ref.object.starred.1, ref.historyRef)
          else none := by
        simp only [readRef, fields, hsymref, htrim, hnonempty, kindAndLabel_refLead, historyRef,
          Option.elim_none, List.isEmpty_nil, Bool.not_true, Bool.or_self, Bool.false_eq_true,
          if_false]
      rw [hread, target?, hsymref, Option.isNone_none, if_pos rfl]
      cases ref.object with
      | commit _ | tree _ | blob _ => rfl
      | tag id target =>
          have htag : GitObject.commit? (.tag id target) = target.commit? := rfl
          have hstarred : (GitObject.tag id target).starred =
              (target.peel.id.digits, target.peel.type) := rfl
          rw [htag, hstarred, GitObject.commit?]
          cases target.peel with
          | commit _ | tree _ | blob _ | tag id target => rfl

theorem readRef_mark : readRef (mark ref.fields) = readRef ref.fields := by
  simp only [mark, fields, List.modifyHead_cons, readRef, trimStartNewlines_newline]

theorem fields_nulFree : ∀ field ∈ ref.fields, nul ∉ field := by
  have hlead : nul ∉ refLead ref.kind := by cases ref.kind <;> decide
  have htype : ∀ object : GitObject, nul ∉ object.type := by
    intro object
    cases object <;> (rw [GitObject.type]; decide)
  have hstarred : nul ∉ ref.object.starred.1 ∧ nul ∉ ref.object.starred.2 := by
    cases ref.object with
    | tag id target => exact ⟨target.peel.id.nulFree, htype _⟩
    | commit id | tree id | blob id => exact ⟨List.not_mem_nil, List.not_mem_nil⟩
  have hsymref : nul ∉ ref.symref.elim [] Field.chars := by
    cases ref.symref with
    | none => exact List.not_mem_nil
    | some target => exact target.nulFree
  intro field hfield
  simp only [fields, List.mem_cons, List.not_mem_nil, or_false] at hfield
  obtain rfl | rfl | rfl | rfl | rfl | rfl := hfield
  · rw [List.mem_append, not_or]
    exact ⟨hlead, ref.label.nulFree⟩
  · exact ref.object.id.nulFree
  · exact htype _
  · exact hstarred.1
  · exact hstarred.2
  · exact hsymref

end NamedRef

namespace LoggedCommit

variable (commit : LoggedCommit)

theorem readCommit_mark (refs : RefsBySha) :
    readCommit refs (mark commit.fields) = readCommit refs commit.fields := by
  simp only [mark, fields, List.modifyHead_cons, readCommit, trimStartNewlines_newline]

theorem fields_nulFree : ∀ field ∈ commit.fields, nul ∉ field := by
  have hparents : nul ∉ [' '].intercalate (commit.parents.map ObjectId.digits) := by
    intro hmem
    obtain hblank | ⟨word, hword, hnul⟩ := eq_or_mem_of_mem_intercalate hmem
    · exact absurd hblank (by decide)
    · obtain ⟨parent, -, rfl⟩ := List.mem_map.mp hword
      exact parent.nulFree hnul
  intro field hfield
  simp only [fields, List.mem_cons, List.not_mem_nil, or_false] at hfield
  obtain rfl | rfl | rfl | rfl | rfl | rfl := hfield
  · exact commit.id.nulFree
  · exact hparents
  · exact commit.subject.nulFree
  · exact commit.authorName.nulFree
  · exact commit.authorEmail.nulFree
  · exact commit.authoredAt.nulFree

end LoggedCommit

namespace Repo

variable (repo : Repo)

/-- Each ref that is not symbolic and resolves to a commit, under that commit. -/
def targets : RefsBySha :=
  repo.refs.filterMap fun ref => ref.target?.map fun id => (id.digits, ref.historyRef)

theorem parseHistoryRefs_refsOut : parseHistoryRefs repo.refsOut = repo.targets := by
  rw [parseHistoryRefs, refsOut, filterMap_read, List.filterMap_map]
  · exact List.filterMap_congr fun ref _ => ref.readRef_fields
  · intro record hrecord
    obtain ⟨ref, -, rfl⟩ := List.mem_map.mp hrecord
    rfl
  · intro record hrecord
    obtain ⟨ref, -, rfl⟩ := List.mem_map.mp hrecord
    exact ref.fields_nulFree
  · intro record hrecord
    obtain ⟨ref, -, rfl⟩ := List.mem_map.mp hrecord
    obtain ⟨cs, hname⟩ := ref.exists_name
    exact ⟨'r', cs, _, congrArg (· :: _) hname, by decide⟩
  · intro record hrecord
    obtain ⟨ref, -, rfl⟩ := List.mem_map.mp hrecord
    exact ref.readRef_mark
  · rfl

theorem parseHistoryLog_logOut (skip maxCount : Nat) (refs : RefsBySha) :
    parseHistoryLog (repo.logOut skip maxCount) refs =
      ((repo.log.drop skip).take maxCount).map fun commit => commit.row refs := by
  rw [parseHistoryLog, logOut, filterMap_read, List.filterMap_map]
  · rw [← List.filterMap_eq_map]
    exact List.filterMap_congr fun commit _ => readCommit_fields refs commit
  · intro record hrecord
    obtain ⟨commit, -, rfl⟩ := List.mem_map.mp hrecord
    rfl
  · intro record hrecord
    obtain ⟨commit, -, rfl⟩ := List.mem_map.mp hrecord
    exact commit.fields_nulFree
  · intro record hrecord
    obtain ⟨commit, -, rfl⟩ := List.mem_map.mp hrecord
    obtain ⟨c, cs, hdigits, hblank, -⟩ := commit.id.exists_cons
    exact ⟨c, cs, _, congrArg (· :: _) hdigits, hblank⟩
  · intro record hrecord
    obtain ⟨commit, -, rfl⟩ := List.mem_map.mp hrecord
    exact commit.readCommit_mark refs
  · rfl

/-! ## Pages -/

/-- Nothing that seeds the walk is seen: `HEAD` does not resolve, and no ref that is not symbolic
resolves to a commit. -/
def Unseeded : Prop := repo.head = none ∧ ∀ ref ∈ repo.refs, ref.target? = none

variable {repo}

theorem targets_isEmpty : repo.targets.isEmpty = true ↔ ∀ ref ∈ repo.refs, ref.target? = none := by
  rw [List.isEmpty_iff, targets, List.filterMap_eq_nil_iff]
  simp only [Option.map_eq_none_iff]

theorem history_of_unseeded (h : repo.Unseeded) (cursor limit : Nat) :
    repo.history cursor limit =
      { commits := [], headSha := none, nextCursor := none, totalCount := some 0
        headCommitCount := some 0 } := by
  have hempty : repo.targets.isEmpty = true := targets_isEmpty.mpr h.2
  simp [history, h.1, parseHistoryRefs_refsOut, hempty]

theorem history_of_seeded (h : ¬repo.Unseeded) (cursor limit : Nat) :
    (repo.history cursor limit).commits =
        ((repo.log.drop cursor).take (pageSize limit)).map (·.row repo.targets) ∧
      (repo.history cursor limit).nextCursor =
        if cursor + pageSize limit < repo.log.length then some (cursor + pageSize limit)
        else none := by
  have hguard : ((repo.head.map ObjectId.digits).isNone && repo.targets.isEmpty) = false := by
    rw [Bool.eq_false_iff]
    intro hboth
    obtain ⟨hhead, hempty⟩ := Bool.and_eq_true_iff.mp hboth
    exact h ⟨by simpa using hhead, targets_isEmpty.mp hempty⟩
  simp only [history, parseHistoryRefs_refsOut, hguard, Bool.false_eq_true, if_false,
    parseHistoryLog_logOut]
  constructor
  · rw [← List.map_take, List.take_take, Nat.min_eq_left (Nat.le_succ _)]
  · simp only [List.length_map, List.length_take, List.length_drop, decide_eq_true_eq]
    have hiff : pageSize limit < min (pageSize limit + 1) (repo.log.length - cursor) ↔
        cursor + pageSize limit < repo.log.length := by omega
    rw [if_congr hiff rfl rfl]
    split_ifs
    · congr 1
      omega
    · rfl

variable (repo)

/-- The pages that following `next_cursor` from a cursor gives, the `i`-th with the `i`-th limit. -/
inductive Follows (limits : Nat → Nat) : Nat → Nat → List GitHistoryPage → Prop where
  | last {i cursor : Nat} (h : (repo.history cursor (limits i)).nextCursor = none) :
      Follows limits i cursor [repo.history cursor (limits i)]
  | more {i cursor next : Nat} {pages : List GitHistoryPage}
      (h : (repo.history cursor (limits i)).nextCursor = some next)
      (hrest : Follows limits (i + 1) next pages) :
      Follows limits i cursor (repo.history cursor (limits i) :: pages)

/-- A row shows a commit: its id, parents and fields, and the refs that resolve to it. -/
structure Shows (commit : LoggedCommit) (row : GitHistoryCommit) : Prop where
  sha : row.sha = commit.id.digits
  parents : row.parentShas = commit.parents.map ObjectId.digits
  subject : row.subject = commit.subject.chars
  authorName : row.authorName = commit.authorName.chars
  authorEmail : row.authorEmail = commit.authorEmail.chars
  authoredAt : row.authoredAt = commit.authoredAt.chars
  refs : row.refs.Perm ((repo.refs.filter fun ref => ref.target? = some commit.id).map
    NamedRef.historyRef)

/-- Every commit exactly once and in order. -/
structure Tiled (rows : List GitHistoryCommit) : Prop where
  shown : List.Forall₂ repo.Shows repo.log rows
  once : (rows.map GitHistoryCommit.sha).Nodup

variable {repo}

theorem ObjectId.digits_injective : Function.Injective ObjectId.digits := by
  rintro ⟨digits, _, _⟩ ⟨digits', _, _⟩ rfl
  rfl

theorem shows_row (commit : LoggedCommit) : repo.Shows commit (commit.row repo.targets) where
  sha := rfl
  parents := rfl
  subject := rfl
  authorName := rfl
  authorEmail := rfl
  authoredAt := rfl
  refs := by
    refine (List.perm_insertionSort _ _).trans (List.Perm.of_eq ?_)
    rw [targets, List.filter_filterMap, List.map_filterMap, ← List.filterMap_eq_map,
      List.filterMap_filter]
    apply List.filterMap_congr
    intro ref _
    cases htarget : ref.target? with
    | none => simp
    | some id =>
        by_cases heq : id = commit.id
        · simp [heq]
        · have hdigits : id.digits ≠ commit.id.digits := fun h =>
            heq (ObjectId.digits_injective h)
          simp [heq, hdigits]

theorem follows_drop (h : ¬repo.Unseeded) (limits : Nat → Nat) (i cursor : Nat) :
    ∃ pages, repo.Follows limits i cursor pages ∧
      pages.flatMap GitHistoryPage.commits = (repo.log.drop cursor).map (·.row repo.targets) := by
  induction hleft : repo.log.length - cursor using Nat.strong_induction_on
    generalizing i cursor with
  | _ left ih =>
      obtain ⟨hcommits, hnext⟩ := history_of_seeded h cursor (limits i)
      have hpos : 0 < pageSize (limits i) := Nat.lt_of_lt_of_le Nat.one_pos (Nat.le_max_left _ _)
      by_cases hmore : cursor + pageSize (limits i) < repo.log.length
      · rw [if_pos hmore] at hnext
        obtain ⟨pages, hpages, hflat⟩ := ih _ (by omega) (i + 1) (cursor + pageSize (limits i)) rfl
        refine ⟨_, .more hnext hpages, ?_⟩
        rw [List.flatMap_cons, hflat, hcommits, ← List.map_append, ← List.drop_drop,
          List.take_append_drop]
      · rw [if_neg hmore] at hnext
        refine ⟨_, .last hnext, ?_⟩
        rw [List.flatMap_singleton, hcommits, List.take_of_length_le]
        rw [List.length_drop]
        omega

theorem not_unseeded_iff : ¬repo.Unseeded ↔ repo.head.isSome = true ∨
    ∃ ref ∈ repo.refs, ref.symref = none ∧ ref.object.commit?.isSome = true := by
  have htarget (ref : NamedRef) : ref.target? ≠ none ↔
      ref.symref = none ∧ ref.object.commit?.isSome = true := by
    rw [NamedRef.target?, Option.isSome_iff_ne_none]
    cases ref.symref <;> simp
  rw [Unseeded, not_and_or, ← ne_eq, ← Option.isSome_iff_ne_none]
  simp only [not_forall, exists_prop, ← htarget, ne_eq]

theorem tiled_rows : repo.Tiled (repo.log.map (·.row repo.targets)) where
  shown := by
    rw [List.forall₂_map_right_iff]
    exact List.forall₂_same.mpr fun commit _ => shows_row commit
  once := by
    have hshas : (repo.log.map (·.row repo.targets)).map GitHistoryCommit.sha =
        (repo.log.map LoggedCommit.id).map ObjectId.digits := by
      rw [List.map_map, List.map_map]
      rfl
    rw [hshas]
    exact repo.distinct.map ObjectId.digits_injective

/-- **Pages tile the log** exactly when the walk is seen to be seeded or has no commit: following the
cursors from 0 ends, and the pages together show every commit once, in order, with its own parents and
fields and with the refs that resolve to it. -/
theorem pages_tile_iff (limits : Nat → Nat) :
    (∃ pages, repo.Follows limits 0 0 pages ∧ repo.Tiled (pages.flatMap GitHistoryPage.commits)) ↔
      repo.head.isSome = true ∨
        (∃ ref ∈ repo.refs, ref.symref = none ∧ ref.object.commit?.isSome = true) ∨
          repo.log = [] := by
  rw [← or_assoc, ← not_unseeded_iff]
  constructor
  · rintro ⟨pages, hpages, htiled⟩
    by_cases h : repo.Unseeded
    · right
      have hempty := history_of_unseeded h 0 (limits 0)
      cases hpages with
      | last =>
          have hshown := htiled.shown
          rw [List.flatMap_singleton, hempty] at hshown
          exact List.forall₂_nil_right_iff.mp hshown
      | more hnext =>
          rw [hempty] at hnext
          cases hnext
    · exact .inl h
  · intro h
    by_cases hseeded : repo.Unseeded
    · have hlog : repo.log = [] := h.resolve_left (not_not_intro hseeded)
      have hempty := history_of_unseeded hseeded 0 (limits 0)
      refine ⟨_, .last (congrArg GitHistoryPage.nextCursor hempty), ?_⟩
      rw [List.flatMap_singleton, hempty]
      exact ⟨hlog ▸ .nil, List.nodup_nil⟩
    · obtain ⟨pages, hpages, hflat⟩ := follows_drop hseeded limits 0 0
      refine ⟨pages, hpages, ?_⟩
      rw [hflat, List.drop_zero]
      exact tiled_rows

end Repo

/-- `HEAD` is on a branch without commits, and the only branch is a symbolic ref to a ref elsewhere. -/
def linked : Repo where
  head := none
  refs :=
    [{ kind := .branch, label := ⟨['w'], by decide⟩
       object := .commit ⟨['a'], List.cons_ne_nil _ _, rfl⟩
       symref := some ⟨['r', 'e', 'f', 's', '/', 'z', '/', 'w'], by decide⟩
       named := by
        rintro _ ⟨⟩
        exact List.cons_ne_nil _ _ }]
  log :=
    [{ id := ⟨['a'], List.cons_ne_nil _ _, rfl⟩, parents := []
       subject := ⟨⟨['x'], by decide⟩, by decide⟩, authorName := ⟨⟨['y'], by decide⟩, by decide⟩
       authorEmail := ⟨⟨['z'], by decide⟩, by decide⟩
       authoredAt := ⟨⟨['0'], by decide⟩, by decide⟩ }]
  distinct := List.nodup_singleton _
  totalCount := some 1
  headCommitCount := none

/-- Its one commit is on no page. -/
theorem linked_history_empty :
    ¬∃ pages, linked.Follows (fun _ => 50) 0 0 pages ∧
      linked.Tiled (pages.flatMap GitHistoryPage.commits) := by
  rintro ⟨pages, hpages, htiled⟩
  have hempty : linked.history 0 50 =
      { commits := [], headSha := none, nextCursor := none, totalCount := some 0
        headCommitCount := some 0 } := Repo.history_of_unseeded ⟨rfl, by simp [linked]; rfl⟩ 0 50
  cases hpages with
  | last =>
      have hshown := htiled.shown
      rw [List.flatMap_singleton, hempty] at hshown
      cases hshown
  | more hnext =>
      rw [hempty] at hnext
      cases hnext

end Zeron.Engine.History
