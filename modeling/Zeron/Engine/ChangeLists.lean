import Mathlib.Data.List.Basic
import Zeron.Lib.Digits
import Zeron.Lib.Utf8

/-!
# Lists of changed files

`split_z`, `parse_name_status` and `apply_numstat` of `crates/engine/src/diff_sync.rs`, against what
`git diff -z` prints: fields that each end in a NUL, with one more field for the old name of a rename
or a copy.
-/

namespace Zeron.Engine.Diff

open Zeron.Lib (Bytes)
open Zeron.Lib.Digits
open Zeron.Lib.Utf8

structure DiffFileSummary where
  path : String
  oldPath : Option String
  status : String
  additions : UInt32
  deletions : UInt32
  binary : Bool
deriving DecidableEq

/-! ## The decoders -/

def splitZ (value : Bytes) : List String :=
  ((value.splitOn 0).filter fun part => !part.isEmpty).map decodeLossy

def statusOf : Char → String
  | 'A' => "added"
  | 'D' => "deleted"
  | 'R' => "renamed"
  | 'C' => "copied"
  | 'U' => "unmerged"
  | _ => "modified"

def summary (path : String) (oldPath : Option String) (code : Char) : DiffFileSummary :=
  { path, oldPath, status := statusOf code, additions := 0, deletions := 0, binary := false }

/-- The loop of `parse_name_status`. -/
def summaries : List String → List DiffFileSummary
  | [] | [_] => []
  | raw :: first :: rest =>
      let code := raw.toList.head?.getD 'M'
      if code = 'R' ∨ code = 'C' then
        match rest with
        | [] => [summary first none code]
        | second :: rest => summary second (some first) code :: summaries rest
      else summary first none code :: summaries rest

def parseNameStatus (value : Bytes) : List DiffFileSummary := summaries (splitZ value)

/-- `splitn(n, sep)`. -/
def splitn : Nat → Char → List Char → List (List Char)
  | 0, _, _ => []
  | 1, _, cs => [cs]
  | n + 2, sep, cs =>
      match cs.dropWhile (· ≠ sep) with
      | [] => [cs]
      | _ :: rest => cs.takeWhile (· ≠ sep) :: splitn (n + 1) sep rest

/-- `str::parse::<u32>`. -/
def parseU32 (cs : List Char) : Option UInt32 :=
  let digits := if cs.head? = some '+' then cs.tail else cs
  let value := Nat.ofDigitChars 10 digits 0
  if digits ≠ [] ∧ digits.all Char.isDigit = true ∧ value < 2 ^ 32 then some (.ofNat value) else none

def setCounts (files : List DiffFileSummary) (path : String) (adds dels : List Char) :
    List DiffFileSummary :=
  match files with
  | [] => []
  | file :: files =>
      if file.path = path then
        { file with
          additions := (parseU32 adds).getD 0
          deletions := (parseU32 dels).getD 0
          binary := adds = ['-'] || dels = ['-'] } :: files
      else file :: setCounts files path adds dels

/-- The loop of `apply_numstat`. -/
def applyRecords : List String → List DiffFileSummary → List DiffFileSummary
  | [], files => files
  | record :: rest, files =>
      if record = "" then applyRecords rest files
      else
        let parts := splitn 3 '\t' record.toList
        let adds := parts[0]?.getD []
        let dels := parts[1]?.getD []
        match parts[2]?.getD [] with
        | [] =>
            -- Rename: the next two records are old, new.
            match rest with
            | [] | [_] => setCounts files "" adds dels
            | _ :: path :: rest => applyRecords rest (setCounts files path adds dels)
        | inline => applyRecords rest (setCounts files (.ofList inline) adds dels)

def applyNumstat (files : List DiffFileSummary) (value : Bytes) : List DiffFileSummary :=
  applyRecords ((value.splitOn 0).map decodeLossy) files

/-! ## What git prints -/

/-- A file name: bytes without NUL. -/
structure GitName where
  bytes : Bytes
  nonempty : bytes ≠ []
  nulFree : 0 ∉ bytes

def GitName.path (name : GitName) : String := decodeLossy name.bytes

inductive ChangeKind where
  | added
  | deleted
  | modified
  | typeChanged
  | unmerged
  | renamed (old : GitName) (score : Nat)
  | copied (old : GitName) (score : Nat)

/-- A changed file; a binary one has no counts. -/
structure Change where
  kind : ChangeKind
  name : GitName
  counts : Option (UInt32 × UInt32)

namespace ChangeKind

def code : ChangeKind → Char
  | added => 'A'
  | deleted => 'D'
  | modified => 'M'
  | typeChanged => 'T'
  | unmerged => 'U'
  | renamed _ _ => 'R'
  | copied _ _ => 'C'

def old : ChangeKind → Option GitName
  | renamed old _ | copied old _ => some old
  | _ => none

/-- The similarity of a rename or a copy, in three digits. -/
def score : ChangeKind → List Char
  | renamed _ score | copied _ score => (Nat.toDigits 10 score).leftpad 3 '0'
  | _ => []

end ChangeKind

namespace Change

variable (change : Change)

def statusFields : List Bytes :=
  encode (.ofList (change.kind.code :: change.kind.score)) ::
    (change.kind.old.toList.map (·.bytes) ++ [change.name.bytes])

def countTexts : List Char × List Char :=
  match change.counts with
  | none => (['-'], ['-'])
  | some (adds, dels) => (Nat.toDigits 10 adds.toNat, Nat.toDigits 10 dels.toNat)

def countHead : String :=
  .ofList (change.countTexts.1 ++ '\t' :: (change.countTexts.2 ++ ['\t']))

def numstatFields : List Bytes :=
  match change.kind.old with
  | none => [encode change.countHead ++ change.name.bytes]
  | some old => [encode change.countHead, old.bytes, change.name.bytes]

def summary : DiffFileSummary where
  path := change.name.path
  oldPath := change.kind.old.map (·.path)
  status := statusOf change.kind.code
  additions := (change.counts.map (·.1)).getD 0
  deletions := (change.counts.map (·.2)).getD 0
  binary := change.counts.isNone

end Change

/-- The option `-z`: a NUL after each field. -/
def terminated (fields : List Bytes) : Bytes := fields.flatMap fun field => field ++ [0]

def nameStatus (changes : List Change) : Bytes := terminated (changes.flatMap Change.statusFields)

def numstat (changes : List Change) : Bytes := terminated (changes.flatMap Change.numstatFields)

/-! ## Fields -/

theorem splitOn_terminated {fields : List Bytes} (h : ∀ field ∈ fields, (0 : UInt8) ∉ field) :
    (terminated fields).splitOn 0 = fields ++ [[]] := by
  induction fields with
  | nil => rfl
  | cons field fields ih =>
      have hfield := h field List.mem_cons_self
      have hfields := ih fun other hother => h other (List.mem_cons_of_mem _ hother)
      have hhead : ∀ byte ∈ field, (byte == 0) = false := by
        intro byte hbyte
        rw [beq_eq_false_iff_ne]
        rintro rfl
        exact hfield hbyte
      calc (terminated (field :: fields)).splitOn 0
          = (field ++ 0 :: terminated fields).splitOn 0 := by simp [terminated]
        _ = field :: (terminated fields).splitOn 0 := by
            rw [List.splitOn_eq_splitOnP]
            exact List.splitOnP_append_cons_of_forall_mem hhead 0 rfl _
        _ = field :: fields ++ [[]] := by rw [hfields, List.cons_append]

theorem splitZ_terminated {fields : List Bytes} (hnul : ∀ field ∈ fields, (0 : UInt8) ∉ field)
    (hne : ∀ field ∈ fields, field ≠ []) :
    splitZ (terminated fields) = fields.map decodeLossy := by
  rw [splitZ, splitOn_terminated hnul, List.filter_append]
  have hkept : (fields.filter fun part => !part.isEmpty) = fields := by
    apply List.filter_eq_self.mpr
    intro field hfield
    simpa using hne field hfield
  rw [hkept]
  simp

theorem decodeLossy_encode (text : String) : decodeLossy (encode text) = text :=
  decodeLossy_of_decode? (decode?_encode text)

theorem decodeLossy_encode_append (text : String) (bytes : Bytes) :
    decodeLossy (encode text ++ bytes) = text ++ decodeLossy bytes := by
  apply String.toList_inj.mp
  unfold decodeLossy
  rw [encode, units_encodeChars]
  simp [Function.comp_def]

theorem decodeLossy_ne_empty {bytes : Bytes} (h : bytes ≠ []) : decodeLossy bytes ≠ "" := by
  intro hempty
  have hlist := congrArg String.toList hempty
  simp only [decodeLossy, String.toList_ofList, String.toList_empty, List.map_eq_nil_iff] at hlist
  exact units_ne_nil h hlist

theorem nul_not_mem_encode {text : String} (h : Char.ofNat 0 ∉ text.toList) :
    (0 : UInt8) ∉ encode text :=
  fun hmem => h (mem_of_ascii_mem_encode (by decide) hmem)

namespace ChangeKind

theorem isDigit_of_mem_score {kind : ChangeKind} {c : Char} (h : c ∈ kind.score) :
    c.isDigit = true := by
  cases kind <;> first | exact leftpad_isDigit h | cases h

theorem nul_not_mem (kind : ChangeKind) :
    (0 : UInt8) ∉ encode (.ofList (kind.code :: kind.score)) := by
  apply nul_not_mem_encode
  rw [String.toList_ofList, List.mem_cons, not_or]
  constructor
  · cases kind <;> simp [code]
  · intro hmem
    exact absurd (isDigit_of_mem_score hmem) (by decide)

theorem code_iff (kind : ChangeKind) : (kind.code = 'R' ∨ kind.code = 'C') ↔ kind.old ≠ none := by
  cases kind <;> simp [code, old]

end ChangeKind

namespace Change

variable (change : Change)

theorem isDigit_or_dash {c : Char}
    (h : c ∈ change.countTexts.1 ∨ c ∈ change.countTexts.2) : c.isDigit = true ∨ c = '-' := by
  unfold countTexts at h
  split at h
  · right
    simpa using h
  · left
    obtain h | h := h
    · exact toDigits_isDigit h
    · exact toDigits_isDigit h

theorem nul_not_mem_countHead : (0 : UInt8) ∉ encode change.countHead := by
  apply nul_not_mem_encode
  rw [countHead, String.toList_ofList]
  intro hmem
  have hcase : Char.ofNat 0 ∈ change.countTexts.1 ∨ Char.ofNat 0 ∈ change.countTexts.2 := by
    simp only [List.mem_append, List.mem_cons, List.not_mem_nil, or_false] at hmem
    obtain hmem | hmem | hmem | hmem := hmem
    · exact .inl hmem
    · exact absurd hmem (by decide)
    · exact .inr hmem
    · exact absurd hmem (by decide)
  obtain hdigit | hdash := change.isDigit_or_dash hcase
  · exact absurd hdigit (by decide)
  · exact absurd hdash (by decide)

theorem encode_ne_nil {text : String} (h : text ≠ "") : encode text ≠ [] := by
  intro hnil
  apply h
  rw [← decodeLossy_encode text, hnil]
  rfl

theorem mem_statusFields {field : Bytes} (h : field ∈ change.statusFields) :
    (0 : UInt8) ∉ field ∧ field ≠ [] := by
  obtain rfl | h := List.mem_cons.mp h
  · refine ⟨change.kind.nul_not_mem, encode_ne_nil ?_⟩
    intro hempty
    have hlist := congrArg String.toList hempty
    simp at hlist
  · obtain h | h := List.mem_append.mp h
    · obtain ⟨old, -, rfl⟩ := List.mem_map.mp h
      exact ⟨old.nulFree, old.nonempty⟩
    · rw [List.mem_singleton] at h
      subst h
      exact ⟨change.name.nulFree, change.name.nonempty⟩

theorem mem_numstatFields {field : Bytes} (h : field ∈ change.numstatFields) :
    (0 : UInt8) ∉ field := by
  unfold numstatFields at h
  split at h
  · rw [List.mem_singleton] at h
    subst h
    rw [List.mem_append, not_or]
    exact ⟨change.nul_not_mem_countHead, change.name.nulFree⟩
  · rename_i old _
    simp only [List.mem_cons, List.not_mem_nil, or_false] at h
    obtain rfl | rfl | rfl := h
    · exact change.nul_not_mem_countHead
    · exact old.nulFree
    · exact change.name.nulFree

end Change

/-! ## Names and statuses -/

def Change.bare (change : Change) : DiffFileSummary :=
  Diff.summary change.name.path (change.kind.old.map (·.path)) change.kind.code

theorem summaries_plain {raw first : String} {code : Char} (hraw : raw.toList.head?.getD 'M' = code)
    (hplain : ¬ (code = 'R' ∨ code = 'C')) (rest : List String) :
    summaries (raw :: first :: rest) = summary first none code :: summaries rest := by
  cases rest with
  | nil => simp [summaries, hraw, hplain]
  | cons second rest => rw [summaries, hraw, if_neg hplain]

theorem summaries_renamed {raw first second : String} {code : Char}
    (hraw : raw.toList.head?.getD 'M' = code) (hrenamed : code = 'R' ∨ code = 'C')
    (rest : List String) :
    summaries (raw :: first :: second :: rest) = summary second (some first) code :: summaries rest := by
  rw [summaries, hraw, if_pos hrenamed]

theorem summaries_statusFields (change : Change) (rest : List String) :
    summaries (change.statusFields.map decodeLossy ++ rest) = change.bare :: summaries rest := by
  have hhead : (decodeLossy (encode (.ofList (change.kind.code :: change.kind.score)))).toList.head?.getD
      'M' = change.kind.code := by
    rw [decodeLossy_encode, String.toList_ofList]
    rfl
  have hcode := change.kind.code_iff
  unfold Change.statusFields Change.bare
  cases hold : change.kind.old with
  | none =>
      have hplain : ¬ (change.kind.code = 'R' ∨ change.kind.code = 'C') :=
        fun hrenamed => hcode.mp hrenamed hold
      exact summaries_plain hhead hplain rest
  | some old =>
      have hrenamed : change.kind.code = 'R' ∨ change.kind.code = 'C' :=
        hcode.mpr (by simp [hold])
      exact summaries_renamed hhead hrenamed rest

theorem parseNameStatus_nameStatus (changes : List Change) :
    parseNameStatus (nameStatus changes) = changes.map Change.bare := by
  rw [parseNameStatus, nameStatus, splitZ_terminated]
  · induction changes with
    | nil => rfl
    | cons change changes ih =>
        rw [List.flatMap_cons, List.map_append, summaries_statusFields, ih, List.map_cons]
  · intro field hfield
    obtain ⟨change, -, hmem⟩ := List.mem_flatMap.mp hfield
    exact (change.mem_statusFields hmem).1
  · intro field hfield
    obtain ⟨change, -, hmem⟩ := List.mem_flatMap.mp hfield
    exact (change.mem_statusFields hmem).2

/-! ## Counts -/

theorem splitn_append {n : Nat} {sep : Char} {front : List Char} (h : sep ∉ front)
    (back : List Char) : splitn (n + 2) sep (front ++ sep :: back) = front :: splitn (n + 1) sep back := by
  have hkept : ∀ c ∈ front, (decide (c ≠ sep)) = true := by
    intro c hc
    rw [decide_eq_true_eq]
    rintro rfl
    exact h hc
  rw [splitn, List.dropWhile_append_of_pos hkept, List.takeWhile_append_of_pos hkept]
  simp

theorem parseU32_toDigits (value : UInt32) : parseU32 (Nat.toDigits 10 value.toNat) = some value := by
  have hdigits : ∀ c ∈ Nat.toDigits 10 value.toNat, c.isDigit = true :=
    fun c hc => toDigits_isDigit hc
  have hsign : (Nat.toDigits 10 value.toNat).head? ≠ some '+' := by
    intro hhead
    exact absurd (hdigits '+' (List.mem_of_mem_head? hhead)) (by decide)
  unfold parseU32
  rw [if_neg hsign]
  dsimp only
  rw [Nat.ofDigitChars_ten_toDigits, if_pos]
  · simp
  · refine ⟨Nat.toDigits_ne_nil, ?_, value.toNat_lt⟩
    rw [List.all_eq_true]
    exact hdigits

theorem toDigits_ne_dash (n : Nat) : Nat.toDigits 10 n ≠ ['-'] := by
  intro hdash
  have hdigit : '-'.isDigit = true :=
    Nat.isDigit_of_mem_toDigits (b := 10) (n := n) (by decide) (by decide) (by simp [hdash])
  exact absurd hdigit (by decide)

namespace Change

variable (change : Change)

theorem tab_not_mem : '\t' ∉ change.countTexts.1 ∧ '\t' ∉ change.countTexts.2 := by
  constructor
  · intro hmem
    obtain hdigit | hdash := change.isDigit_or_dash (.inl hmem)
    · exact absurd hdigit (by decide)
    · exact absurd hdash (by decide)
  · intro hmem
    obtain hdigit | hdash := change.isDigit_or_dash (.inr hmem)
    · exact absurd hdigit (by decide)
    · exact absurd hdash (by decide)

theorem splitn_countHead (tail : List Char) :
    splitn 3 '\t' (change.countHead.toList ++ tail) =
      [change.countTexts.1, change.countTexts.2, tail] := by
  obtain ⟨hadds, hdels⟩ := change.tab_not_mem
  calc splitn 3 '\t' (change.countHead.toList ++ tail)
      = splitn 3 '\t' (change.countTexts.1 ++ '\t' :: (change.countTexts.2 ++ '\t' :: tail)) := by
          simp [countHead]
    _ = [change.countTexts.1, change.countTexts.2, tail] := by
          rw [splitn_append hadds, splitn_append hdels]
          rfl

theorem setCounts_bare (rest : List DiffFileSummary) :
    setCounts (change.bare :: rest) change.name.path change.countTexts.1 change.countTexts.2 =
      change.summary :: rest := by
  have hpath : change.bare.path = change.name.path := rfl
  rw [setCounts, if_pos hpath]
  unfold Change.countTexts Change.summary
  cases hcounts : change.counts with
  | none => rfl
  | some counts =>
      dsimp only
      rw [parseU32_toDigits, parseU32_toDigits]
      simp [toDigits_ne_dash, Change.bare, Diff.summary]

end Change

theorem setCounts_append {front : List DiffFileSummary} {path : String}
    (h : path ∉ front.map (·.path)) (back : List DiffFileSummary) (adds dels : List Char) :
    setCounts (front ++ back) path adds dels = front ++ setCounts back path adds dels := by
  induction front with
  | nil => rfl
  | cons file front ih =>
      rw [List.map_cons, List.mem_cons, not_or] at h
      rw [List.cons_append, setCounts, if_neg (Ne.symm h.1), ih h.2, List.cons_append]

theorem applyRecords_plain {record : String} {adds dels name : List Char} (hrecord : record ≠ "")
    (hparts : splitn 3 '\t' record.toList = [adds, dels, name]) (hname : name ≠ [])
    (rest : List String) (files : List DiffFileSummary) :
    applyRecords (record :: rest) files =
      applyRecords rest (setCounts files (.ofList name) adds dels) := by
  cases name with
  | nil => exact absurd rfl hname
  | cons c name =>
      rw [applyRecords.eq_def]
      simp [hrecord, hparts]

theorem applyRecords_renamed {record old path : String} {adds dels : List Char}
    (hrecord : record ≠ "") (hparts : splitn 3 '\t' record.toList = [adds, dels, []])
    (rest : List String) (files : List DiffFileSummary) :
    applyRecords (record :: old :: path :: rest) files =
      applyRecords rest (setCounts files path adds dels) := by
  rw [applyRecords.eq_def]
  simp [hrecord, hparts]

theorem applyRecords_numstatFields (change : Change) (rest : List String)
    (files : List DiffFileSummary) :
    applyRecords (change.numstatFields.map decodeLossy ++ rest) files =
      applyRecords rest (setCounts files change.name.path change.countTexts.1
        change.countTexts.2) := by
  have hname : change.name.path.toList ≠ [] := by
    intro hnil
    exact decodeLossy_ne_empty change.name.nonempty (String.toList_inj.mp hnil)
  have hhead : ∀ tail : String, change.countHead ++ tail ≠ "" := by
    intro tail hempty
    have hlist := congrArg String.toList hempty
    simp [Change.countHead] at hlist
  unfold Change.numstatFields
  cases hold : change.kind.old with
  | none =>
      have hparts := change.splitn_countHead change.name.path.toList
      rw [← String.toList_append] at hparts
      rw [List.map_singleton, decodeLossy_encode_append, List.singleton_append]
      change applyRecords ((change.countHead ++ change.name.path) :: rest) files = _
      rw [applyRecords_plain (hhead _) hparts hname, String.ofList_toList]
  | some old =>
      have hparts := change.splitn_countHead []
      have hrecord : change.countHead ≠ "" := by simpa using hhead ""
      rw [List.append_nil] at hparts
      rw [List.map_cons, decodeLossy_encode]
      exact applyRecords_renamed hrecord hparts rest files

theorem applyRecords_numstat (changes : List Change) (done : List DiffFileSummary)
    (hnodup : (done.map (·.path) ++ changes.map (·.name.path)).Nodup) :
    applyRecords ((changes.flatMap Change.numstatFields).map decodeLossy ++ [""])
        (done ++ changes.map Change.bare) =
      done ++ changes.map Change.summary := by
  induction changes generalizing done with
  | nil => simp [applyRecords]
  | cons change changes ih =>
      have hfresh : change.name.path ∉ done.map (·.path) := by
        intro hmem
        exact (List.nodup_append.mp hnodup).2.2 _ hmem _ List.mem_cons_self rfl
      rw [List.flatMap_cons, List.map_append, List.append_assoc, applyRecords_numstatFields,
        List.map_cons, setCounts_append hfresh, change.setCounts_bare]
      have hnext : ((done ++ [change.summary]).map (·.path) ++
          changes.map (·.name.path)).Nodup := by
        rw [List.map_append, List.append_assoc]
        exact hnodup
      calc applyRecords ((changes.flatMap Change.numstatFields).map decodeLossy ++ [""])
            (done ++ change.summary :: changes.map Change.bare)
          = applyRecords ((changes.flatMap Change.numstatFields).map decodeLossy ++ [""])
            ((done ++ [change.summary]) ++ changes.map Change.bare) := by simp
        _ = (done ++ [change.summary]) ++ changes.map Change.summary := ih _ hnext
        _ = done ++ (change :: changes).map Change.summary := by simp

/-- **Change lists decode.** The two renderings of a list of changes with distinct new paths give the
list back: each file in its place, with its old path, its status and its own counts. A name that is
text is its own path. -/
theorem change_lists_decode (changes : List Change)
    (hdistinct : (changes.map (·.name.path)).Nodup) :
    applyNumstat (parseNameStatus (nameStatus changes)) (numstat changes) =
        changes.map Change.summary ∧
      ∀ (name : GitName) (text : String), name.bytes = encode text → name.path = text := by
  constructor
  · have hnul : ∀ field ∈ changes.flatMap Change.numstatFields, (0 : UInt8) ∉ field := by
      intro field hfield
      obtain ⟨change, -, hmem⟩ := List.mem_flatMap.mp hfield
      exact change.mem_numstatFields hmem
    rw [parseNameStatus_nameStatus, applyNumstat, numstat, splitOn_terminated hnul,
      List.map_append]
    exact applyRecords_numstat changes [] hdistinct
  · intro name text hbytes
    rw [GitName.path, hbytes, decodeLossy_encode]

/-- A rename to a name with a tab and a newline, and a binary file. -/
def oddNames : List Change :=
  [{ kind := .renamed ⟨[111, 108, 100], by decide, by decide⟩ 95
     name := ⟨[97, 9, 10, 98], by decide, by decide⟩, counts := some (3, 1) },
    { kind := .added, name := ⟨[98], by decide, by decide⟩, counts := none }]

theorem odd_names_decode :
    applyNumstat (parseNameStatus (nameStatus oddNames)) (numstat oddNames) =
      oddNames.map Change.summary :=
  (change_lists_decode oddNames (by decide)).1

end Zeron.Engine.Diff
