import Zeron.Engine.ChangeLists
import Zeron.Engine.PatchText
import Zeron.Ui.Text

/-!
# The patch parser

`parse_git_paths`, `parse_hunk_header` and `parse_patch` of `crates/ui/src/changes.rs`, and what
they read of the patches that the engine synthesizes for untracked files. Texts are lists of
characters.
-/

namespace Zeron.Ui

open Zeron.Doc (isWhitespace trim charLines chompLine trim_eq_self)
open Zeron.Engine.Diff

inductive LineKind where
  | context
  | add
  | del
  | metaLine

structure DiffLine where
  kind : LineKind
  oldNo : Option UInt32
  newNo : Option UInt32
  text : List Char

structure Hunk where
  header : List Char
  lines : List DiffLine

inductive FileStatus where
  | added
  | deleted
  | modified
  | renamed

structure FileDiff where
  path : List Char
  oldPath : Option (List Char)
  status : FileStatus
  binary : Bool
  notices : List (List Char)
  hunks : List Hunk
  additions : UInt32
  deletions : UInt32
  maxLine : UInt32

def FileDiff.new (path : List Char) (oldPath : Option (List Char)) : FileDiff :=
  { path, oldPath, status := .modified, binary := false, notices := [], hunks := [], additions := 0
    deletions := 0, maxLine := 0 }

/-! ## Texts -/

/-- `str::rfind` -/
def rfind (text : String) : List Char → Option Nat
  | [] => if text = "" then some 0 else none
  | c :: cs =>
      match rfind text cs with
      | some index => some (index + 1)
      | none => if startsWith text (c :: cs) then some 0 else none

/-- `str::replace` of a pair of characters. -/
def replacePair (first second new : Char) : List Char → List Char
  | c :: next :: cs =>
      if c = first ∧ next = second then new :: replacePair first second new cs
      else c :: replacePair first second new (next :: cs)
  | cs => cs

def stripGitPrefix (path : List Char) : List Char :=
  ((strip "a/" path).orElse fun _ => strip "b/" path).getD path

def unquote (s : List Char) : List Char :=
  let trimmed := trim s
  if 2 ≤ trimmed.length ∧ trimmed.head? = some '"' ∧ trimmed.getLast? = some '"' then
    replacePair '\\' '\\' '\\' (replacePair '\\' '"' '"' trimmed.tail.dropLast)
  else trimmed

def parseGitPaths (rest : List Char) : List Char × List Char :=
  match (rfind " b/" rest).orElse fun _ => rfind " \"b/" rest with
  | some index =>
      (stripGitPrefix (unquote (rest.take index)), stripGitPrefix (unquote (rest.drop (index + 1))))
  | none =>
      let path := stripGitPrefix (unquote rest)
      (path, path)

/-- The number behind the first `sign`. -/
def numberBehind (sign : Char) (rest : List Char) : Option UInt32 :=
  match rest.dropWhile (· ≠ sign) with
  | [] => none
  | _ :: behind => parseU32 (behind.takeWhile fun c => !(c == ',' || isWhitespace c))

def parseHunkHeader (line : List Char) : Option (UInt32 × UInt32) :=
  (strip "@@" line).bind fun rest =>
    (numberBehind '-' rest).bind fun old => (numberBehind '+' rest).map fun new => (old, new)

/-! ## The parser -/

/-- Where `parse_patch` is in a hunk. -/
structure Cursor where
  inHunk : Bool
  oldNo : UInt32
  newNo : UInt32

namespace FileDiff

def header (file : FileDiff) (raw : List Char) : FileDiff :=
  if startsWith "new file mode" raw then { file with status := .added }
  else if startsWith "deleted file mode" raw then { file with status := .deleted }
  else if startsWith "rename from " raw then
    { file with status := .renamed, oldPath := some (trim (raw.drop 12)) }
  else if startsWith "rename to " raw then
    { file with status := .renamed, path := trim (raw.drop 10) }
  else if startsWith "Binary files" raw || startsWith "GIT binary patch" raw then
    { file with binary := true }
  else if startsWith "new mode " raw then
    { file with notices := file.notices ++ ["Mode changed to ".toList ++ trim (raw.drop 9)] }
  else if startsWith "+++ " raw then
    let new := trim (raw.drop 4)
    if new = "/dev/null".toList then { file with status := .deleted }
    else if file.oldPath = none then { file with path := stripGitPrefix new }
    else file
  else if startsWith "--- " raw && trim (raw.drop 4) = "/dev/null".toList then
    { file with status := .added }
  else file

/-- `hunk.lines.push`, with the largest line number; `none` without a hunk. -/
def pushLine (file : FileDiff) (line : DiffLine) : Option FileDiff :=
  match file.hunks.getLast? with
  | none => none
  | some hunk =>
      some { file with
        maxLine := max (max file.maxLine (line.oldNo.getD 0)) (line.newNo.getD 0)
        hunks := file.hunks.dropLast ++ [{ hunk with lines := hunk.lines ++ [line] }] }

/-- The line of a hunk, with the counters behind it; `none` for a line that ends the hunk. -/
def hunkLine (file : FileDiff) (cursor : Cursor) (raw : List Char) :
    Option (DiffLine × FileDiff × Cursor) :=
  match raw with
  | '+' :: text =>
      some (⟨.add, none, some cursor.newNo, text⟩, { file with additions := file.additions + 1 },
        { cursor with newNo := cursor.newNo + 1 })
  | '-' :: text =>
      some (⟨.del, some cursor.oldNo, none, text⟩, { file with deletions := file.deletions + 1 },
        { cursor with oldNo := cursor.oldNo + 1 })
  | [] | ' ' :: _ =>
      some (⟨.context, some cursor.oldNo, some cursor.newNo, raw.tail⟩, file,
        { cursor with oldNo := cursor.oldNo + 1, newNo := cursor.newNo + 1 })
  | '\\' :: _ => some (⟨.metaLine, none, none, trim (raw.dropWhile (· = '\\'))⟩, file, cursor)
  | _ => none

def feed (file : FileDiff) (cursor : Cursor) (raw : List Char) : FileDiff × Cursor :=
  if startsWith "@@" raw then
    match parseHunkHeader raw with
    | none => (file, cursor)
    | some (old, new) =>
        ({ file with hunks := file.hunks ++ [⟨raw, []⟩] }, ⟨true, old, new⟩)
  else if cursor.inHunk then
    match file.hunkLine cursor raw with
    | none => (file.header raw, { cursor with inHunk := false })
    | some (line, counted, next) => ((counted.pushLine line).getD counted, next)
  else (file.header raw, cursor)

end FileDiff

def parseLine (state : List FileDiff × Cursor) (raw : List Char) : List FileDiff × Cursor :=
  match strip "diff --git " raw with
  | some rest =>
      let (old, new) := parseGitPaths rest
      (state.1 ++ [.new new (if old ≠ new then some old else none)],
        { state.2 with inHunk := false })
  | none =>
      match state.1.getLast? with
      | none => state
      | some file =>
          let (file, cursor) := file.feed state.2 raw
          (state.1.dropLast ++ [file], cursor)

def parsePatch (patch : List Char) : List FileDiff :=
  ((charLines [] patch).foldl parseLine ([], ⟨false, 0, 0⟩)).1

def FileDiff.lines (file : FileDiff) : List DiffLine := file.hunks.flatMap (·.lines)

/-! ## One file -/

theorem chompLine_of_not_mem {line : List Char} (h : '\r' ∉ line) : chompLine line = line := by
  unfold chompLine
  rw [if_neg]
  intro hlast
  exact h (List.mem_of_getLast? hlast)

theorem chompLine_plus (line : List Char) : chompLine ('+' :: line) = '+' :: chompLine line := by
  cases line with
  | nil => rfl
  | cons c line =>
      unfold chompLine
      rw [List.getLast?_cons_cons]
      split_ifs <;> rfl

theorem foldl_parseLine {lines : List (List Char)}
    (h : ∀ line ∈ lines, strip "diff --git " line = none) (front : List FileDiff)
    (file : FileDiff) (cursor : Cursor) :
    lines.foldl parseLine (front ++ [file], cursor) =
      (front ++ [(lines.foldl (fun state raw => state.1.feed state.2 raw) (file, cursor)).1],
        (lines.foldl (fun state raw => state.1.feed state.2 raw) (file, cursor)).2) := by
  induction lines generalizing file cursor with
  | nil => rfl
  | cons line lines ih =>
      have hline := h line List.mem_cons_self
      have hlines := ih fun other hother => h other (List.mem_cons_of_mem _ hother)
      rw [List.foldl_cons, List.foldl_cons, ← hlines]
      congr 1
      simp [parseLine, hline]

namespace FileDiff

theorem feed_hunkLine {file counted : FileDiff} {cursor next : Cursor} {raw : List Char}
    {line : DiffLine} (hhunk : startsWith "@@" raw = false) (hin : cursor.inHunk = true)
    (h : file.hunkLine cursor raw = some (line, counted, next)) :
    file.feed cursor raw = ((counted.pushLine line).getD counted, next) := by
  rw [feed, hhunk, hin, h]
  rfl

theorem pushLine_eq (file : FileDiff) (line : DiffLine) (h : file.hunks ≠ []) :
    ∃ pushed, file.pushLine line = some pushed ∧ pushed.path = file.path ∧
      pushed.oldPath = file.oldPath ∧ pushed.status = file.status ∧
        pushed.additions = file.additions ∧ pushed.lines = file.lines ++ [line] ∧
          pushed.hunks ≠ [] := by
  obtain ⟨front, hunk, hhunks⟩ := (List.eq_nil_or_concat' file.hunks).resolve_left h
  have hlast : file.hunks.getLast? = some hunk := by rw [hhunks, List.getLast?_concat]
  have hpush : file.pushLine line = some { file with
      maxLine := max (max file.maxLine (line.oldNo.getD 0)) (line.newNo.getD 0)
      hunks := file.hunks.dropLast ++ [{ hunk with lines := hunk.lines ++ [line] }] } := by
    rw [pushLine, hlast]
  refine ⟨_, hpush, rfl, rfl, rfl, rfl, ?_, by simp⟩
  simp [lines, hhunks]

theorem feed_added {file : FileDiff} {cursor : Cursor} (hin : cursor.inHunk = true)
    (hhunks : file.hunks ≠ []) (text : List Char) :
    ∃ fed next, file.feed cursor ('+' :: text) = (fed, next) ∧ next.inHunk = true ∧
      fed.hunks ≠ [] ∧ fed.path = file.path ∧ fed.oldPath = file.oldPath ∧
        fed.status = file.status ∧ fed.additions = file.additions + 1 ∧
          fed.lines = file.lines ++ [⟨.add, none, some cursor.newNo, text⟩] := by
  have hfeed : file.feed cursor ('+' :: text) = _ := feed_hunkLine rfl hin rfl
  obtain ⟨pushed, hpush, hpath, hold, hstatus, hadd, hlines, hne⟩ := pushLine_eq
    { file with additions := file.additions + 1 } ⟨.add, none, some cursor.newNo, text⟩ hhunks
  rw [hpush] at hfeed
  exact ⟨pushed, _, hfeed, hin, hne, hpath, hold, hstatus, hadd, hlines⟩

theorem foldl_feed_added {file : FileDiff} {cursor : Cursor} (hin : cursor.inHunk = true)
    (hhunks : file.hunks ≠ []) (texts : List (List Char)) :
    ∃ fed next, (texts.map ('+' :: ·)).foldl (fun state raw => state.1.feed state.2 raw)
        (file, cursor) = (fed, next) ∧
      fed.path = file.path ∧ fed.oldPath = file.oldPath ∧ fed.status = file.status ∧
        fed.additions = file.additions + .ofNat texts.length ∧
          fed.lines.map (fun line => (line.kind, line.text)) =
            file.lines.map (fun line => (line.kind, line.text)) ++
              texts.map fun text => (LineKind.add, text) := by
  induction texts generalizing file cursor with
  | nil => exact ⟨file, cursor, rfl, rfl, rfl, rfl, by simp, by simp⟩
  | cons text texts ih =>
      obtain ⟨fed, next, hfeed, hnext, hne, hpath, hold, hstatus, hadd, hlines⟩ :=
        feed_added hin hhunks text
      obtain ⟨last, final, hfold, hpath', hold', hstatus', hadd', hlines'⟩ := ih hnext hne
      refine ⟨last, final, ?_, hpath'.trans hpath, hold'.trans hold, hstatus'.trans hstatus, ?_, ?_⟩
      · rw [List.map_cons, List.foldl_cons]
        dsimp only
        rw [hfeed, hfold]
      · rw [hadd', hadd, List.length_cons, UInt32.ofNat_add]
        rw [UInt32.add_assoc, UInt32.add_comm 1]
        rfl
      · rw [hlines', hlines]
        simp

end FileDiff

/-! ## The header of a synthesized patch -/

theorem rfind_eq_none {text : String} {c : Char} (hc : text.toList.head? = some c) {cs : List Char}
    (h : c ∉ cs) : rfind text cs = none := by
  have hne : text ≠ "" := by
    rintro rfl
    cases hc
  induction cs with
  | nil => rw [rfind, if_neg hne]
  | cons d cs ih =>
      rw [List.mem_cons, not_or] at h
      rw [rfind, ih h.2]
      dsimp only
      rw [startsWith_of_head (by simp [hc, h.1])]
      rfl

theorem rfind_append {text : String} {back : List Char} {index : Nat}
    (h : rfind text back = some index) (front : List Char) :
    rfind text (front ++ back) = some (front.length + index) := by
  induction front with
  | nil => simpa using h
  | cons c front ih =>
      rw [List.cons_append, rfind, ih]
      simp only [List.length_cons, Option.some.injEq]
      omega

theorem hunkHeader_eq (count : Nat) : hunkHeader count =
    "@@".toList ++ (" -0,0 +1,".toList ++ (Nat.toDigits 10 count ++ " @@".toList)) := by
  have htexts : "@@ -0,0 +1,".toList = "@@".toList ++ " -0,0 +1,".toList := by decide
  unfold hunkHeader
  simp only [htexts, List.append_assoc]

theorem parseHunkHeader_hunkHeader (count : Nat) :
    parseHunkHeader (hunkHeader count) = some (0, 1) := by
  have hbehind : " -0,0 +1,".toList = [' ', '-', '0', ',', '0', ' ', '+', '1', ','] := by decide
  have hzero : parseU32 ['0'] = some 0 := by decide
  have hone : parseU32 ['1'] = some 1 := by decide
  have hdigit : isWhitespace '0' = false ∧ isWhitespace '1' = false := by decide
  rw [parseHunkHeader, hunkHeader_eq, strip_append, hbehind]
  simp [numberBehind, List.dropWhile, List.takeWhile, hdigit, hzero, hone]

/-- A path that the engine writes without quotes. -/
def Plain (path : List Char) : Prop := needsQuotes path = false

instance (path : List Char) : Decidable (Plain path) :=
  inferInstanceAs (Decidable (needsQuotes path = false))

variable {path : List Char}

theorem not_isWhitespace_of_plain (h : Plain path) {c : Char} (hc : c ∈ path) :
    isWhitespace c = false ∧ c ≠ '"' := by
  have hnone := List.any_eq_false.mp h c hc
  simp only [Bool.or_eq_true, beq_iff_eq, not_or, Bool.not_eq_true] at hnone
  exact hnone.1

theorem plain_cons {c : Char} (hc : needsQuotes [c] = false) :
    Plain (c :: path) ↔ Plain path := by
  unfold Plain needsQuotes at *
  rw [List.any_cons, Bool.or_eq_false_iff]
  rw [List.any_cons, List.any_nil, Bool.or_false] at hc
  simp [hc]

theorem trim_of_plain (h : Plain path) : trim path = path := by
  apply trim_eq_self
  · intro c hc
    exact (not_isWhitespace_of_plain h (List.mem_of_mem_head? hc)).1
  · intro c hc
    exact (not_isWhitespace_of_plain h (List.mem_of_getLast? hc)).1

theorem unquote_of_plain (h : Plain path) : unquote path = path := by
  rw [unquote, trim_of_plain h, if_neg]
  rintro ⟨-, hhead, -⟩
  exact (not_isWhitespace_of_plain h (List.mem_of_mem_head? hhead)).2 rfl

theorem parseGitPaths_plain (h : Plain path) :
    parseGitPaths (('a' :: '/' :: path) ++ ' ' :: 'b' :: '/' :: path) = (path, path) := by
  have ha : Plain ('a' :: '/' :: path) :=
    (plain_cons (by decide)).mpr ((plain_cons (by decide)).mpr h)
  have hb : Plain ('b' :: '/' :: path) :=
    (plain_cons (by decide)).mpr ((plain_cons (by decide)).mpr h)
  have hspace : ' ' ∉ 'b' :: '/' :: path := by
    intro hmem
    exact absurd (not_isWhitespace_of_plain hb hmem).1 (by decide)
  have hfind : rfind " b/" (' ' :: 'b' :: '/' :: path) = some 0 := by
    rw [rfind, rfind_eq_none (c := ' ') rfl hspace]
    rfl
  have hrfind := rfind_append hfind ('a' :: '/' :: path)
  rw [Nat.add_zero] at hrfind
  have hdrop : List.drop (('a' :: '/' :: path).length + 1)
      (('a' :: '/' :: path) ++ ' ' :: 'b' :: '/' :: path) = 'b' :: '/' :: path := by
    rw [← List.drop_drop, List.drop_left]
    rfl
  rw [parseGitPaths, hrfind]
  change (stripGitPrefix (unquote (List.take _ _)), stripGitPrefix (unquote (List.drop _ _))) = _
  rw [List.take_left, hdrop, unquote_of_plain ha, unquote_of_plain hb]
  rfl

theorem trim_quote (cs : List Char) : trim (Zeron.Lib.JsonString.quote cs) =
    Zeron.Lib.JsonString.quote cs := by
  apply trim_eq_self
  · intro c hc
    cases hc
    decide
  · intro c hc
    rw [Zeron.Lib.JsonString.quote, ← List.cons_append, List.getLast?_concat] at hc
    cases hc
    decide

theorem stripGitPrefix_trim (path : List Char) :
    stripGitPrefix (trim (quotePatchPath ('b' :: '/' :: path))) =
        (if needsQuotes path then quotePatchPath ('b' :: '/' :: path) else path) ∧
      trim (quotePatchPath ('b' :: '/' :: path)) ≠ "/dev/null".toList := by
  have hneeds : needsQuotes ('b' :: '/' :: path) = needsQuotes path := rfl
  unfold quotePatchPath
  rw [hneeds]
  cases hquotes : needsQuotes path with
  | true =>
      simp only [if_true]
      rw [trim_quote]
      exact ⟨rfl, by simp [Zeron.Lib.JsonString.quote]⟩
  | false =>
      have hplain : Plain ('b' :: '/' :: path) := hneeds.trans hquotes
      simp only [Bool.false_eq_true, if_false]
      rw [trim_of_plain hplain]
      exact ⟨rfl, by simp⟩

namespace FileDiff

variable (file : FileDiff)

theorem header_newFile :
    file.header "new file mode 100644".toList = { file with status := .added } := by
  rw [header, if_pos (by decide)]

theorem header_devNull : file.header "--- /dev/null".toList = { file with status := .added } := by
  have htrim : trim ("--- /dev/null".toList.drop 4) = "/dev/null".toList := by decide
  unfold header
  rw [htrim]
  simp [startsWith]

theorem header_plus (b : List Char) (hb : trim b ≠ "/dev/null".toList) :
    file.header ("+++ ".toList ++ b) =
      { file with path := if file.oldPath = none then stripGitPrefix (trim b) else file.path } := by
  have htext : "+++ ".toList ++ b = '+' :: '+' :: '+' :: ' ' :: b := by simp
  have hdrop : ('+' :: '+' :: '+' :: ' ' :: b).drop 4 = b := rfl
  have hheader : file.header ('+' :: '+' :: '+' :: ' ' :: b) =
      if file.oldPath = none then { file with path := stripGitPrefix (trim b) } else file := by
    rw [header, hdrop]
    dsimp only
    rw [if_neg hb]
    simp [startsWith]
  rw [htext, hheader]
  split_ifs <;> rfl

theorem feed_header {cursor : Cursor} {raw : List Char} (hhunk : startsWith "@@" raw = false)
    (hin : cursor.inHunk = false) : file.feed cursor raw = (file.header raw, cursor) := by
  rw [feed, hhunk, hin]
  rfl

end FileDiff

def firstPaths (path : List Char) : List Char × List Char :=
  parseGitPaths (quotePatchPath ('a' :: '/' :: path) ++ ' ' :: quotePatchPath ('b' :: '/' :: path))

def firstOldPath (path : List Char) : Option (List Char) :=
  if (firstPaths path).1 ≠ (firstPaths path).2 then some (firstPaths path).1 else none

/-- The file after the lines above the body of a synthesized patch. -/
def headerFile (path content : List Char) : FileDiff :=
  { FileDiff.new
      (if firstOldPath path = none then stripGitPrefix (trim (quotePatchPath ('b' :: '/' :: path)))
       else (firstPaths path).2) (firstOldPath path) with
    status := .added
    hunks := [⟨hunkHeader (contentLines content).length, []⟩] }

theorem foldl_feed_header (path content : List Char) (cursor : Cursor)
    (hin : cursor.inHunk = false) :
    ["new file mode 100644".toList, "--- /dev/null".toList,
        "+++ ".toList ++ quotePatchPath ('b' :: '/' :: path),
        hunkHeader (contentLines content).length].foldl
        (fun state raw => state.1.feed state.2 raw)
        (FileDiff.new (firstPaths path).2 (firstOldPath path), cursor) =
      (headerFile path content, ⟨true, 0, 1⟩) := by
  have hplus : startsWith "@@" ("+++ ".toList ++ quotePatchPath ('b' :: '/' :: path)) = false :=
    startsWith_of_head (c := '+') (by decide)
  have hhunk : startsWith "@@" (hunkHeader (contentLines content).length) = true := by
    rw [hunkHeader_eq]
    exact startsWith_append "@@" _
  simp only [List.foldl_cons, List.foldl_nil]
  rw [FileDiff.feed_header _ (by decide) hin, FileDiff.header_newFile,
    FileDiff.feed_header _ (by decide) hin, FileDiff.header_devNull,
    FileDiff.feed_header _ hplus hin, FileDiff.header_plus _ _ (stripGitPrefix_trim path).2,
    FileDiff.feed, hhunk, parseHunkHeader_hunkHeader]
  rfl

/-! ## The body of a synthesized patch -/

/-- The lines below the header of the hunk, as they are read. -/
def readLines (content : List Char) : List (List Char) := (bodyLines content).map chompLine

theorem map_chompLine_patchLines (path content : List Char) :
    (patchLines path content).map chompLine =
      ("diff --git ".toList ++ (quotePatchPath ('a' :: '/' :: path) ++
          ' ' :: quotePatchPath ('b' :: '/' :: path))) ::
        (["new file mode 100644".toList, "--- /dev/null".toList,
          "+++ ".toList ++ quotePatchPath ('b' :: '/' :: path),
          hunkHeader (contentLines content).length] ++ readLines content) := by
  have ha := control_not_mem_quotePatchPath (c := '\r') (by decide) (by decide) ('a' :: '/' :: path)
  have hb := control_not_mem_quotePatchPath (c := '\r') (by decide) (by decide) ('b' :: '/' :: path)
  have hfirst : '\r' ∉ "diff --git ".toList ++ (quotePatchPath ('a' :: '/' :: path) ++
      ' ' :: quotePatchPath ('b' :: '/' :: path)) := by
    simp only [List.mem_append, List.mem_cons, not_or]
    exact ⟨by decide, ha, by decide, hb⟩
  have hplus : '\r' ∉ "+++ ".toList ++ quotePatchPath ('b' :: '/' :: path) := by
    simp only [List.mem_append, not_or]
    exact ⟨by decide, hb⟩
  have hheader :=
    not_mem_hunkHeader (c := '\r') (by decide) (by decide) (contentLines content).length
  unfold patchLines
  rw [List.append_assoc]
  simp only [List.map_cons, List.cons_append, List.nil_append]
  rw [chompLine_of_not_mem hfirst, chompLine_of_not_mem (by decide),
    chompLine_of_not_mem (by decide), chompLine_of_not_mem hplus, chompLine_of_not_mem hheader]
  rfl

theorem readLines_eq {content : List Char} (h : content ≠ []) :
    readLines content = ((contentLines content).map chompLine).map ('+' :: ·) := by
  rw [readLines, bodyLines, if_neg (mt contentLines_eq_nil_iff.mp h), List.map_map, List.map_map]
  exact List.map_congr_left fun line _ => chompLine_plus line

theorem strip_of_head {c : Char} (hc : c ≠ 'd') (cs : List Char) :
    strip "diff --git " (c :: cs) = none := by
  rw [strip, startsWith_of_head]
  · rfl
  · simpa using Ne.symm hc

theorem strip_eq_none {path content line : List Char}
    (h : line ∈ ["new file mode 100644".toList, "--- /dev/null".toList,
      "+++ ".toList ++ quotePatchPath ('b' :: '/' :: path),
      hunkHeader (contentLines content).length] ++ readLines content) :
    strip "diff --git " line = none := by
  obtain h | h := List.mem_append.mp h
  · simp only [List.mem_cons, List.not_mem_nil, or_false] at h
    obtain rfl | rfl | rfl | rfl := h
    · decide
    · decide
    · exact strip_of_head (c := '+') (by decide) _
    · rw [hunkHeader_eq]
      exact strip_of_head (c := '@') (by decide) _
  · by_cases hcontent : content = []
    · subst hcontent
      have hline : line = chompLine [] := by simpa [readLines, bodyLines, contentLines] using h
      rw [hline]
      rfl
    · rw [readLines_eq hcontent] at h
      obtain ⟨text, -, rfl⟩ := List.mem_map.mp h
      exact strip_of_head (by decide) text

/-! ## Reading back -/

def readBack (path content : List Char) : FileDiff :=
  ((readLines content).foldl (fun state raw => state.1.feed state.2 raw)
    (headerFile path content, ⟨true, 0, 1⟩)).1

theorem parsePatch_appendPatch {patch : List Char} (h : Complete patch) (path content : List Char) :
    parsePatch (appendPatch patch (untrackedPatch path content)) =
      parsePatch patch ++ [readBack path content] := by
  unfold parsePatch
  rw [charLines_appendPatch h, List.foldl_append, map_chompLine_patchLines]
  generalize (charLines [] patch).foldl parseLine ([], ⟨false, 0, 0⟩) = state
  rw [List.foldl_cons, parseLine, strip_append]
  change (List.foldl parseLine (state.1 ++ [FileDiff.new (firstPaths path).2 (firstOldPath path)],
    { state.2 with inHunk := false }) _).1 = _
  rw [foldl_parseLine (fun line hline => strip_eq_none hline), List.foldl_append,
    foldl_feed_header path content _ rfl]
  rfl

theorem readBack_of_ne_nil {content : List Char} (h : content ≠ []) (path : List Char) :
    (readBack path content).path = (headerFile path content).path ∧
      (readBack path content).oldPath = firstOldPath path ∧
        (readBack path content).status = .added ∧
          (readBack path content).additions = additionsOf content ∧
            (readBack path content).lines.map (fun line => (line.kind, line.text)) =
              (contentLines content).map fun line => (.add, chompLine line) := by
  obtain ⟨fed, next, hfold, hpath, hold, hstatus, hadd, hlines⟩ :=
    @FileDiff.foldl_feed_added (headerFile path content) ⟨true, 0, 1⟩ rfl (by simp [headerFile])
      ((contentLines content).map chompLine)
  have hread : readBack path content = fed := by rw [readBack, readLines_eq h, hfold]
  rw [hread]
  refine ⟨hpath, hold, hstatus, ?_, ?_⟩
  · rw [hadd, additionsOf_eq, List.length_map]
    exact UInt32.zero_add _
  · rw [hlines, List.map_map]
    rfl

theorem readBack_nil (path : List Char) :
    (readBack path []).lines = [⟨.context, some 0, some 1, []⟩] := rfl

theorem chompLine_eq_self_iff {line : List Char} :
    chompLine line = line ↔ line.getLast? ≠ some '\r' := by
  unfold chompLine
  split_ifs with hlast
  · refine iff_of_false ?_ (not_not_intro hlast)
    intro heq
    have hlength := congrArg List.length heq
    have hne : line ≠ [] := by
      rintro rfl
      cases hlast
    rw [List.length_dropLast] at hlength
    have := List.length_pos_of_ne_nil hne
    omega
  · exact iff_of_true rfl hlast

theorem quote_ne (front path : List Char) :
    Zeron.Lib.JsonString.quote (front ++ path) ≠ path := by
  intro heq
  have hlength := congrArg List.length heq
  have := Zeron.Lib.JsonString.length_le_length_escape (front ++ path)
  rw [Zeron.Lib.JsonString.quote, List.length_cons, List.length_append] at hlength
  rw [List.length_append] at this
  omega

theorem headerFile_path_eq_iff {path content : List Char} (h : firstOldPath path = none) :
    (headerFile path content).path = path ↔ Plain path := by
  have hpath : (headerFile path content).path =
      stripGitPrefix (trim (quotePatchPath ('b' :: '/' :: path))) := by
    simp [headerFile, FileDiff.new, h]
  rw [hpath, (stripGitPrefix_trim path).1]
  unfold Plain
  cases hquotes : needsQuotes path with
  | true =>
      have hquoted : quotePatchPath ('b' :: '/' :: path) =
          Zeron.Lib.JsonString.quote (['b', '/'] ++ path) := if_pos hquotes
      simpa [hquoted] using quote_ne ['b', '/'] path
  | false => simp

theorem firstOldPath_of_plain (h : Plain path) : firstOldPath path = none := by
  have ha : quotePatchPath ('a' :: '/' :: path) = 'a' :: '/' :: path := by
    have hplain : Plain ('a' :: '/' :: path) :=
      (plain_cons (by decide)).mpr ((plain_cons (by decide)).mpr h)
    rw [quotePatchPath, hplain]
    rfl
  have hb : quotePatchPath ('b' :: '/' :: path) = 'b' :: '/' :: path := by
    have hplain : Plain ('b' :: '/' :: path) :=
      (plain_cons (by decide)).mpr ((plain_cons (by decide)).mpr h)
    rw [quotePatchPath, hplain]
    rfl
  rw [firstOldPath, firstPaths, ha, hb, parseGitPaths_plain h]
  simp

/-- The new file of a synthesized patch is parsed as it is: its path, its lines, their count. -/
def ParsesBack (patch path content : List Char) : Prop :=
  ∃ file,
    parsePatch (appendPatch patch (untrackedPatch path content)) = parsePatch patch ++ [file] ∧
    file.path = path ∧ file.status = .added ∧ file.oldPath = none ∧
      file.lines.map (fun line => (line.kind, line.text)) =
        (contentLines content).map (fun line => (.add, line)) ∧
          file.additions = additionsOf content

/-- Exactly the paths without quotes and the texts of one or more lines, none of which ends with a
carriage return, are parsed back. -/
theorem synthesized_patch_parses_back {patch : List Char} (h : Complete patch)
    (path content : List Char) :
    ParsesBack patch path content ↔
      Plain path ∧ content ≠ [] ∧ ∀ line ∈ contentLines content, line.getLast? ≠ some '\r' := by
  unfold ParsesBack
  rw [parsePatch_appendPatch h]
  constructor
  · rintro ⟨file, hfile, hpath, hstatus, hold, hlines, hadd⟩
    obtain rfl : readBack path content = file := by simpa using hfile
    have hcontent : content ≠ [] := by
      rintro rfl
      rw [readBack_nil] at hlines
      cases hlines
    obtain ⟨hreadPath, hreadOld, -, -, hreadLines⟩ := readBack_of_ne_nil hcontent path
    refine ⟨?_, hcontent, ?_⟩
    · rw [hreadOld] at hold
      rwa [hreadPath, headerFile_path_eq_iff hold] at hpath
    · intro line hline
      rw [hreadLines, List.map_inj_left] at hlines
      have hpair := hlines line hline
      exact chompLine_eq_self_iff.mp (Prod.mk.inj hpair).2
  · rintro ⟨hplain, hcontent, hreturn⟩
    obtain ⟨hreadPath, hreadOld, hreadStatus, hreadAdd, hreadLines⟩ :=
      readBack_of_ne_nil hcontent path
    have hold := firstOldPath_of_plain hplain
    refine ⟨_, rfl, ?_, hreadStatus, hreadOld.trans hold, ?_, hreadAdd⟩
    · rw [hreadPath, headerFile_path_eq_iff hold]
      exact hplain
    · rw [hreadLines]
      apply List.map_congr_left
      intro line hline
      rw [chompLine_eq_self_iff.mpr (hreturn line hline)]

/-- A text with lines like those of a header, behind the patch of another file. -/
theorem header_like_lines_parse_back :
    ParsesBack "diff --git a/x b/x\n@@ -1 +1 @@\n-a\n+b\n".toList "src/ü.rs".toList
      "++ /dev/null\n@@ -1 +1 @@\n\ndiff --git a/y b/y".toList :=
  (synthesized_patch_parses_back (.inr (by decide)) _ _).mpr (by decide +kernel)

/-- The quotes around a path with a space are taken for a part of it. -/
theorem quoted_path_misread :
    (parsePatch (appendPatch [] (untrackedPatch "a b".toList "x\n".toList))).map (·.path) =
        ["\"b/a b\"".toList] ∧
      ¬ ParsesBack [] "a b".toList "x\n".toList := by
  have hpaths :
      (parsePatch (appendPatch [] (untrackedPatch "a b".toList "x\n".toList))).map (·.path) =
        ["\"b/a b\"".toList] := by decide +kernel
  refine ⟨hpaths, ?_⟩
  rintro ⟨file, hfile, hpath, -⟩
  rw [hfile, List.map_append, List.map_singleton, hpath] at hpaths
  revert hpaths
  decide +kernel

end Zeron.Ui
