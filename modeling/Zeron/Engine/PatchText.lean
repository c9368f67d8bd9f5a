import Zeron.Doc.Rebuild
import Zeron.Lib.JsonString

/-!
# Synthesized patches

`quote_patch_path` and `untracked_patch` of `crates/engine/src/diff_sync.rs`: an untracked file as a
hunk of a new file. Texts are lists of characters.
-/

namespace Zeron.Engine.Diff

open Zeron.Doc (isWhitespace charLines chompLine)
open Zeron.Lib.JsonString (quote)

/-- The path holds white space, a quote or a backslash. -/
def needsQuotes (path : List Char) : Bool :=
  path.any fun c => isWhitespace c || c == '"' || c == '\\'

def quotePatchPath (path : List Char) : List Char := if needsQuotes path then quote path else path

/-- `content.split('\n')`, without the empty piece behind a final newline. -/
def contentLines (content : List Char) : List (List Char) :=
  let lines := content.splitOn '\n'
  if lines.getLast? = some [] then lines.dropLast else lines

def hunkHeader (count : Nat) : List Char :=
  "@@ -0,0 +1,".toList ++ Nat.toDigits 10 count ++ " @@".toList

def untrackedPatch (path content : List Char) : List Char :=
  let lines := contentLines content
  let body := ['\n'].intercalate (lines.map fun line => '+' :: line)
  let a := quotePatchPath ('a' :: '/' :: path)
  let b := quotePatchPath ('b' :: '/' :: path)
  "diff --git ".toList ++ a ++ ' ' :: b ++
    "\nnew file mode 100644\n--- /dev/null\n+++ ".toList ++ b ++ '\n' ::
    hunkHeader lines.length ++ '\n' :: body ++ ['\n']

/-- The additions of the file in the summary: `usize as u32`. -/
def additionsOf (text : List Char) : UInt32 :=
  if text = [] then 0
  else .ofNat ((text.splitOn '\n').length - if text.getLast? = some '\n' then 1 else 0)

/-- The patch so far gets its newline before the next file. -/
def appendPatch (patch addition : List Char) : List Char :=
  (if patch ≠ [] ∧ patch.getLast? ≠ some '\n' then patch ++ ['\n'] else patch) ++ addition

/-! ## The lines of a patch -/

def terminatedLines (lines : List (List Char)) : List Char :=
  lines.flatMap fun line => line ++ ['\n']

theorem charLines_append_newline {line : List Char} (h : '\n' ∉ line) (begun rest : List Char) :
    charLines begun (line ++ '\n' :: rest) = chompLine (begun ++ line) :: charLines [] rest := by
  induction line generalizing begun with
  | nil => rw [List.nil_append, charLines, if_pos rfl, List.append_nil]
  | cons c line ih =>
      rw [List.mem_cons, not_or] at h
      rw [List.cons_append, charLines, if_neg (Ne.symm h.1), ih h.2, List.append_assoc]
      rfl

theorem charLines_terminatedLines {lines : List (List Char)} (h : ∀ line ∈ lines, '\n' ∉ line)
    (rest : List Char) :
    charLines [] (terminatedLines lines ++ rest) = lines.map chompLine ++ charLines [] rest := by
  induction lines with
  | nil => rfl
  | cons line lines ih =>
      have hline := h line List.mem_cons_self
      have hlines := ih fun other hother => h other (List.mem_cons_of_mem _ hother)
      calc charLines [] (terminatedLines (line :: lines) ++ rest)
          = charLines [] (line ++ '\n' :: (terminatedLines lines ++ rest)) := by
            simp [terminatedLines]
        _ = chompLine line :: charLines [] (terminatedLines lines ++ rest) :=
            charLines_append_newline hline [] _
        _ = (line :: lines).map chompLine ++ charLines [] rest := by rw [hlines]; rfl

def Complete (text : List Char) : Prop := text = [] ∨ text.getLast? = some '\n'

theorem terminatedLines_append (front back : List (List Char)) :
    terminatedLines (front ++ back) = terminatedLines front ++ terminatedLines back :=
  List.flatMap_append

theorem complete_terminatedLines (lines : List (List Char)) : Complete (terminatedLines lines) := by
  obtain rfl | ⟨front, line, rfl⟩ := lines.eq_nil_or_concat'
  · exact .inl rfl
  · right
    rw [terminatedLines_append]
    simp [terminatedLines]

theorem terminatedLines_splitOn (text : List Char) :
    terminatedLines (text.splitOn '\n') = text ++ ['\n'] := by
  induction text with
  | nil => rfl
  | cons c text ih =>
      rw [List.splitOn_cons_eq_if_modifyHead]
      split_ifs with hc
      · rw [beq_iff_eq] at hc
        subst hc
        exact congrArg ('\n' :: ·) ih
      · cases hpieces : text.splitOn '\n' with
        | nil => exact absurd hpieces (List.splitOn_ne_nil _ _)
        | cons piece pieces =>
            rw [hpieces] at ih
            exact congrArg (c :: ·) ih

theorem newline_not_mem_of_mem_splitOn {text piece : List Char} (h : piece ∈ text.splitOn '\n') :
    '\n' ∉ piece := by
  induction text generalizing piece with
  | nil =>
      rw [List.splitOn_nil, List.mem_singleton] at h
      simp [h]
  | cons c text ih =>
      rw [List.splitOn_cons_eq_if_modifyHead] at h
      split_ifs at h with hc
      · obtain rfl | h := List.mem_cons.mp h
        · simp
        · exact ih h
      · cases hpieces : text.splitOn '\n' with
        | nil => exact absurd hpieces (List.splitOn_ne_nil _ _)
        | cons first pieces =>
            rw [hpieces] at h ih
            obtain rfl | h := List.mem_cons.mp h
            · have hfirst := ih List.mem_cons_self
              simpa [Ne.symm (by simpa using hc : c ≠ '\n')] using hfirst
            · exact ih (List.mem_cons_of_mem _ h)

variable {text : List Char}

theorem splitOn_of_complete (h : Complete text) :
    text.splitOn '\n' = contentLines text ++ [[]] := by
  have hlast : ∃ front, text.splitOn '\n' = front ++ [[]] := by
    obtain rfl | hnewline := h
    · exact ⟨[], rfl⟩
    · obtain ⟨front, rfl⟩ := List.getLast?_eq_some_iff.mp hnewline
      exact ⟨front.splitOn '\n', List.splitOn_append_cons_of_beq front [] rfl⟩
  obtain ⟨front, hfront⟩ := hlast
  simp [contentLines, hfront]

theorem terminatedLines_of_complete (h : Complete text) :
    terminatedLines (contentLines text) = text := by
  have hsplit := terminatedLines_splitOn text
  rw [splitOn_of_complete h, terminatedLines_append] at hsplit
  exact List.append_cancel_right hsplit

theorem contentLines_of_not_complete (h : ¬ Complete text) :
    contentLines text = text.splitOn '\n' := by
  unfold contentLines
  rw [if_neg]
  intro hlast
  obtain ⟨front, hfront⟩ := List.getLast?_eq_some_iff.mp hlast
  apply h
  have hsplit := terminatedLines_splitOn text
  rw [hfront, terminatedLines_append] at hsplit
  rw [← List.append_cancel_right hsplit]
  exact complete_terminatedLines front

theorem newline_not_mem_of_mem_contentLines {text line : List Char} (h : line ∈ contentLines text) :
    '\n' ∉ line := by
  unfold contentLines at h
  dsimp only at h
  split_ifs at h
  · exact newline_not_mem_of_mem_splitOn (List.dropLast_subset _ h)
  · exact newline_not_mem_of_mem_splitOn h

theorem contentLines_eq_nil_iff : contentLines text = [] ↔ text = [] := by
  constructor
  · intro hnil
    by_cases hcomplete : Complete text
    · rw [← terminatedLines_of_complete hcomplete, hnil]
      rfl
    · rw [contentLines_of_not_complete hcomplete] at hnil
      exact absurd hnil (List.splitOn_ne_nil _ _)
  · rintro rfl
    rfl

theorem additionsOf_eq (text : List Char) :
    additionsOf text = .ofNat (contentLines text).length := by
  unfold additionsOf
  split_ifs with hempty hnewline
  · rw [hempty]
    rfl
  · rw [splitOn_of_complete (.inr hnewline)]
    simp
  · rw [contentLines_of_not_complete (fun hcomplete => hcomplete.elim hempty hnewline)]
    simp

theorem intercalate_newline {lines : List (List Char)} (h : lines ≠ []) :
    ['\n'].intercalate lines ++ ['\n'] = terminatedLines lines := by
  induction lines with
  | nil => exact absurd rfl h
  | cons line lines ih =>
      cases lines with
      | nil => simp [terminatedLines]
      | cons next lines =>
          rw [List.intercalate_cons_cons, List.append_assoc, List.append_assoc,
            ih (List.cons_ne_nil _ _)]
          simp [terminatedLines]

theorem charLines_append (h : Complete text) (rest : List Char) :
    charLines [] (text ++ rest) = charLines [] text ++ charLines [] rest := by
  have hmem : ∀ line ∈ contentLines text, '\n' ∉ line :=
    fun _ hline => newline_not_mem_of_mem_contentLines hline
  have hlines := charLines_terminatedLines hmem
  rw [terminatedLines_of_complete h] at hlines
  have halone := hlines []
  rw [List.append_nil, show charLines [] [] = [] from rfl, List.append_nil] at halone
  rw [hlines rest, halone]

theorem appendPatch_of_complete {patch : List Char} (h : Complete patch) (addition : List Char) :
    appendPatch patch addition = patch ++ addition := by
  unfold appendPatch
  rw [if_neg]
  rintro ⟨hne, hlast⟩
  exact h.elim hne hlast

/-! ## The lines of a synthesized patch -/

def bodyLines (content : List Char) : List (List Char) :=
  if contentLines content = [] then [[]] else (contentLines content).map fun line => '+' :: line

def patchLines (path content : List Char) : List (List Char) :=
  ("diff --git ".toList ++ quotePatchPath ('a' :: '/' :: path) ++
      ' ' :: quotePatchPath ('b' :: '/' :: path)) ::
    "new file mode 100644".toList :: "--- /dev/null".toList ::
    ("+++ ".toList ++ quotePatchPath ('b' :: '/' :: path)) ::
    hunkHeader (contentLines content).length :: bodyLines content

theorem untrackedPatch_eq (path content : List Char) :
    untrackedPatch path content = terminatedLines (patchLines path content) := by
  have hbody : ['\n'].intercalate ((contentLines content).map fun line => '+' :: line) ++ ['\n'] =
      terminatedLines (bodyLines content) := by
    unfold bodyLines
    split_ifs with hempty
    · rw [hempty]
      rfl
    · exact intercalate_newline (by simpa using hempty)
  unfold untrackedPatch patchLines
  dsimp only
  rw [List.append_assoc, List.cons_append, hbody]
  simp [terminatedLines]

theorem le_of_mem_quote {c : Char} {cs : List Char} (h : c ∈ quote cs) : 0x20 ≤ c.toNat := by
  obtain rfl | h := List.mem_cons.mp h
  · decide
  · obtain h | h := List.mem_append.mp h
    · exact Zeron.Lib.JsonString.le_of_mem_escape h
    · rw [List.mem_singleton] at h
      subst h
      decide

theorem control_not_mem_quotePatchPath {c : Char} (hspace : isWhitespace c = true)
    (hcontrol : c.toNat < 0x20) (path : List Char) : c ∉ quotePatchPath path := by
  unfold quotePatchPath
  split_ifs with hquotes
  · intro hmem
    exact absurd (le_of_mem_quote hmem) (Nat.not_le.mpr hcontrol)
  · intro hmem
    apply hquotes
    exact List.any_eq_true.mpr ⟨c, hmem, by simp [hspace]⟩

theorem not_mem_hunkHeader {c : Char} (htexts : c ∉ "@@ -0,0 +1,".toList ∧ c ∉ " @@".toList)
    (hdigit : c.isDigit = false) (count : Nat) : c ∉ hunkHeader count := by
  unfold hunkHeader
  simp only [List.mem_append, not_or]
  refine ⟨⟨htexts.1, ?_⟩, htexts.2⟩
  intro hmem
  rw [Nat.isDigit_of_mem_toDigits (by decide) (by decide) hmem] at hdigit
  cases hdigit

theorem newline_not_mem_patchLines {path content line : List Char}
    (h : line ∈ patchLines path content) : '\n' ∉ line := by
  have ha := control_not_mem_quotePatchPath (c := '\n') (by decide) (by decide) ('a' :: '/' :: path)
  have hb := control_not_mem_quotePatchPath (c := '\n') (by decide) (by decide) ('b' :: '/' :: path)
  simp only [patchLines, List.mem_cons] at h
  obtain rfl | rfl | rfl | rfl | rfl | h := h
  · simp only [List.mem_append, List.mem_cons, not_or]
    exact ⟨⟨by decide, ha⟩, by decide, hb⟩
  · decide
  · decide
  · simp only [List.mem_append, not_or]
    exact ⟨by decide, hb⟩
  · exact not_mem_hunkHeader (by decide) (by decide) _
  · unfold bodyLines at h
    split_ifs at h
    · rw [List.mem_singleton] at h
      simp [h]
    · obtain ⟨line, hline, rfl⟩ := List.mem_map.mp h
      simpa using newline_not_mem_of_mem_contentLines hline

theorem charLines_appendPatch {patch : List Char} (h : Complete patch) (path content : List Char) :
    charLines [] (appendPatch patch (untrackedPatch path content)) =
      charLines [] patch ++ (patchLines path content).map chompLine := by
  have hmem : ∀ line ∈ patchLines path content, '\n' ∉ line :=
    fun _ hline => newline_not_mem_patchLines hline
  have hlines := charLines_terminatedLines hmem []
  rw [List.append_nil, show charLines [] [] = [] from rfl, List.append_nil] at hlines
  rw [appendPatch_of_complete h, charLines_append h, untrackedPatch_eq, hlines]

end Zeron.Engine.Diff
