import Zeron.Engine.PatchText
import Zeron.Ui.Text

/-!
# Attachments in the text of a message

`with_attachments` and `parse_user_message_images` of `crates/ui/src/attachments.rs`: the paths of
attached images ride behind the text of a message. Texts are lists of characters.
-/

namespace Zeron.Ui

open Zeron.Doc (isWhitespace trim trimStart trimEnd charLines chompLine trim_eq_self)
open Zeron.Engine.Diff (Complete charLines_append charLines_append_newline)

def attachmentOnlyText : List Char := "See the attached image(s).".toList

def refsLine : List Char := "Attached images (local files — open them to view):".toList

def withAttachments (text : List Char) (paths : List (List Char)) : List Char :=
  if paths = [] then text
  else
    let refs := paths.map fun path => '-' :: ' ' :: path
    let body := if text = [] then attachmentOnlyText else text
    body ++ '\n' :: '\n' :: refsLine ++ '\n' :: ['\n'].intercalate refs

structure UserImageAttachment where
  id : List Char
  path : List Char
  name : List Char
deriving DecidableEq

structure ParsedUserMessage where
  text : List Char
  attachments : List UserImageAttachment
deriving DecidableEq

def nameFromPath (path : List Char) : List Char :=
  let name := trim (path.reverse.takeWhile fun c => !(c == '/' || c == '\\')).reverse
  if name = [] then "image".toList else name

/-- `to_ascii_lowercase` -/
def lower (text : List Char) : List Char := text.map Char.toLower

def firstLine (text : List Char) : List Char := text.takeWhile (· ≠ '\n')

def behindFirstLine (text : List Char) : List Char := (text.dropWhile (· ≠ '\n')).drop 1

/-- The first line, without carriage returns, ends with `):`. -/
def endsRefsLine (text : List Char) : Bool :=
  [')', ':'].isSuffixOf ((firstLine text).rdropWhile (· = '\r'))

def findRefsMarker : List Char → Option (List Char × List Char)
  | c :: d :: rest =>
      if startsWith "\n\nattached images (local files" (lower (c :: d :: rest)) then
        if endsRefsLine rest then some ([], behindFirstLine rest)
        else (findRefsMarker rest).map fun (body, refs) => (c :: d :: body, refs)
      else (findRefsMarker (d :: rest)).map fun (body, refs) => (c :: body, refs)
  | _ => none

def refPath (line : List Char) : Option (List Char) :=
  (strip "- " (trimStart line)).bind fun rest => if trim rest = [] then none else some (trim rest)

def attachment (index : Nat) (path : List Char) : UserImageAttachment where
  id := Nat.toDigits 10 index ++ ':' :: path
  path := path
  name := nameFromPath path

def parseUserMessageImages (content : List Char) : ParsedUserMessage :=
  match findRefsMarker content with
  | none => { text := content, attachments := [] }
  | some (front, refs) =>
      let body := trimEnd front
      let attachments := ((charLines [] refs).filterMap refPath).mapIdx attachment
      if attachments = [] then { text := content, attachments }
      else { text := if trim body = attachmentOnlyText then [] else body, attachments }

/-! ## Markers -/

/-- What follows a blank line begins with a line for a refs trailer. -/
def marksRefs (rest : List Char) : Bool :=
  startsWith "attached images (local files" (lower rest) && endsRefsLine rest

/-- A blank line of the text is followed by a line for a refs trailer. -/
def HasMarker (text : List Char) : Prop :=
  ∃ front rest, text = front ++ '\n' :: '\n' :: rest ∧ marksRefs rest = true

theorem toLower_eq_newline {c : Char} : c.toLower = '\n' ↔ c = '\n' := by
  unfold Char.toLower
  split_ifs with h
  · constructor
    · intro heq
      have hval := congrArg (fun c : Char => c.val.toNat) heq
      have hlow := UInt32.le_iff_toNat_le.mp h.1
      have hhigh := UInt32.le_iff_toNat_le.mp h.2
      simp at hval hlow hhigh
      omega
    · rintro rfl
      revert h
      decide
  · rfl

theorem lower_cons (c : Char) (text : List Char) :
    lower (c :: text) = c.toLower :: lower text := rfl

theorem lower_append_newline (front back : List Char) :
    lower (front ++ '\n' :: back) = lower front ++ '\n' :: lower back := by
  simp [lower]

theorem startsWith_blank (c d : Char) (rest : List Char) :
    startsWith "\n\nattached images (local files" (lower (c :: d :: rest)) = true ↔
      c = '\n' ∧ d = '\n' ∧ startsWith "attached images (local files" (lower rest) = true := by
  have hblank : "\n\nattached images (local files".toList =
      '\n' :: '\n' :: "attached images (local files".toList := by decide
  unfold startsWith
  rw [hblank, lower_cons, lower_cons, List.isPrefixOf, List.isPrefixOf]
  simp only [Bool.and_eq_true, beq_iff_eq, eq_comm (a := '\n'), toLower_eq_newline]

theorem isPrefixOf_append_newline {lead : List Char} (h : '\n' ∉ lead) (front back : List Char) :
    lead.isPrefixOf (front ++ '\n' :: back) = lead.isPrefixOf front := by
  induction lead generalizing front with
  | nil => simp
  | cons c lead ih =>
      rw [List.mem_cons, not_or] at h
      cases front with
      | nil => simp [List.isPrefixOf, Ne.symm h.1]
      | cons d front =>
          rw [List.cons_append, List.isPrefixOf, List.isPrefixOf, ih h.2]

theorem firstLine_append_newline (front back : List Char) :
    firstLine (front ++ '\n' :: back) = firstLine front := by
  unfold firstLine
  induction front with
  | nil => rfl
  | cons c front ih =>
      rw [List.cons_append, List.takeWhile_cons, List.takeWhile_cons, ih]

theorem marksRefs_append_newline (front back : List Char) :
    marksRefs (front ++ '\n' :: back) = marksRefs front := by
  have hlead : '\n' ∉ "attached images (local files".toList := by decide
  unfold marksRefs endsRefsLine startsWith
  rw [firstLine_append_newline, lower_append_newline, isPrefixOf_append_newline hlead]

theorem marksRefs_newline (rest : List Char) : marksRefs ('\n' :: rest) = false := by
  have hempty := marksRefs_append_newline [] rest
  rw [List.nil_append] at hempty
  rw [hempty]
  decide

theorem findRefsMarker_blank {rest : List Char} (h : marksRefs rest = true) :
    findRefsMarker ('\n' :: '\n' :: rest) = some ([], behindFirstLine rest) := by
  obtain ⟨hlead, hend⟩ := Bool.and_eq_true_iff.mp h
  rw [findRefsMarker, if_pos ((startsWith_blank _ _ _).mpr ⟨rfl, rfl, hlead⟩), if_pos hend]

/-- The text begins with a blank line that a line for a refs trailer follows. -/
def MarkerHere (text : List Char) : Prop :=
  ∃ rest, text = '\n' :: '\n' :: rest ∧ marksRefs rest = true

@[elab_as_elim]
theorem marker_induction {motive : List Char → Prop} (nil : motive [])
    (marker : ∀ rest, marksRefs rest = true → motive ('\n' :: '\n' :: rest))
    (pass : ∀ c cs, ¬ MarkerHere (c :: cs) → motive cs → motive (c :: cs)) (text : List Char) :
    motive text := by
  induction text with
  | nil => exact nil
  | cons c cs ih =>
      by_cases hhere : MarkerHere (c :: cs)
      · obtain ⟨rest, heq, hmarks⟩ := hhere
        exact heq ▸ marker rest hmarks
      · exact pass c cs hhere ih

theorem findRefsMarker_cons {c : Char} {cs : List Char} (h : ¬ MarkerHere (c :: cs)) :
    findRefsMarker (c :: cs) = (findRefsMarker cs).map fun (body, refs) => (c :: body, refs) := by
  cases cs with
  | nil => rfl
  | cons d rest =>
      rw [findRefsMarker]
      split_ifs with hlead hend
      · obtain ⟨rfl, rfl, hstart⟩ := (startsWith_blank _ _ _).mp hlead
        exact absurd ⟨rest, rfl, Bool.and_eq_true_iff.mpr ⟨hstart, hend⟩⟩ h
      · obtain ⟨rfl, rfl, hstart⟩ := (startsWith_blank _ _ _).mp hlead
        cases rest with
        | nil => exact absurd hstart (by decide)
        | cons e rest =>
            have he : e ≠ '\n' := by
              rintro rfl
              have hfirst :
                  startsWith "attached images (local files" ('\n' :: lower rest) = false :=
                startsWith_of_head (by decide)
              exact absurd (hfirst.symm.trans hstart) (by decide)
            have hpass : findRefsMarker ('\n' :: e :: rest) =
                (findRefsMarker (e :: rest)).map fun (body, refs) => ('\n' :: body, refs) := by
              rw [findRefsMarker, if_neg]
              exact fun hblank => he ((startsWith_blank _ _ _).mp hblank).2.1
            rw [hpass, Option.map_map]
            rfl
      · rfl

theorem hasMarker_cons {c : Char} {cs : List Char} :
    HasMarker (c :: cs) ↔ MarkerHere (c :: cs) ∨ HasMarker cs := by
  constructor
  · rintro ⟨front, rest, heq, hmarks⟩
    cases front with
    | nil => exact .inl ⟨rest, heq, hmarks⟩
    | cons d front => exact .inr ⟨front, rest, (List.cons.inj heq).2, hmarks⟩
  · rintro (⟨rest, heq, hmarks⟩ | ⟨front, rest, rfl, hmarks⟩)
    · exact ⟨[], rest, heq, hmarks⟩
    · exact ⟨c :: front, rest, rfl, hmarks⟩

theorem not_hasMarker_nil : ¬ HasMarker [] := by
  rintro ⟨front, rest, heq, -⟩
  simp at heq

variable {text : List Char} {paths : List (List Char)}

theorem findRefsMarker_eq_none :
    findRefsMarker text = none ↔ ¬ HasMarker text := by
  induction text using marker_induction with
  | nil => exact iff_of_true rfl not_hasMarker_nil
  | marker rest hmarks =>
      rw [findRefsMarker_blank hmarks]
      exact iff_of_false (by simp) fun hnot => hnot ⟨[], rest, rfl, hmarks⟩
  | pass c cs hpass ih =>
      rw [hasMarker_cons, or_iff_right hpass, findRefsMarker_cons hpass, Option.map_eq_none_iff, ih]

instance (text : List Char) : Decidable (HasMarker text) :=
  decidable_of_iff (findRefsMarker text ≠ none) (not_iff_comm.mp findRefsMarker_eq_none.symm)

theorem not_markerHere_append {c : Char} {cs : List Char} (h : ¬ MarkerHere (c :: cs))
    (hlast : cs = [] → c ≠ '\n') (back : List Char) :
    ¬ MarkerHere (c :: (cs ++ '\n' :: back)) := by
  rintro ⟨rest, heq, hmarks⟩
  obtain ⟨rfl, hbehind⟩ := List.cons.inj heq
  cases cs with
  | nil => exact hlast rfl rfl
  | cons d cs =>
      obtain ⟨rfl, rfl⟩ := List.cons.inj hbehind
      exact h ⟨cs, rfl, marksRefs_append_newline cs back ▸ hmarks⟩

theorem findRefsMarker_append (h : HasMarker text) (back : List Char) :
    ∃ front refs, findRefsMarker (text ++ '\n' :: back) = some (front, refs) ∧
      front.length < text.length := by
  induction text using marker_induction with
  | nil => exact absurd h not_hasMarker_nil
  | marker rest hmarks =>
      rw [← marksRefs_append_newline rest back] at hmarks
      exact ⟨[], _, findRefsMarker_blank hmarks, by simp⟩
  | pass c cs hpass ih =>
      have hcs := (hasMarker_cons.mp h).resolve_left hpass
      obtain ⟨front, refs, hfind, hlength⟩ := ih hcs
      have hlast : cs = [] → c ≠ '\n' := by
        rintro rfl
        exact absurd hcs not_hasMarker_nil
      refine ⟨c :: front, refs, ?_, by simpa using hlength⟩
      rw [List.cons_append, findRefsMarker_cons (not_markerHere_append hpass hlast back), hfind]
      rfl

theorem findRefsMarker_trailer (h : ¬ HasMarker text) (hlast : text.getLast? ≠ some '\n')
    {rest : List Char} (hmarks : marksRefs rest = true) :
    findRefsMarker (text ++ '\n' :: '\n' :: rest) = some (text, behindFirstLine rest) := by
  induction text with
  | nil => exact findRefsMarker_blank hmarks
  | cons c cs ih =>
      rw [hasMarker_cons, not_or] at h
      have hc : cs = [] → c ≠ '\n' := by
        rintro rfl rfl
        exact hlast rfl
      have hcs : cs.getLast? ≠ some '\n' := by
        intro heq
        apply hlast
        rw [List.getLast?_cons, heq]
        rfl
      rw [List.cons_append, findRefsMarker_cons (not_markerHere_append h.1 hc _), ih h.2 hcs]
      rfl

/-! ## The refs -/

/-- A path that is not blank, on one line, without white space around it. -/
def ListedPath (path : List Char) : Prop := path ≠ [] ∧ '\n' ∉ path ∧ trim path = path

def Listed (refs : List Char) : Prop := ∃ line ∈ charLines [] refs, refPath line ≠ none

theorem trimEnd_of_trim {path : List Char} (h : trim path = path) : trimEnd path = path := by
  unfold trim at h
  rw [← h]
  exact List.rdropWhile_idempotent _ _

theorem getLast?_of_trimEnd (h : trimEnd text = text) {c : Char} (hlast : text.getLast? = some c) :
    isWhitespace c = false := by
  obtain ⟨front, rfl⟩ := List.getLast?_eq_some_iff.mp hlast
  have hend := List.rdropWhile_eq_self_iff.mp h (by simp)
  rwa [List.getLast_concat, Bool.not_eq_true] at hend

theorem refPath_item {path : List Char} (h : ListedPath path) :
    refPath ('-' :: ' ' :: path) = some path := by
  obtain ⟨hne, -, htrim⟩ := h
  have hstart : trimStart ('-' :: ' ' :: path) = "- ".toList ++ path :=
    List.dropWhile_cons_of_neg (by decide)
  rw [refPath, hstart, strip_append, Option.bind_some, htrim, if_neg hne]

theorem charLines_of_not_mem {line : List Char} (h : '\n' ∉ line) {begun : List Char}
    (hne : begun ++ line ≠ []) : charLines begun line = [begun ++ line] := by
  induction line generalizing begun with
  | nil =>
      rw [List.append_nil] at hne ⊢
      rw [charLines, if_neg hne]
  | cons c line ih =>
      rw [List.mem_cons, not_or] at h
      rw [charLines, if_neg (Ne.symm h.1), ih h.2 (by simp), List.append_assoc]
      rfl

theorem charLines_intercalate {lines : List (List Char)}
    (h : ∀ line ∈ lines, line ≠ [] ∧ '\n' ∉ line ∧ chompLine line = line) :
    charLines [] (['\n'].intercalate lines) = lines := by
  induction lines with
  | nil => rfl
  | cons line lines ih =>
      obtain ⟨hne, hline, hchomp⟩ := h line List.mem_cons_self
      have hlines := ih fun other hother => h other (List.mem_cons_of_mem _ hother)
      cases lines with
      | nil => exact List.intercalate_singleton ▸ charLines_of_not_mem hline hne
      | cons next lines =>
          rw [List.intercalate_cons_cons, List.append_assoc, List.singleton_append,
            charLines_append_newline hline, hlines, List.nil_append, hchomp]

theorem chompLine_item {path : List Char} (h : ListedPath path) :
    chompLine ('-' :: ' ' :: path) = '-' :: ' ' :: path := by
  obtain ⟨hne, -, htrim⟩ := h
  rw [chompLine, if_neg]
  intro hlast
  have hpath : path.getLast? = some '\r' := by
    rw [List.getLast?_eq_some_getLast hne]
    rw [List.getLast?_eq_some_getLast (by simp)] at hlast
    simpa [List.getLast_cons, hne] using hlast
  exact absurd (getLast?_of_trimEnd (trimEnd_of_trim htrim) hpath) (by decide)

def refsText (paths : List (List Char)) : List Char :=
  ['\n'].intercalate (paths.map fun path => '-' :: ' ' :: path)

theorem filterMap_refPath (h : ∀ path ∈ paths, ListedPath path) :
    (charLines [] (refsText paths)).filterMap refPath = paths := by
  have hlines : ∀ line ∈ paths.map fun path => '-' :: ' ' :: path,
      line ≠ [] ∧ '\n' ∉ line ∧ chompLine line = line := by
    intro line hline
    obtain ⟨path, hpath, rfl⟩ := List.mem_map.mp hline
    have hnewline := (h path hpath).2.1
    exact ⟨List.cons_ne_nil _ _, by simp [hnewline], chompLine_item (h path hpath)⟩
  rw [refsText, charLines_intercalate hlines, List.filterMap_map]
  conv_rhs => rw [← List.filterMap_some (l := paths)]
  exact List.filterMap_congr fun path hpath => refPath_item (h path hpath)

theorem map_path_mapIdx (paths : List (List Char)) :
    (paths.mapIdx attachment).map (·.path) = paths := by
  ext1 i
  rw [List.getElem?_map, List.getElem?_mapIdx, Option.map_map]
  exact Option.map_id'

theorem listed_append {kept : List Char} (hkept : Complete kept) {refs : List Char}
    (h : Listed refs) : Listed (kept ++ refs) := by
  obtain ⟨line, hline, hpath⟩ := h
  exact ⟨line, charLines_append hkept refs ▸ List.mem_append_right _ hline, hpath⟩

theorem complete_concat (front : List Char) : Complete (front ++ ['\n']) :=
  .inr (by simp)

theorem behindFirstLine_append (front back : List Char) :
    ∃ kept, Complete kept ∧ behindFirstLine (front ++ '\n' :: back) = kept ++ back := by
  induction front with
  | nil => exact ⟨[], .inl rfl, rfl⟩
  | cons c front ih =>
      by_cases hc : c = '\n'
      · exact ⟨front ++ ['\n'], complete_concat front, by simp [behindFirstLine, hc]⟩
      · obtain ⟨kept, hkept, heq⟩ := ih
        refine ⟨kept, hkept, heq ▸ ?_⟩
        simp [behindFirstLine, hc]

theorem listed_of_behindFirstLine {rest : List Char} (h : Listed (behindFirstLine rest)) :
    Listed rest := by
  have hsplit := List.takeWhile_append_dropWhile (p := (· ≠ '\n')) (l := rest)
  cases hback : rest.dropWhile (· ≠ '\n') with
  | nil =>
      rw [behindFirstLine, hback] at h
      obtain ⟨line, hline, -⟩ := h
      exact absurd hline List.not_mem_nil
  | cons c back =>
      have hc : c = '\n' := by
        have hhead := List.head?_dropWhile_not (· ≠ '\n') rest
        rw [hback] at hhead
        simpa using hhead
      rw [behindFirstLine, hback, List.drop_one, List.tail_cons] at h
      rw [← hsplit, hback, hc, List.append_cons]
      exact listed_append (complete_concat _) h

theorem listed_behindFirstLine_append (front : List Char) {rest : List Char}
    (h : Listed (behindFirstLine rest)) :
    Listed (behindFirstLine (front ++ '\n' :: '\n' :: rest)) := by
  obtain ⟨kept, hkept, heq⟩ := behindFirstLine_append front ('\n' :: rest)
  rw [heq]
  have hnewline : Complete ['\n'] := complete_concat []
  exact listed_append hkept (listed_append hnewline (listed_of_behindFirstLine h))

/-! ## Round trips -/

theorem findRefsMarker_of_listed {text front rest : List Char}
    (heq : text = front ++ '\n' :: '\n' :: rest) (hmarks : marksRefs rest = true)
    (hlisted : Listed (behindFirstLine rest)) :
    ∃ body refs, findRefsMarker text = some (body, refs) ∧ Listed refs := by
  induction text using marker_induction generalizing front with
  | nil => simp at heq
  | marker other hother =>
      refine ⟨[], _, findRefsMarker_blank hother, ?_⟩
      match front, heq with
      | [], heq =>
          obtain rfl : other = rest := by simpa using heq
          exact hlisted
      | [_], heq =>
          obtain ⟨-, rfl⟩ : _ ∧ other = '\n' :: rest := by simpa using heq
          rw [marksRefs_newline] at hother
          exact absurd hother (by decide)
      | _ :: _ :: middle, heq =>
          obtain ⟨-, -, rfl⟩ : _ ∧ _ ∧ other = middle ++ '\n' :: '\n' :: rest := by
            simpa using heq
          exact listed_behindFirstLine_append middle hlisted
  | pass c cs hpass ih =>
      cases front with
      | nil => exact absurd ⟨rest, heq, hmarks⟩ hpass
      | cons d front =>
          obtain ⟨body, refs, hfind, hrefs⟩ := ih (List.cons.inj heq).2
          refine ⟨c :: body, refs, ?_, hrefs⟩
          rw [findRefsMarker_cons hpass, hfind]
          rfl

theorem findRefsMarker_sound {text body refs : List Char}
    (h : findRefsMarker text = some (body, refs)) :
    ∃ rest, text = body ++ '\n' :: '\n' :: rest ∧ marksRefs rest = true ∧
      refs = behindFirstLine rest := by
  induction text using marker_induction generalizing body with
  | nil => exact absurd h (by simp [findRefsMarker])
  | marker rest hmarks =>
      rw [findRefsMarker_blank hmarks] at h
      obtain ⟨rfl, rfl⟩ := Prod.mk.inj (Option.some.inj h)
      exact ⟨rest, rfl, hmarks, rfl⟩
  | pass c cs hpass ih =>
      rw [findRefsMarker_cons hpass, Option.map_eq_some_iff] at h
      obtain ⟨⟨front, found⟩, hfind, heq⟩ := h
      obtain ⟨rfl, rfl⟩ := Prod.mk.inj heq
      obtain ⟨rest, rfl, hmarks, hrefs⟩ := ih hfind
      exact ⟨rest, rfl, hmarks, hrefs⟩

/-- The text ends with a refs trailer of its own: a marker, and paths below it. -/
def HasTrailer (text : List Char) : Prop :=
  ∃ front rest, text = front ++ '\n' :: '\n' :: rest ∧ marksRefs rest = true ∧
    Listed (behindFirstLine rest)

def RoundTrips (text : List Char) (paths : List (List Char)) : Prop :=
  (parseUserMessageImages (withAttachments text paths)).text = text ∧
    (parseUserMessageImages (withAttachments text paths)).attachments.map (·.path) = paths

theorem parse_of_find {content front refs : List Char}
    (h : findRefsMarker content = some (front, refs)) (hlisted : Listed refs) :
    (parseUserMessageImages content).text =
        (if trim (trimEnd front) = attachmentOnlyText then [] else trimEnd front) ∧
      (parseUserMessageImages content).attachments =
        ((charLines [] refs).filterMap refPath).mapIdx attachment := by
  have hne : ((charLines [] refs).filterMap refPath).mapIdx attachment ≠ [] := by
    obtain ⟨line, hline, hpath⟩ := hlisted
    obtain ⟨path, hpath⟩ := Option.ne_none_iff_exists'.mp hpath
    rw [ne_eq, List.mapIdx_eq_nil_iff]
    exact List.ne_nil_of_mem (List.mem_filterMap.mpr ⟨line, hline, hpath⟩)
  unfold parseUserMessageImages
  rw [h]
  dsimp only
  rw [if_neg hne]
  exact ⟨rfl, rfl⟩

def bodyText (text : List Char) : List Char := if text = [] then attachmentOnlyText else text

theorem withAttachments_eq (h : paths ≠ []) :
    withAttachments text paths =
      bodyText text ++ '\n' :: '\n' :: (refsLine ++ '\n' :: refsText paths) := by
  rw [withAttachments, if_neg h]
  simp [bodyText, refsText]

theorem marksRefs_refsLine (back : List Char) : marksRefs (refsLine ++ '\n' :: back) = true := by
  rw [marksRefs_append_newline]
  decide

theorem behindFirstLine_refsLine (back : List Char) :
    behindFirstLine (refsLine ++ '\n' :: back) = back := by
  have hline : '\n' ∉ refsLine := by decide
  have hpass : ∀ c ∈ refsLine, decide (c ≠ '\n') = true :=
    fun c hc => decide_eq_true fun heq => hline (heq ▸ hc)
  rw [behindFirstLine, List.dropWhile_append_of_pos hpass]
  rfl

theorem listed_refsText (hne : paths ≠ []) (h : ∀ path ∈ paths, ListedPath path) :
    Listed (refsText paths) := by
  obtain ⟨path, hpath⟩ := List.exists_mem_of_ne_nil paths hne
  have hmem := filterMap_refPath h ▸ hpath
  obtain ⟨line, hline, heq⟩ := List.mem_filterMap.mp hmem
  exact ⟨line, hline, Option.ne_none_iff_exists'.mpr ⟨path, heq⟩⟩

theorem newline_mem_of_hasMarker (h : HasMarker text) : '\n' ∈ text := by
  obtain ⟨front, rest, rfl, -⟩ := h
  simp

theorem bodyText_trimmed (h : trimEnd text = text) :
    trimEnd (bodyText text) = bodyText text ∧ (bodyText text).getLast? ≠ some '\n' := by
  have htrim : trimEnd (bodyText text) = bodyText text := by
    unfold bodyText
    split_ifs
    · decide
    · exact h
  refine ⟨htrim, fun hlast => ?_⟩
  exact absurd (getLast?_of_trimEnd htrim hlast) (by decide)

theorem parse_withAttachments (htext : trimEnd text = text) (hmarker : ¬ HasMarker text)
    (hne : paths ≠ [])
    (h : ∀ path ∈ paths, ListedPath path) :
    (parseUserMessageImages (withAttachments text paths)).text =
        (if trim text = attachmentOnlyText then [] else text) ∧
      (parseUserMessageImages (withAttachments text paths)).attachments.map (·.path) = paths := by
  obtain ⟨htrim, hlast⟩ := bodyText_trimmed htext
  have hbody : ¬ HasMarker (bodyText text) := by
    unfold bodyText
    split_ifs
    · exact fun hfound => absurd (newline_mem_of_hasMarker hfound) (by decide)
    · exact hmarker
  have hfind := findRefsMarker_trailer hbody hlast (marksRefs_refsLine (refsText paths))
  rw [behindFirstLine_refsLine, ← withAttachments_eq hne] at hfind
  obtain ⟨hparse, hparsed⟩ := parse_of_find hfind (listed_refsText hne h)
  rw [filterMap_refPath h] at hparsed
  rw [hparse, hparsed, map_path_mapIdx, htrim]
  refine ⟨?_, rfl⟩
  by_cases hempty : text = []
  · rw [hempty]
    decide
  · rw [bodyText, if_neg hempty]

theorem not_roundTrips_of_hasMarker {text : List Char} (hmarker : HasMarker text)
    {paths : List (List Char)} (hne : paths ≠ []) (h : ∀ path ∈ paths, ListedPath path) :
    ¬ RoundTrips text paths := by
  have hnil : text ≠ [] := by
    rintro rfl
    exact not_hasMarker_nil hmarker
  have hcontent := @withAttachments_eq text paths hne
  rw [bodyText, if_neg hnil] at hcontent
  obtain ⟨front, refs, hfind, hlength⟩ := findRefsMarker_append hmarker
    ('\n' :: (refsLine ++ '\n' :: refsText paths))
  rw [← hcontent] at hfind
  have hbehind := (behindFirstLine_refsLine (refsText paths)).symm ▸ listed_refsText hne h
  obtain ⟨body, found, hbelow, hrefs⟩ :=
    findRefsMarker_of_listed hcontent (marksRefs_refsLine _) hbehind
  obtain ⟨rfl, rfl⟩ := Prod.mk.inj (Option.some.inj (hbelow.symm.trans hfind))
  rintro ⟨hsame, -⟩
  rw [(parse_of_find hbelow hrefs).1] at hsame
  have hle := (List.rdropWhile_prefix isWhitespace body).length_le
  split_ifs at hsame
  · exact hnil hsame.symm
  · rw [← hsame] at hlength
    exact absurd hle (Nat.not_le.mpr hlength)

theorem not_roundTrips_of_listing :
    ¬ RoundTrips "hi\n\nAttached images (local files):\n".toList ["/a/b.png".toList] :=
  not_roundTrips_of_hasMarker (by decide +kernel) (List.cons_ne_nil _ _)
    (by unfold ListedPath; decide +kernel)

theorem roundTrips_nil (text : List Char) : RoundTrips text [] ↔ ¬ HasTrailer text := by
  have hsame : withAttachments text [] = text := if_pos rfl
  unfold RoundTrips
  rw [hsame]
  constructor
  · rintro ⟨-, hpaths⟩ ⟨front, rest, heq, hmarks, hlisted⟩
    obtain ⟨body, refs, hfind, line, hline, hpath⟩ := findRefsMarker_of_listed heq hmarks hlisted
    have hparse := (parse_of_find hfind ⟨line, hline, hpath⟩).2
    obtain ⟨path, hpath⟩ := Option.ne_none_iff_exists'.mp hpath
    rw [hparse, map_path_mapIdx] at hpaths
    exact List.ne_nil_of_mem (List.mem_filterMap.mpr ⟨line, hline, hpath⟩) hpaths
  · intro htrailer
    unfold parseUserMessageImages
    cases hfind : findRefsMarker text with
    | none => exact ⟨rfl, rfl⟩
    | some found =>
        obtain ⟨front, refs⟩ := found
        obtain ⟨rest, heq, hmarks, rfl⟩ := findRefsMarker_sound hfind
        have hnone : (charLines [] (behindFirstLine rest)).filterMap refPath = [] := by
          rw [List.filterMap_eq_nil_iff]
          intro line hline
          by_contra hpath
          exact htrailer ⟨front, rest, heq, hmarks, line, hline, hpath⟩
        dsimp only
        rw [hnone, List.mapIdx_nil, if_pos rfl]
        exact ⟨rfl, rfl⟩

/-- The paths and a text without markers are read back, but for the sentence that stands in the
place of a text. Without paths, the text is read back unless it ends with refs of its own. -/
theorem attachments_survive_the_transport (text : List Char) :
    (trimEnd text = text → ¬ HasMarker text →
      ∀ paths ≠ [], (∀ path ∈ paths, ListedPath path) →
        (parseUserMessageImages (withAttachments text paths)).text =
            (if trim text = attachmentOnlyText then [] else text) ∧
          (parseUserMessageImages (withAttachments text paths)).attachments.map (·.path) =
            paths) ∧
      (RoundTrips text [] ↔ ¬ HasTrailer text) :=
  ⟨fun htext hmarker _ hne h => parse_withAttachments htext hmarker hne h, roundTrips_nil text⟩

theorem list_behind_blank_line_survives :
    let paths := ["/data/uploads/ab-cat.png".toList, "/x/my dog.jpg".toList]
    let content := withAttachments "two things:\n\n- one\n- two".toList paths
    (parseUserMessageImages content).text = "two things:\n\n- one\n- two".toList ∧
      (parseUserMessageImages content).attachments.map (·.path) = paths := by
  have hlisted : ∀ path ∈ ["/data/uploads/ab-cat.png".toList, "/x/my dog.jpg".toList],
      ListedPath path := by
    unfold ListedPath
    decide +kernel
  obtain ⟨htext, hpaths⟩ := (attachments_survive_the_transport
    "two things:\n\n- one\n- two".toList).1 (by decide +kernel) (by decide +kernel) _
      (List.cons_ne_nil _ _) hlisted
  rw [if_neg (by decide +kernel)] at htext
  exact ⟨htext, hpaths⟩

/-- A typed message that ends with refs is read as one with an attachment, and white space before
the sentence for images does not make it a text. -/
theorem typed_refs_read_as_attachments :
    let typed := "hi\n\nAttached images (local files):\n- /p/q.png".toList
    let sentence := "\nSee the attached image(s).".toList
    parseUserMessageImages (withAttachments typed []) =
        ⟨"hi".toList, [⟨"0:/p/q.png".toList, "/p/q.png".toList, "q.png".toList⟩]⟩ ∧
      ¬ RoundTrips typed [] ∧
      trimEnd sentence = sentence ∧ sentence ≠ attachmentOnlyText ∧
      ListedPath "/a/b.png".toList ∧
      ¬ RoundTrips sentence ["/a/b.png".toList] := by
  unfold RoundTrips ListedPath
  decide +kernel

end Zeron.Ui
