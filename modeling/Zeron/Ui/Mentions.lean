import Mathlib.Data.List.Basic
import Zeron.Doc.Rebuild
import Zeron.Lib.ByteSlices
import Zeron.Lib.Percent
import Zeron.Ui.Text

/-!
# File mentions

`local_file_link`, `file_mention_links` and `replace_mention` of `crates/ui/src/composer.rs`: a mention
is a link in the draft, found again by a scan for brackets. Texts are lists of characters, offsets in
them are in bytes.
-/

namespace Zeron.Ui.Mentions

open Zeron.Doc (isWhitespace)
open Zeron.Lib (Bytes)
open Zeron.Lib.Utf8 (utf8Len utf8Len_append utf8Len_cons utf8Len_nil encodeChar splitAt? splitAt?_append
  exists_of_utf8Len_le eq_of_utf8Len)

def fileMentionScheme : List Char := "zeron-file:".toList

structure FileMentionLink where
  start : Nat
  stop : Nat
  basename : List Char
  path : List Char
  isDir : Bool
deriving DecidableEq

/-! ### Writing a link -/

def unreserved (byte : UInt8) : Bool :=
  let n := byte.toNat
  (48 ≤ n ∧ n ≤ 57) ∨ (65 ≤ n ∧ n ≤ 90) ∨ (97 ≤ n ∧ n ≤ 122) ∨ n = 45 ∨ n = 46 ∨ n = 95 ∨ n = 126 ∨
    n = 47

def percentEncodePath (path : List Char) : List Char :=
  Lib.Percent.encode unreserved (path.flatMap encodeChar)

def percentDecodePath (encoded : List Char) : Option (List Char) :=
  (Lib.Percent.decode (encoded.flatMap encodeChar)).bind fun bytes =>
    (Lib.Utf8.decode? bytes).map (·.toList)

/-- `str::replace` of one character. -/
def replaceChar (c : Char) (replacement text : List Char) : List Char :=
  text.flatMap fun d => if d = c then replacement else [d]

def escapeMentionLabel (label : List Char) : List Char :=
  replaceChar ']' ['\\', ']'] (replaceChar '[' ['\\', '['] (replaceChar '\\' ['\\', '\\'] label))

/-- `str::rsplit('/').next()` -/
def lastPart (path : List Char) : List Char := (path.splitOn '/').getLastD []

def trimEndSlashes (path : List Char) : List Char := (path.reverse.dropWhile (· = '/')).reverse

def localFileLink (path : List Char) (isDir : Bool) : List Char :=
  let path := trimEndSlashes path
  let basename := if lastPart path = [] then path else lastPart path
  '[' :: escapeMentionLabel basename ++ [']', '('] ++ fileMentionScheme ++
    percentEncodePath (path ++ if isDir then ['/'] else []) ++ [')']

/-- `char::is_control` -/
def isControl (c : Char) : Bool := c.toNat < 0x20 ∨ 0x7F ≤ c.toNat ∧ c.toNat < 0xA0

def localPathIsSafe (path : List Char) : Bool :=
  path ≠ [] ∧ path.head? ≠ some '/' ∧ '\\' ∉ path ∧ path.any isControl = false ∧
    (path.splitOn '/').any (fun part => part = [] ∨ part = ['.'] ∨ part = ['.', '.']) = false

/-! ### Finding the links -/

/-- The label up to the `](` that is not escaped, and what is behind it. -/
def labelClose : Bool → List Char → Option (List Char × List Char)
  | _, [] => none
  | escaped, c :: text =>
      if escaped then (labelClose false text).map fun (label, rest) => (c :: label, rest)
      else if c = '\\' then (labelClose true text).map fun (label, rest) => (c :: label, rest)
      else if c = ']' ∧ text.head? = some '(' then some ([], text.tail)
      else (labelClose false text).map fun (label, rest) => (c :: label, rest)

/-- The target up to the first `)`, and what is behind it. -/
def targetClose : List Char → Option (List Char × List Char)
  | [] => none
  | c :: text =>
      if c = ')' then some ([], text)
      else (targetClose text).map fun (target, rest) => (c :: target, rest)

/-- The path of a mention with this label and this target behind the scheme. -/
def parseMention (label encoded : List Char) : Option (List Char × Bool) :=
  (percentDecodePath encoded).bind fun target =>
    let isDir := decide (target.getLast? = some '/')
    let path := if isDir then target.dropLast else target
    if localPathIsSafe path ∧ percentEncodePath target = encoded ∧
        escapeMentionLabel (lastPart path) = label then
      some (path, isDir)
    else none

theorem labelClose_cons (escaped : Bool) (c : Char) (text : List Char) :
    labelClose escaped (c :: text) =
      if escaped = false ∧ c = ']' ∧ text.head? = some '(' then some ([], text.tail)
      else (labelClose (!escaped && c = '\\') text).map fun (label, rest) => (c :: label, rest) := by
  rw [labelClose]
  cases escaped with
  | true => simp
  | false => by_cases hc : c = '\\' <;> simp [hc]

theorem labelClose_sound {escaped : Bool} {text label rest : List Char}
    (h : labelClose escaped text = some (label, rest)) : text = label ++ ']' :: '(' :: rest := by
  induction text generalizing escaped label with
  | nil => cases h
  | cons c text ih =>
      rw [labelClose_cons] at h
      split_ifs at h with hclose
      · cases h
        obtain ⟨-, rfl, hhead⟩ := hclose
        obtain ⟨tail, rfl⟩ := List.head?_eq_some_iff.mp hhead
        rfl
      · obtain ⟨⟨label', rest'⟩, hrest, heq⟩ := Option.map_eq_some_iff.mp h
        cases heq
        rw [ih hrest, List.cons_append]

theorem targetClose_sound {text target rest : List Char}
    (h : targetClose text = some (target, rest)) : text = target ++ ')' :: rest ∧ ')' ∉ target := by
  induction text generalizing target with
  | nil => cases h
  | cons c text ih =>
      rw [targetClose] at h
      split_ifs at h with hc
      · cases h
        exact ⟨by rw [hc]; rfl, List.not_mem_nil⟩
      · obtain ⟨⟨target', rest'⟩, hclose, heq⟩ := Option.map_eq_some_iff.mp h
        cases heq
        obtain ⟨rfl, hnot⟩ := ih hclose
        exact ⟨rfl, List.not_mem_cons_of_ne_of_not_mem (Ne.symm hc) hnot⟩

theorem targetClose_append {target : List Char} (h : ')' ∉ target) (rest : List Char) :
    targetClose (target ++ ')' :: rest) = some (target, rest) := by
  induction target with
  | nil => rfl
  | cons c target ih =>
      rw [List.mem_cons, not_or] at h
      rw [List.cons_append, targetClose, if_neg (Ne.symm h.1), ih h.2]
      rfl

theorem targetClose_eq_none {text : List Char} : targetClose text = none ↔ ')' ∉ text := by
  constructor
  · intro h hmem
    obtain ⟨front, back, rfl, hfront⟩ := List.eq_append_cons_of_mem hmem
    rw [targetClose_append hfront] at h
    cases h
  · intro h
    cases hclose : targetClose text with
    | none => rfl
    | some split =>
        obtain ⟨rfl, -⟩ := targetClose_sound hclose
        simp at h

/-- The label, the target and what is behind the link whose bracket is already read. -/
def linkClose (text : List Char) : Option (List Char × List Char × List Char) :=
  (labelClose false text).bind fun (label, target) =>
    (targetClose target).map fun (encoded, rest) => (label, encoded, rest)

theorem linkClose_sound {text label encoded rest : List Char}
    (h : linkClose text = some (label, encoded, rest)) :
    text = label ++ ']' :: '(' :: (encoded ++ ')' :: rest) := by
  obtain ⟨⟨label', target⟩, hlabel, h⟩ := Option.bind_eq_some_iff.mp h
  obtain ⟨⟨encoded', rest'⟩, htarget, heq⟩ := Option.map_eq_some_iff.mp h
  cases heq
  rw [labelClose_sound hlabel, (targetClose_sound htarget).1]

def scanLinks (search : Nat) : List Char → List FileMentionLink
  | [] => []
  | c :: text =>
      if c ≠ '[' then scanLinks (search + utf8Len [c]) text
      else
        match hclose : linkClose text with
        | none => scanLinks (search + 1) text
        | some (label, encoded, rest) =>
            let stop := search + 1 + utf8Len label + 2 + utf8Len encoded + 1
            match (strip "zeron-file:" encoded).bind (parseMention label) with
            | none => scanLinks stop rest
            | some (path, isDir) =>
                { start := search, stop, basename := lastPart path, path, isDir } ::
                  scanLinks stop rest
termination_by text => text.length
decreasing_by
  · exact Nat.lt_succ_self _
  · exact Nat.lt_succ_self _
  all_goals
    rw [linkClose_sound hclose]
    simp only [List.length_cons, List.length_append]
    omega

def fileMentionLinks (text : List Char) : List FileMentionLink := scanLinks 0 text

/-- A separator that is there already takes the place of the one behind the mention. -/
def existingSeparator (after : List Char) : Option Char :=
  after.head?.filter fun c => isWhitespace c ∧ c ≠ '\n' ∧ c ≠ '\r'

/-- The draft after a mention is inserted, and the cursor in it. -/
def replaceMention (content : List Char) (start stop : Nat) (path : List Char) (isDir : Bool) :
    Option (List Char × Nat) := do
  let (_, after) ← splitAt? stop content
  let (before, _) ← splitAt? start content
  let link := localFileLink path isDir
  let inserted := if (existingSeparator after).isSome then link else link ++ [' ']
  some (before ++ inserted ++ after,
    start + utf8Len inserted + ((existingSeparator after).map (utf8Len [·])).getD 0)

/-! ### The link of a safe path -/

variable {path : List Char}

theorem getLast?_ne_slash (h : localPathIsSafe path = true) :
    path.getLast? ≠ some '/' := by
  intro hlast
  obtain ⟨front, rfl⟩ := List.getLast?_eq_some_iff.mp hlast
  have hparts := (of_decide_eq_true h).2.2.2.2
  rw [List.splitOn_append_cons_self, List.splitOn_nil] at hparts
  simp at hparts

theorem trimEndSlashes_eq (h : localPathIsSafe path = true) :
    trimEndSlashes path = path := by
  have hlast := getLast?_ne_slash h
  obtain rfl | ⟨front, last, rfl⟩ := List.eq_nil_or_concat' path
  · rfl
  · rw [List.getLast?_concat] at hlast
    rw [trimEndSlashes, List.reverse_concat,
      List.dropWhile_cons_of_neg (by simpa using fun heq => hlast (congrArg some heq)),
      ← List.reverse_concat, List.reverse_reverse]

theorem lastPart_ne_nil (h : localPathIsSafe path = true) : lastPart path ≠ [] := by
  intro hnil
  have hparts := (of_decide_eq_true h).2.2.2.2
  rw [lastPart, List.getLastD_eq_getLast?, List.getLast?_eq_some_getLast
    (List.splitOn_ne_nil '/' path), Option.getD_some] at hnil
  rw [List.any_eq_false] at hparts
  exact hparts _ (List.getLast_mem (List.splitOn_ne_nil '/' path)) (by simp [hnil])

def encodedTarget (path : List Char) (isDir : Bool) : List Char :=
  percentEncodePath (path ++ if isDir then ['/'] else [])

theorem localFileLink_eq (h : localPathIsSafe path = true) (isDir : Bool) :
    localFileLink path isDir = '[' :: (escapeMentionLabel (lastPart path) ++
      ']' :: '(' :: (fileMentionScheme ++ encodedTarget path isDir ++ [')'])) := by
  rw [localFileLink, trimEndSlashes_eq h, if_neg (lastPart_ne_nil h)]
  simp [encodedTarget]

theorem strip_scheme {encoded target : List Char} :
    strip "zeron-file:" encoded = some target ↔ encoded = fileMentionScheme ++ target :=
  ⟨eq_append_of_strip, fun h => h ▸ strip_append _ _⟩

theorem unreserved_spec (byte : UInt8) (h : unreserved byte = true) :
    byte.toNat < 0x80 ∧ byte.toNat ≠ 41 := by
  have := of_decide_eq_true h
  omega

theorem paren_not_mem_encode (bytes : Bytes) : ')' ∉ Lib.Percent.encode unreserved bytes := by
  intro hmem
  obtain ⟨byte, -, hbyte⟩ := List.mem_flatMap.mp hmem
  have hbound := byte.toNat_lt
  have hdigit : ∀ n < 16, ')' ≠ Lib.Percent.hexDigit n := by decide
  rw [Lib.Percent.encodeByte] at hbyte
  split_ifs at hbyte with hkeep
  · have hparen : ∀ n < 0x80, ')' = Char.ofNat n → n = 41 := by decide
    obtain ⟨hascii, hne⟩ := unreserved_spec byte hkeep
    exact hne (hparen _ hascii (List.mem_singleton.mp hbyte))
  · simp only [List.mem_cons, List.not_mem_nil, or_false] at hbyte
    obtain hbyte | hbyte | hbyte := hbyte
    · exact absurd hbyte (by decide)
    · exact hdigit _ (by omega) hbyte
    · exact hdigit _ (by omega) hbyte

theorem paren_not_mem_target (path : List Char) (isDir : Bool) :
    ')' ∉ fileMentionScheme ++ encodedTarget path isDir := by
  rw [List.mem_append, not_or]
  exact ⟨by decide, paren_not_mem_encode _⟩

theorem percentDecodePath_encode (path : List Char) :
    percentDecodePath (percentEncodePath path) = some path := by
  have hbytes := Lib.Percent.decode_encode (fun byte h => (unreserved_spec byte h).1) (by decide)
    (path.flatMap encodeChar)
  have htext := Lib.Utf8.decode?_encode (.ofList path)
  rw [Lib.Utf8.encode, String.toList_ofList] at htext
  rw [percentDecodePath, percentEncodePath, hbytes, Option.bind_some, htext, Option.map_some,
    String.toList_ofList]

theorem parseMention_eq_some {label encoded path : List Char} {isDir : Bool} :
    parseMention label encoded = some (path, isDir) ↔ localPathIsSafe path = true ∧
      label = escapeMentionLabel (lastPart path) ∧ encoded = encodedTarget path isDir := by
  constructor
  · intro h
    obtain ⟨target, -, h⟩ := Option.bind_eq_some_iff.mp h
    by_cases hdir : target.getLast? = some '/'
    · simp only [hdir, decide_true, if_true] at h
      split_ifs at h with hvalid
      cases h
      obtain ⟨hsafe, hencoded, hlabel⟩ := hvalid
      obtain ⟨front, rfl⟩ := List.getLast?_eq_some_iff.mp hdir
      rw [List.dropLast_concat] at *
      exact ⟨hsafe, hlabel.symm, hencoded.symm⟩
    · simp only [hdir, decide_false, Bool.false_eq_true, if_false] at h
      split_ifs at h with hvalid
      cases h
      obtain ⟨hsafe, hencoded, hlabel⟩ := hvalid
      exact ⟨hsafe, hlabel.symm, by rw [encodedTarget, if_neg Bool.false_ne_true, List.append_nil, hencoded]⟩
  · rintro ⟨hsafe, rfl, rfl⟩
    rw [parseMention, encodedTarget, percentDecodePath_encode, Option.bind_some]
    cases isDir with
    | true => simp [hsafe]
    | false => simp [hsafe, getLast?_ne_slash hsafe]

/-! ### Escaped labels -/

theorem escapeMentionLabel_cons (c : Char) (label : List Char) :
    escapeMentionLabel (c :: label) =
      (if c = '\\' ∨ c = '[' ∨ c = ']' then ['\\', c] else [c]) ++ escapeMentionLabel label := by
  unfold escapeMentionLabel replaceChar
  rw [List.flatMap_cons, List.flatMap_append, List.flatMap_append]
  congr 1
  by_cases hbackslash : c = '\\'
  · subst hbackslash
    rfl
  · by_cases hopen : c = '['
    · subst hopen
      rfl
    · by_cases hclose : c = ']'
      · subst hclose
        rfl
      · simp [hbackslash, hopen, hclose]

theorem labelClose_escape (label rest : List Char) :
    labelClose false (escapeMentionLabel label ++ ']' :: '(' :: rest) =
      some (escapeMentionLabel label, rest) := by
  induction label with
  | nil => rfl
  | cons c label ih =>
      rw [escapeMentionLabel_cons, List.append_assoc]
      split_ifs with hc
      · simp [labelClose, ih]
      · rw [not_or, not_or] at hc
        simp [labelClose, hc, ih]

theorem labelClose_again {escaped : Bool} {text label rest : List Char}
    (h : labelClose escaped text = some (label, rest)) (rest' : List Char) :
    labelClose escaped (label ++ ']' :: '(' :: rest') = some (label, rest') := by
  induction text generalizing escaped label with
  | nil => cases h
  | cons c text ih =>
      rw [labelClose_cons] at h
      split_ifs at h with hclose
      · cases h
        rw [List.nil_append, labelClose_cons, if_pos ⟨hclose.1, rfl, rfl⟩]
        rfl
      · obtain ⟨⟨label', rest'⟩, hrest, heq⟩ := Option.map_eq_some_iff.mp h
        cases heq
        have hhead : (label' ++ ']' :: '(' :: rest').head? = text.head? := by
          rw [labelClose_sound hrest]
          cases label' <;> rfl
        rw [List.cons_append, labelClose_cons, hhead, if_neg hclose, ih hrest]
        rfl

theorem labelClose_before_link (escaped : Bool) (before label target : List Char) :
    ∃ label' rest, labelClose escaped (before ++ '[' :: (escapeMentionLabel label ++
      ']' :: '(' :: target)) = some (label', rest) ∧ target <:+ rest := by
  induction before generalizing escaped with
  | nil =>
      rw [List.nil_append, labelClose_cons, if_neg (by simp)]
      exact ⟨_, target, by simp [labelClose_escape]; rfl, List.suffix_refl _⟩
  | cons c before ih =>
      rw [List.cons_append, labelClose_cons]
      split_ifs with hclose
      · refine ⟨_, _, rfl, ?_⟩
        cases before with
        | nil => exact absurd hclose.2.2 (by simp)
        | cons d before =>
            exact ⟨before ++ '[' :: (escapeMentionLabel label ++ [']', '(']), by simp⟩
      · obtain ⟨label', rest, hclose, hsuffix⟩ := ih (!escaped && c = '\\')
        exact ⟨_, rest, by rw [hclose]; rfl, hsuffix⟩

theorem linkClose_again {text label encoded rest : List Char}
    (h : linkClose text = some (label, encoded, rest)) (rest' : List Char) :
    linkClose (label ++ ']' :: '(' :: (encoded ++ ')' :: rest')) = some (label, encoded, rest') := by
  obtain ⟨⟨label', target⟩, hlabel, h⟩ := Option.bind_eq_some_iff.mp h
  obtain ⟨⟨encoded', rest'⟩, htarget, heq⟩ := Option.map_eq_some_iff.mp h
  cases heq
  rw [linkClose, labelClose_again hlabel, Option.bind_some]
  dsimp only
  rw [targetClose_append (targetClose_sound htarget).2]
  rfl

theorem linkClose_append {text label encoded rest : List Char}
    (h : linkClose text = some (label, encoded, rest)) (back : List Char) :
    linkClose (text ++ back) = some (label, encoded, rest ++ back) := by
  have hagain := linkClose_again h (rest ++ back)
  rw [linkClose_sound h]
  simpa using hagain

theorem linkClose_link (isDir : Bool) (rest : List Char) :
    linkClose (escapeMentionLabel (lastPart path) ++
      ']' :: '(' :: (fileMentionScheme ++ encodedTarget path isDir ++ ')' :: rest)) =
        some (escapeMentionLabel (lastPart path), fileMentionScheme ++ encodedTarget path isDir, rest) := by
  rw [linkClose, labelClose_escape, Option.bind_some]
  dsimp only
  rw [targetClose_append (paren_not_mem_target path isDir)]
  rfl

theorem exists_linkClose (before : List Char) (hsafe : localPathIsSafe path = true) (isDir : Bool)
    (after : List Char) :
    ∃ split, linkClose (before ++ localFileLink path isDir ++ after) = some split := by
  rw [localFileLink_eq hsafe]
  obtain ⟨label, rest, hlabel, front, rfl⟩ := labelClose_before_link false before (lastPart path)
    (fileMentionScheme ++ encodedTarget path isDir ++ ')' :: after)
  have hparen : targetClose
      (front ++ (fileMentionScheme ++ encodedTarget path isDir ++ ')' :: after)) ≠ none :=
    fun hnone => targetClose_eq_none.mp hnone (by simp)
  obtain ⟨⟨encoded, rest⟩, htarget⟩ := Option.ne_none_iff_exists'.mp hparen
  refine ⟨(label, encoded, rest), ?_⟩
  rw [linkClose]
  simp only [List.append_assoc, List.cons_append, List.nil_append] at hlabel htarget ⊢
  rw [hlabel, Option.bind_some, htarget]
  rfl

/-! ### Links by their surroundings -/

/-- A scan of the text alone comes to a bracket whose link is not finished in it. -/
def opensBracket : List Char → Bool
  | [] => false
  | c :: text =>
      if c ≠ '[' then opensBracket text
      else
        match _hclose : linkClose text with
        | none => true
        | some (_, _, rest) => opensBracket rest
termination_by text => text.length
decreasing_by
  · exact Nat.lt_succ_self _
  · rw [linkClose_sound _hclose]
    simp only [List.length_cons, List.length_append]
    omega

theorem opensBracket_open (text : List Char) :
    opensBracket ('[' :: text) = ((linkClose text).map fun split => opensBracket split.2.2).getD true := by
  rw [opensBracket, if_neg (not_not.mpr rfl)]
  split <;> simp [*]

theorem opensBracket_append {before : List Char} (h : opensBracket before = false)
    (text : List Char) : opensBracket (before ++ text) = opensBracket text := by
  fun_induction opensBracket before with
  | case1 => rfl
  | case2 c before hc ih =>
      rw [List.cons_append, opensBracket, if_pos hc, ih h]
  | case3 => cases h
  | case4 c before hc label encoded rest hclose ih =>
      obtain rfl := not_not.mp hc
      rw [List.cons_append, opensBracket_open, linkClose_append hclose, Option.map_some,
        Option.getD_some, ih h]

theorem utf8Len_link (label encoded rest : List Char) :
    utf8Len ('[' :: (label ++ ']' :: '(' :: (encoded ++ ')' :: rest))) =
      1 + utf8Len label + 2 + utf8Len encoded + 1 + utf8Len rest := by
  have hopen : utf8Len ['['] = 1 ∧ utf8Len ['('] = 1 := by decide
  have hclose : utf8Len [']'] = 1 ∧ utf8Len [')'] = 1 := by decide
  rw [utf8Len_cons '[', utf8Len_append, utf8Len_cons ']', utf8Len_cons '(', utf8Len_append,
    utf8Len_cons ')', hopen.1, hopen.2, hclose.1, hclose.2]
  omega

/-- A mention as it stands in a text: its link, and in front of it a text that leaves no bracket
open. -/
def IsMention (search : Nat) (text : List Char) (link : FileMentionLink) : Prop :=
  ∃ before after, text = before ++ localFileLink link.path link.isDir ++ after ∧
    opensBracket before = false ∧ localPathIsSafe link.path = true ∧
    link.start = search + utf8Len before ∧
    link.stop = link.start + utf8Len (localFileLink link.path link.isDir) ∧
    link.basename = lastPart link.path

theorem isMention_cons {search : Nat} {c : Char} (hc : c ≠ '[') (text : List Char)
    (link : FileMentionLink) :
    IsMention search (c :: text) link ↔ IsMention (search + utf8Len [c]) text link := by
  constructor
  · rintro ⟨before, after, htext, hopen, hsafe, hstart, hrest⟩
    cases before with
    | nil =>
        rw [localFileLink_eq hsafe] at htext
        exact absurd (List.cons.inj htext).1 hc
    | cons d before =>
        obtain ⟨rfl, rfl⟩ := List.cons.inj htext
        rw [opensBracket, if_pos hc] at hopen
        rw [utf8Len_cons, ← Nat.add_assoc] at hstart
        exact ⟨before, after, rfl, hopen, hsafe, hstart, hrest⟩
  · rintro ⟨before, after, rfl, hopen, hsafe, hstart, hrest⟩
    refine ⟨c :: before, after, rfl, ?_, hsafe, ?_, hrest⟩
    · rwa [opensBracket, if_pos hc]
    · rw [hstart, utf8Len_cons c before, Nat.add_assoc]

theorem not_isMention_of_linkClose {search : Nat} {text : List Char} (hclose : linkClose text = none)
    (link : FileMentionLink) :
    ¬IsMention search ('[' :: text) link ∧ ∀ search', ¬IsMention search' text link := by
  have hnone : ∀ {before after}, localPathIsSafe link.path = true →
      text ≠ before ++ localFileLink link.path link.isDir ++ after := by
    rintro before after hsafe rfl
    obtain ⟨split, hsplit⟩ := exists_linkClose before hsafe link.isDir after
    rw [hclose] at hsplit
    cases hsplit
  constructor
  · rintro ⟨before, after, htext, -, hsafe, -⟩
    cases before with
    | nil =>
        rw [localFileLink_eq hsafe, List.nil_append, List.cons_append, List.cons.injEq,
          List.append_assoc] at htext
        have hlink := @linkClose_link link.path link.isDir after
        rw [htext.2] at hclose
        simp only [List.append_assoc, List.cons_append, List.nil_append] at hclose hlink
        rw [hclose] at hlink
        cases hlink
    | cons d before => exact hnone hsafe (List.cons.inj htext).2
  · rintro search' ⟨before, after, htext, -, hsafe, -⟩
    exact hnone hsafe htext

theorem localFileLink_cons (hsafe : localPathIsSafe path = true) (isDir : Bool)
    (after : List Char) :
    localFileLink path isDir ++ after = '[' :: (escapeMentionLabel (lastPart path) ++
      ']' :: '(' :: (fileMentionScheme ++ encodedTarget path isDir ++ ')' :: after)) := by
  rw [localFileLink_eq hsafe]
  simp only [List.append_assoc, List.cons_append, List.nil_append]

theorem isMention_here {label encoded : List Char} {link : FileMentionLink} :
    (strip "zeron-file:" encoded).bind (parseMention label) = some (link.path, link.isDir) ↔
      localPathIsSafe link.path = true ∧ label = escapeMentionLabel (lastPart link.path) ∧
        encoded = fileMentionScheme ++ encodedTarget link.path link.isDir := by
  rw [Option.bind_eq_some_iff]
  constructor
  · rintro ⟨target, hstrip, hparse⟩
    obtain ⟨hsafe, hlabel, rfl⟩ := parseMention_eq_some.mp hparse
    exact ⟨hsafe, hlabel, strip_scheme.mp hstrip⟩
  · rintro ⟨hsafe, hlabel, hencoded⟩
    exact ⟨_, strip_scheme.mpr hencoded, parseMention_eq_some.mpr ⟨hsafe, hlabel, rfl⟩⟩

/-- A finished link is the mention that is read from it, and the scan goes on behind it. -/
theorem isMention_linkClose {search : Nat} {text label encoded rest : List Char}
    (hclose : linkClose text = some (label, encoded, rest)) (link : FileMentionLink) :
    IsMention search ('[' :: text) link ↔
      ((strip "zeron-file:" encoded).bind (parseMention label) = some (link.path, link.isDir) ∧
        link.start = search ∧
        link.stop = search + 1 + utf8Len label + 2 + utf8Len encoded + 1 ∧
        link.basename = lastPart link.path) ∨
      IsMention (search + 1 + utf8Len label + 2 + utf8Len encoded + 1) rest link := by
  rw [isMention_here]
  have htext := linkClose_sound hclose
  constructor
  · rintro ⟨before, after, hsplit, hopen, hsafe, hstart, hstop, hbasename⟩
    cases before with
    | nil =>
        rw [List.nil_append, localFileLink_cons hsafe, List.cons.injEq] at hsplit
        rw [hsplit.2, linkClose_link, Option.some_inj, Prod.mk.injEq, Prod.mk.injEq] at hclose
        obtain ⟨hlabel, hencoded, -⟩ := hclose
        have hlength := congrArg utf8Len (localFileLink_cons hsafe link.isDir [])
        rw [List.append_nil, utf8Len_link, utf8Len_nil, hlabel, hencoded] at hlength
        rw [utf8Len_nil, Nat.add_zero] at hstart
        exact .inl ⟨⟨hsafe, hlabel.symm, hencoded.symm⟩, hstart, by omega, hbasename⟩
    | cons d before =>
        rw [List.cons_append, List.cons_append, List.cons.injEq] at hsplit
        obtain ⟨rfl, rfl⟩ := hsplit
        rw [opensBracket_open] at hopen
        cases hbefore : linkClose before with
        | none => simp [hbefore] at hopen
        | some split =>
            obtain ⟨label', encoded', rest'⟩ := split
            rw [linkClose_append (linkClose_append hbefore _) after, Option.some_inj,
              Prod.mk.injEq, Prod.mk.injEq] at hclose
            obtain ⟨rfl, rfl, rfl⟩ := hclose
            rw [hbefore] at hopen
            refine .inr ⟨rest', after, rfl, hopen, hsafe, ?_, hstop, hbasename⟩
            rw [hstart, linkClose_sound hbefore, utf8Len_link]
            omega
  · rintro (⟨⟨hsafe, hlabel, hencoded⟩, hstart, hstop, hbasename⟩ |
      ⟨before, after, rfl, hopen, hsafe, hstart, hstop, hbasename⟩)
    · have hlength := congrArg utf8Len (localFileLink_cons hsafe link.isDir [])
      rw [List.append_nil, utf8Len_link, utf8Len_nil, ← hlabel, ← hencoded] at hlength
      refine ⟨[], rest, ?_, by rw [opensBracket], hsafe, hstart, by omega, hbasename⟩
      rw [List.nil_append, localFileLink_cons hsafe, htext, hlabel, hencoded]
    · refine ⟨'[' :: (label ++ ']' :: '(' :: (encoded ++ ')' :: before)), after, ?_, ?_, hsafe, ?_,
        hstop, hbasename⟩
      · rw [htext]
        simp only [List.append_assoc, List.cons_append]
      · rw [opensBracket_open, linkClose_again hclose]
        exact hopen
      · rw [hstart, utf8Len_link]
        omega

theorem mem_scanLinks (search : Nat) (text : List Char) (link : FileMentionLink) :
    link ∈ scanLinks search text ↔ IsMention search text link := by
  fun_induction scanLinks search text with
  | case1 =>
      refine iff_of_false List.not_mem_nil ?_
      rintro ⟨before, after, htext, -, hsafe, -⟩
      rw [localFileLink_eq hsafe] at htext
      simp at htext
  | case2 search c text hc ih => rw [ih, isMention_cons hc]
  | case3 search c text hc hclose ih =>
      obtain rfl := not_not.mp hc
      obtain ⟨hhere, hbehind⟩ := not_isMention_of_linkClose hclose link
      rw [ih]
      exact iff_of_false (hbehind _) hhere
  | case4 search c text hc label encoded rest hclose stop hparse ih =>
      obtain rfl := not_not.mp hc
      rw [ih, isMention_linkClose hclose, hparse, or_iff_right (by simp)]
  | case5 search c text hc label encoded rest hclose stop path isDir hparse ih =>
      obtain rfl := not_not.mp hc
      rw [List.mem_cons, ih, isMention_linkClose hclose, hparse]
      refine or_congr_left ⟨?_, ?_⟩
      · rintro rfl
        exact ⟨rfl, rfl, rfl, rfl⟩
      · rintro ⟨heq, hstart, hstop, hbasename⟩
        cases link
        simp_all [stop]

/-! ### Inserting a mention -/

/-- The space that is put behind the link, unless a separator is there. -/
def separator (after : List Char) : List Char :=
  if (existingSeparator after).isSome then [] else [' ']

def withMention (before after path : List Char) (isDir : Bool) : List Char :=
  before ++ localFileLink path isDir ++ (separator after ++ after)

theorem replaceMention_eq (before replaced after path : List Char) (isDir : Bool) :
    (replaceMention (before ++ replaced ++ after) (utf8Len before) (utf8Len (before ++ replaced))
      path isDir).map Prod.fst = some (withMention before after path isDir) := by
  have hbefore : splitAt? (utf8Len before) (before ++ replaced ++ after) =
      some (before, replaced ++ after) := by
    rw [List.append_assoc, splitAt?_append]
  unfold replaceMention withMention separator
  rw [splitAt?_append, hbefore]
  by_cases hseparator : (existingSeparator after).isSome = true
  · simp only [if_pos hseparator, Option.bind_eq_bind, Option.bind_some, Option.map_some,
      List.nil_append]
  · simp only [if_neg hseparator, Option.bind_eq_bind, Option.bind_some, Option.map_some,
      List.append_assoc]

/-- The inserted link is found where it is, and so is each link of the draft outside of the range. -/
def MentionsKept (before replaced after path : List Char) (isDir : Bool) : Prop :=
  ∃ content cursor, replaceMention (before ++ replaced ++ after) (utf8Len before)
      (utf8Len (before ++ replaced)) path isDir = some (content, cursor) ∧
    (∃ link ∈ fileMentionLinks content,
      link.start = utf8Len before ∧ link.path = path ∧ link.isDir = isDir) ∧
    ∀ link ∈ fileMentionLinks (before ++ replaced ++ after),
      (link.stop ≤ utf8Len before → link ∈ fileMentionLinks content) ∧
      (utf8Len (before ++ replaced) ≤ link.start → ∃ link' ∈ fileMentionLinks content,
        link'.path = link.path ∧ link'.isDir = link.isDir ∧
        link'.start + utf8Len (before ++ replaced ++ after) = link.start + utf8Len content)

/-- No bracket in front of the range takes up the inserted link, and none between the range and a
later link takes up that one. -/
def NoBracketOpen (before replaced after : List Char) : Prop :=
  opensBracket before = false ∧ ∀ between path isDir rest,
    after = between ++ localFileLink path isDir ++ rest → localPathIsSafe path = true →
      opensBracket (before ++ replaced ++ between) = false → opensBracket between = false

theorem mem_fileMentionLinks {text : List Char} {link : FileMentionLink} :
    link ∈ fileMentionLinks text ↔ IsMention 0 text link :=
  mem_scanLinks 0 text link

theorem exists_mention {before path : List Char} (hopen : opensBracket before = false)
    (hsafe : localPathIsSafe path = true) (isDir : Bool) (after : List Char) :
    ∃ link ∈ fileMentionLinks (before ++ localFileLink path isDir ++ after),
      link.start = utf8Len before ∧ link.path = path ∧ link.isDir = isDir := by
  let link : FileMentionLink := ⟨utf8Len before, utf8Len before + utf8Len (localFileLink path isDir),
    lastPart path, path, isDir⟩
  refine ⟨link, mem_fileMentionLinks.mpr ?_, rfl, rfl, rfl⟩
  exact ⟨before, after, rfl, hopen, hsafe, (Nat.zero_add _).symm, rfl, rfl⟩

theorem not_opensBracket_of_mention {before after : List Char} {link : FileMentionLink}
    (hlink : link ∈ fileMentionLinks (before ++ localFileLink link.path link.isDir ++ after))
    (hstart : link.start = utf8Len before) : opensBracket before = false := by
  obtain ⟨before', after', htext, hopen, hsafe, hstart', -⟩ := mem_fileMentionLinks.mp hlink
  rw [Nat.zero_add] at hstart'
  rw [List.append_assoc, List.append_assoc before'] at htext
  obtain ⟨rfl, -⟩ := eq_of_utf8Len htext (hstart.symm.trans hstart')
  exact hopen

theorem opensBracket_link (hsafe : localPathIsSafe path = true) (isDir : Bool) (rest : List Char) :
    opensBracket (localFileLink path isDir ++ rest) = opensBracket rest := by
  rw [localFileLink_cons hsafe, opensBracket_open, linkClose_link]
  rfl

theorem opensBracket_separator (after rest : List Char) :
    opensBracket (separator after ++ rest) = opensBracket rest := by
  rw [separator]
  split_ifs
  · rfl
  · rw [List.singleton_append, opensBracket, if_pos (by decide)]

theorem mem_of_stop_le {before tail tail' : List Char} {link : FileMentionLink}
    (hlink : link ∈ fileMentionLinks (before ++ tail)) (hstop : link.stop ≤ utf8Len before) :
    link ∈ fileMentionLinks (before ++ tail') := by
  obtain ⟨front, back, htext, hopen, hsafe, hstart, hstop', hbasename⟩ := mem_fileMentionLinks.mp hlink
  rw [hstop', hstart, Nat.zero_add, ← utf8Len_append] at hstop
  obtain ⟨middle, rfl, -⟩ := exists_of_utf8Len_le htext.symm hstop
  exact mem_fileMentionLinks.mpr
    ⟨front, middle ++ tail', by rw [List.append_assoc], hopen, hsafe, hstart, hstop', hbasename⟩

theorem opensBracket_between {before after path : List Char} (hopen : opensBracket before = false)
    (hsafe : localPathIsSafe path = true) (isDir : Bool) (between : List Char) :
    opensBracket (before ++ localFileLink path isDir ++ (separator after ++ between)) =
      opensBracket between := by
  rw [List.append_assoc, opensBracket_append hopen, opensBracket_link hsafe, opensBracket_separator]

theorem withMention_later (before path between path' rest : List Char) (isDir isDir' : Bool) :
    withMention before (between ++ localFileLink path' isDir' ++ rest) path isDir =
      before ++ localFileLink path isDir ++
        (separator (between ++ localFileLink path' isDir' ++ rest) ++ between) ++
        localFileLink path' isDir' ++ rest := by
  simp only [withMention, List.append_assoc]

theorem mentions_kept_iff (before replaced after : List Char) {path : List Char}
    (hsafe : localPathIsSafe path = true) (isDir : Bool) :
    MentionsKept before replaced after path isDir ↔ NoBracketOpen before replaced after := by
  have hcontent := replaceMention_eq before replaced after path isDir
  obtain ⟨⟨content, cursor⟩, hreplace, hfst⟩ := Option.map_eq_some_iff.mp hcontent
  dsimp only at hfst
  subst hfst
  constructor
  · rintro ⟨content', cursor', hreplace', hinserted, hlinks⟩
    rw [hreplace, Option.some_inj, Prod.mk.injEq] at hreplace'
    obtain ⟨rfl, rfl⟩ := hreplace'
    obtain ⟨inserted, hmem, hat, hpath, hisDir⟩ := hinserted
    rw [withMention, ← hpath, ← hisDir] at hmem
    have hopen := not_opensBracket_of_mention hmem hat
    refine ⟨hopen, fun between path' isDir' rest hafter hsafe' hbetween => ?_⟩
    subst hafter
    obtain ⟨link, hlink, hstart, hpath', hisDir'⟩ := exists_mention hbetween hsafe' isDir' rest
    subst hpath' hisDir'
    have hle : utf8Len (before ++ replaced) ≤ link.start := by
      rw [hstart, utf8Len_append (before ++ replaced)]
      exact Nat.le_add_right _ _
    rw [List.append_assoc, List.append_assoc, ← List.append_assoc between] at hlink
    obtain ⟨link', hlink', hpath, hisDir, hshift⟩ := (hlinks link hlink).2 hle
    rw [← hpath, ← hisDir, withMention_later] at hlink'
    rw [← hpath, ← hisDir, withMention_later] at hshift
    have hstart' : link'.start = utf8Len (before ++ localFileLink path isDir ++
        (separator (between ++ localFileLink link'.path link'.isDir ++ rest) ++ between)) := by
      simp only [utf8Len_append] at hshift hstart ⊢
      omega
    have hkept := not_opensBracket_of_mention hlink' hstart'
    rwa [opensBracket_between hopen hsafe] at hkept
  · rintro ⟨hopen, hbetween⟩
    refine ⟨_, cursor, hreplace, exists_mention hopen hsafe isDir _, fun link hlink => ⟨?_, ?_⟩⟩
    · intro hstop
      rw [List.append_assoc] at hlink
      rw [withMention, List.append_assoc]
      exact mem_of_stop_le hlink hstop
    · intro hstart
      obtain ⟨front, back, htext, hfront, hsafe', hfrom, -⟩ := mem_fileMentionLinks.mp hlink
      rw [Nat.zero_add] at hfrom
      rw [hfrom] at hstart
      rw [List.append_assoc front] at htext
      obtain ⟨between, rfl, rfl⟩ := exists_of_utf8Len_le htext hstart
      rw [← List.append_assoc] at hbetween ⊢
      have hkept := hbetween between link.path link.isDir back rfl hsafe' hfront
      rw [← opensBracket_between hopen hsafe isDir] at hkept
      obtain ⟨link', hlink', hstart', hpath, hisDir⟩ := exists_mention hkept hsafe' link.isDir back
      refine ⟨link', ?_, hpath, hisDir, ?_⟩
      · rwa [withMention_later]
      · rw [withMention_later]
        simp only [utf8Len_append] at hfrom hstart' ⊢
        omega

theorem mention_kept_at_end : MentionsKept "see ".toList "@li".toList [] "lib.rs".toList false := by
  refine (mentions_kept_iff _ _ _ (by decide) _).mpr ⟨by decide +kernel, ?_⟩
  intro between path isDir rest hafter hsafe
  rw [List.append_assoc, localFileLink_cons hsafe] at hafter
  simp at hafter

/-- The bracket in front of the mention takes it up. -/
theorem mention_lost_behind_bracket : localPathIsSafe "f".toList = true ∧
    ¬MentionsKept "[".toList "@f".toList [] "f".toList false := by
  refine ⟨by decide, ?_⟩
  rintro ⟨content, cursor, hreplace, ⟨link, hlink, -⟩, -⟩
  have hinserted : replaceMention ("[".toList ++ "@f".toList ++ []) (utf8Len "[".toList)
      (utf8Len ("[".toList ++ "@f".toList)) "f".toList false =
      some ("[[f](zeron-file:f) ".toList, 19) := by
    decide +kernel
  have hnone : fileMentionLinks "[[f](zeron-file:f) ".toList = [] := by decide +kernel
  rw [hinserted, Option.some_inj, Prod.mk.injEq] at hreplace
  rw [← hreplace.1, hnone] at hlink
  exact List.not_mem_nil hlink

end Zeron.Ui.Mentions
