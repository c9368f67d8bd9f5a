import Zeron.Doc.Rebuild
import Zeron.Lib.ByteSlices
import Zeron.Lib.Fields

/-!
# Model labels

`clean_label` of `crates/harness/src/acp/cursor.rs`. The loop walks over the bytes of a name and
slices the name at the byte offsets it finds. What a name is made of is said by a relation on
characters, and the loop is run along it. A byte that is kept becomes a character of its own.
-/

namespace Zeron.Harness.CleanLabel

open Zeron.Doc (isWhitespace trim trimEnd)
open Zeron.Lib Utf8

def find (needle : List Char) : List Char → Option Nat
  | [] => if needle.isEmpty then some 0 else none
  | c :: text =>
      if needle.isPrefixOf (c :: text) then some 0 else (find needle text).map (utf8Len [c] + ·)

def toAsciiLowercase (text : List Char) : List Char := text.map Char.toLower

def closeTag : List Char := "</span>".toList

/-- `name[i..]` -/
def sliceFrom? (i : Nat) (name : List Char) : Option (List Char) := (splitAt? i name).map (·.2)

/-- The span whose opening tag is between two offsets: the offset behind it and its badge. -/
def spanAt (name : List Char) (i contentStart : Nat) : Option (Option (Nat × List Char)) := do
  let tag ← slice? i contentStart name
  if "<span".toList.isPrefixOf (toAsciiLowercase tag) then
    let content ← sliceFrom? contentStart name
    match find closeTag (toAsciiLowercase content) with
    | none => some none
    | some close =>
        let badge ← slice? contentStart (contentStart + close) name
        some (some (contentStart + close + utf8Len closeTag, trim badge))
  else some none

/-- The tag at an offset: the offset to go on from and the badges found. -/
def tagAt (name : List Char) (i : Nat) : Option (Option (Nat × List (List Char))) := do
  let rest ← sliceFrom? i name
  match find ['>'] rest with
  | none => some none
  | some stop =>
      match ← spanAt name i (i + stop + 1) with
      | some (next, badge) => some (some (next, if badge.isEmpty then [] else [badge]))
      | none => some (some (i + stop + 1, []))

/-- `byte as char` -/
def asChar (byte : UInt8) : Char := .ofNat byte.toNat

/-- A slice that fails ends the loop without a result. -/
def scan (name : List Char) :
    Nat → Nat → List Char → List (List Char) → Option (List Char × List (List Char))
  | 0, _, _, _ => none
  | fuel + 1, i, out, badges =>
      match (name.flatMap encodeChar)[i]? with
      | none => some (out, badges)
      | some byte =>
          match if byte = 0x3C then tagAt name i else some none with
          | none => none
          | some (some (next, found)) => scan name fuel next out (badges ++ found)
          | some none => scan name fuel (i + 1) (out ++ [asChar byte]) badges

/-- `split_whitespace` and `join(" ")` -/
def normalized (text : List Char) : List Char :=
  [' '].intercalate (Fields.words isWhitespace text)

def copies (badge : List Char) : List (List Char) :=
  [' ' :: '(' :: badge ++ [')'], ' ' :: badge, '(' :: badge ++ [')']]

def stripSuffix (label suffix : List Char) : Option (List Char) :=
  if suffix.isSuffixOf label then some (label.take (label.length - suffix.length)) else none

def stripCopy (badge label : List Char) : List Char :=
  match (copies badge).findSome? fun suffix =>
      (stripSuffix label suffix).or (stripSuffix label (toAsciiLowercase suffix)) with
  | some stripped => trimEnd stripped
  | none => label

def cleanLabel (name : List Char) : Option (List Char × Option (List Char)) := do
  let (out, badges) ← scan name (utf8Len name + 1) 0 [] []
  match badges.head? with
  | none => some (normalized out, none)
  | some badge => some (stripCopy badge (normalized out), some badge)

/-! ## What a name is made of -/

/-- Here a text goes on with what is looked for, and nowhere before. -/
def First (p : List Char → Bool) (front back : List Char) : Prop :=
  p back = true ∧ ∀ front' back', front ++ back = front' ++ back' →
    front'.length < front.length → p back' = false

def Nowhere (p : List Char → Bool) (text : List Char) : Prop :=
  ∀ front back, text = front ++ back → p back = false

def isSpan (inside : List Char) : Bool := "span".toList.isPrefixOf (toAsciiLowercase inside)

def isClose (text : List Char) : Bool := closeTag.isPrefixOf (toAsciiLowercase text)

inductive Piece where
  | text (c : Char)
  | tag (inside : List Char)
  | span (inside content : List Char)
  deriving DecidableEq

/-- A text is cut into characters, tags and spans. A tag reaches to the next `>`, a span to the next
closing tag. Without a `>` behind it, `<` is a character as any other. -/
inductive Cut : List Char → List Piece → Prop where
  | done : Cut [] []
  | text {c : Char} {rest : List Char} {pieces : List Piece} :
      c ≠ '<' → Cut rest pieces → Cut (c :: rest) (.text c :: pieces)
  | unclosed {rest : List Char} {pieces : List Piece} :
      '>' ∉ rest → Cut rest pieces → Cut ('<' :: rest) (.text '<' :: pieces)
  | tag {inside rest : List Char} {pieces : List Piece} :
      '>' ∉ inside → (isSpan inside = true → Nowhere isClose rest) → Cut rest pieces →
        Cut ('<' :: (inside ++ '>' :: rest)) (.tag inside :: pieces)
  | span {inside content rest : List Char} {pieces : List Piece} :
      '>' ∉ inside → isSpan inside = true → First isClose content rest →
        Cut (rest.drop closeTag.length) pieces →
          Cut ('<' :: (inside ++ '>' :: (content ++ rest))) (.span inside content :: pieces)

def outside (pieces : List Piece) : List Char :=
  pieces.flatMap fun
    | .text c => [c]
    | _ => []

def badges (pieces : List Piece) : List (List Char) :=
  pieces.flatMap fun
    | .span _ content => if (trim content).isEmpty then [] else [trim content]
    | _ => []

/-- A text less at most one copy of the badge at its end. -/
def LessCopy (badge : Option (List Char)) (whole label : List Char) : Prop :=
  label = whole ∨ ∃ b ∈ badge, ∃ stem copy,
    (copy ∈ copies b ∨ copy ∈ (copies b).map toAsciiLowercase) ∧
      whole = stem ++ copy ∧ label = trimEnd stem

/-! ## Searching -/

variable {p : List Char → Bool} {c : Char}

theorem First.cons {front back : List Char} (h : p (c :: front ++ back) = false)
    (hfirst : First p front back) : First p (c :: front) back := by
  refine ⟨hfirst.1, fun front' back' heq hlt => ?_⟩
  cases front' with
  | nil => rwa [← show _ = back' from heq]
  | cons d front' =>
      refine hfirst.2 front' back' (List.cons.inj heq).2 ?_
      simpa using hlt

theorem First.tail {front back : List Char} (h : First p (c :: front) back) :
    p (c :: front ++ back) = false ∧ First p front back := by
  refine ⟨h.2 [] _ rfl (by simp), h.1, fun front' back' heq hlt => ?_⟩
  exact h.2 (c :: front') back' (congrArg _ heq) (by simpa using hlt)

theorem exists_first_or_nowhere (p : List Char → Bool) (text : List Char) :
    (∃ front back, text = front ++ back ∧ First p front back) ∨ Nowhere p text := by
  induction text with
  | nil =>
      cases h : p [] with
      | true => exact .inl ⟨[], [], rfl, h, fun _ _ _ hlt => absurd hlt (Nat.not_lt_zero _)⟩
      | false =>
          refine .inr fun front back heq => ?_
          rwa [(List.append_eq_nil_iff.mp heq.symm).2]
  | cons c text ih =>
      cases h : p (c :: text) with
      | true => exact .inl ⟨[], _, rfl, h, fun _ _ _ hlt => absurd hlt (Nat.not_lt_zero _)⟩
      | false =>
          obtain ⟨front, back, rfl, hfirst⟩ | hnone := ih
          · exact .inl ⟨c :: front, back, rfl, hfirst.cons h⟩
          · refine .inr fun front back heq => ?_
            cases front with
            | nil => rwa [← show _ = back from heq]
            | cons d front => exact hnone front back (List.cons.inj heq).2

theorem find_of_first {needle front back : List Char}
    (h : First needle.isPrefixOf front back) :
    find needle (front ++ back) = some (utf8Len front) := by
  induction front with
  | nil =>
      have hhere := h.1
      cases back with
      | nil =>
          cases needle with
          | nil => rfl
          | cons c needle => cases hhere
      | cons c back => rw [List.nil_append, find, if_pos hhere, utf8Len_nil]
  | cons c front ih =>
      obtain ⟨hhere, hrest⟩ := h.tail
      rw [List.cons_append] at hhere ⊢
      rw [find, if_neg (Bool.eq_false_iff.mp hhere), ih hrest, utf8Len_cons c front]
      rfl

theorem find_of_nowhere {needle text : List Char} (h : Nowhere needle.isPrefixOf text) :
    find needle text = none := by
  induction text with
  | nil =>
      have hhere := h [] [] rfl
      cases needle with
      | nil => cases hhere
      | cons c needle => rfl
  | cons c text ih =>
      have hhere := h [] (c :: text) rfl
      have hrest : Nowhere needle.isPrefixOf text := fun front back heq =>
        h (c :: front) back (congrArg _ heq)
      rw [find, if_neg (Bool.eq_false_iff.mp hhere), ih hrest]
      rfl

theorem first_toAsciiLowercase {needle front back : List Char}
    (h : First (fun text => needle.isPrefixOf (toAsciiLowercase text)) front back) :
    First needle.isPrefixOf (toAsciiLowercase front) (toAsciiLowercase back) := by
  refine ⟨h.1, fun front' back' heq hlt => ?_⟩
  rw [toAsciiLowercase, toAsciiLowercase, ← List.map_append] at heq
  obtain ⟨front, back, htext, rfl, rfl⟩ := List.map_eq_append_iff.mp heq
  exact h.2 front back htext (by simpa [toAsciiLowercase] using hlt)

theorem nowhere_toAsciiLowercase {needle text : List Char}
    (h : Nowhere (fun text => needle.isPrefixOf (toAsciiLowercase text)) text) :
    Nowhere needle.isPrefixOf (toAsciiLowercase text) := by
  intro front' back' heq
  obtain ⟨front, back, rfl, rfl, rfl⟩ := List.map_eq_append_iff.mp heq
  exact h front back rfl

theorem first_greater {inside : List Char} (h : '>' ∉ inside) (rest : List Char) :
    First ['>'].isPrefixOf inside ('>' :: rest) := by
  induction inside with
  | nil => exact ⟨rfl, fun _ _ _ hlt => absurd hlt (Nat.not_lt_zero _)⟩
  | cons c inside ih =>
      rw [List.mem_cons, not_or] at h
      refine (ih h.2).cons ?_
      simpa [List.isPrefixOf] using h.1

theorem nowhere_greater {rest : List Char} (h : '>' ∉ rest) : Nowhere ['>'].isPrefixOf rest := by
  rintro front back rfl
  cases back with
  | nil => rfl
  | cons c back =>
      have hne : '>' ≠ c := by
        rintro rfl
        exact h (by simp)
      simpa [List.isPrefixOf] using hne

/-! ## Characters -/

theorem toNat_toLower (c : Char) :
    c.toLower.toNat = if 65 ≤ c.toNat ∧ c.toNat ≤ 90 then c.toNat + 32 else c.toNat := by
  have hcond : (c.val ≥ 'A'.val ∧ c.val ≤ 'Z'.val) ↔ 65 ≤ c.toNat ∧ c.toNat ≤ 90 := Iff.rfl
  delta Char.toLower
  by_cases h : 65 ≤ c.toNat ∧ c.toNat ≤ 90
  · rw [dif_pos (hcond.mpr h), if_pos h]
    change (c.val + 32).toNat = _
    rw [UInt32.toNat_add]
    have : c.val.toNat = c.toNat := rfl
    change (c.val.toNat + 32) % 2 ^ 32 = _
    omega
  · rw [dif_neg (mt hcond.mp h), if_neg h]

theorem toLower_of_le (h : 128 ≤ c.toNat) : c.toLower = c :=
  Char.toNat_inj.mp (by rw [toNat_toLower, if_neg (by omega)])

theorem toLower_lt_iff (c : Char) : c.toLower.toNat < 128 ↔ c.toNat < 128 := by
  rw [toNat_toLower]
  split_ifs <;> omega

theorem isWhitespace_toLower (c : Char) : isWhitespace c.toLower = isWhitespace c := by
  simp only [isWhitespace, toNat_toLower]
  split_ifs with h
  · rw [decide_eq_decide]
    omega
  · rfl

theorem encodeChar_ascii (h : c.toNat < 128) : encodeChar c = [.ofNat c.toNat] :=
  if_pos h

theorem utf8Len_toLower (c : Char) : utf8Len [c.toLower] = utf8Len [c] := by
  rcases Nat.lt_or_ge c.toNat 128 with h | h
  · rw [utf8Len, utf8Len, List.flatMap_singleton, List.flatMap_singleton, encodeChar_ascii h,
      encodeChar_ascii ((toLower_lt_iff c).mpr h)]
    rfl
  · rw [toLower_of_le h]

theorem utf8Len_toAsciiLowercase (text : List Char) :
    utf8Len (toAsciiLowercase text) = utf8Len text := by
  induction text with
  | nil => rfl
  | cons c text ih =>
      rw [toAsciiLowercase, List.map_cons, utf8Len_cons, utf8Len_toLower, utf8Len_cons c text]
      exact congrArg _ ih

theorem toNat_asChar (byte : UInt8) : (asChar byte).toNat = byte.toNat := by
  have hlt := byte.toNat_lt
  have hvalid : byte.toNat.isValidChar := Or.inl (by omega)
  rw [asChar, Char.ofNat, dif_pos hvalid]
  rfl

theorem encodeChar_of_le (h : 128 ≤ c.toNat) :
    ∃ lead next more, encodeChar c = lead :: next :: more ∧ 0xC2 ≤ lead.toNat ∧
      (∀ byte ∈ next :: more, 128 ≤ byte.toNat) ∧
        (lead.toNat = c.toNat → next.toNat = 0x83) := by
  have hrange := toNat_le c
  rw [encodeChar, if_neg (by omega)]
  split_ifs
  · refine ⟨_, _, _, rfl, ?_⟩
    simp (disch := omega) only [List.forall_mem_singleton, toNat_ofNat]
    omega
  · refine ⟨_, _, _, rfl, ?_⟩
    simp (disch := omega) only [List.forall_mem_cons, List.not_mem_nil, false_imp_iff,
      implies_true, and_true, toNat_ofNat]
    omega
  · refine ⟨_, _, _, rfl, ?_⟩
    simp (disch := omega) only [List.forall_mem_cons, List.not_mem_nil, false_imp_iff,
      implies_true, and_true, toNat_ofNat]
    omega

def latin1 (text : List Char) : List Char := (text.flatMap encodeChar).map asChar

theorem latin1_append (front back : List Char) :
    latin1 (front ++ back) = latin1 front ++ latin1 back := by
  rw [latin1, List.flatMap_append, List.map_append]
  rfl

theorem latin1_singleton_ascii (h : c.toNat < 128) : latin1 [c] = [c] := by
  have hchar : asChar (.ofNat c.toNat) = c := by
    rw [asChar, toNat_ofNat (by omega), Char.ofNat_toNat]
  rw [latin1, List.flatMap_singleton, encodeChar_ascii h, List.map_singleton, hchar]

variable {text : List Char}

theorem latin1_ascii (h : ∀ c ∈ text, c.toNat < 128) : latin1 text = text := by
  induction text with
  | nil => rfl
  | cons c text ih =>
      obtain ⟨hc, htext⟩ := List.forall_mem_cons.mp h
      rw [← List.singleton_append, latin1_append, latin1_singleton_ascii hc, ih htext]

/-! ## The loop along a cut -/

section Loop

variable {name : List Char} {fuel : Nat} {out : List Char} {found : List (List Char)}

theorem scan_byte {i : Nat} {byte : UInt8} (hbyte : (name.flatMap encodeChar)[i]? = some byte)
    (h : byte = 0x3C → tagAt name i = some none) :
    scan name (fuel + 1) i out found = scan name fuel (i + 1) (out ++ [asChar byte]) found := by
  have hmarkup : (if byte = 0x3C then tagAt name i else some none) = some none := by
    split_ifs with hlt
    · exact h hlt
    · rfl
  rw [scan, hbyte]
  dsimp only
  rw [hmarkup]

theorem scan_tag {i next : Nat} {more : List (List Char)}
    (hbyte : (name.flatMap encodeChar)[i]? = some 0x3C)
    (h : tagAt name i = some (some (next, more))) :
    scan name (fuel + 1) i out found = scan name fuel next out (found ++ more) := by
  rw [scan, hbyte]
  dsimp only
  rw [if_pos rfl, h]

theorem scan_bytes {before taken after : Bytes}
    (hname : name.flatMap encodeChar = before ++ (taken ++ after))
    (htaken : ∀ byte ∈ taken, byte ≠ 0x3C) :
    scan name (fuel + taken.length) before.length out found =
      scan name fuel (before.length + taken.length) (out ++ taken.map asChar) found := by
  induction taken generalizing before out with
  | nil => simp
  | cons byte taken ih =>
      obtain ⟨hne, htaken⟩ := List.forall_mem_cons.mp htaken
      have hbyte : (name.flatMap encodeChar)[before.length]? = some byte := by
        rw [hname, List.getElem?_append_right (Nat.le_refl _), Nat.sub_self]
        rfl
      have hrest := @ih (out ++ [asChar byte]) (before ++ [byte]) (by simp [hname]) htaken
      rw [List.length_append, List.length_singleton] at hrest
      rw [List.length_cons, ← Nat.add_assoc, scan_byte hbyte fun heq => absurd heq hne, hrest]
      simp [Nat.add_assoc, Nat.add_comm 1]

theorem length_bytes (text : List Char) : (text.flatMap encodeChar).length = utf8Len text := rfl

theorem sliceFrom?_append (front back : List Char) :
    sliceFrom? (utf8Len front) (front ++ back) = some back := by
  rw [sliceFrom?, splitAt?_append]
  rfl

theorem tagAt_unclosed {front rest : List Char} (h : '>' ∉ rest) :
    tagAt (front ++ '<' :: rest) (utf8Len front) = some none := by
  have hnone : find ['>'] ('<' :: rest) = none := by
    apply find_of_nowhere
    apply nowhere_greater
    simpa using h
  rw [tagAt, sliceFrom?_append]
  simp only [Option.bind_eq_bind, Option.bind_some, hnone]

theorem isPrefixOf_tag (inside : List Char) :
    "<span".toList.isPrefixOf (toAsciiLowercase ('<' :: (inside ++ ['>']))) = isSpan inside := by
  have hlower : toAsciiLowercase ('<' :: (inside ++ ['>'])) =
      '<' :: (toAsciiLowercase inside ++ ['>']) := by
    simp [toAsciiLowercase]
  rw [hlower, isSpan, Bool.eq_iff_iff, List.isPrefixOf_iff_prefix, List.isPrefixOf_iff_prefix]
  change '<' :: "span".toList <+: _ ↔ _
  rw [List.cons_prefix_cons, List.prefix_concat_iff]
  constructor
  · rintro ⟨-, heq | hprefix⟩
    · have hlast := congrArg List.getLast? heq
      rw [List.getLast?_concat] at hlast
      cases hlast
    · exact hprefix
  · exact fun h => ⟨rfl, .inr h⟩

theorem find_greater {inside : List Char} (h : '>' ∉ inside) (rest : List Char) :
    find ['>'] ('<' :: (inside ++ '>' :: rest)) = some (utf8Len ('<' :: inside)) := by
  have hinside : '>' ∉ '<' :: inside := by simpa using h
  exact find_of_first (first_greater hinside rest)

theorem contentStart_eq (front inside : List Char) :
    utf8Len front + utf8Len ('<' :: inside) + 1 = utf8Len (front ++ '<' :: (inside ++ ['>'])) := by
  rw [← List.cons_append, utf8Len_append, utf8Len_append]
  rfl

theorem slice?_tag (front inside rest : List Char) :
    slice? (utf8Len front) (utf8Len (front ++ '<' :: (inside ++ ['>'])))
      (front ++ '<' :: (inside ++ '>' :: rest)) = some ('<' :: (inside ++ ['>'])) := by
  have hslice := slice?_append front ('<' :: (inside ++ ['>'])) rest
  rw [← utf8Len_append] at hslice
  simpa using hslice

theorem tagAt_tag {front inside rest : List Char} (hinside : '>' ∉ inside)
    (hrest : isSpan inside = true → Nowhere isClose rest) :
    tagAt (front ++ '<' :: (inside ++ '>' :: rest)) (utf8Len front) =
      some (some (utf8Len (front ++ '<' :: (inside ++ ['>'])), [])) := by
  have hspan : spanAt (front ++ '<' :: (inside ++ '>' :: rest)) (utf8Len front)
      (utf8Len (front ++ '<' :: (inside ++ ['>']))) = some none := by
    rw [spanAt, slice?_tag]
    simp only [Option.bind_eq_bind, Option.bind_some, isPrefixOf_tag]
    split_ifs with hspan
    · have hcontent := sliceFrom?_append (front ++ '<' :: (inside ++ ['>'])) rest
      have hnone := find_of_nowhere (nowhere_toAsciiLowercase (hrest hspan))
      simp only [List.append_assoc, List.cons_append, List.nil_append] at hcontent
      rw [hcontent, Option.bind_some, hnone]
    · rfl
  rw [tagAt, sliceFrom?_append]
  simp only [Option.bind_eq_bind, Option.bind_some, find_greater hinside, contentStart_eq, hspan]

theorem tagAt_span {front inside content rest : List Char} (hinside : '>' ∉ inside)
    (hspan : isSpan inside = true) (hfirst : First isClose content rest) :
    tagAt (front ++ '<' :: (inside ++ '>' :: (content ++ rest))) (utf8Len front) =
      some (some (utf8Len (front ++ '<' :: (inside ++ ['>'])) + utf8Len content + utf8Len closeTag,
        if (trim content).isEmpty then [] else [trim content])) := by
  have hcontent := sliceFrom?_append (front ++ '<' :: (inside ++ ['>'])) (content ++ rest)
  have hbadge := slice?_append (front ++ '<' :: (inside ++ ['>'])) content rest
  have hclose := find_of_first (first_toAsciiLowercase hfirst)
  have hlower : toAsciiLowercase (content ++ rest) =
      toAsciiLowercase content ++ toAsciiLowercase rest := List.map_append
  rw [utf8Len_toAsciiLowercase, ← hlower] at hclose
  simp only [List.append_assoc, List.cons_append, List.nil_append] at hcontent hbadge
  have hspanAt : spanAt (front ++ '<' :: (inside ++ '>' :: (content ++ rest))) (utf8Len front)
      (utf8Len (front ++ '<' :: (inside ++ ['>']))) =
        some (some (utf8Len (front ++ '<' :: (inside ++ ['>'])) + utf8Len content +
          utf8Len closeTag, trim content)) := by
    rw [spanAt, slice?_tag]
    simp only [Option.bind_eq_bind, Option.bind_some, isPrefixOf_tag, hspan, if_true, hcontent,
      hclose, hbadge]
  rw [tagAt, sliceFrom?_append]
  simp only [Option.bind_eq_bind, Option.bind_some, find_greater hinside, contentStart_eq, hspanAt]

theorem eq_append_of_isClose {rest : List Char} (h : isClose rest = true) :
    ∃ close, rest = close ++ rest.drop closeTag.length ∧ utf8Len close = utf8Len closeTag := by
  obtain ⟨after, hafter⟩ := List.isPrefixOf_iff_prefix.mp h
  obtain ⟨close, rest, rfl, hclose, -⟩ := List.map_eq_append_iff.mp hafter.symm
  have hlength := congrArg List.length hclose
  rw [List.length_map] at hlength
  refine ⟨close, by rw [List.drop_left' hlength], ?_⟩
  rw [← hclose]
  exact (utf8Len_toAsciiLowercase close).symm

theorem scan_text {front rest : List Char} (hne : c ≠ '<') :
    scan (front ++ c :: rest) (fuel + utf8Len [c]) (utf8Len front) out found =
      scan (front ++ c :: rest) fuel (utf8Len (front ++ [c])) (out ++ latin1 [c]) found := by
  have hname : (front ++ c :: rest).flatMap encodeChar =
      front.flatMap encodeChar ++ (encodeChar c ++ rest.flatMap encodeChar) := by
    simp
  have hbytes : ∀ byte ∈ encodeChar c, byte ≠ 0x3C := by
    rcases Nat.lt_or_ge c.toNat 128 with h | h
    · rw [encodeChar_ascii h]
      rintro byte hbyte rfl
      have hcode := congrArg UInt8.toNat (List.mem_singleton.mp hbyte)
      rw [toNat_ofNat (by omega)] at hcode
      exact hne (Char.toNat_inj.mp hcode.symm)
    · obtain ⟨lead, next, more, heq, hlead, hmore, -⟩ := encodeChar_of_le h
      rw [heq]
      rintro byte hbyte rfl
      obtain rfl | hbyte := List.mem_cons.mp hbyte
      · exact absurd hlead (by decide)
      · exact absurd (hmore _ hbyte) (by decide)
  have hscan := @scan_bytes (front ++ c :: rest) fuel out found _ _ _ hname hbytes
  rw [length_bytes] at hscan
  rw [utf8Len_append, utf8Len, List.flatMap_singleton, latin1, List.flatMap_singleton]
  exact hscan

theorem getElem?_less (front rest : List Char) :
    ((front ++ '<' :: rest).flatMap encodeChar)[utf8Len front]? = some 0x3C := by
  rw [List.flatMap_append, utf8Len, List.getElem?_append_right (Nat.le_refl _), Nat.sub_self]
  rfl

theorem scan_eq {rest : List Char} {pieces : List Piece} (h : Cut rest pieces) (front : List Char)
    (hfuel : utf8Len rest < fuel) :
    scan (front ++ rest) fuel (utf8Len front) out found =
      some (out ++ latin1 (outside pieces), found ++ badges pieces) := by
  induction h generalizing front fuel out found with
  | done =>
      obtain ⟨fuel, rfl⟩ := Nat.exists_eq_add_one.mpr hfuel
      have hend : ((front ++ []).flatMap encodeChar)[utf8Len front]? = none := by
        rw [List.append_nil]
        exact List.getElem?_eq_none (Nat.le_refl _)
      rw [scan, hend]
      simp [outside, badges, latin1]
  | @text c rest pieces hne _ ih =>
      rw [utf8Len_cons] at hfuel
      obtain ⟨k, rfl⟩ : ∃ k, fuel = k + utf8Len [c] := ⟨fuel - utf8Len [c], by omega⟩
      have hrest := @ih k (out ++ latin1 [c]) found (front ++ [c]) (by omega)
      rw [← List.append_cons] at hrest
      rw [scan_text hne, hrest, List.append_assoc, ← latin1_append]
      rfl
  | @unclosed rest pieces hnone _ ih =>
      rw [utf8Len_cons] at hfuel
      have hless : utf8Len ['<'] = 1 := rfl
      obtain ⟨k, rfl⟩ : ∃ k, fuel = k + 1 := ⟨fuel - 1, by omega⟩
      have hrest := @ih k (out ++ latin1 ['<']) found (front ++ ['<']) (by omega)
      rw [← List.append_cons, utf8Len_append, hless, List.append_assoc, ← latin1_append] at hrest
      rw [scan_byte (getElem?_less front rest) fun _ => tagAt_unclosed hnone]
      exact hrest
  | @tag inside rest pieces hinside hrest _ ih =>
      rw [utf8Len_cons, utf8Len_append, utf8Len_cons '>'] at hfuel
      have hless : utf8Len ['<'] = 1 := rfl
      obtain ⟨k, rfl⟩ : ∃ k, fuel = k + 1 := ⟨fuel - 1, by omega⟩
      have hscan := @ih k out found (front ++ '<' :: (inside ++ ['>'])) (by omega)
      rw [List.append_assoc, List.cons_append, List.append_assoc] at hscan
      rw [scan_tag (getElem?_less front _) (tagAt_tag hinside hrest), List.append_nil]
      exact hscan
  | @span inside content rest pieces hinside hspan hfirst _ ih =>
      obtain ⟨close, hclose, hlength⟩ := eq_append_of_isClose hfirst.1
      rw [utf8Len_cons, utf8Len_append, utf8Len_cons '>', utf8Len_append, hclose,
        utf8Len_append] at hfuel
      have hless : utf8Len ['<'] = 1 := rfl
      obtain ⟨k, rfl⟩ : ∃ k, fuel = k + 1 := ⟨fuel - 1, by omega⟩
      have hscan := @ih k out (found ++ if (trim content).isEmpty then [] else [trim content])
        (front ++ '<' :: (inside ++ ['>']) ++ content ++ close) (by omega)
      have hname : front ++ '<' :: (inside ++ ['>']) ++ content ++ close ++
          rest.drop closeTag.length = front ++ '<' :: (inside ++ '>' :: (content ++ rest)) := by
        conv_rhs => rw [hclose]
        simp
      rw [hname, utf8Len_append, utf8Len_append, hlength, List.append_assoc] at hscan
      rw [scan_tag (getElem?_less front _) (tagAt_span hinside hspan hfirst), hscan]
      rfl

end Loop

/-- A name of any kind is cut in some way. -/
theorem exists_cut (name : List Char) : ∃ pieces, Cut name pieces := by
  obtain ⟨n, hn⟩ : ∃ n, name.length ≤ n := ⟨_, Nat.le_refl _⟩
  induction n generalizing name with
  | zero => exact ⟨[], List.length_eq_zero_iff.mp (Nat.le_zero.mp hn) ▸ .done⟩
  | succ n ih =>
      cases name with
      | nil => exact ⟨[], .done⟩
      | cons c rest =>
          rw [List.length_cons] at hn
          by_cases hc : c = '<'
          · subst hc
            by_cases hmem : '>' ∈ rest
            · obtain ⟨inside, after, rfl, hinside⟩ := List.eq_append_cons_of_mem hmem
              rw [List.length_append, List.length_cons] at hn
              have htag : (isSpan inside = true → Nowhere isClose after) →
                  ∃ pieces, Cut ('<' :: (inside ++ '>' :: after)) pieces := by
                intro hnowhere
                obtain ⟨pieces, hcut⟩ := ih after (by omega)
                exact ⟨_, .tag hinside hnowhere hcut⟩
              cases hspan : isSpan inside with
              | false => exact htag fun h => absurd h (by simp [hspan])
              | true =>
                  obtain ⟨content, back, rfl, hfirst⟩ | hnowhere :=
                    exists_first_or_nowhere isClose after
                  · rw [List.length_append] at hn
                    obtain ⟨pieces, hcut⟩ := ih (back.drop closeTag.length) (by
                      rw [List.length_drop]
                      omega)
                    exact ⟨_, .span hinside hspan hfirst hcut⟩
                  · exact htag fun _ => hnowhere
            · obtain ⟨pieces, hcut⟩ := ih rest (by omega)
              exact ⟨_, .unclosed hmem hcut⟩
          · obtain ⟨pieces, hcut⟩ := ih rest (by omega)
            exact ⟨_, .text hc hcut⟩

/-! ## The label -/

theorem stripCopy_lessCopy (badge whole : List Char) :
    LessCopy (some badge) whole (stripCopy badge whole) := by
  have hstrip {suffix stripped : List Char} (h : stripSuffix whole suffix = some stripped) :
      whole = stripped ++ suffix := by
    rw [stripSuffix] at h
    split_ifs at h with hsuffix
    obtain ⟨stem, rfl⟩ := List.isSuffixOf_iff_suffix.mp hsuffix
    cases h
    rw [List.length_append, Nat.add_sub_cancel_right, List.take_left' rfl]
  rw [stripCopy]
  split
  · next stripped h =>
    obtain ⟨suffix, hsuffix, hstripped⟩ := List.exists_of_findSome?_eq_some h
    refine .inr ⟨badge, rfl, stripped, ?_⟩
    obtain hhere | ⟨-, hlower⟩ := Option.or_eq_some_iff.mp hstripped
    · exact ⟨suffix, .inl hsuffix, hstrip hhere, rfl⟩
    · exact ⟨_, .inr (List.mem_map_of_mem hsuffix), hstrip hlower, rfl⟩
  · exact .inl rfl

theorem cleanLabel_eq {name : List Char} {pieces : List Piece} (h : Cut name pieces) :
    ∃ label, cleanLabel name = some (label, (badges pieces).head?) ∧
      LessCopy (badges pieces).head? (normalized (latin1 (outside pieces))) label := by
  have hscan := @scan_eq (utf8Len name + 1) [] [] name pieces h [] (Nat.lt_succ_self _)
  rw [utf8Len_nil, List.nil_append, List.nil_append, List.nil_append] at hscan
  rw [cleanLabel, hscan]
  simp only [Option.bind_eq_bind, Option.bind_some]
  cases (badges pieces).head? with
  | none => exact ⟨_, rfl, .inl rfl⟩
  | some badge => exact ⟨_, rfl, stripCopy_lessCopy badge _⟩

/-! ## Labels that are right by chance -/

def key (text : List Char) : List Char := (text.filter fun c => !isWhitespace c).map Char.toLower

theorem key_append (front back : List Char) : key (front ++ back) = key front ++ key back := by
  rw [key, List.filter_append, List.map_append]
  rfl

theorem key_eq_nil (h : ∀ c ∈ text, isWhitespace c = true) : key text = [] := by
  rw [key, List.filter_eq_nil_iff.mpr fun c hc => by simp [h c hc]]
  rfl

theorem toLower_toLower (c : Char) : c.toLower.toLower = c.toLower := by
  apply Char.toNat_inj.mp
  simp only [toNat_toLower]
  split_ifs <;> omega

theorem key_toAsciiLowercase (text : List Char) : key (toAsciiLowercase text) = key text := by
  rw [key, toAsciiLowercase, List.filter_map, List.map_map, key]
  have hkeep : ((fun c => !isWhitespace c) ∘ Char.toLower) = fun c => !isWhitespace c := by
    funext c
    rw [Function.comp_apply, isWhitespace_toLower]
  have hlower : Char.toLower ∘ Char.toLower = Char.toLower := funext toLower_toLower
  rw [hkeep, hlower]

theorem key_trimEnd (text : List Char) : key (trimEnd text) = key text := by
  have htail : key (text.rtakeWhile isWhitespace) = [] :=
    key_eq_nil fun _ hc => List.mem_rtakeWhile_imp hc
  calc key (trimEnd text) = key (trimEnd text) ++ key (text.rtakeWhile isWhitespace) := by
        rw [htail, List.append_nil]
    _ = key text := by rw [← key_append, trimEnd, List.rdropWhile_append_rtakeWhile]

theorem key_intercalate (ws : List (List Char)) : key ([' '].intercalate ws) = ws.flatMap key := by
  induction ws with
  | nil => rfl
  | cons word ws ih =>
      cases ws with
      | nil => simp
      | cons next ws =>
          have hblank (text : List Char) : key (' ' :: text) = key text := key_append [' '] text
          rw [Fields.intercalate_cons_cons, key_append, hblank, ih]
          rfl

theorem flatMap_splitOnP (text : List Char) :
    (text.splitOnP isWhitespace).flatMap key = key text := by
  induction text with
  | nil => rfl
  | cons c text ih =>
      have hcons : key (c :: text) = key [c] ++ key text := key_append [c] text
      rw [List.splitOnP_cons_eq_if_modifyHead, hcons, ← ih]
      split_ifs with hwhite
      · rw [key_eq_nil (by simpa using hwhite)]
        rfl
      · cases htail : text.splitOnP isWhitespace with
        | nil => exact absurd htail (List.splitOnP_ne_nil _ _)
        | cons first more =>
            rw [List.modifyHead_cons, List.flatMap_cons, List.flatMap_cons, ← List.append_assoc,
              ← key_append]
            rfl

theorem key_normalized (text : List Char) : key (normalized text) = key text := by
  have hwords (pieces : List (List Char)) :
      (pieces.filter fun word => !word.isEmpty).flatMap key = pieces.flatMap key := by
    induction pieces with
    | nil => rfl
    | cons word pieces ih =>
        cases word with
        | nil => exact ih
        | cons c word => rw [List.filter_cons_of_pos rfl, List.flatMap_cons, ih, List.flatMap_cons]
  rw [normalized, key_intercalate, Fields.words, hwords, flatMap_splitOnP]

theorem isWhitespace_of_le (hlow : 0xC2 ≤ c.toNat) (hhigh : c.toNat < 0x100) :
    isWhitespace c = false := by
  rw [isWhitespace]
  simp only [decide_eq_false_iff_not]
  omega

theorem latin1_of_le (h : 128 ≤ c.toNat) :
    ∃ lead next more, latin1 [c] = lead :: next :: more ∧ isWhitespace lead = false ∧
      (∀ d ∈ lead :: next :: more, 128 ≤ d.toNat) ∧ (lead = c → isWhitespace next = false) := by
  obtain ⟨lead, next, more, heq, hlead, hmore, hown⟩ := encodeChar_of_le h
  have hlt := lead.toNat_lt
  refine ⟨asChar lead, asChar next, more.map asChar, ?_, ?_, ?_, ?_⟩
  · rw [latin1, List.flatMap_singleton, heq]
    rfl
  · exact isWhitespace_of_le (by rwa [toNat_asChar]) (by rw [toNat_asChar]; omega)
  · rw [← List.map_cons, ← List.map_cons]
    intro d hd
    obtain ⟨byte, hbyte, rfl⟩ := List.mem_map.mp hd
    rw [toNat_asChar]
    obtain rfl | hbyte := List.mem_cons.mp hbyte
    · omega
    · exact hmore byte hbyte
  · intro hchar
    have hcode : (asChar next).toNat = 0x83 := by
      rw [toNat_asChar]
      exact hown (by rw [← hchar, toNat_asChar])
    simp only [isWhitespace, hcode]
    decide

def asciiLen (text : List Char) : Nat := text.countP fun c => c.toNat < 128

theorem asciiLen_append (front back : List Char) :
    asciiLen (front ++ back) = asciiLen front + asciiLen back := List.countP_append

theorem asciiLen_key_eq_zero (h : ∀ c ∈ text, 128 ≤ c.toNat) :
    asciiLen (key text) = 0 := by
  apply List.countP_eq_zero.mpr
  intro d hd
  obtain ⟨c, hc, rfl⟩ := List.mem_map.mp hd
  have := h c (List.mem_of_mem_filter hc)
  rw [decide_eq_true_eq, toLower_lt_iff]
  omega

theorem asciiLen_latin1 (text : List Char) :
    asciiLen (key (latin1 text)) = asciiLen (key text) := by
  induction text with
  | nil => rfl
  | cons c text ih =>
      have hhere : asciiLen (key (latin1 [c])) = asciiLen (key [c]) := by
        rcases Nat.lt_or_ge c.toNat 128 with h | h
        · rw [latin1_singleton_ascii h]
        · obtain ⟨lead, next, more, heq, -, hmore, -⟩ := latin1_of_le h
          rw [heq, asciiLen_key_eq_zero hmore, asciiLen_key_eq_zero (by simpa using h)]
      rw [← List.singleton_append, latin1_append, key_append, key_append, asciiLen_append,
        asciiLen_append, hhere, ih]

theorem key_cons_of_visible (h : isWhitespace c = false) (text : List Char) :
    key (c :: text) = c.toLower :: key text := by
  rw [key, List.filter_cons_of_pos (by simp [h])]
  rfl

theorem length_key_latin1 (text : List Char) : (key text).length ≤ (key (latin1 text)).length := by
  induction text with
  | nil => rfl
  | cons c text ih =>
      have hhere : (key [c]).length ≤ (key (latin1 [c])).length := by
        rcases Nat.lt_or_ge c.toNat 128 with h | h
        · rw [latin1_singleton_ascii h]
        · obtain ⟨lead, next, more, heq, hlead, -⟩ := latin1_of_le h
          have hone : (key [c]).length ≤ 1 := by
            rw [key, List.length_map]
            exact List.length_filter_le _ _
          rw [heq, key_cons_of_visible hlead, List.length_cons]
          omega
      rw [← List.singleton_append, latin1_append, key_append, key_append, List.length_append,
        List.length_append]
      omega

theorem ascii_of_key (h : key (latin1 text) = key text) :
    ∀ c ∈ text, c.toNat < 128 := by
  induction text with
  | nil => simp
  | cons c text ih =>
      have hlength := length_key_latin1 text
      rw [← List.singleton_append, latin1_append, key_append, key_append] at h
      rcases Nat.lt_or_ge c.toNat 128 with hc | hc
      · rw [latin1_singleton_ascii hc] at h
        exact List.forall_mem_cons.mpr ⟨hc, ih (List.append_cancel_left h)⟩
      · exfalso
        obtain ⟨lead, next, more, heq, hlead, hmore, hown⟩ := latin1_of_le hc
        have hlower : lead.toLower = lead := toLower_of_le (hmore lead List.mem_cons_self)
        rw [heq, key_cons_of_visible hlead, hlower, List.cons_append] at h
        cases hwhite : isWhitespace c with
        | true =>
            have hnil : key [c] = [] := key_eq_nil (by simpa using hwhite)
            rw [hnil] at h
            have := congrArg List.length h
            simp only [List.length_cons, List.length_append, List.nil_append] at this
            omega
        | false =>
            rw [key_cons_of_visible hwhite, toLower_of_le hc, List.cons_append] at h
            obtain ⟨hhead, htail⟩ := List.cons.inj h
            rw [key_cons_of_visible (hown hhead)] at htail
            have := congrArg List.length htail
            simp only [List.length_cons, List.length_append, key, List.filter_nil, List.map_nil,
              List.length_nil] at this
            simp only [key] at hlength
            omega

theorem key_copy {badge copy : List Char}
    (h : copy ∈ copies badge ∨ copy ∈ (copies badge).map toAsciiLowercase) :
    key copy = key badge ∨ key copy = '(' :: (key badge ++ [')']) := by
  have hcopy {copy : List Char} (h : copy ∈ copies badge) :
      key copy = key badge ∨ key copy = '(' :: (key badge ++ [')']) := by
    have hblank (text : List Char) : key (' ' :: text) = key text := key_append [' '] text
    have hparens : key ('(' :: badge ++ [')']) = '(' :: (key badge ++ [')']) := by
      rw [key_append, key_cons_of_visible (by decide)]
      rfl
    simp only [copies, List.mem_cons, List.not_mem_nil, or_false] at h
    obtain rfl | rfl | rfl := h
    · exact .inr ((hblank _).trans hparens)
    · exact .inl (hblank _)
    · exact .inr hparens
  obtain h | h := h
  · exact hcopy h
  · obtain ⟨copy, hmem, rfl⟩ := List.mem_map.mp h
    rw [key_toAsciiLowercase]
    exact hcopy hmem

theorem LessCopy.exists_key {badge : Option (List Char)} {whole label : List Char}
    (h : LessCopy badge whole label) :
    ∃ copy, key whole = key label ++ copy ∧ (copy = [] ∨ ∃ b ∈ badge, copy = key b ∨
      copy = '(' :: (key b ++ [')'])) := by
  obtain rfl | ⟨b, hb, stem, copy, hcopy, rfl, rfl⟩ := h
  · exact ⟨[], (List.append_nil _).symm, .inl rfl⟩
  · exact ⟨key copy, by rw [key_append, key_trimEnd], .inr ⟨b, hb, key_copy hcopy⟩⟩

/-- From the number of ASCII characters it follows how a text was shortened, when the badge has
some. -/
theorem LessCopy.key_eq {badge : Option (List Char)} {whole whole' label : List Char}
    (hbadge : ∀ b ∈ badge, 0 < asciiLen (key b))
    (hascii : asciiLen (key whole) = asciiLen (key whole')) (h : LessCopy badge whole label)
    (h' : LessCopy badge whole' label) : key whole = key whole' := by
  obtain ⟨copy, hwhole, hcopy⟩ := h.exists_key
  obtain ⟨copy', hwhole', hcopy'⟩ := h'.exists_key
  rw [hwhole, hwhole', asciiLen_append, asciiLen_append, Nat.add_left_cancel_iff] at hascii
  have hparens (b : List Char) : asciiLen ('(' :: (b ++ [')'])) = asciiLen b + 2 := by
    rw [← List.singleton_append, asciiLen_append, asciiLen_append]
    exact Nat.add_comm 1 _
  have hnil : asciiLen [] = 0 := rfl
  suffices heq : copy = copy' by rw [hwhole, hwhole', heq]
  obtain rfl | ⟨b, hb, hcopy⟩ := hcopy
  · obtain rfl | ⟨b, hb, rfl | rfl⟩ := hcopy'
    · rfl
    · have := hbadge b hb
      omega
    · rw [hparens] at hascii
      omega
  · obtain rfl | ⟨b', hb', hcopy'⟩ := hcopy'
    · have := hbadge b hb
      obtain rfl | rfl := hcopy
      · omega
      · rw [hparens] at hascii
        omega
    · obtain rfl := Option.mem_unique hb hb'
      obtain rfl | rfl := hcopy <;> obtain rfl | rfl := hcopy'
      · rfl
      · rw [hparens] at hascii
        omega
      · rw [hparens] at hascii
        omega
      · rfl

theorem asciiLen_key_pos (h : ∃ c ∈ text, c.toNat < 128 ∧ isWhitespace c = false) :
    0 < asciiLen (key text) := by
  obtain ⟨c, hc, hlt, hvisible⟩ := h
  refine List.countP_pos_iff.mpr ⟨c.toLower, List.mem_map_of_mem ?_, ?_⟩
  · exact List.mem_filter.mpr ⟨hc, by simp [hvisible]⟩
  · rw [decide_eq_true_eq]
    exact (toLower_lt_iff c).mpr hlt

/-- However a name is cut, and it is always cut in some way: the badge is the first one, and the
label is right where all text outside is ASCII. No other label is right, except that a badge
without an ASCII letter could be taken from the end of a text it was not a copy in. -/
theorem cleanLabel_spec (name : List Char) :
    (∃ pieces, Cut name pieces) ∧ ∀ pieces, Cut name pieces →
      ∃ label, cleanLabel name = some (label, (badges pieces).head?) ∧
        ((∀ c ∈ outside pieces, c.toNat < 128) →
          LessCopy (badges pieces).head? (normalized (outside pieces)) label) ∧
        ((∀ badge ∈ (badges pieces).head?, ∃ c ∈ badge, c.toNat < 128 ∧ isWhitespace c = false) →
          (LessCopy (badges pieces).head? (normalized (outside pieces)) label ↔
            ∀ c ∈ outside pieces, c.toNat < 128)) := by
  refine ⟨exists_cut name, fun pieces hcut => ?_⟩
  obtain ⟨label, hlabel, hless⟩ := cleanLabel_eq hcut
  have hascii (h : ∀ c ∈ outside pieces, c.toNat < 128) :
      LessCopy (badges pieces).head? (normalized (outside pieces)) label := by
    rwa [latin1_ascii h] at hless
  refine ⟨label, hlabel, hascii, fun hbadge => ⟨fun hright => ascii_of_key ?_, hascii⟩⟩
  have hkey := hless.key_eq (fun b hb => asciiLen_key_pos (hbadge b hb)) (by
    rw [key_normalized, key_normalized, asciiLen_latin1]) hright
  rwa [key_normalized, key_normalized] at hkey

theorem cleanLabel_spec_unclosed : ∃ label,
    cleanLabel ['a', '<', 'b'] = some (label, none) ∧ label = ['a', '<', 'b'] := by
  have hcut : Cut ['a', '<', 'b'] [.text 'a', .text '<', .text 'b'] :=
    .text (by decide) <| .unclosed (by decide) <| .text (by decide) .done
  obtain ⟨label, hlabel, hascii, -⟩ := (cleanLabel_spec ['a', '<', 'b']).2 _ hcut
  refine ⟨label, hlabel, ?_⟩
  obtain h | ⟨b, hb, -⟩ := hascii (by simp [outside])
  · exact h.trans (by decide)
  · cases hb

/-- The bytes of one letter become two letters. -/
theorem accent_mangled : Cut ['é'] [.text 'é'] ∧ cleanLabel ['é'] = some (['Ã', '©'], none) ∧
    ¬ LessCopy none (normalized (outside [.text 'é'])) ['Ã', '©'] := by
  refine ⟨.text (by decide) .done, by decide, ?_⟩
  rintro (h | ⟨b, hb, -⟩)
  · exact absurd h (by decide)
  · cases hb

end Zeron.Harness.CleanLabel
