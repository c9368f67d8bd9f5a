import Zeron.Ui.Mentions

/-!
# Chips

`TextProjection` and `mention_display_labels` of `crates/ui/src/composer.rs`: the editor shows a draft
with a chip in place of each mention, and maps offsets between the draft and what it shows.
-/

namespace Zeron.Ui.Projection

open Zeron.Lib.Utf8
open Zeron.Ui.Mentions (FileMentionLink fileMentionLinks scanLinks linkClose linkClose_sound utf8Len_link)

structure ByteRange where
  start : Nat
  stop : Nat
deriving DecidableEq

def mentionDisplayLabel (links : List FileMentionLink) (ix : Nat) (link : FileMentionLink) :
    List Char :=
  if links.countP (·.basename = link.basename) = 1 then link.basename
  else
    let parts := link.path.splitOn '/'
    let suffixes := (List.range' 1 parts.length).map fun count =>
      List.intercalate ['/'] (parts.drop (parts.length - count))
    (suffixes.find? fun suffix =>
      let suffix := suffix.splitOn '/'
      links.zipIdx.all fun (other, otherIx) =>
        otherIx = ix ∨ (other.path.splitOn '/').reverse.take suffix.length ≠ suffix.reverse).getD
      link.path

def mentionDisplayLabels (links : List FileMentionLink) : List (List Char) :=
  links.mapIdx (mentionDisplayLabel links)

/-- The text of a chip: no space in it, and one that does not break on either side. -/
def chip (label : List Char) : List Char :=
  '\u00A0' :: '@' :: label.map (fun ch => if ch = ' ' then '\u00A0' else ch) ++ ['\u00A0']

/-- What is shown, with the range of each mention in the draft and of its chip in what is shown. -/
structure TextProjection where
  display : List Char := []
  mentions : List (FileMentionLink × ByteRange) := []
deriving DecidableEq

variable {range : ByteRange} {offset : Nat}

namespace TextProjection

/-- The text up to a mention and its chip; a slice of the draft fails where it cuts a character. -/
def pushChip (raw : List Char) (state : TextProjection × Nat) (mention : FileMentionLink × List Char) :
    Option (TextProjection × Nat) :=
  let (projection, rawAt) := state
  let (link, label) := mention
  (slice? rawAt link.start raw).map fun text =>
    let before := projection.display ++ text
    let display := before ++ chip label
    ({ display, mentions := projection.mentions ++ [(link, ⟨utf8Len before, utf8Len display⟩)] },
      link.stop)

def pushRest (raw : List Char) (state : TextProjection × Nat) : Option TextProjection :=
  let (projection, rawAt) := state
  (splitAt? rawAt raw).map fun (_, rest) => { projection with display := projection.display ++ rest }

def new (raw : List Char) : Option TextProjection :=
  let links := fileMentionLinks raw
  ((links.zip (mentionDisplayLabels links)).foldlM (pushChip raw) ({}, 0)).bind (pushRest raw)

def rawToDisplayFrom : List (FileMentionLink × ByteRange) → Nat → Nat → Nat → Nat
  | [], rawAt, displayAt, raw => displayAt + (raw - rawAt)
  | (link, display) :: mentions, rawAt, displayAt, raw =>
      if raw ≤ link.start then displayAt + (raw - rawAt)
      else if raw < link.stop then display.start
      else rawToDisplayFrom mentions link.stop display.stop raw

def rawToDisplay (projection : TextProjection) (raw : Nat) : Nat :=
  rawToDisplayFrom projection.mentions 0 0 raw

def displayToRawFrom : List (FileMentionLink × ByteRange) → Nat → Nat → Nat → Nat
  | [], rawAt, displayAt, offset => rawAt + (offset - displayAt)
  | (link, display) :: mentions, rawAt, displayAt, offset =>
      if offset ≤ display.start then rawAt + (offset - displayAt)
      else if offset < display.stop then
        if offset - display.start < (display.stop - display.start) / 2 then link.start else link.stop
      else displayToRawFrom mentions link.stop display.stop offset

def displayToRaw (projection : TextProjection) (offset : Nat) : Nat :=
  displayToRawFrom projection.mentions 0 0 offset

/-- A range that meets a mention takes all of it. -/
def widen (range : ByteRange) (mention : FileMentionLink × ByteRange) : ByteRange :=
  if range.start < mention.1.stop ∧ mention.1.start < range.stop then
    ⟨min range.start mention.1.start, max range.stop mention.1.stop⟩
  else range

/-- The end of a mention that is nearer to an offset in it. -/
def nearerEnd (link : FileMentionLink) (offset : Nat) : Nat :=
  if offset < link.start + (link.stop - link.start) / 2 then link.start else link.stop

theorem rawToDisplayFrom_before {link : FileMentionLink} (h : offset ≤ link.start)
    (shown : ByteRange) (mentions : List (FileMentionLink × ByteRange)) (rawAt displayAt : Nat) :
    rawToDisplayFrom ((link, shown) :: mentions) rawAt displayAt offset =
      displayAt + (offset - rawAt) := by
  rw [rawToDisplayFrom, if_pos h]

theorem rawToDisplayFrom_inside {link : FileMentionLink} (h : link.start < offset)
    (h' : offset < link.stop) (shown : ByteRange) (mentions : List (FileMentionLink × ByteRange))
    (rawAt displayAt : Nat) :
    rawToDisplayFrom ((link, shown) :: mentions) rawAt displayAt offset = shown.start := by
  rw [rawToDisplayFrom, if_neg (Nat.not_le.mpr h), if_pos h']

theorem rawToDisplayFrom_behind {link : FileMentionLink} (h : link.start < link.stop)
    (h' : link.stop ≤ offset) (shown : ByteRange) (mentions : List (FileMentionLink × ByteRange))
    (rawAt displayAt : Nat) :
    rawToDisplayFrom ((link, shown) :: mentions) rawAt displayAt offset =
      rawToDisplayFrom mentions link.stop shown.stop offset := by
  rw [rawToDisplayFrom, if_neg (by omega), if_neg (by omega)]

def normalizeRange (projection : TextProjection) (range : ByteRange) : ByteRange :=
  if range.start < range.stop then projection.mentions.foldl widen range
  else
    match projection.mentions.find? fun (link, _) =>
        link.start < range.start ∧ range.start < link.stop with
    | some (link, _) => ⟨nearerEnd link range.start, nearerEnd link range.start⟩
    | none => range

def previousBoundary (projection : TextProjection) (raw : Nat) : Option Nat :=
  projection.mentions.findSome? fun (link, _) => if raw = link.stop then some link.start else none

def nextBoundary (projection : TextProjection) (raw : Nat) : Option Nat :=
  projection.mentions.findSome? fun (link, _) => if raw = link.start then some link.stop else none

end TextProjection

/-! ### The mentions of a draft, one after the other -/

/-- Links in a text that begins at an offset: each stands behind the one before it. -/
inductive LinksAt : Nat → List Char → List FileMentionLink → Prop
  | done (offset : Nat) (text : List Char) : LinksAt offset text []
  | link {offset : Nat} {rest : List Char} {links : List FileMentionLink} (front mention : List Char)
      (link : FileMentionLink) (hstart : link.start = offset + utf8Len front)
      (hstop : link.stop = link.start + utf8Len mention) (hmention : mention ≠ [])
      (hrest : LinksAt link.stop rest links) :
      LinksAt offset (front ++ (mention ++ rest)) (link :: links)

theorem LinksAt.behind {text : List Char} {links : List FileMentionLink} (front : List Char)
    (h : LinksAt (offset + utf8Len front) text links) :
    LinksAt offset (front ++ text) links := by
  cases h with
  | done => exact .done _ _
  | link front' mention link hstart hstop hmention hrest =>
      rw [← List.append_assoc]
      refine .link (front ++ front') mention link ?_ hstop hmention hrest
      rw [hstart, utf8Len_append, Nat.add_assoc]

theorem exists_mention_of_linkClose {text label encoded rest : List Char}
    (h : linkClose text = some (label, encoded, rest)) :
    ∃ mention, '[' :: text = mention ++ rest ∧ mention ≠ [] ∧
      utf8Len mention = 1 + utf8Len label + 2 + utf8Len encoded + 1 := by
  refine ⟨'[' :: (label ++ ']' :: '(' :: (encoded ++ [')'])), ?_, List.cons_ne_nil _ _, ?_⟩
  · rw [linkClose_sound h]
    simp only [List.append_assoc, List.cons_append, List.nil_append]
  · rw [utf8Len_link, utf8Len_nil, Nat.add_zero]

theorem linksAt_scanLinks (search : Nat) (text : List Char) :
    LinksAt search text (scanLinks search text) := by
  fun_induction scanLinks search text with
  | case1 => exact .done _ _
  | case2 search c text hc ih => exact ih.behind [c]
  | case3 search c text hc hclose ih =>
      obtain rfl := not_not.mp hc
      have hopen : utf8Len ['['] = 1 := by decide
      exact LinksAt.behind ['['] (hopen ▸ ih)
  | case4 search c text hc label encoded rest hclose stop hparse ih =>
      obtain rfl := not_not.mp hc
      obtain ⟨mention, htext, -, hlength⟩ := exists_mention_of_linkClose hclose
      rw [htext]
      refine LinksAt.behind mention ?_
      rwa [hlength, ← Nat.add_assoc, ← Nat.add_assoc, ← Nat.add_assoc, ← Nat.add_assoc]
  | case5 search c text hc label encoded rest hclose stop path isDir hparse ih =>
      obtain rfl := not_not.mp hc
      obtain ⟨mention, htext, hmention, hlength⟩ := exists_mention_of_linkClose hclose
      rw [htext]
      refine .link [] mention _ rfl ?_ hmention ih
      rw [hlength, ← Nat.add_assoc, ← Nat.add_assoc, ← Nat.add_assoc, ← Nat.add_assoc]

/-! ### Draft and display, piece by piece -/

/-- The draft from one offset on and the display from another on: the same text around the mentions,
and a chip for each of them. -/
inductive Aligned : Nat → Nat → List Char → List Char → List (FileMentionLink × ByteRange) → Prop
  | text (rawAt displayAt : Nat) (text : List Char) : Aligned rawAt displayAt text text []
  | chip {rawAt displayAt : Nat} {raw display : List Char}
      {mentions : List (FileMentionLink × ByteRange)} (text mention chip : List Char)
      (link : FileMentionLink) (shown : ByteRange) (hstart : link.start = rawAt + utf8Len text)
      (hstop : link.stop = link.start + utf8Len mention) (hmention : mention ≠ [])
      (hshown : shown.start = displayAt + utf8Len text)
      (hshown' : shown.stop = shown.start + utf8Len chip) (hchip : chip ≠ [])
      (hrest : Aligned link.stop shown.stop raw display mentions) :
      Aligned rawAt displayAt (text ++ (mention ++ raw)) (text ++ (chip ++ display))
        ((link, shown) :: mentions)

namespace TextProjection

/-- The walk over the rest of a draft succeeds, and what it adds is aligned with what it reads. -/
theorem exists_aligned {done rest : List Char} {links : List FileMentionLink}
    (h : LinksAt (utf8Len done) rest links) {labels : List (List Char)}
    (hlabels : labels.length = links.length) (projection : TextProjection) :
    ∃ display mentions,
      ((links.zip labels).foldlM (pushChip (done ++ rest)) (projection, utf8Len done)).bind
        (pushRest (done ++ rest)) =
          some ⟨projection.display ++ display, projection.mentions ++ mentions⟩ ∧
      Aligned (utf8Len done) (utf8Len projection.display) rest display mentions := by
  induction links generalizing done rest labels projection with
  | nil =>
      refine ⟨rest, [], ?_, .text _ _ _⟩
      rw [List.zip_nil_left, List.foldlM_nil, Option.pure_def, Option.bind_some, pushRest]
      dsimp only
      rw [splitAt?_append, List.append_nil]
      rfl
  | cons link links ih =>
      obtain ⟨label, labels, rfl⟩ := List.exists_cons_of_length_eq_add_one hlabels
      cases h with
      | link front mention _ hstart hstop hmention hrest =>
          rename_i rest
          have hdone : link.stop = utf8Len (done ++ front ++ mention) := by
            rw [hstop, hstart, utf8Len_append, utf8Len_append]
          have hslice : slice? (utf8Len done) link.start (done ++ (front ++ (mention ++ rest))) =
              some front := by
            rw [hstart, slice?_append]
          rw [hdone] at hrest
          obtain ⟨display, mentions, hfold, haligned⟩ := ih hrest (Nat.succ.inj hlabels)
            ⟨projection.display ++ front ++ chip label, projection.mentions ++
              [(link, ⟨utf8Len (projection.display ++ front),
                utf8Len (projection.display ++ front ++ chip label)⟩)]⟩
          simp only [List.append_assoc] at hfold hslice
          refine ⟨front ++ (chip label ++ display), (link, _) :: mentions, ?_, .chip front mention
            (chip label) link ⟨utf8Len (projection.display ++ front), utf8Len
              (projection.display ++ front ++ chip label)⟩ hstart hstop hmention (utf8Len_append _ _)
            (utf8Len_append _ _) (List.cons_ne_nil _ _) ?_⟩
          · rw [List.zip_cons_cons, List.foldlM_cons, pushChip]
            dsimp only
            rw [hslice, Option.map_some, Option.bind_eq_bind, Option.bind_some, hdone]
            simp only [List.append_assoc, utf8Len_append] at hfold ⊢
            exact hfold
          · rw [hdone]
            exact haligned

end TextProjection

/-! ### The maps between offsets -/

def Inside (mentions : List (FileMentionLink × ByteRange)) (offset : Nat) : Prop :=
  ∃ mention ∈ mentions, mention.1.start < offset ∧ offset < mention.1.stop

theorem inside_cons {link : FileMentionLink} {shown : ByteRange}
    {mentions : List (FileMentionLink × ByteRange)} :
    Inside ((link, shown) :: mentions) offset ↔
      link.start < offset ∧ offset < link.stop ∨ Inside mentions offset := by
  simp [Inside]

theorem isBoundary_behind {text piece : List Char} {first stop offset : Nat}
    (hstop : stop = first + utf8Len text + utf8Len piece) (h : stop ≤ offset) (rest : List Char) :
    isBoundary (text ++ (piece ++ rest)) (offset - first) = isBoundary rest (offset - stop) := by
  obtain ⟨n, rfl⟩ := Nat.exists_eq_add_of_le h
  have hsub : stop + n - first = utf8Len text + (utf8Len piece + n) := by omega
  rw [hsub, isBoundary_append_right, isBoundary_append_right, Nat.add_sub_cancel_left]

namespace Aligned

open TextProjection

variable {rawAt displayAt : Nat} {raw display : List Char}
  {mentions : List (FileMentionLink × ByteRange)}

theorem mem (h : Aligned rawAt displayAt raw display mentions) {mention : FileMentionLink × ByteRange}
    (hmem : mention ∈ mentions) :
    rawAt ≤ mention.1.start ∧ mention.1.start < mention.1.stop ∧
      isBoundary raw (mention.1.start - rawAt) = true ∧
      isBoundary raw (mention.1.stop - rawAt) = true := by
  induction h with
  | text => cases hmem
  | @chip rawAt displayAt raw display mentions text piece chip link shown hstart hstop hmention hshown
      hshown' hchip hrest ih =>
      have hpos := utf8Len_pos_of_ne_nil hmention
      have hbehind : ∀ n, link.stop ≤ n →
          isBoundary (text ++ (piece ++ raw)) (n - rawAt) = isBoundary raw (n - link.stop) :=
        fun n hn => isBoundary_behind (by omega) hn raw
      cases hmem with
      | head =>
          dsimp only
          refine ⟨by omega, by omega, ?_, ?_⟩
          · rw [hstart, Nat.add_sub_cancel_left]
            exact isBoundary_utf8Len _ _
          · rw [hbehind _ (Nat.le_refl _), Nat.sub_self]
            exact isBoundary_zero _
      | tail _ hmem =>
          obtain ⟨hle, hlt, hboundary, hboundary'⟩ := ih hmem
          rw [← hbehind _ hle] at hboundary
          rw [← hbehind _ (by omega)] at hboundary'
          exact ⟨by omega, hlt, hboundary, hboundary'⟩

theorem pairwise (h : Aligned rawAt displayAt raw display mentions) :
    mentions.Pairwise fun mention mention' => mention.1.stop ≤ mention'.1.start := by
  induction h with
  | text => exact .nil
  | chip text piece chip link shown hstart hstop hmention hshown hshown' hchip hrest ih =>
      exact .cons (fun mention hmem => (hrest.mem hmem).1) ih

theorem not_inside (h : Aligned rawAt displayAt raw display mentions) (hoffset : offset ≤ rawAt) :
    ¬Inside mentions offset := by
  rintro ⟨mention, hmem, hlt, -⟩
  have := (h.mem hmem).1
  omega

theorem displayAt_le (h : Aligned rawAt displayAt raw display mentions) (offset : Nat) :
    displayAt ≤ rawToDisplayFrom mentions rawAt displayAt offset := by
  induction h with
  | text => exact Nat.le_add_right _ _
  | chip text piece chip link shown hstart hstop hmention hshown hshown' hchip hrest ih =>
      rw [rawToDisplayFrom]
      split_ifs <;> omega

theorem mono (h : Aligned rawAt displayAt raw display mentions) {offset offset' : Nat}
    (hle : offset ≤ offset') :
    rawToDisplayFrom mentions rawAt displayAt offset ≤
      rawToDisplayFrom mentions rawAt displayAt offset' := by
  induction h with
  | text => exact Nat.add_le_add_left (Nat.sub_le_sub_right hle _) _
  | chip text piece chip link shown hstart hstop hmention hshown hshown' hchip hrest ih =>
      have hfrom := hrest.displayAt_le offset'
      rw [rawToDisplayFrom, rawToDisplayFrom]
      split_ifs <;> omega

theorem map_start (h : Aligned rawAt displayAt raw display mentions) :
    rawToDisplayFrom mentions rawAt displayAt rawAt = displayAt := by
  cases h with
  | text => rw [rawToDisplayFrom, Nat.sub_self, Nat.add_zero]
  | chip text piece chip link shown hstart hstop hmention hshown hshown' hchip hrest =>
      rw [rawToDisplayFrom_before (by omega), Nat.sub_self, Nat.add_zero]

theorem map_end (h : Aligned rawAt displayAt raw display mentions) :
    rawToDisplayFrom mentions rawAt displayAt (rawAt + utf8Len raw) = displayAt + utf8Len display := by
  induction h with
  | text => rw [rawToDisplayFrom, Nat.add_sub_cancel_left]
  | @chip rawAt displayAt raw display mentions text piece chip link shown hstart hstop hmention hshown
      hshown' hchip hrest ih =>
      have hpos := utf8Len_pos_of_ne_nil hmention
      have hstop' : rawAt + utf8Len (text ++ (piece ++ raw)) = link.stop + utf8Len raw := by
        rw [utf8Len_append, utf8Len_append]
        omega
      rw [hstop', rawToDisplayFrom_behind (by omega) (Nat.le_add_right _ _), ih, utf8Len_append,
        utf8Len_append]
      omega

theorem inverse (h : Aligned rawAt displayAt raw display mentions) (hoffset : rawAt ≤ offset)
    (hinside : ¬Inside mentions offset) :
    displayToRawFrom mentions rawAt displayAt (rawToDisplayFrom mentions rawAt displayAt offset) =
      offset := by
  induction h with
  | text =>
      rw [rawToDisplayFrom, displayToRawFrom]
      omega
  | chip text piece chip link shown hstart hstop hmention hshown hshown' hchip hrest ih =>
      have hpos := utf8Len_pos_of_ne_nil hchip
      have hpos' := utf8Len_pos_of_ne_nil hmention
      have hfrom := hrest.displayAt_le offset
      rw [inside_cons, not_or] at hinside
      obtain hbefore | hbehind : offset ≤ link.start ∨ link.stop ≤ offset := by omega
      · rw [rawToDisplayFrom_before hbefore, displayToRawFrom, if_pos (by omega)]
        omega
      · rw [rawToDisplayFrom_behind (by omega) hbehind, displayToRawFrom, if_neg (by omega),
          if_neg (by omega), ih hbehind hinside.2]

theorem boundary_iff (h : Aligned rawAt displayAt raw display mentions) (hoffset : rawAt ≤ offset) :
    isBoundary display (rawToDisplayFrom mentions rawAt displayAt offset - displayAt) = true ↔
      isBoundary raw (offset - rawAt) = true ∨ Inside mentions offset := by
  induction h with
  | text =>
      rw [rawToDisplayFrom, Nat.add_sub_cancel_left, Inside]
      simp
  | @chip rawAt displayAt raw display mentions text piece chip link shown hstart hstop hmention hshown
      hshown' hchip hrest ih =>
      have hpos := utf8Len_pos_of_ne_nil hmention
      rw [inside_cons]
      obtain hbefore | hbehind | ⟨hlt, hlt'⟩ :
        offset ≤ link.start ∨ link.stop ≤ offset ∨ link.start < offset ∧ offset < link.stop := by omega
      · have hnot := hrest.not_inside (show offset ≤ link.stop by omega)
        rw [rawToDisplayFrom_before hbefore, Nat.add_sub_cancel_left,
          isBoundary_append_left (by omega), isBoundary_append_left (by omega), or_iff_left]
        rintro (⟨hlt, -⟩ | hinside)
        · omega
        · exact hnot hinside
      · rw [rawToDisplayFrom_behind (by omega) hbehind,
          isBoundary_behind (by omega) (hrest.displayAt_le offset), ih hbehind,
          isBoundary_behind (by omega) hbehind]
        refine or_congr_right (or_iff_right ?_).symm
        omega
      · rw [rawToDisplayFrom_inside hlt hlt', hshown, Nat.add_sub_cancel_left]
        exact iff_of_true (isBoundary_utf8Len _ _) (.inr (.inl ⟨hlt, hlt'⟩))

theorem displayToRaw_boundary (h : Aligned rawAt displayAt raw display mentions)
    (hoffset : displayAt ≤ offset) (hboundary : isBoundary display (offset - displayAt) = true) :
    rawAt ≤ displayToRawFrom mentions rawAt displayAt offset ∧
      isBoundary raw (displayToRawFrom mentions rawAt displayAt offset - rawAt) = true ∧
      ¬Inside mentions (displayToRawFrom mentions rawAt displayAt offset) := by
  induction h with
  | text =>
      rw [displayToRawFrom, Nat.add_sub_cancel_left]
      exact ⟨Nat.le_add_right _ _, hboundary, by simp [Inside]⟩
  | @chip rawAt displayAt raw display mentions text piece chip link shown hstart hstop hmention hshown
      hshown' hchip hrest ih =>
      have hpos := utf8Len_pos_of_ne_nil hmention
      rw [inside_cons, displayToRawFrom]
      have hstart' : isBoundary (text ++ (piece ++ raw)) (link.start - rawAt) = true :=
        hstart ▸ (Nat.add_sub_cancel_left ..).symm ▸ isBoundary_utf8Len _ _
      split_ifs with hbefore hin hnear
      · have hnot := hrest.not_inside (show rawAt + (offset - displayAt) ≤ link.stop by omega)
        rw [isBoundary_append_left (by omega)] at hboundary
        refine ⟨Nat.le_add_right _ _, ?_, not_or.mpr ⟨by omega, hnot⟩⟩
        rw [Nat.add_sub_cancel_left, isBoundary_append_left (by omega)]
        exact hboundary
      · exact ⟨by omega, hstart', not_or.mpr ⟨by omega, hrest.not_inside (by omega)⟩⟩
      · refine ⟨by omega, ?_, not_or.mpr ⟨by omega, hrest.not_inside (Nat.le_refl _)⟩⟩
        rw [isBoundary_behind (by omega) (Nat.le_refl _), Nat.sub_self]
        exact isBoundary_zero _
      · rw [isBoundary_behind (by omega) (Nat.not_lt.mp hin)] at hboundary
        obtain ⟨hle, hraw, hnot⟩ := ih (Nat.not_lt.mp hin) hboundary
        refine ⟨by omega, ?_, not_or.mpr ⟨by omega, hnot⟩⟩
        rw [isBoundary_behind (by omega) hle]
        exact hraw

end Aligned

/-! ### Whole mentions -/

/-- Mentions that are not empty, each behind the one before it. -/
structure Separate (mentions : List (FileMentionLink × ByteRange)) : Prop where
  lt : ∀ mention ∈ mentions, mention.1.start < mention.1.stop
  pairwise : mentions.Pairwise fun mention mention' => mention.1.stop ≤ mention'.1.start

theorem Aligned.separate {rawAt displayAt : Nat} {raw display : List Char}
    {mentions : List (FileMentionLink × ByteRange)} (h : Aligned rawAt displayAt raw display mentions) :
    Separate mentions :=
  ⟨fun _ hmem => (h.mem hmem).2.1, h.pairwise⟩

namespace Separate

open TextProjection

variable {mention : FileMentionLink × ByteRange} {mentions : List (FileMentionLink × ByteRange)}

theorem tail (h : Separate (mention :: mentions)) : Separate mentions :=
  ⟨fun _ hmem => h.lt _ (List.mem_cons_of_mem _ hmem), (List.pairwise_cons.mp h.pairwise).2⟩

theorem le_of_mem (h : Separate (mention :: mentions)) {mention' : FileMentionLink × ByteRange}
    (hmem : mention' ∈ mentions) : mention.1.stop ≤ mention'.1.start :=
  (List.pairwise_cons.mp h.pairwise).1 _ hmem

theorem not_inside_end (h : Separate mentions) (hmem : mention ∈ mentions) :
    ¬Inside mentions mention.1.start ∧ ¬Inside mentions mention.1.stop := by
  induction mentions with
  | nil => cases hmem
  | cons first mentions ih =>
      obtain ⟨link, shown⟩ := first
      rw [inside_cons, inside_cons, not_or, not_or]
      cases hmem with
      | head =>
          have hlt := h.lt _ (List.mem_cons_self ..)
          dsimp only at hlt ⊢
          have hbehind : ∀ n ≤ link.stop, ¬Inside mentions n := by
            rintro n hn ⟨mention', hmem', hlt', -⟩
            have := h.le_of_mem hmem'
            dsimp only at this
            omega
          exact ⟨⟨by omega, hbehind _ (Nat.le_of_lt hlt)⟩, by omega, hbehind _ (Nat.le_refl _)⟩
      | tail _ hmem =>
          have hle := h.le_of_mem hmem
          have hlt := h.tail.lt _ hmem
          dsimp only at hle
          exact ⟨⟨by omega, (ih h.tail hmem).1⟩, by omega, (ih h.tail hmem).2⟩

theorem foldl_widen_eq_self (hstart : ¬Inside mentions range.start) (hstop : ¬Inside mentions range.stop) :
    mentions.foldl widen range = range := by
  induction mentions with
  | nil => rfl
  | cons mention mentions ih =>
      obtain ⟨link, shown⟩ := mention
      rw [inside_cons, not_or] at hstart hstop
      have hself : widen range (link, shown) = range := by
        rw [widen]
        split_ifs with hmeets
        · dsimp only at hmeets ⊢
          rw [Nat.min_eq_left (by omega), Nat.max_eq_left (by omega)]
        · rfl
      rw [List.foldl_cons, hself, ih hstart.2 hstop.2]

theorem widen_le (range : ByteRange) (mention : FileMentionLink × ByteRange) :
    (widen range mention).start ≤ range.start ∧ range.stop ≤ (widen range mention).stop := by
  rw [widen]
  split_ifs
  · exact ⟨Nat.min_le_left _ _, Nat.le_max_left _ _⟩
  · exact ⟨Nat.le_refl _, Nat.le_refl _⟩

theorem foldl_widen_le (mentions : List (FileMentionLink × ByteRange)) (range : ByteRange) :
    (mentions.foldl widen range).start ≤ range.start ∧
      range.stop ≤ (mentions.foldl widen range).stop := by
  induction mentions generalizing range with
  | nil => exact ⟨Nat.le_refl _, Nat.le_refl _⟩
  | cons mention mentions ih =>
      obtain ⟨hstart, hstop⟩ := ih (widen range mention)
      obtain ⟨hstart', hstop'⟩ := widen_le range mention
      exact ⟨Nat.le_trans hstart hstart', Nat.le_trans hstop' hstop⟩

theorem foldl_widen_ends {P : Nat → Prop} (hstart : P range.start) (hstop : P range.stop)
    (hmentions : ∀ mention ∈ mentions, P mention.1.start ∧ P mention.1.stop) :
    P (mentions.foldl widen range).start ∧ P (mentions.foldl widen range).stop := by
  induction mentions generalizing range with
  | nil => exact ⟨hstart, hstop⟩
  | cons mention mentions ih =>
      have hmention := hmentions mention (List.mem_cons_self ..)
      have hrest := fun m hm => hmentions m (List.mem_cons_of_mem _ hm)
      rw [List.foldl_cons, widen]
      split_ifs
      · refine ih ?_ ?_ hrest
        · obtain hle | hle := Nat.le_total range.start mention.1.start
          · rwa [Nat.min_eq_left hle]
          · rw [Nat.min_eq_right hle]
            exact hmention.1
        · obtain hle | hle := Nat.le_total range.stop mention.1.stop
          · rw [Nat.max_eq_right hle]
            exact hmention.2
          · rwa [Nat.max_eq_left hle]
      · exact ih hstart hstop hrest

theorem le_foldl_widen {n : Nat} (hmentions : ∀ mention ∈ mentions, n ≤ mention.1.start)
    (hrange : n ≤ range.start) : n ≤ (mentions.foldl widen range).start := by
  induction mentions generalizing range with
  | nil => exact hrange
  | cons mention mentions ih =>
      refine ih (fun m hm => hmentions m (List.mem_cons_of_mem _ hm)) ?_
      have hmention := hmentions mention (List.mem_cons_self ..)
      rw [widen]
      split_ifs
      · exact Nat.le_min.mpr ⟨hrange, hmention⟩
      · exact hrange

theorem foldl_widen_of_le (h : ∀ mention ∈ mentions, range.stop ≤ mention.1.start) :
    mentions.foldl widen range = range := by
  induction mentions with
  | nil => rfl
  | cons mention mentions ih =>
      have hmention := h mention (List.mem_cons_self ..)
      rw [List.foldl_cons, widen, if_neg (by omega),
        ih fun m hm => h m (List.mem_cons_of_mem _ hm)]

/-- Widened over the mentions it meets, a range cuts none. -/
theorem not_inside_foldl_widen (h : Separate mentions) (hrange : range.start < range.stop) :
    ¬Inside mentions (mentions.foldl widen range).start ∧
      ¬Inside mentions (mentions.foldl widen range).stop := by
  induction mentions generalizing range with
  | nil => simp [Inside]
  | cons mention mentions ih =>
      obtain ⟨link, shown⟩ := mention
      have hgrown := widen_le range (link, shown)
      have hresult := foldl_widen_le mentions (widen range (link, shown))
      obtain ⟨hstart, hstop⟩ := @ih (widen range (link, shown)) h.tail (by omega)
      have hlt := h.lt _ (List.mem_cons_self ..)
      rw [List.foldl_cons, inside_cons, inside_cons, not_or, not_or]
      dsimp only at hlt
      by_cases hmeets : range.start < link.stop ∧ link.start < range.stop
      · have hwiden : widen range (link, shown) =
            ⟨min range.start link.start, max range.stop link.stop⟩ := if_pos hmeets
        rw [hwiden] at hresult hstart hstop ⊢
        dsimp only at hresult
        exact ⟨⟨by omega, hstart⟩, by omega, hstop⟩
      · have hwiden : widen range (link, shown) = range := if_neg hmeets
        rw [hwiden] at hresult hstart hstop ⊢
        obtain hbefore | hbehind : range.stop ≤ link.start ∨ link.stop ≤ range.start := by omega
        · have hstays : mentions.foldl widen range = range := by
            refine foldl_widen_of_le fun mention hmem => ?_
            have := h.le_of_mem hmem
            dsimp only at this
            omega
          rw [hstays] at hstart hstop ⊢
          exact ⟨⟨by omega, hstart⟩, by omega, hstop⟩
        · have hlow := le_foldl_widen (fun _ hmem => h.le_of_mem hmem) hbehind
          dsimp only at hlow
          exact ⟨⟨by omega, hstart⟩, by omega, hstop⟩

end Separate

/-! ### The projection of a draft -/

variable {projection : TextProjection}

namespace TextProjection

theorem length_mentionDisplayLabels (links : List FileMentionLink) :
    (mentionDisplayLabels links).length = links.length := by
  rw [mentionDisplayLabels, List.length_mapIdx]

theorem exists_new (raw : List Char) : ∃ projection, new raw = some projection ∧
    Aligned 0 0 raw projection.display projection.mentions := by
  obtain ⟨display, mentions, hnew, haligned⟩ := @exists_aligned [] _ _
    (linksAt_scanLinks 0 raw) _ (length_mentionDisplayLabels _) {}
  exact ⟨⟨display, mentions⟩, hnew, haligned⟩

theorem normalizeRange_of_lt (projection : TextProjection) (h : range.start < range.stop) :
    projection.normalizeRange range = projection.mentions.foldl widen range :=
  if_pos h

theorem normalizeRange_of_not_inside (projection : TextProjection)
    (hstart : ¬Inside projection.mentions range.start)
    (hstop : ¬Inside projection.mentions range.stop) :
    projection.normalizeRange range = range := by
  rw [normalizeRange]
  split_ifs
  · exact Separate.foldl_widen_eq_self hstart hstop
  · have hnone : (projection.mentions.find? fun (link, _) =>
        link.start < range.start ∧ range.start < link.stop) = none := by
      rw [List.find?_eq_none]
      intro mention hmem hin
      exact hstart ⟨mention, hmem, of_decide_eq_true hin⟩
    rw [hnone]

theorem normalizeRange_of_inside (h : Inside projection.mentions offset) :
    ∃ mention ∈ projection.mentions, mention.1.start < offset ∧ offset < mention.1.stop ∧
      projection.normalizeRange ⟨offset, offset⟩ =
        ⟨nearerEnd mention.1 offset, nearerEnd mention.1 offset⟩ := by
  rw [normalizeRange, if_neg (Nat.lt_irrefl _)]
  cases hfind : projection.mentions.find? fun (link, _) =>
      link.start < offset ∧ offset < link.stop with
  | none =>
      obtain ⟨mention, hmem, hin⟩ := h
      exact absurd (decide_eq_true hin) (List.find?_eq_none.mp hfind mention hmem)
  | some mention =>
      have hin := List.find?_some hfind
      dsimp only at hin
      exact ⟨mention, List.mem_of_find?_eq_some hfind, (of_decide_eq_true hin).1,
        (of_decide_eq_true hin).2, rfl⟩

theorem normalizeRange_ends {P : Nat → Prop} (hstart : P range.start) (hstop : P range.stop)
    (hmentions : ∀ mention ∈ projection.mentions, P mention.1.start ∧ P mention.1.stop) :
    P (projection.normalizeRange range).start ∧ P (projection.normalizeRange range).stop := by
  rw [normalizeRange]
  split_ifs
  · exact Separate.foldl_widen_ends hstart hstop hmentions
  · cases hfind : projection.mentions.find? fun (link, _) =>
        link.start < range.start ∧ range.start < link.stop with
    | none => exact ⟨hstart, hstop⟩
    | some mention =>
        have hends := hmentions mention (List.mem_of_find?_eq_some hfind)
        dsimp only
        rw [nearerEnd]
        split_ifs
        · exact ⟨hends.1, hends.1⟩
        · exact ⟨hends.2, hends.2⟩

theorem normalizeRange_le (h : range.start ≤ range.stop) :
    (projection.normalizeRange range).start ≤ (projection.normalizeRange range).stop := by
  rw [normalizeRange]
  split_ifs
  · have hgrown := Separate.foldl_widen_le projection.mentions range
    omega
  · cases projection.mentions.find? fun (link, _) =>
        link.start < range.start ∧ range.start < link.stop with
    | none => exact h
    | some mention => exact Nat.le_refl _

theorem not_inside_normalizeRange (h : Separate projection.mentions)
    (hrange : range.start ≤ range.stop) :
    ¬Inside projection.mentions (projection.normalizeRange range).start ∧
      ¬Inside projection.mentions (projection.normalizeRange range).stop := by
  obtain hlt | heq := Nat.lt_or_eq_of_le hrange
  · rw [normalizeRange_of_lt projection hlt]
    exact h.not_inside_foldl_widen hlt
  · obtain ⟨start, stop⟩ := range
    obtain rfl : start = stop := heq
    by_cases hinside : Inside projection.mentions start
    · obtain ⟨mention, hmem, -, -, hnormal⟩ := normalizeRange_of_inside hinside
      have hends := h.not_inside_end hmem
      rw [hnormal, nearerEnd]
      split_ifs
      · exact ⟨hends.1, hends.1⟩
      · exact ⟨hends.2, hends.2⟩
    · rw [normalizeRange_of_not_inside projection hinside hinside]
      exact ⟨hinside, hinside⟩

/-- What the maps between the offsets of a draft and of what is shown keep. -/
structure MapsOffsets (raw : List Char) (projection : TextProjection) : Prop where
  mono : ∀ offset offset', offset ≤ offset' →
    projection.rawToDisplay offset ≤ projection.rawToDisplay offset'
  start : projection.rawToDisplay 0 = 0
  stop : projection.rawToDisplay (utf8Len raw) = utf8Len projection.display
  boundary : ∀ offset, isBoundary projection.display (projection.rawToDisplay offset) = true ↔
    isBoundary raw offset = true ∨ Inside projection.mentions offset
  inverse : ∀ offset, ¬Inside projection.mentions offset →
    projection.displayToRaw (projection.rawToDisplay offset) = offset
  back : ∀ offset, isBoundary projection.display offset = true →
    isBoundary raw (projection.displayToRaw offset) = true ∧
      ¬Inside projection.mentions (projection.displayToRaw offset)

/-- What a range is normalized to: it holds the range, or is the nearer end of the mention around an
empty one. -/
structure Normalizes (projection : TextProjection) (range : ByteRange) : Prop where
  holds : range.start < range.stop ∨ ¬Inside projection.mentions range.start →
    (projection.normalizeRange range).start ≤ range.start ∧
      range.stop ≤ (projection.normalizeRange range).stop
  caret : range.start = range.stop → Inside projection.mentions range.start →
    ∃ mention ∈ projection.mentions,
      mention.1.start < range.start ∧ range.start < mention.1.stop ∧
      projection.normalizeRange range =
        ⟨nearerEnd mention.1 range.start, nearerEnd mention.1 range.start⟩
  uncut : ¬Inside projection.mentions (projection.normalizeRange range).start ∧
    ¬Inside projection.mentions (projection.normalizeRange range).stop
  again : projection.normalizeRange (projection.normalizeRange range) =
    projection.normalizeRange range

theorem mapsOffsets {raw : List Char} (h : Aligned 0 0 raw projection.display projection.mentions) :
    MapsOffsets raw projection where
  mono := fun _ _ hle => h.mono hle
  start := h.map_start
  stop := by
    have hend := h.map_end
    rwa [Nat.zero_add, Nat.zero_add] at hend
  boundary := fun offset => h.boundary_iff (Nat.zero_le offset)
  inverse := fun offset hinside => h.inverse (Nat.zero_le offset) hinside
  back := fun offset hboundary => (h.displayToRaw_boundary (Nat.zero_le offset) hboundary).2

theorem normalizes (h : Separate projection.mentions) (hrange : range.start ≤ range.stop) :
    Normalizes projection range where
  holds := by
    intro hwide
    obtain hlt | heq := Nat.lt_or_eq_of_le hrange
    · rw [normalizeRange_of_lt projection hlt]
      exact Separate.foldl_widen_le _ _
    · have hinside := hwide.resolve_left (by omega)
      rw [normalizeRange_of_not_inside projection hinside (heq ▸ hinside)]
      exact ⟨Nat.le_refl _, Nat.le_refl _⟩
  caret := by
    intro hempty hinside
    obtain ⟨start, stop⟩ := range
    obtain rfl : start = stop := hempty
    exact normalizeRange_of_inside hinside
  uncut := not_inside_normalizeRange h hrange
  again :=
    have huncut := not_inside_normalizeRange h hrange
    normalizeRange_of_not_inside projection huncut.1 huncut.2

/-- The chips of every draft keep its offsets in step. -/
theorem chips_map_offsets (raw : List Char) : ∃ projection, new raw = some projection ∧
    MapsOffsets raw projection ∧
    ∀ range : ByteRange, range.start ≤ range.stop → Normalizes projection range := by
  obtain ⟨projection, hnew, haligned⟩ := exists_new raw
  exact ⟨projection, hnew, mapsOffsets haligned, fun _ => normalizes haligned.separate⟩

/-- An offset in a character is shown in it, an empty range in a mention leaves it, and the end of a
range that runs backwards stays in it. -/
theorem chips_by_offset :
    (new ['é']).map (fun projection => isBoundary projection.display (projection.rawToDisplay 1)) =
      some false ∧
    (new "[f](zeron-file:f) a".toList).map (fun projection =>
      (projection.normalizeRange ⟨3, 3⟩, projection.normalizeRange ⟨18, 3⟩)) =
        some (⟨0, 0⟩, ⟨18, 3⟩) := by
  decide +kernel

end TextProjection

end Zeron.Ui.Projection
