import Zeron.Doc.Rebuild
import Zeron.Lib.BlockScan
import Zeron.Lib.Machine

/-!
# The phone's incremental markdown

`IncrementalMarkdownParser` of `MarkdownModel.swift`. A text is the list of its scalars. What Swift
makes of it (its Characters, equality and prefixes up to canonical equivalence) and swift-markdown
behind `MarkdownParser.parse` are parameters with the laws the code relies on. Definitions are only
looked for in the appended piece and lines only counted at line feeds that are Characters of their
own.
-/

namespace Zeron.Ios.MarkdownModel

open Zeron.Lib.BlockScan

section Strings

structure SwiftString where
  /-- The extended grapheme clusters. -/
  characters : List Char → List (List Char)
  /-- `==` -/
  same : List Char → List Char → Bool
  /-- `text.hasPrefix(source)` -/
  hasPrefix : List Char → List Char → Bool
  flatten_characters : ∀ text, (characters text).flatten = text
  /-- A line feed is a Character of its own, unless a carriage return stands before it. -/
  characters_lineFeed : ∀ before after, before.getLast? ≠ some '\r' →
    characters (before ++ '\n' :: after) = characters before ++ ['\n'] :: characters after

variable (swift : SwiftString)

def count (text : List Char) : Nat := (swift.characters text).length

def dropFirst (text : List Char) (n : Nat) : List Char := ((swift.characters text).drop n).flatten

def afterNewline (text : List Char) : Option (List Char) :=
  match (swift.characters text).dropWhile (· ≠ ['\n']) with
  | [] => none
  | _ :: rest => some rest.flatten

/-- The loop of `suffix(of:fromLine:)`. -/
def suffixFrom : Nat → List Char → List Char
  | 0, text => text
  | remaining + 1, text => (afterNewline swift text).elim text (suffixFrom remaining)

/-- The text from the given line on, lines counted from one. -/
def suffix (text : List Char) (line : Nat) : List Char :=
  if 1 < line then suffixFrom swift (line - 1) text else text

end Strings

section Definitions

/-- `Character.isWhitespace` -/
def isWhitespace (character : List Char) : Bool := character.head?.any Doc.isWhitespace

/-- `Character.isNewline` -/
def isNewline (character : List Char) : Bool :=
  character.head?.any fun c => c.toNat ∈ [0x0A, 0x0B, 0x0C, 0x0D, 0x85, 0x2028, 0x2029]

/-- `\s{0,3}\[[^\]]+\]:` at the front. -/
def isLinkDef (characters : List (List Char)) : Bool :=
  (characters.takeWhile isWhitespace).length ≤ 3 &&
    match characters.dropWhile isWhitespace with
    | [] => false
    | bracket :: label =>
        bracket = ['['] && label.head? ≠ some [']'] &&
          ((label.dropWhile (· ≠ [']'])).drop 1).head? = some [':']

def findsLinkDef (lineStart : Bool) : List (List Char) → Bool
  | [] => false
  | character :: rest =>
      lineStart && isLinkDef (character :: rest) || findsLinkDef (isNewline character) rest

def hasLinkDefs (swift : SwiftString) (text : List Char) : Bool :=
  findsLinkDef true (swift.characters text)

end Definitions

/-- `startLine` is counted from one. -/
structure TopBlock (Block : Type) where
  startLine : Nat
  block : Block
  deriving DecidableEq

/-- swift-markdown, as `MarkdownParser.parse` converts it. -/
structure SwiftMarkdown (Element Block : Type) where
  parse : List Char → List (TopBlock Block)
  /-- The block structure, made line by line. -/
  scanner : Scanner (List Char) Element
  /-- A link reference definition stands in the element. -/
  defines : Element → Bool
  convert : Element → Block
  /-- Where nothing is defined, a block is what its own element says. -/
  parse_eq : ∀ text, ((scanner.elements (lines text)).all fun entry => ! defines entry.2) = true →
    parse text = (scanner.elements (lines text)).map fun entry =>
      { startLine := entry.1 + 1, block := convert entry.2 }

structure IncrementalMarkdownParser (Block : Type) where
  source : List Char
  blocks : List (TopBlock Block)
  fullOnly : Bool

namespace IncrementalMarkdownParser

variable {Element Block : Type} (swift : SwiftString) (md : SwiftMarkdown Element Block)
  (parser : IncrementalMarkdownParser Block) (text : List Char)

def new : IncrementalMarkdownParser Block := { source := [], blocks := [], fullOnly := false }

def reset : IncrementalMarkdownParser Block :=
  { source := text, blocks := md.parse text, fullOnly := hasLinkDefs swift text }

def boundaryLine : Nat := (parser.blocks[parser.blocks.length - 2]?.map (·.startLine)).getD 1

def delta : List Char := dropFirst swift text (count swift parser.source)

def append : IncrementalMarkdownParser Block :=
  if hasLinkDefs swift (parser.delta swift text) then
    { source := text, blocks := md.parse text, fullOnly := true }
  else if parser.blocks.length < 2 then
    { parser with source := text, blocks := md.parse text }
  else
    let stable := parser.blocks.take (parser.blocks.length - 2)
    let tailBlocks := (md.parse (suffix swift text parser.boundaryLine)).map fun top =>
      { top with startLine := top.startLine + parser.boundaryLine - 1 }
    { parser with source := text, blocks := stable ++ tailBlocks }

def setText : IncrementalMarkdownParser Block :=
  if swift.same text parser.source then parser
  else if ! parser.fullOnly && swift.hasPrefix text parser.source && ! parser.source.isEmpty then
    parser.append swift md text
  else reset swift md text

def machine : Lib.Machine (IncrementalMarkdownParser Block) (List Char) where
  init parser := parser = new
  step parser text := some (parser.setText swift md text)

end IncrementalMarkdownParser

section Counting

variable (swift : SwiftString)

/-- None of the first lines, so many of them, holds a carriage return. -/
def lineFeeds : Nat → List Char → Bool
  | 0, _ => true
  | _ + 1, [] => true
  | n + 1, c :: rest => c ≠ '\r' && lineFeeds (if c = '\n' then n else n + 1) rest

theorem lineFeeds_cases {n : Nat} {text : List Char} (h : lineFeeds (n + 1) text = true) :
    (∃ line rest, text = line ++ '\n' :: rest ∧ ('\n' ∉ line ∧ '\r' ∉ line) ∧
      lineFeeds n rest = true) ∨ '\n' ∉ text ∧ '\r' ∉ text := by
  induction text with
  | nil => exact .inr (by simp)
  | cons c text ih =>
      rw [lineFeeds, Bool.and_eq_true, decide_eq_true_eq] at h
      obtain ⟨hreturn, hrest⟩ := h
      by_cases hend : c = '\n'
      · subst hend
        rw [if_pos rfl] at hrest
        exact .inl ⟨[], text, rfl, by simp, hrest⟩
      · rw [if_neg hend] at hrest
        obtain ⟨line, rest, rfl, ⟨hfeed, hline⟩, hlater⟩ | ⟨hfeed, htext⟩ := ih hrest
        · refine .inl ⟨c :: line, rest, rfl, ⟨?_, ?_⟩, hlater⟩
          · exact List.not_mem_cons_of_ne_of_not_mem (Ne.symm hend) hfeed
          · exact List.not_mem_cons_of_ne_of_not_mem (Ne.symm hreturn) hline
        · refine .inr ⟨?_, ?_⟩
          · exact List.not_mem_cons_of_ne_of_not_mem (Ne.symm hend) hfeed
          · exact List.not_mem_cons_of_ne_of_not_mem (Ne.symm hreturn) htext

theorem afterNewline_line {line rest : List Char} (h : '\n' ∉ line ∧ '\r' ∉ line) :
    afterNewline swift (line ++ '\n' :: rest) = some rest := by
  have hlast : line.getLast? ≠ some '\r' := fun hlast => h.2 (List.mem_of_getLast? hlast)
  have hnone : ∀ character ∈ swift.characters line, decide (character ≠ ['\n']) = true := by
    intro character hmem
    rw [decide_eq_true_eq]
    rintro rfl
    apply h.1
    rw [← swift.flatten_characters line]
    exact List.mem_flatten.mpr ⟨_, hmem, List.mem_singleton_self _⟩
  unfold afterNewline
  rw [swift.characters_lineFeed line rest hlast, List.dropWhile_append_of_pos hnone,
    List.dropWhile_cons_of_neg (by simp)]
  exact congrArg some (swift.flatten_characters rest)

theorem linesFrom_line {seg : List Char} (h : '\n' ∉ seg ∧ '\r' ∉ seg) (line rest : List Char) :
    linesFrom line (seg ++ '\n' :: rest) = (line ++ seg ++ ['\n']) :: lines rest := by
  induction seg generalizing line with
  | nil => simp [linesFrom, lines]
  | cons c seg ih =>
      obtain ⟨hfeed, hreturn⟩ := h
      rw [List.mem_cons, not_or] at hfeed hreturn
      rw [List.cons_append, linesFrom, if_neg (by simp [Ne.symm hfeed.1, Ne.symm hreturn.1]),
        ih ⟨hfeed.2, hreturn.2⟩]
      · simp
      · intro rest' hc
        exact absurd hc (Ne.symm hreturn.1)

theorem length_linesFrom {text : List Char} (h : '\n' ∉ text ∧ '\r' ∉ text) (line : List Char) :
    (linesFrom line text).length ≤ 1 := by
  induction text generalizing line with
  | nil =>
      rw [linesFrom]
      split <;> simp
  | cons c text ih =>
      obtain ⟨hfeed, hreturn⟩ := h
      rw [List.mem_cons, not_or] at hfeed hreturn
      rw [linesFrom, if_neg (by simp [Ne.symm hfeed.1, Ne.symm hreturn.1])]
      · exact ih ⟨hfeed.2, hreturn.2⟩ _
      · intro rest' hc
        exact absurd hc (Ne.symm hreturn.1)

theorem lines_suffixFrom {n : Nat} {text : List Char} (h : lineFeeds n text = true)
    (hn : n < (lines text).length) :
    lines (suffixFrom swift n text) = (lines text).drop n := by
  induction n generalizing text with
  | zero => rfl
  | succ n ih =>
      obtain ⟨line, rest, rfl, hline, hrest⟩ | hnone := lineFeeds_cases h
      · have hlines : lines (line ++ '\n' :: rest) = ([] ++ line ++ ['\n']) :: lines rest :=
          linesFrom_line hline [] rest
        rw [suffixFrom, afterNewline_line swift hline, Option.elim_some, hlines,
          List.drop_succ_cons]
        rw [hlines, List.length_cons] at hn
        exact ih hrest (Nat.lt_of_succ_lt_succ hn)
      · have hone := length_linesFrom hnone []
        unfold lines at hn
        omega

end Counting

section Runs

variable {Element Block : Type} (swift : SwiftString) (md : SwiftMarkdown Element Block)
  (parser : IncrementalMarkdownParser Block) (text : List Char)

/-- No element of the text holds a link reference definition. -/
def NoDefinitions (text : List Char) : Prop :=
  ((md.scanner.elements (lines text)).all fun entry => ! md.defines entry.2) = true

/-- `setText` reparses the tail only. -/
def reparsesTail : Bool :=
  ! swift.same text parser.source && ! parser.fullOnly && swift.hasPrefix text parser.source &&
    ! parser.source.isEmpty && ! hasLinkDefs swift (parser.delta swift text) &&
    2 ≤ parser.blocks.length

/-- The texts that Swift takes for the same or for a continuation are so scalar by scalar; and where
the tail only is reparsed, nothing is defined and the lines before it end in line feeds. -/
def Plain : Prop :=
  (swift.same text parser.source = true → text = parser.source) ∧
    (reparsesTail swift parser text = true →
      parser.source <+: text ∧ (NoDefinitions md parser.source ∧ NoDefinitions md text) ∧
        lineFeeds (parser.boundaryLine - 1) text = true)

instance : Decidable (NoDefinitions md text) := inferInstanceAs (Decidable (_ = true))

instance : Decidable (Plain swift md parser text) := inferInstanceAs (Decidable (_ ∧ _))

variable {swift md parser text}

theorem noDefinitions_tail {before : List (Nat × Element)} {n : Nat} {tail : List Char}
    (h : NoDefinitions md text)
    (htail : md.scanner.elements (lines text) = before ++
      (md.scanner.elements (lines tail)).map fun entry => (entry.1 + n, entry.2)) :
    NoDefinitions md tail := by
  unfold NoDefinitions at h ⊢
  rw [htail, List.all_append, Bool.and_eq_true, List.all_map] at h
  exact h.2

/-- The tail is where the elements of the whole text go on. -/
theorem parse_reread (h : parser.blocks = md.parse parser.source)
    (htwo : 2 ≤ parser.blocks.length) (hextends : parser.source <+: text)
    (hsource : NoDefinitions md parser.source) (htext : NoDefinitions md text)
    (hfeeds : lineFeeds (parser.boundaryLine - 1) text = true) :
    md.parse text = parser.blocks.take (parser.blocks.length - 2) ++
      (md.parse (suffix swift text parser.boundaryLine)).map fun top =>
        { top with startLine := top.startLine + parser.boundaryLine - 1 } := by
  obtain ⟨more, rfl⟩ := hextends
  obtain ⟨doc, last, after, hdoc, hlast, hmore⟩ := linesFrom_append [] parser.source more
  have hblocks : parser.blocks = (md.scanner.elements (lines parser.source)).map fun entry =>
      { startLine := entry.1 + 1, block := md.convert entry.2 } := h.trans (md.parse_eq _ hsource)
  -- The second to last element is where the boundary is.
  obtain ⟨before, ⟨n, element⟩, next, helements⟩ : ∃ before entry next,
      md.scanner.elements (lines parser.source) = before ++ [entry, next] := by
    obtain ⟨front, next, hfront⟩ := (List.eq_nil_or_concat
      (md.scanner.elements (lines parser.source))).resolve_left fun hnil => by
        rw [hblocks, hnil] at htwo
        simp at htwo
    obtain ⟨before, entry, hbefore⟩ := (List.eq_nil_or_concat front).resolve_left fun hnil => by
      rw [hblocks, hfront, hnil] at htwo
      simp at htwo
    refine ⟨before, entry, next, ?_⟩
    rw [hfront, hbefore]
    simp
  have hlength : parser.blocks.length - 2 = before.length := by
    rw [hblocks, helements]
    simp
  have hstable : parser.blocks.take (parser.blocks.length - 2) = before.map fun entry =>
      { startLine := entry.1 + 1, block := md.convert entry.2 } := by
    rw [hlength, hblocks, helements, List.map_append, List.take_left' (by simp)]
  have hboundary : parser.boundaryLine = n + 1 := by
    rw [IncrementalMarkdownParser.boundaryLine, hlength, hblocks, helements]
    simp
  have hold : md.scanner.elements (doc ++ last) = before ++ (n, element) :: [next] := by
    rw [← hdoc]
    exact helements
  have hreread := md.scanner.elements_reread hold hlast (by simp) after
  obtain ⟨grown, after', hgrown⟩ := md.scanner.elements_continued hold hlast (by simp) after
  have hn : n < (lines (parser.source ++ more)).length := by
    have hlt := md.scanner.start_lt hgrown
    rwa [← hmore] at hlt
  rw [hboundary, Nat.add_sub_cancel] at hfeeds
  have hsuffix : lines (suffix swift (parser.source ++ more) parser.boundaryLine) =
      (lines (parser.source ++ more)).drop n := by
    rw [← lines_suffixFrom swift hfeeds hn, hboundary]
    unfold suffix
    cases n with
    | zero => rfl
    | succ n => rw [if_pos (by omega), Nat.add_sub_cancel]
  have htail : md.scanner.elements (lines (parser.source ++ more)) = before ++
      (md.scanner.elements (lines (suffix swift (parser.source ++ more) parser.boundaryLine))).map
        fun entry => (entry.1 + n, entry.2) := by
    rw [hsuffix]
    unfold lines
    rw [hmore]
    exact hreread
  rw [md.parse_eq _ htext, htail, hstable, md.parse_eq _ (noDefinitions_tail htext htail),
    List.map_append, List.map_map, List.map_map]
  refine congrArg _ (List.map_congr_left fun entry _ => ?_)
  simp only [Function.comp_apply, hboundary, TopBlock.mk.injEq, and_true]
  omega

theorem setText_eq_parse (h : parser.blocks = md.parse parser.source)
    (hplain : Plain swift md parser text) :
    (parser.setText swift md text).source = text ∧
      (parser.setText swift md text).blocks = md.parse text := by
  obtain ⟨hsame, htail⟩ := hplain
  unfold IncrementalMarkdownParser.setText
  by_cases heq : swift.same text parser.source = true
  · rw [if_pos heq, hsame heq]
    exact ⟨rfl, h⟩
  · rw [if_neg heq]
    by_cases happend : (! parser.fullOnly && swift.hasPrefix text parser.source &&
        ! parser.source.isEmpty) = true
    · rw [if_pos happend]
      unfold IncrementalMarkdownParser.append
      by_cases hdefs : hasLinkDefs swift (parser.delta swift text) = true
      · rw [if_pos hdefs]
        exact ⟨rfl, rfl⟩
      · rw [if_neg hdefs]
        by_cases htwo : parser.blocks.length < 2
        · rw [if_pos htwo]
          exact ⟨rfl, rfl⟩
        · rw [if_neg htwo]
          have hreparses : reparsesTail swift parser text = true := by
            simp only [Bool.and_eq_true] at happend
            simp [reparsesTail, heq, happend, hdefs, Nat.not_lt.mp htwo]
          obtain ⟨hliteral, ⟨hsource, htext⟩, hfeeds⟩ := htail hreparses
          exact ⟨rfl, (parse_reread h (Nat.not_lt.mp htwo) hliteral hsource htext hfeeds).symm⟩
    · rw [if_neg happend]
      exact ⟨rfl, rfl⟩

/-- **The held blocks are a full parse.** In every run whose texts are plain where the parser takes
a shortcut, each `setText` leaves the blocks of the whole text, start lines included. -/
theorem blocks_eq_parse
    (h : (IncrementalMarkdownParser.machine swift md).ReachableWhen (Plain swift md) parser)
    (hplain : Plain swift md parser text) :
    (parser.setText swift md text).source = text ∧
      (parser.setText swift md text).blocks = md.parse text := by
  refine setText_eq_parse (h.invariant (I := fun parser => parser.blocks = md.parse parser.source)
    ?_ ?_) hplain
  · rintro _ rfl
    have hempty : md.scanner.elements (lines []) = [] := md.scanner.elements_nil
    change [] = md.parse []
    rw [md.parse_eq [] (by rw [hempty]; rfl), hempty]
    rfl
  · rintro parser text _ hparser hplain ⟨⟩
    obtain ⟨hsource, hblocks⟩ := setText_eq_parse hparser hplain
    rw [hblocks, hsource]

end Runs

section Ascii

/-- The Characters of a text in ASCII: a carriage return and the line feed after it are one. -/
def asciiCharacters : List Char → List (List Char)
  | [] => []
  | '\r' :: '\n' :: rest => ['\r', '\n'] :: asciiCharacters rest
  | c :: rest => [c] :: asciiCharacters rest

theorem flatten_asciiCharacters (text : List Char) : (asciiCharacters text).flatten = text := by
  fun_induction asciiCharacters text with
  | case1 => rfl
  | case2 rest ih | case3 c rest hcrlf ih => rw [List.flatten_cons, ih]; rfl

theorem asciiCharacters_lineFeed (before after : List Char) (h : before.getLast? ≠ some '\r') :
    asciiCharacters (before ++ '\n' :: after) =
      asciiCharacters before ++ ['\n'] :: asciiCharacters after := by
  fun_induction asciiCharacters before with
  | case1 => simp [asciiCharacters]
  | case2 rest ih =>
      rw [List.cons_append, List.cons_append, asciiCharacters, ih, List.cons_append]
      cases rest with
      | nil => simp
      | cons c rest => simpa using h
  | case3 c rest hcrlf ih =>
      rw [List.cons_append, asciiCharacters, ih, List.cons_append]
      · cases rest with
        | nil => simp
        | cons d rest => simpa using h
      · rintro rest' rfl hrest
        cases rest with
        | nil => simp at h
        | cons d rest => exact hcrlf rest rfl (congrArg (· :: rest) (List.cons.inj hrest).1)

def ascii : SwiftString where
  characters := asciiCharacters
  same text source := decide (text = source)
  hasPrefix text source := source.isPrefixOf text
  flatten_characters := flatten_asciiCharacters
  characters_lineFeed := asciiCharacters_lineFeed

/-- Paragraphs of one line without markup, a blank line between any two. -/
def paragraphs : SwiftMarkdown (List Char) (List Char) where
  scanner := separate (·.all Doc.isWhitespace)
  defines _ := false
  convert := Doc.trim
  parse text := (separateFrom (·.all Doc.isWhitespace) 0 (lines text)).map fun entry =>
    { startLine := entry.1 + 1, block := Doc.trim entry.2 }
  parse_eq _ _ := rfl

/-- Three paragraphs, then a letter more of the third. -/
theorem blocks_eq_parse_paragraphs :
    let parser : IncrementalMarkdownParser (List Char) :=
      { source := "a\n\nb\n\nc".toList
        blocks := [⟨1, ['a']⟩, ⟨3, ['b']⟩, ⟨5, ['c']⟩], fullOnly := false }
    let text := "a\n\nb\n\ncd".toList
    (parser.setText ascii paragraphs text).source = text ∧
      (parser.setText ascii paragraphs text).blocks = paragraphs.parse text := by
  intro parser text
  refine blocks_eq_parse ⟨.new, rfl, ?_⟩ (by decide +kernel)
  refine Lib.Machine.Steps.head (a := "a\n\nb\n\nc".toList) ?_ ?_ (.refl _)
  · decide +kernel
  · rfl

/-- The lines end in carriage returns with line feeds, Characters that are no line feeds to Swift:
the tail is the whole text, and its first blocks are held twice. -/
theorem crlf_drifts :
    let text := "a\r\n\r\nb\r\n\r\ncd".toList
    let parser := (IncrementalMarkdownParser.new.setText ascii paragraphs
      "a\r\n\r\nb\r\n\r\nc".toList).setText ascii paragraphs text
    parser.blocks = [⟨1, ['a']⟩, ⟨3, ['a']⟩, ⟨5, ['b']⟩, ⟨7, ['c', 'd']⟩] ∧
      paragraphs.parse text = [⟨1, ['a']⟩, ⟨3, ['b']⟩, ⟨5, ['c', 'd']⟩] := by
  decide +kernel

end Ascii

end Zeron.Ios.MarkdownModel
