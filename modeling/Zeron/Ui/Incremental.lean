import Zeron.Lib.BlockScan
import Zeron.Ui.Mend

/-!
# The desktop's incremental markdown

`IncrementalParser` of `crates/ui/src/markdown/parser.rs`. Positions are counted in characters: the
source only ever cuts between two. `parse_full`, which makes blocks of pulldown-cmark's events, is one
parameter with it, with the laws of a scanner of lines. An append reads again from the line of the
second-to-last block.
-/

namespace Zeron.Ui.Incremental

open Zeron.Doc Zeron.Lib Zeron.Lib.Utf8 Zeron.Lib.BlockScan

/-- A top-level block with the range of the source it stands for. -/
structure TopBlock (Block : Type) where
  start : Nat
  stop : Nat
  block : Block
  deriving DecidableEq

def lineStart (doc : List (List Char)) (n : Nat) : Nat := (doc.take n).flatten.length

/-- pulldown-cmark with the conversion of its events by `parse_full`, which looks at one top-level
element at a time. -/
structure PulldownCmark (Element Block : Type) where
  parseFull : List Char → List (TopBlock Block)
  /-- A code block, a rule or a table. -/
  verbatim : Block → Bool
  /-- The block structure, made line by line. -/
  scanner : Scanner (List Char) Element
  increasing : ∀ doc, (scanner.elements doc).Pairwise fun a b => a.1 < b.1
  /-- A link reference definition stands in the element. -/
  defines : Element → Bool
  /-- Where the element's range begins and ends, seen from the start of its first line. -/
  lead : Element → Nat
  extent : Element → Nat
  lead_lt : ∀ doc n element line, (n, element) ∈ scanner.elements doc → doc[n]? = some line →
    lead element < line.length
  convert : Element → Block
  /-- Where nothing is defined, a block is what its own element says. -/
  parse_eq : ∀ text, ((scanner.elements (lines text)).all fun entry => ! defines entry.2) = true →
    parseFull text = (scanner.elements (lines text)).map fun entry =>
      { start := lineStart (lines text) entry.1 + lead entry.2
        stop := lineStart (lines text) entry.1 + extent entry.2
        block := convert entry.2 }

/-- `contains("]:")` -/
def closesLabel (text : List Char) : Bool := (text.zip (text.drop 1)).contains (']', ':')

/-- A line with a bracket after at most three bytes of white space, and `]:`. -/
def hasLinkDefs (text : List Char) : Bool :=
  (charLines [] text).any fun line =>
    utf8Len (line.takeWhile isWhitespace) ≤ 3 && (trimStart line).head? = some '[' &&
      closesLabel (trimStart line)

structure IncrementalParser (Block : Type) where
  source : List Char
  tree : List (TopBlock Block)
  displayTail : Option (List (TopBlock Block))
  fullOnly : Bool
  stablePrefixBlocks : Nat
  deriving DecidableEq

namespace IncrementalParser

variable {Element Block : Type} (isAlphanumeric : Char → Bool) (md : PulldownCmark Element Block)
  (parser : IncrementalParser Block)

def new : IncrementalParser Block :=
  { source := [], tree := [], displayTail := none, fullOnly := false, stablePrefixBlocks := 0 }

def displayTree : List (TopBlock Block) :=
  match parser.displayTail with
  | none => parser.tree
  | some tail => parser.tree.take (parser.tree.length - 1) ++ tail

/-- The parse of the last block's source with what hangs in it closed. -/
def mendedTail : Option (List (TopBlock Block)) :=
  parser.tree.getLast?.bind fun last =>
    if md.verbatim last.block then none
    else
      (Mend.closeHanging isAlphanumeric (parser.source.drop last.start)).map fun mended =>
        (md.parseFull mended).map fun top =>
          { top with
            start := top.start + last.start
            stop := min (top.stop + last.start) parser.source.length }

def remend : IncrementalParser Block :=
  { parser with displayTail := parser.mendedTail isAlphanumeric md }

def reset (text : List Char) : IncrementalParser Block :=
  remend isAlphanumeric md
    { source := text, tree := md.parseFull text, displayTail := parser.displayTail
      fullOnly := hasLinkDefs text, stablePrefixBlocks := 0 }

/-- The start of the line, as `rfind` of a newline finds it, that the position stands on. -/
def lineFrom (text : List Char) (position : Nat) : Nat :=
  ((Mend.rfindNewline (text.take position)).map (· + 1)).getD 0

def boundaryBlock : Nat :=
  if parser.tree.length < 2 then 0
  else (parser.tree[parser.tree.length - 2]?.map (·.start)).getD 0

/-- The definitions are looked for from the start of the line that the append goes on with. -/
def finds (delta : List Char) : Bool :=
  parser.fullOnly ||
    hasLinkDefs ((parser.source ++ delta).drop (lineFrom parser.source parser.source.length))

def append (delta : List Char) : IncrementalParser Block :=
  if delta.isEmpty then { parser with stablePrefixBlocks := parser.tree.length }
  else
    let source := parser.source ++ delta
    if parser.finds delta then
      remend isAlphanumeric md
        { parser with
          source, tree := md.parseFull source, fullOnly := true, stablePrefixBlocks := 0 }
    else
      let boundary := lineFrom source parser.boundaryBlock
      let stable := parser.tree.filter fun top => top.start < boundary
      let tail := (md.parseFull (source.drop boundary)).map fun top =>
        { top with start := top.start + boundary, stop := top.stop + boundary }
      remend isAlphanumeric md
        { parser with source, tree := stable ++ tail, stablePrefixBlocks := stable.length }

def setText (text : List Char) : IncrementalParser Block :=
  if parser.source.isPrefixOf text then
    parser.append isAlphanumeric md (text.drop parser.source.length)
  else parser.reset isAlphanumeric md text

end IncrementalParser

section Places

variable {text : List Char} {n : Nat}

theorem lineStart_mono (doc : List (List Char)) {m n : Nat} (h : m ≤ n) :
    lineStart doc m ≤ lineStart doc n := by
  unfold lineStart
  have hsplit : doc.take n = doc.take m ++ (doc.take n).drop m := by
    conv_lhs => rw [← List.take_append_drop m (doc.take n), List.take_take, Nat.min_eq_left h]
  rw [hsplit, List.flatten_append, List.length_append]
  exact Nat.le_add_right _ _

theorem lineStart_succ {doc : List (List Char)} {line : List Char} (h : doc[n]? = some line) :
    lineStart doc (n + 1) = lineStart doc n + line.length := by
  obtain ⟨hn, rfl⟩ := List.getElem?_eq_some_iff.mp h
  unfold lineStart
  rw [List.take_succ_eq_append_getElem hn, List.flatten_append, List.length_append]
  simp

theorem lineStart_drop (doc : List (List Char)) (n m : Nat) :
    lineStart doc (m + n) = lineStart (doc.drop n) m + lineStart doc n := by
  unfold lineStart
  rw [Nat.add_comm m n, List.take_add, List.flatten_append, List.length_append, Nat.add_comm]

theorem lineStart_append {doc last : List (List Char)} (h : n ≤ doc.length) :
    lineStart (doc ++ last) n = lineStart doc n := by
  unfold lineStart
  rw [List.take_append_of_le_length h]

theorem rfindNewline_append {front rest : List Char} (h : '\n' ∉ rest) :
    Mend.rfindNewline (front ++ '\n' :: rest) = some front.length := by
  have hlast : (front ++ '\n' :: rest).rtakeWhile (· ≠ '\n') = rest := by
    unfold List.rtakeWhile
    have hall : ∀ c ∈ rest.reverse, decide (c ≠ '\n') = true := by
      intro c hc
      rw [decide_eq_true_eq]
      rintro rfl
      exact h (List.mem_reverse.mp hc)
    rw [List.reverse_append, List.reverse_cons, List.append_assoc,
      List.takeWhile_append_of_pos hall]
    simp
  unfold Mend.rfindNewline
  simp only [hlast]
  rw [List.length_append, List.length_cons, if_pos (by omega)]
  congr 1
  omega

theorem rfindNewline_none {rest : List Char} (h : '\n' ∉ rest) : Mend.rfindNewline rest = none := by
  have hlast : rest.rtakeWhile (· ≠ '\n') = rest := by
    rw [List.rtakeWhile_eq_self_iff]
    intro c hc
    rw [decide_eq_true_eq]
    rintro rfl
    exact h hc
  unfold Mend.rfindNewline
  simp only [hlast]
  rw [if_neg (by omega)]

/-- No carriage return stands between the line feed that `rfind` finds and the position. -/
def feedBefore (text : List Char) (position : Nat) : Prop :=
  '\r' ∉ (text.take position).drop (IncrementalParser.lineFrom text position)

instance (text : List Char) (position : Nat) : Decidable (feedBefore text position) :=
  inferInstanceAs (Decidable (¬ _))

/-- Then `rfind` finds the start of the line that the position stands on. -/
theorem lineFrom_eq {line : List Char} {lead : Nat} (hline : (lines text)[n]? = some line)
    (hlead : lead < line.length) (h : feedBefore text (lineStart (lines text) n + lead)) :
    IncrementalParser.lineFrom text (lineStart (lines text) n + lead) =
      lineStart (lines text) n := by
  obtain ⟨hn, hget⟩ := List.getElem?_eq_some_iff.mp hline
  have htake : text.take (lineStart (lines text) n + lead) =
      ((lines text).take n).flatten ++ line.take lead := by
    have htext : text =
        ((lines text).take n).flatten ++ (line ++ ((lines text).drop (n + 1)).flatten) := by
      conv_lhs => rw [← flatten_lines text, ← List.take_append_drop n (lines text),
        List.drop_eq_getElem_cons hn, hget, List.flatten_append, List.flatten_cons]
    calc
      text.take (lineStart (lines text) n + lead)
          = (((lines text).take n).flatten ++ (line ++ ((lines text).drop (n + 1)).flatten)).take
              (lineStart (lines text) n + lead) := congrArg _ htext
      _ = ((lines text).take n).flatten ++ line.take lead := by
        unfold lineStart
        rw [List.take_length_add_append, List.take_append_of_le_length hlead.le]
  have hlast : '\n' ∉ line.take lead := by
    intro hmem
    refine lineFeed_last List.not_mem_nil line (List.mem_of_getElem? hline) ?_
    rw [List.dropLast_eq_take]
    exact (List.take_subset_take_left _ (Nat.le_pred_of_lt hlead)) hmem
  unfold feedBefore at h
  unfold IncrementalParser.lineFrom at h ⊢
  rw [htake] at h ⊢
  cases n with
  | zero =>
      rw [List.take_zero, List.flatten_nil, List.nil_append, rfindNewline_none hlast]
      rfl
  | succ n =>
      have hprev : n < (lines text).length := Nat.lt_of_succ_lt hn
      have hfront : ((lines text).take (n + 1)).flatten =
          ((lines text).take n).flatten ++ (lines text)[n] := by
        rw [List.take_succ_eq_append_getElem hprev, List.flatten_append]
        simp
      have hend := @ends_of_followed [] text ((lines text)[n]) ((lines text).take n)
        ((lines text).drop (n + 1)) (by
          rw [← List.drop_eq_getElem_cons hprev, List.take_append_drop]
          rfl) (by simpa using hn)
      have hlength : lineStart (lines text) (n + 1) =
          (((lines text).take n).flatten ++ (lines text)[n]).length := by
        rw [← hfront]
        rfl
      rw [hfront] at h
      rw [hlength, hfront]
      generalize ((lines text).take n).flatten = front at h ⊢
      generalize (lines text)[n] = other at h hend ⊢
      obtain hfeed | hreturn := hend
      · obtain ⟨body, rfl⟩ := List.getLast?_eq_some_iff.mp hfeed
        rw [show front ++ (body ++ ['\n']) ++ line.take lead =
          front ++ body ++ '\n' :: line.take lead by simp, rfindNewline_append hlast]
        simp
        omega
      · -- The carriage return would stand behind the line feed that is found.
        obtain ⟨body, rfl⟩ := List.getLast?_eq_some_iff.mp hreturn
        refine absurd ?_ h
        rw [show front ++ (body ++ ['\r']) ++ line.take lead =
          front ++ body ++ '\r' :: line.take lead by simp]
        by_cases hmem : '\n' ∈ front ++ body
        · obtain ⟨behind, before, hsplit, hnot⟩ :=
            List.eq_append_cons_of_mem (List.mem_reverse.mpr hmem)
          have hbody : front ++ body = before.reverse ++ '\n' :: behind.reverse := by
            rw [← List.reverse_reverse (front ++ body), hsplit]
            simp
          have hrest : '\n' ∉ behind.reverse ++ '\r' :: line.take lead := by
            simp [hnot, hlast]
          have hdrop : (before.reverse ++ '\n' :: (behind.reverse ++ '\r' :: line.take lead)).drop
              (before.reverse.length + 1) = behind.reverse ++ '\r' :: line.take lead := by
            rw [List.append_cons, List.drop_left' (by simp)]
          rw [hbody, List.append_assoc, List.cons_append, rfindNewline_append hrest,
            Option.map_some, Option.getD_some, hdrop]
          simp
        · have hrest : '\n' ∉ front ++ body ++ '\r' :: line.take lead := by
            rw [List.mem_append, List.mem_cons]
            simp [hmem, hlast]
          rw [rfindNewline_none hrest]
          simp

end Places

section Runs

variable {Element Block : Type} {isAlphanumeric : Char → Bool} {md : PulldownCmark Element Block}
  {parser : IncrementalParser Block} {text delta : List Char}

/-- No element of the text holds a link reference definition. -/
def NoDefinitions (md : PulldownCmark Element Block) (text : List Char) : Prop :=
  ((md.scanner.elements (lines text)).all fun entry => ! md.defines entry.2) = true

instance (md : PulldownCmark Element Block) (text : List Char) :
    Decidable (NoDefinitions md text) :=
  inferInstanceAs (Decidable (_ = true))

def PulldownCmark.place (md : PulldownCmark Element Block) (doc : List (List Char))
    (entry : Nat × Element) : TopBlock Block :=
  { start := lineStart doc entry.1 + md.lead entry.2
    stop := lineStart doc entry.1 + md.extent entry.2
    block := md.convert entry.2 }

theorem parse_places (h : NoDefinitions md text) :
    md.parseFull text = (md.scanner.elements (lines text)).map (md.place (lines text)) :=
  md.parse_eq text h

theorem place_lt_iff {doc : List (List Char)} {entry : Nat × Element} {n : Nat}
    (hentry : entry ∈ md.scanner.elements doc) (hlt : entry.1 < doc.length) :
    (md.place doc entry).start < lineStart doc n ↔ entry.1 < n := by
  obtain ⟨m, element⟩ := entry
  have hline : doc[m]? = some doc[m] := List.getElem?_eq_getElem hlt
  have hlead := md.lead_lt doc m element doc[m] hentry hline
  have hstart : (md.place doc (m, element)).start = lineStart doc m + md.lead element := rfl
  rw [hstart]
  constructor
  · intro hbefore
    by_contra hle
    have hmono : lineStart doc n ≤ lineStart doc m := lineStart_mono doc (Nat.not_lt.mp hle)
    omega
  · intro hmn
    have hmono : lineStart doc (m + 1) ≤ lineStart doc n := lineStart_mono doc hmn
    rw [lineStart_succ hline] at hmono
    omega

theorem place_shift (doc : List (List Char)) (n : Nat) (entry : Nat × Element) :
    md.place doc (entry.1 + n, entry.2) =
      { md.place (doc.drop n) entry with
        start := (md.place (doc.drop n) entry).start + lineStart doc n
        stop := (md.place (doc.drop n) entry).stop + lineStart doc n } := by
  unfold PulldownCmark.place
  simp only [lineStart_drop, TopBlock.mk.injEq, and_true]
  omega

theorem drop_lineStart (text : List Char) (n : Nat) :
    text.drop (lineStart (lines text) n) = ((lines text).drop n).flatten := by
  have htext : text = ((lines text).take n).flatten ++ ((lines text).drop n).flatten := by
    rw [← List.flatten_append, List.take_append_drop, flatten_lines]
  calc
    text.drop (lineStart (lines text) n)
        = (((lines text).take n).flatten ++ ((lines text).drop n).flatten).drop
            (lineStart (lines text) n) := congrArg _ htext
    _ = ((lines text).drop n).flatten := List.drop_left' rfl

/-- The tree that an append builds where it reads again from the boundary only. -/
def respliced (md : PulldownCmark Element Block) (parser : IncrementalParser Block)
    (text : List Char) (boundary : Nat) : List (TopBlock Block) :=
  (parser.tree.filter fun top => top.start < boundary) ++
    (md.parseFull (text.drop boundary)).map fun top =>
      { top with start := top.start + boundary, stop := top.stop + boundary }

theorem respliced_eq (h : parser.tree = md.parseFull parser.source)
    (hsource : NoDefinitions md parser.source) (htext : NoDefinitions md (parser.source ++ delta))
    (htwo : 2 ≤ parser.tree.length)
    (hfeed : feedBefore (parser.source ++ delta) parser.boundaryBlock) :
    let boundary := IncrementalParser.lineFrom (parser.source ++ delta) parser.boundaryBlock
    respliced md parser (parser.source ++ delta) boundary = md.parseFull (parser.source ++ delta) ∧
      (parser.tree.filter fun top => top.start < boundary) <+: parser.tree := by
  have htree : parser.tree = _ := h.trans (parse_places hsource)
  obtain ⟨doc, last, after, hdoc, hlast, hmore⟩ := linesFrom_append [] parser.source delta
  have hdoc' : lines parser.source = doc ++ last := hdoc
  have hmore' : lines (parser.source ++ delta) = doc ++ after := hmore
  obtain ⟨before, ⟨n, element⟩, ⟨n', element'⟩, helements⟩ : ∃ before entry next,
      md.scanner.elements (lines parser.source) = before ++ [entry, next] := by
    obtain ⟨front, next, hfront⟩ := (List.eq_nil_or_concat
      (md.scanner.elements (lines parser.source))).resolve_left fun hnil => by
        rw [htree, hnil] at htwo
        simp at htwo
    obtain ⟨before, entry, hbefore⟩ := (List.eq_nil_or_concat front).resolve_left fun hnil => by
      rw [htree, hfront, hnil] at htwo
      simp at htwo
    refine ⟨before, entry, next, ?_⟩
    rw [hfront, hbefore]
    simp
  -- Both begin on lines that the append leaves as they are.
  have hpairs := md.increasing (lines parser.source)
  rw [helements, List.pairwise_append, List.pairwise_pair] at hpairs
  obtain ⟨-, hnext, hbefore⟩ := hpairs
  have hn' : n' < (lines parser.source).length := by
    have hsplit : md.scanner.elements (lines parser.source) =
        (before ++ [(n, element)]) ++ (n', element') :: [] := by
      rw [helements]
      simp
    exact md.scanner.start_lt hsplit
  have hn : n < doc.length := by
    rw [hdoc', List.length_append] at hn'
    change n < n' at hnext
    omega
  have hlength : parser.tree.length - 2 = before.length := by
    rw [htree, helements]
    simp
  have hblock : parser.boundaryBlock = lineStart (lines parser.source) n + md.lead element := by
    rw [IncrementalParser.boundaryBlock, if_neg (Nat.not_lt.mpr htwo), hlength, htree, helements]
    simp [PulldownCmark.place]
  have hshared {m : Nat} (hm : m ≤ doc.length) :
      lineStart (lines parser.source) m = lineStart (lines (parser.source ++ delta)) m := by
    rw [hdoc', hmore', lineStart_append hm, lineStart_append hm]
  have hline : (lines (parser.source ++ delta))[n]? = some doc[n] := by
    rw [hmore', List.getElem?_append_left hn, List.getElem?_eq_getElem hn]
  have hlead : md.lead element < doc[n].length := by
    refine md.lead_lt (lines parser.source) n element doc[n] (by simp [helements]) ?_
    rw [hdoc', List.getElem?_append_left hn, List.getElem?_eq_getElem hn]
  have hboundary : IncrementalParser.lineFrom (parser.source ++ delta) parser.boundaryBlock =
      lineStart (lines (parser.source ++ delta)) n := by
    rw [hblock, hshared hn.le] at hfeed ⊢
    exact lineFrom_eq hline hlead hfeed
  -- What stands before the boundary are the blocks before the last two.
  have hmem (entry : Nat × Element) (h : entry ∈ before ++ [(n, element), (n', element')]) :
      (md.place (lines parser.source) entry).start < lineStart (lines parser.source) n ↔
        entry.1 < n := by
    refine place_lt_iff (by rwa [helements]) ?_
    obtain hmem | hmem := List.mem_append.mp h
    · have hlt : entry.1 < n := hbefore entry hmem (n, element) (by simp)
      change n < n' at hnext
      omega
    · simp only [List.mem_cons, List.not_mem_nil, or_false] at hmem
      obtain rfl | rfl := hmem
      · change n < n' at hnext
        change n < _
        omega
      · exact hn'
  have hstable : (parser.tree.filter fun top =>
      top.start < lineStart (lines (parser.source ++ delta)) n) =
        before.map (md.place (lines parser.source)) := by
    rw [← hshared hn.le, htree, helements, List.map_append, List.filter_append]
    have hfirst : (before.map (md.place (lines parser.source))).filter (fun top =>
        top.start < lineStart (lines parser.source) n) =
          before.map (md.place (lines parser.source)) := by
      rw [List.filter_eq_self]
      intro top htop
      obtain ⟨entry, hentry, rfl⟩ := List.mem_map.mp htop
      rw [decide_eq_true_eq, hmem entry (List.mem_append_left _ hentry)]
      exact hbefore entry hentry (n, element) (by simp)
    have hlater : ([(n, element), (n', element')].map (md.place (lines parser.source))).filter
        (fun top => top.start < lineStart (lines parser.source) n) = [] := by
      rw [List.filter_eq_nil_iff]
      intro top htop
      obtain ⟨entry, hentry, rfl⟩ := List.mem_map.mp htop
      rw [decide_eq_true_eq, hmem entry (List.mem_append_right _ hentry), Nat.not_lt]
      simp only [List.mem_cons, List.not_mem_nil, or_false] at hentry
      obtain rfl | rfl := hentry
      · exact Nat.le_refl _
      · exact Nat.le_of_lt hnext
    rw [hfirst, hlater, List.append_nil]
  have hold : md.scanner.elements (doc ++ last) = before ++ (n, element) :: [(n', element')] := by
    rw [← hdoc', helements]
  have hreread := md.scanner.elements_reread hold hlast (by simp) after
  rw [← hmore'] at hreread
  have htail : NoDefinitions md
      ((parser.source ++ delta).drop (lineStart (lines (parser.source ++ delta)) n)) := by
    unfold NoDefinitions at htext ⊢
    rw [hreread, List.all_append, Bool.and_eq_true, List.all_map] at htext
    rw [drop_lineStart, lines_drop]
    exact htext.2
  intro boundary
  have hat : boundary = lineStart (lines (parser.source ++ delta)) n := hboundary
  rw [hat]
  refine ⟨?_, ?_⟩
  · unfold respliced
    rw [hstable, parse_places htext, hreread, parse_places htail, List.map_append, List.map_map,
      List.map_map, drop_lineStart, lines_drop]
    congr 1
    · refine List.map_congr_left fun entry hentry => ?_
      have hle : entry.1 ≤ doc.length :=
        Nat.le_of_lt (Nat.lt_trans (hbefore entry hentry (n, element) (by simp)) hn)
      unfold PulldownCmark.place
      rw [hshared hle]
    · refine List.map_congr_left fun entry _ => ?_
      exact (place_shift _ n entry).symm
  · rw [hstable, htree, helements, List.map_append]
    exact List.prefix_append _ _

/-- What happens to a parser. -/
inductive Action where
  | append (delta : List Char)
  | setText (text : List Char)
  | reset (text : List Char)

def Action.result (source : List Char) : Action → List Char
  | .append delta => source ++ delta
  | .setText text | .reset text => text

namespace IncrementalParser

def step (isAlphanumeric : Char → Bool) (md : PulldownCmark Element Block)
    (parser : IncrementalParser Block) : Action → IncrementalParser Block
  | .append delta => parser.append isAlphanumeric md delta
  | .setText text => parser.setText isAlphanumeric md text
  | .reset text => parser.reset isAlphanumeric md text

def machine (isAlphanumeric : Char → Bool) (md : PulldownCmark Element Block) :
    Machine (IncrementalParser Block) Action where
  init parser := parser = new
  step parser action := some (parser.step isAlphanumeric md action)

end IncrementalParser

/-- Where an append reads again from the boundary only, nothing is defined and the line before the
boundary ends in a line feed. -/
def PlainAppend (md : PulldownCmark Element Block) (parser : IncrementalParser Block)
    (delta : List Char) : Prop :=
  delta ≠ [] → parser.finds delta = false → 2 ≤ parser.tree.length →
    (NoDefinitions md parser.source ∧ NoDefinitions md (parser.source ++ delta)) ∧
      feedBefore (parser.source ++ delta) parser.boundaryBlock

instance (md : PulldownCmark Element Block) (parser : IncrementalParser Block) (delta : List Char) :
    Decidable (PlainAppend md parser delta) :=
  inferInstanceAs (Decidable (_ → _))

def Plain (md : PulldownCmark Element Block) (parser : IncrementalParser Block) : Action → Prop
  | .append delta => PlainAppend md parser delta
  | .setText text => parser.source.isPrefixOf text = true →
      PlainAppend md parser (text.drop parser.source.length)
  | .reset _ => True

instance (md : PulldownCmark Element Block) (parser : IncrementalParser Block) (action : Action) :
    Decidable (Plain md parser action) :=
  match action with
  | .append delta => inferInstanceAs (Decidable (PlainAppend md parser delta))
  | .setText _ => inferInstanceAs (Decidable (_ → _))
  | .reset _ => .isTrue trivial

/-- The parser holds the tree of the text, and what it reports as stable it has kept. -/
def Follows (md : PulldownCmark Element Block) (parser parser' : IncrementalParser Block)
    (text : List Char) : Prop :=
  parser'.source = text ∧ parser'.tree = md.parseFull text ∧
    parser'.stablePrefixBlocks ≤ parser'.tree.length ∧
    parser'.tree.take parser'.stablePrefixBlocks <+: parser.tree

theorem append_shortcut (hdelta : delta ≠ []) (hfinds : parser.finds delta = false) :
    let parser' := parser.append isAlphanumeric md delta
    let boundary := IncrementalParser.lineFrom (parser.source ++ delta) parser.boundaryBlock
    parser'.source = parser.source ++ delta ∧
      parser'.tree = respliced md parser (parser.source ++ delta) boundary ∧
      parser'.stablePrefixBlocks = (parser.tree.filter fun top => top.start < boundary).length := by
  unfold IncrementalParser.append
  dsimp only
  rw [if_neg (by simpa using hdelta), if_neg (by simp [hfinds])]
  exact ⟨rfl, rfl, rfl⟩

theorem follows_append (h : parser.tree = md.parseFull parser.source)
    (hplain : PlainAppend md parser delta) :
    Follows md parser (parser.append isAlphanumeric md delta) (parser.source ++ delta) := by
  by_cases hempty : delta = []
  · subst hempty
    rw [List.append_nil]
    exact ⟨rfl, h, le_refl _, List.take_prefix _ _⟩
  by_cases hfinds : parser.finds delta = true
  · unfold IncrementalParser.append
    dsimp only
    rw [if_neg (by simpa using hempty), if_pos hfinds]
    exact ⟨rfl, rfl, Nat.zero_le _, List.nil_prefix⟩
  · rw [Bool.not_eq_true] at hfinds
    obtain ⟨hsource, htree, hstable⟩ :=
      @append_shortcut _ _ isAlphanumeric md parser delta hempty hfinds
    unfold Follows
    rw [hsource, htree, hstable]
    by_cases htwo : 2 ≤ parser.tree.length
    · obtain ⟨hdefinitions, hfeed⟩ := hplain hempty hfinds htwo
      obtain ⟨hparse, hkept⟩ := respliced_eq h hdefinitions.1 hdefinitions.2 htwo hfeed
      refine ⟨rfl, hparse, ?_, ?_⟩
      · unfold respliced
        rw [List.length_append]
        exact Nat.le_add_right _ _
      · unfold respliced
        rw [List.take_left' rfl]
        exact hkept
    · -- There is nothing to keep.
      have hboundary :
          IncrementalParser.lineFrom (parser.source ++ delta) parser.boundaryBlock = 0 := by
        rw [IncrementalParser.boundaryBlock, if_pos (by omega)]
        rfl
      rw [hboundary]
      have hnone : (parser.tree.filter fun top => decide (top.start < 0)) = [] := by simp
      unfold respliced
      rw [hnone, List.drop_zero]
      exact ⟨rfl, by simp, Nat.zero_le _, List.nil_prefix⟩

theorem follows_step (h : parser.tree = md.parseFull parser.source) {action : Action}
    (hplain : Plain md parser action) :
    Follows md parser (parser.step isAlphanumeric md action) (action.result parser.source) := by
  cases action with
  | append delta => exact follows_append h hplain
  | reset text => exact ⟨rfl, rfl, Nat.zero_le _, List.nil_prefix⟩
  | setText text =>
      change Follows md parser (parser.setText isAlphanumeric md text) text
      unfold IncrementalParser.setText
      by_cases hextends : parser.source.isPrefixOf text = true
      · rw [if_pos hextends]
        obtain ⟨delta, rfl⟩ := List.isPrefixOf_iff_prefix.mp hextends
        have happend := hplain hextends
        rw [List.drop_left] at happend ⊢
        exact follows_append h happend
      · rw [if_neg hextends]
        exact ⟨rfl, rfl, Nat.zero_le _, List.nil_prefix⟩

/-- **The tree is the full parse's.** In every run that is plain where an append takes the shortcut,
each step leaves the tree of the whole text, ranges included, and the blocks that it reports as
stable are ones it has kept. -/
theorem tree_eq_parseFull
    (h : (IncrementalParser.machine isAlphanumeric md).ReachableWhen (Plain md) parser)
    {action : Action} (hplain : Plain md parser action) :
    Follows md parser (parser.step isAlphanumeric md action) (action.result parser.source) := by
  refine follows_step (h.invariant (I := fun parser => parser.tree = md.parseFull parser.source)
    ?_ ?_) hplain
  · rintro _ rfl
    have hempty : md.scanner.elements (lines []) = [] := md.scanner.elements_nil
    change [] = md.parseFull []
    rw [md.parse_eq [] (by rw [hempty]; rfl), hempty]
    rfl
  · rintro parser action _ hparser hplain ⟨⟩
    obtain ⟨hsource, htree, -, -⟩ :=
      @follows_step _ _ isAlphanumeric md parser hparser action hplain
    rw [htree, hsource]

end Runs

section Quoted

/-- Paragraphs of one line, a blank line between any two, and the quote of a definition, which makes
a link of each paragraph that is the label. -/
def quoted : PulldownCmark (List Char) (List Char × Bool) where
  parseFull text :=
    let entries := separateFrom (·.all isWhitespace) 0 (lines text)
    let defined := entries.any fun entry => "> [a]: /u".toList.isPrefixOf entry.2
    entries.map fun entry =>
      { start := lineStart (lines text) entry.1 + 0
        stop := lineStart (lines text) entry.1 + entry.2.length
        block := (trim entry.2, defined && trim entry.2 = "[a]".toList) }
  verbatim _ := false
  scanner := separate (·.all isWhitespace)
  increasing := separateFrom_increasing _ 0
  defines line := "> [a]: /u".toList.isPrefixOf line
  lead _ := 0
  extent line := line.length
  lead_lt doc n element line h hline := by
    obtain ⟨-, hget, hblank⟩ := mem_separateFrom _ h
    rw [Nat.sub_zero, hline] at hget
    cases hget
    cases element with
    | nil => cases hblank
    | cons c line => exact Nat.succ_pos _
  convert line := (trim line, false)
  parse_eq text h := by
    have hnone : ((separateFrom (·.all isWhitespace) 0 (lines text)).any fun entry =>
        "> [a]: /u".toList.isPrefixOf entry.2) = false := by
      rw [Bool.eq_false_iff]
      intro hany
      obtain ⟨entry, hentry, hdefines⟩ := List.any_eq_true.mp hany
      have hnot := List.all_eq_true.mp h entry hentry
      rw [hdefines] at hnot
      cases hnot
    simp only [hnone, Bool.false_and]
    rfl

/-- Three paragraphs, then a letter more of the third. -/
theorem tree_eq_parseFull_quoted :
    let parser := IncrementalParser.new.append Char.isAlphanum quoted "[a]\n\nx\n\ny".toList
    Follows quoted parser (parser.append Char.isAlphanum quoted ['z']) "[a]\n\nx\n\nyz".toList := by
  intro parser
  have hrun : (IncrementalParser.machine Char.isAlphanum quoted).Steps (Plain quoted) .new parser :=
    Machine.Steps.head (a := .append "[a]\n\nx\n\ny".toList) (by decide +kernel) rfl (.refl _)
  exact @tree_eq_parseFull _ _ Char.isAlphanum quoted parser ⟨.new, rfl, hrun⟩ (.append ['z'])
    (by decide +kernel)

/-- A definition in a quote goes unseen: the paragraph that it makes a link stays as it was. -/
theorem quoted_definition_missed :
    let parser := (IncrementalParser.new.append Char.isAlphanum quoted
      "[a]\n\nx\n\ny".toList).append Char.isAlphanum quoted "\n\n> [a]: /u".toList
    (parser.tree[0]?.map (·.block) = some ("[a]".toList, false)) ∧
      (quoted.parseFull parser.source)[0]?.map (·.block) = some ("[a]".toList, true) := by
  decide +kernel

end Quoted

end Zeron.Ui.Incremental
