import Mathlib.Data.Finset.Max
import Mathlib.Data.List.Chain
import Mathlib.Data.Prod.Lex
import Zeron.Lib.CharBoundary
import Zeron.Lib.Lines

/-!
# Highlighted lines

`HighlightedDocument::from_absolute_spans` of `crates/syntax/src/lib.rs`: captures over a whole source
become disjoint spans, line by line. A source is its bytes; a newline is one byte there.
-/

namespace Zeron.Syntax

open Zeron.Lib (Bytes)
open Zeron.Lib.Lines (newline carriageReturn)
open Zeron.Lib.Utf8 (isCharBoundary)

inductive LanguageId where
  | rust | javaScript | jsx | typeScript | tsx | python | go | json | jsonc | bash | toml | markdown
  | html | css | yaml | c | cpp | cSharp | java | kotlin | swift | ruby | php | sql | lua | dockerfile
  | nix | make

inductive HighlightKind where
  | comment | keyword | string | stringSpecial | escape | number | boolean | type | typeBuiltin
  | constructor | function | functionBuiltin | macroCall | property | constant | variable
  | variableSpecial | parameter | operator | punctuation | tag | attribute | label | embedded | invalid
deriving DecidableEq

def HighlightKind.precedence : HighlightKind → Nat
  | .invalid => 100
  | .escape => 95
  | .macroCall => 90
  | .property | .attribute => 85
  | .functionBuiltin | .typeBuiltin | .variableSpecial => 80
  | .stringSpecial | .constructor | .parameter => 75
  | .function | .type | .constant | .tag | .label => 70
  | .comment | .keyword | .string | .number | .boolean => 60
  | .variable | .operator => 50
  | .punctuation | .embedded => 40

structure HighlightSpan where
  start : Nat
  stop : Nat
  kind : HighlightKind

structure HighlightedDocument where
  language : LanguageId
  lines : List (List HighlightSpan)

inductive HighlightError where
  | invalidRange (start stop len : Nat)
  | invalidUtf8Boundary (start stop : Nat)
deriving DecidableEq

/-! ### One line -/

inductive Edge where
  | start (index : Nat)
  | stop (index : Nat)

/-- The edges of the spans, before they are sorted. -/
def edgesOf (spans : List HighlightSpan) : List (Nat × Edge) :=
  spans.zipIdx.flatMap fun (span, index) => [(span.start, .start index), (span.stop, .stop index)]

/-- `sort_unstable_by_key` of the offset: edges at one offset come out in any order. -/
structure OffsetSort where
  sort : List (Nat × Edge) → List (Nat × Edge)
  perm : ∀ edges, (sort edges).Perm edges
  sorted : ∀ edges, (sort edges).Pairwise (·.1 ≤ ·.1)

def OffsetSort.stable : OffsetSort where
  sort edges := edges.mergeSort (·.1 ≤ ·.1)
  perm edges := List.mergeSort_perm edges _
  sorted edges := by
    simpa using @List.pairwise_mergeSort (Nat × Edge) (fun a b => decide (a.1 ≤ b.1))
      (fun a b c => by simpa using le_trans) (fun a b => by simpa using le_total a.1 b.1) edges

/-- What stands for a span in the set of active ones: the later span wins a tie. -/
def key (span : HighlightSpan) (index : Nat) : Nat ×ₗ Nat := toLex (span.kind.precedence, index)

def removeEnd (spans : List HighlightSpan) (active : Finset (Nat ×ₗ Nat)) :
    Nat × Edge → Finset (Nat ×ₗ Nat)
  | (_, .stop index) => (spans[index]?.map fun span => active.erase (key span index)).getD active
  | (_, .start _) => active

def insertStart (spans : List HighlightSpan) (active : Finset (Nat ×ₗ Nat)) :
    Nat × Edge → Finset (Nat ×ₗ Nat)
  | (_, .start index) => (spans[index]?.map fun span => insert (key span index) active).getD active
  | (_, .stop _) => active

/-- Shows a kind up to the next offset; a span of the same kind that ends here goes on. -/
def extend (normalized : List HighlightSpan) (offset nextOffset : Nat) (kind : HighlightKind) :
    List HighlightSpan :=
  match normalized.getLast? with
  | some previous =>
      if previous.kind = kind ∧ previous.stop = offset then
        normalized.dropLast ++ [{ previous with stop := nextOffset }]
      else normalized ++ [{ start := offset, stop := nextOffset, kind }]
  | none => normalized ++ [{ start := offset, stop := nextOffset, kind }]

/-- The kind on show: that of the last active span. -/
def shown (spans : List HighlightSpan) (active : Finset (Nat ×ₗ Nat)) : Option HighlightKind :=
  match active.max with
  | some last => spans[(ofLex last).2]?.map (·.kind)
  | none => none

def sweep (spans : List HighlightSpan) :
    List (Nat × Edge) → Finset (Nat ×ₗ Nat) → List HighlightSpan → List HighlightSpan
  | [], _, normalized => normalized
  | (offset, edge) :: edges, active, normalized =>
      let group := (offset, edge) :: edges.takeWhile (·.1 = offset)
      let rest := edges.dropWhile (·.1 = offset)
      let active := group.foldl (insertStart spans) (group.foldl (removeEnd spans) active)
      match rest.head? with
      | none => normalized
      | some (nextOffset, _) =>
          if offset = nextOffset then sweep spans rest active normalized
          else
            match shown spans active with
            | some kind => sweep spans rest active (extend normalized offset nextOffset kind)
            | none => sweep spans rest active normalized
termination_by edges => edges.length
decreasing_by all_goals exact Nat.lt_succ_of_le (List.dropWhile_sublist _).length_le

def normalizeLine (sorting : OffsetSort) (spans : List HighlightSpan) : List HighlightSpan :=
  sweep spans (sorting.sort (edgesOf spans)) ∅ []

/-! ### What the spans say at one offset -/

def HighlightSpan.Covers (span : HighlightSpan) (offset : Nat) : Prop :=
  span.start ≤ offset ∧ offset < span.stop

def Shows (spans : List HighlightSpan) (offset : Nat) (kind : HighlightKind) : Prop :=
  ∃ span ∈ spans, span.Covers offset ∧ span.kind = kind

/-- The kind of the covering span of highest precedence, of the last one of these. -/
def Strongest (spans : List HighlightSpan) (offset : Nat) (kind : HighlightKind) : Prop :=
  ∃ front span back, spans = front ++ span :: back ∧ span.Covers offset ∧ span.kind = kind ∧
    (∀ other ∈ front, other.Covers offset → other.kind.precedence ≤ kind.precedence) ∧
    ∀ other ∈ back, other.Covers offset → other.kind.precedence < kind.precedence

variable {spans : List HighlightSpan} {active : Finset (Nat ×ₗ Nat)} {offset : Nat}

variable {kind : HighlightKind}

theorem strongest_iff :
    Strongest spans offset kind ↔ ∃ index span, spans[index]? = some span ∧ span.Covers offset ∧
      span.kind = kind ∧ ∀ index' span', spans[index']? = some span' → span'.Covers offset →
        key span' index' ≤ key span index := by
  constructor
  · rintro ⟨front, span, back, rfl, hcovers, rfl, hfront, hback⟩
    refine ⟨front.length, span, by simp, hcovers, rfl, fun index' span' hspan' hcovers' => ?_⟩
    refine Prod.Lex.toLex_le_toLex.mpr ?_
    obtain hlt | rfl | hgt := lt_trichotomy index' front.length
    · rw [List.getElem?_append_left hlt] at hspan'
      exact (hfront span' (List.mem_of_getElem? hspan') hcovers').lt_or_eq.imp_right
        fun heq => ⟨heq, hlt.le⟩
    · obtain rfl : span = span' := by simpa using hspan'
      exact .inr ⟨rfl, le_rfl⟩
    · rw [List.getElem?_append_right hgt.le, List.getElem?_cons, if_neg (by omega)] at hspan'
      exact .inl (hback span' (List.mem_of_getElem? hspan') hcovers')
  · rintro ⟨index, span, hspan, hcovers, rfl, hlast⟩
    obtain ⟨hindex, rfl⟩ := List.getElem?_eq_some_iff.mp hspan
    refine ⟨spans.take index, spans[index], spans.drop (index + 1), ?_, hcovers, rfl, ?_, ?_⟩
    · rw [List.getElem_cons_drop, List.take_append_drop]
    · intro other hother hcoversOther
      obtain ⟨index', hindex', rfl⟩ := List.mem_iff_getElem.mp hother
      rw [List.getElem_take] at hcoversOther ⊢
      have hle := hlast index' _ (List.getElem?_eq_getElem _) hcoversOther
      exact (Prod.Lex.toLex_le_toLex.mp hle).elim (fun hlt => hlt.le) fun heq => heq.1.le
    · intro other hother hcoversOther
      obtain ⟨index', hindex', rfl⟩ := List.mem_iff_getElem.mp hother
      rw [List.getElem_drop] at hcoversOther ⊢
      have hle := hlast (index + 1 + index') _ (List.getElem?_eq_getElem _) hcoversOther
      exact (Prod.Lex.toLex_le_toLex.mp hle).resolve_right fun heq => absurd heq.2 (by omega)

/-! ### The sweep -/

/-- The active spans are those with a property. -/
def ActiveAt (spans : List HighlightSpan) (active : Finset (Nat ×ₗ Nat))
    (P : HighlightSpan → Prop) : Prop :=
  ∀ k, k ∈ active ↔ ∃ index span, spans[index]? = some span ∧ P span ∧ k = key span index

theorem mem_removeEnd {edge : Nat × Edge} {k : Nat ×ₗ Nat} :
    k ∈ removeEnd spans active edge ↔ k ∈ active ∧ ∀ index, edge.2 = .stop index →
      ∀ span, spans[index]? = some span → k ≠ key span index := by
  obtain ⟨offset, index | index⟩ := edge
  · simp [removeEnd]
  · cases hspan : spans[index]? <;> simp [removeEnd, hspan, and_comm]

theorem mem_insertStart {edge : Nat × Edge} {k : Nat ×ₗ Nat} :
    k ∈ insertStart spans active edge ↔ k ∈ active ∨ ∃ index span, edge.2 = .start index ∧
      spans[index]? = some span ∧ k = key span index := by
  obtain ⟨offset, index | index⟩ := edge
  · cases hspan : spans[index]? <;> simp [insertStart, hspan, or_comm]
  · simp [insertStart]

theorem mem_removeEnds {group : List (Nat × Edge)} {k : Nat ×ₗ Nat} :
    k ∈ group.foldl (removeEnd spans) active ↔ k ∈ active ∧ ∀ edge ∈ group, ∀ index,
      edge.2 = .stop index → ∀ span, spans[index]? = some span → k ≠ key span index := by
  induction group generalizing active with
  | nil => simp
  | cons edge group ih =>
      rw [List.foldl_cons, ih, mem_removeEnd, List.forall_mem_cons, and_assoc]

theorem mem_insertStarts {group : List (Nat × Edge)} {k : Nat ×ₗ Nat} :
    k ∈ group.foldl (insertStart spans) active ↔ k ∈ active ∨ ∃ edge ∈ group, ∃ index span,
      edge.2 = .start index ∧ spans[index]? = some span ∧ k = key span index := by
  induction group generalizing active with
  | nil => simp
  | cons edge group ih =>
      rw [List.foldl_cons, ih, mem_insertStart, List.exists_mem_cons_iff, or_assoc]

theorem start_mem_edgesOf {offset index : Nat} :
    (offset, Edge.start index) ∈ edgesOf spans ↔
      ∃ span, spans[index]? = some span ∧ span.start = offset := by
  simp only [edgesOf, List.mem_flatMap, Prod.exists, List.mem_zipIdx_iff_getElem?]
  simp
  grind

theorem stop_mem_edgesOf {offset index : Nat} :
    (offset, Edge.stop index) ∈ edgesOf spans ↔
      ∃ span, spans[index]? = some span ∧ span.stop = offset := by
  simp only [edgesOf, List.mem_flatMap, Prod.exists, List.mem_zipIdx_iff_getElem?]
  simp
  grind

theorem key_injective {span span' : HighlightSpan} {index index' : Nat}
    (h : key span index = key span' index') : index = index' :=
  congrArg (fun k => (ofLex k).2) h

/-- The edges at one offset take the active spans across it. -/
theorem activeAt_group {group : List (Nat × Edge)} (hspans : ∀ span ∈ spans, span.start < span.stop)
    (hgroup : ∀ edge, edge ∈ group ↔ edge ∈ edgesOf spans ∧ edge.1 = offset)
    (hactive : ActiveAt spans active fun span => span.start < offset ∧ offset ≤ span.stop) :
    ActiveAt spans (group.foldl (insertStart spans) (group.foldl (removeEnd spans) active))
      (·.Covers offset) := by
  intro k
  rw [mem_insertStarts, mem_removeEnds, hactive k]
  constructor
  · rintro (⟨⟨index, span, hspan, ⟨hstart, hstop⟩, rfl⟩, hkept⟩ |
      ⟨edge, hedge, index, span, hstart, hspan, rfl⟩)
    · refine ⟨index, span, hspan, ⟨hstart.le, hstop.lt_of_ne fun heq => ?_⟩, rfl⟩
      have hedge : (offset, Edge.stop index) ∈ group :=
        (hgroup _).mpr ⟨stop_mem_edgesOf.mpr ⟨span, hspan, heq.symm⟩, rfl⟩
      exact hkept _ hedge index rfl span hspan rfl
    · obtain ⟨at', edge⟩ := edge
      obtain ⟨hmem, rfl⟩ := (hgroup _).mp hedge
      cases hstart
      obtain ⟨span', hspan', rfl⟩ := start_mem_edgesOf.mp hmem
      obtain rfl : span = span' := Option.some_injective _ (hspan.symm.trans hspan')
      exact ⟨index, span, hspan, ⟨le_rfl, hspans span (List.mem_of_getElem? hspan)⟩, rfl⟩
  · rintro ⟨index, span, hspan, ⟨hstart, hstop⟩, rfl⟩
    obtain hlt | rfl := hstart.lt_or_eq
    · refine .inl ⟨⟨index, span, hspan, ⟨hlt, hstop.le⟩, rfl⟩, ?_⟩
      rintro ⟨at', edge⟩ hedge index' rfl span' hspan' hkey
      obtain ⟨hmem, rfl⟩ := (hgroup _).mp hedge
      obtain rfl := key_injective hkey
      obtain ⟨span'', hspan'', rfl⟩ := stop_mem_edgesOf.mp hmem
      rw [hspan] at hspan''
      cases hspan''
      exact lt_irrefl _ hstop
    · exact .inr ⟨_, (hgroup _).mpr ⟨start_mem_edgesOf.mpr ⟨span, hspan, rfl⟩, rfl⟩, index, span, rfl,
        hspan, rfl⟩

theorem shown_eq_some_iff (hactive : ActiveAt spans active (·.Covers offset)) :
    shown spans active = some kind ↔ Strongest spans offset kind := by
  rw [strongest_iff]
  constructor
  · intro h
    rw [shown] at h
    split at h
    · rename_i last hlast
      obtain ⟨index, span, hspan, hcovers, rfl⟩ := (hactive last).mp (Finset.mem_of_max hlast)
      refine ⟨index, span, hspan, hcovers, ?_, fun index' span' hspan' hcovers' => ?_⟩
      · simpa [key, hspan] using h
      · exact Finset.le_max_of_eq ((hactive _).mpr ⟨index', span', hspan', hcovers', rfl⟩) hlast
    · cases h
  · rintro ⟨index, span, hspan, hcovers, rfl, hlast⟩
    have hmem := (hactive _).mpr ⟨index, span, hspan, hcovers, rfl⟩
    have hmax : active.max = some (key span index) := by
      refine le_antisymm (Finset.max_le fun k hk => ?_) (Finset.le_max hmem)
      obtain ⟨index', span', hspan', hcovers', rfl⟩ := (hactive k).mp hk
      exact WithBot.coe_le_coe.mpr (hlast index' span' hspan' hcovers')
    rw [shown, hmax]
    simp [key, hspan]

/-- Spans as they are shown: none is empty, each behind the one before, and those that touch differ
in kind. -/
structure Normal (spans : List HighlightSpan) : Prop where
  nonempty : ∀ span ∈ spans, span.start < span.stop
  sorted : spans.Pairwise fun a b => a.stop ≤ b.start ∧ (a.stop = b.start → a.kind ≠ b.kind)

theorem normal_nil : Normal [] := ⟨by simp, .nil⟩

/-- Spans up to an offset. -/
structure UpTo (offset : Nat) (spans : List HighlightSpan) : Prop extends Normal spans where
  bounded : ∀ span ∈ spans, span.stop ≤ offset

theorem shows_concat {last : HighlightSpan} {p : Nat} :
    Shows (spans ++ [last]) p kind ↔ Shows spans p kind ∨ last.Covers p ∧ last.kind = kind := by
  simp [Shows, or_and_right, exists_or]

theorem upTo_concat {stop : Nat} {last : HighlightSpan} :
    UpTo stop (spans ++ [last]) ↔ UpTo last.start spans ∧ last.start < last.stop ∧ last.stop ≤ stop ∧
      ∀ span ∈ spans, span.stop = last.start → span.kind ≠ last.kind := by
  constructor
  · rintro ⟨⟨hnonempty, hsorted⟩, hbounded⟩
    obtain ⟨hpairs, -, hlast⟩ := List.pairwise_append.mp hsorted
    have hlastMem : last ∈ spans ++ [last] := by simp
    exact ⟨⟨⟨fun span h => hnonempty span (List.mem_append_left _ h), hpairs⟩,
      fun span h => (hlast span h last List.mem_cons_self).1⟩, hnonempty last hlastMem,
      hbounded last hlastMem, fun span h => (hlast span h last List.mem_cons_self).2⟩
  · rintro ⟨⟨⟨hnonempty, hsorted⟩, hbounded⟩, hlast, hstop, htouch⟩
    refine ⟨⟨?_, ?_⟩, ?_⟩
    · simpa [or_imp, forall_and] using ⟨hnonempty, hlast⟩
    · refine List.pairwise_append.mpr ⟨hsorted, List.pairwise_singleton _ _, ?_⟩
      simpa using fun span h => ⟨hbounded span h, htouch span h⟩
    · have hbefore := fun span h => (hbounded span h).trans (hlast.le.trans hstop)
      simpa [or_imp, forall_and] using ⟨hbefore, hstop⟩

theorem UpTo.mono {offset offset' : Nat} (h : UpTo offset spans) (hle : offset ≤ offset') :
    UpTo offset' spans :=
  ⟨h.toNormal, fun span hspan => (h.bounded span hspan).trans hle⟩

theorem UpTo.extend {normalized : List HighlightSpan} {offset nextOffset : Nat}
    (h : UpTo offset normalized) (hlt : offset < nextOffset) (kind : HighlightKind) :
    UpTo nextOffset (extend normalized offset nextOffset kind) ∧
      ∀ p shownKind, Shows (extend normalized offset nextOffset kind) p shownKind ↔
        Shows normalized p shownKind ∨ (offset ≤ p ∧ p < nextOffset) ∧ kind = shownKind := by
  have hpush : (∀ span ∈ normalized, span.stop = offset → span.kind ≠ kind) →
      UpTo nextOffset (normalized ++ [⟨offset, nextOffset, kind⟩]) :=
    fun htouch => upTo_concat.mpr ⟨h, hlt, le_rfl, htouch⟩
  obtain rfl | ⟨front, previous, rfl⟩ := List.eq_nil_or_concat' normalized
  · exact ⟨hpush (by simp), fun p shownKind => shows_concat⟩
  · obtain ⟨hfront, hprevious, hstop, htouch⟩ := upTo_concat.mp h
    unfold Syntax.extend
    rw [List.getLast?_concat, List.dropLast_concat]
    dsimp only
    split_ifs with hsame
    · obtain ⟨rfl, rfl⟩ := hsame
      refine ⟨upTo_concat.mpr ⟨hfront, hprevious.trans hlt, le_rfl, htouch⟩, fun p shownKind => ?_⟩
      rw [shows_concat, shows_concat, or_assoc, ← or_and_right]
      refine or_congr_right (and_congr_left fun _ => ?_)
      simp only [HighlightSpan.Covers]
      omega
    · refine ⟨hpush fun span hspan hend heq => ?_, fun p shownKind => shows_concat⟩
      obtain hmem | rfl := List.mem_append.mp hspan |>.imp_right List.mem_singleton.mp
      · have := hfront.bounded span hmem
        omega
      · exact hsame ⟨heq, hend⟩

theorem Strongest.covered {p : Nat} (h : Strongest spans p kind) :
    ∃ span ∈ spans, span.Covers p := by
  obtain ⟨front, span, back, rfl, hcovers, -⟩ := h
  exact ⟨span, by simp, hcovers⟩

theorem Strongest.congr {p q : Nat} (hcovers : ∀ span ∈ spans, span.Covers p ↔ span.Covers q)
    (h : Strongest spans p kind) :
    Strongest spans q kind := by
  obtain ⟨front, span, back, rfl, hspan, rfl, hfront, hback⟩ := h
  refine ⟨front, span, back, rfl, (hcovers span (by simp)).mp hspan, rfl, ?_, ?_⟩
  · exact fun other h hq => hfront other h ((hcovers other (by simp [h])).mpr hq)
  · exact fun other h hq => hback other h ((hcovers other (by simp [h])).mpr hq)

variable {source : Bytes} {edges : List (Nat × Edge)}

theorem mem_group_iff (hsorted : edges.Pairwise (·.1 ≤ ·.1)) (hle : ∀ edge ∈ edges, offset ≤ edge.1)
    (edge : Nat × Edge) :
    (edge ∈ edges.takeWhile (·.1 = offset) ↔ edge ∈ edges ∧ edge.1 = offset) ∧
      (edge ∈ edges.dropWhile (·.1 = offset) ↔ edge ∈ edges ∧ offset < edge.1) := by
  induction edges with
  | nil => simp
  | cons head edges ih =>
      obtain ⟨hhead, htail⟩ := List.pairwise_cons.mp hsorted
      obtain ⟨hleHead, hleTail⟩ := List.forall_mem_cons.mp hle
      obtain ⟨ihTake, ihDrop⟩ := ih htail hleTail
      by_cases heq : head.1 = offset
      · rw [List.takeWhile_cons_of_pos (by simpa using heq),
          List.dropWhile_cons_of_pos (by simpa using heq), List.mem_cons, ihTake, ihDrop,
          List.mem_cons]
        grind
      · rw [List.takeWhile_cons_of_neg (by simpa using heq),
          List.dropWhile_cons_of_neg (by simpa using heq)]
        have hlt : ∀ e ∈ head :: edges, offset < e.1 := by
          have hlt := hleHead.lt_of_ne (Ne.symm heq)
          exact List.forall_mem_cons.mpr ⟨hlt, fun e he => hlt.trans_le (hhead e he)⟩
        constructor
        · simpa using fun h => (hlt edge h).ne'
        · simpa using fun h => hlt edge h

/-- What holds when the sweep comes to an offset. -/
structure Swept (spans : List HighlightSpan) (edges : List (Nat × Edge))
    (active : Finset (Nat ×ₗ Nat)) (normalized : List HighlightSpan) (offset : Nat) : Prop where
  sorted : edges.Pairwise (·.1 ≤ ·.1)
  left : ∀ edge, edge ∈ edges ↔ edge ∈ edgesOf spans ∧ offset ≤ edge.1
  active : ActiveAt spans active fun span => span.start < offset ∧ offset ≤ span.stop
  upTo : UpTo offset normalized
  shows : ∀ p < offset, ∀ kind, Shows normalized p kind ↔ Strongest spans p kind

variable {span : HighlightSpan}

theorem covers_between {offset nextOffset : Nat}
    (hgap : ∀ edge ∈ edgesOf spans, offset < edge.1 → nextOffset ≤ edge.1)
    {p : Nat} (hp : offset ≤ p) (hp' : p < nextOffset) (hspan : span ∈ spans) :
    span.Covers p ↔ span.Covers offset := by
  obtain ⟨index, hindex⟩ := List.mem_iff_getElem?.mp hspan
  have hstart := hgap (span.start, .start index) (start_mem_edgesOf.mpr ⟨span, hindex, rfl⟩)
  have hstop := hgap (span.stop, .stop index) (stop_mem_edgesOf.mpr ⟨span, hindex, rfl⟩)
  simp only [HighlightSpan.Covers] at *
  omega

theorem Swept.group {edge : Edge} {normalized : List HighlightSpan}
    (h : Swept spans ((offset, edge) :: edges) active normalized offset) (e : Nat × Edge) :
    (e ∈ (offset, edge) :: edges.takeWhile (·.1 = offset) ↔ e ∈ edgesOf spans ∧ e.1 = offset) ∧
      (e ∈ edges.dropWhile (·.1 = offset) ↔ e ∈ edgesOf spans ∧ offset < e.1) := by
  have hsplit := mem_group_iff h.sorted (fun e he => ((h.left e).mp he).2) e
  rw [List.takeWhile_cons_of_pos (by simp), List.dropWhile_cons_of_pos (by simp), h.left e] at hsplit
  rw [hsplit.1, hsplit.2]
  constructor
  · exact ⟨fun he => ⟨he.1.1, he.2⟩, fun he => ⟨⟨he.1, he.2.ge⟩, he.2⟩⟩
  · exact ⟨fun he => ⟨he.1.1, he.2⟩, fun he => ⟨⟨he.1, he.2.le⟩, he.2⟩⟩

theorem Swept.lt_next {edge : Edge} {normalized : List HighlightSpan}
    (h : Swept spans ((offset, edge) :: edges) active normalized offset) {next : Nat × Edge}
    (hnext : (edges.dropWhile (·.1 = offset)).head? = some next) : offset < next.1 :=
  (((h.group next).2).mp (List.mem_of_head? hnext)).2

theorem Swept.step (hspans : ∀ span ∈ spans, span.start < span.stop) {offset nextOffset : Nat}
    {edge next : Edge}
    {active active' : Finset (Nat ×ₗ Nat)} {normalized normalized' : List HighlightSpan}
    (h : Swept spans ((offset, edge) :: edges) active normalized offset)
    (hnext : (edges.dropWhile (·.1 = offset)).head? = some (nextOffset, next))
    (hactive : active' = ((offset, edge) :: edges.takeWhile (·.1 = offset)).foldl (insertStart spans)
      (((offset, edge) :: edges.takeWhile (·.1 = offset)).foldl (removeEnd spans) active))
    (hupTo : UpTo nextOffset normalized')
    (hshows : ∀ p kind, Shows normalized' p kind ↔ Shows normalized p kind ∨
      (offset ≤ p ∧ p < nextOffset) ∧ shown spans active' = some kind) :
    Swept spans (edges.dropWhile (·.1 = offset)) active' normalized' nextOffset := by
  have hcovers : ActiveAt spans active' (·.Covers offset) :=
    hactive ▸ activeAt_group hspans (fun e => (h.group e).1) h.active
  have hrest := fun e => (h.group e).2
  have hlt : offset < nextOffset := h.lt_next hnext
  have hsorted : (edges.dropWhile (·.1 = offset)).Pairwise (·.1 ≤ ·.1) :=
    (List.pairwise_cons.mp h.sorted).2.sublist (List.dropWhile_sublist _)
  generalize edges.dropWhile (·.1 = offset) = rest at *
  obtain ⟨rest, rfl⟩ := List.head?_eq_some_iff.mp hnext
  have hgap : ∀ e ∈ edgesOf spans, offset < e.1 → nextOffset ≤ e.1 := by
    intro e he hoffset
    obtain rfl | hmem := List.mem_cons.mp ((hrest e).mpr ⟨he, hoffset⟩)
    · exact le_rfl
    · exact (List.pairwise_cons.mp hsorted).1 e hmem
  refine ⟨hsorted, fun e => ?_, fun k => ?_, hupTo, fun p hp kind => ?_⟩
  · exact (hrest e).trans
      (and_congr_right fun he => ⟨hgap e he, fun hle => hlt.trans_le hle⟩)
  · refine (hcovers k).trans (exists_congr fun index => exists_congr fun span =>
      and_congr_right fun hspan => and_congr_left fun _ => ?_)
    have hstart := hgap (span.start, .start index) (start_mem_edgesOf.mpr ⟨span, hspan, rfl⟩)
    have hstop := hgap (span.stop, .stop index) (stop_mem_edgesOf.mpr ⟨span, hspan, rfl⟩)
    simp only [HighlightSpan.Covers] at *
    omega
  · rw [hshows]
    by_cases hbefore : p < offset
    · rw [h.shows p hbefore, or_iff_left (fun hnew => absurd hnew.1.1 (by omega))]
    · have hp' := Nat.not_lt.mp hbefore
      have hsame := fun span (hspan : span ∈ spans) => covers_between hgap hp' hp hspan
      rw [or_iff_right, and_iff_right ⟨hp', hp⟩, shown_eq_some_iff hcovers]
      · exact ⟨.congr fun span hspan => (hsame span hspan).symm, .congr hsame⟩
      · rintro ⟨span, hspan, hcovered, -⟩
        have := h.upTo.bounded span hspan
        exact absurd hcovered.2 (by omega)

theorem sweep_normal (hspans : ∀ span ∈ spans, span.start < span.stop)
    {normalized : List HighlightSpan}
    (h : ∀ head ∈ edges.head?, Swept spans edges active normalized head.1) (hne : edges ≠ []) :
    Normal (sweep spans edges active normalized) ∧
      ∀ p kind, Shows (sweep spans edges active normalized) p kind ↔ Strongest spans p kind := by
  fun_induction sweep spans edges active normalized with
  | case1 => exact absurd rfl hne
  | case2 offset edge edges active normalized rest hend =>
      -- the last offset: nothing is covered from here on
      have hswept := h _ rfl
      refine ⟨hswept.upTo.toNormal, fun p kind => ?_⟩
      by_cases hp : p < offset
      · exact hswept.shows p hp kind
      · constructor
        · rintro ⟨span, hspan, hcovers, -⟩
          have := hswept.upTo.bounded span hspan
          exact absurd hcovers.2 (by omega)
        · intro hstrongest
          obtain ⟨span, hspan, hcovers⟩ := Strongest.covered hstrongest
          obtain ⟨index, hindex⟩ := List.mem_iff_getElem?.mp hspan
          have hmem := ((hswept.group (span.stop, .stop index)).2).mpr
            ⟨stop_mem_edgesOf.mpr ⟨span, hindex, rfl⟩, (Nat.not_lt.mp hp).trans_lt hcovers.2⟩
          rw [show edges.dropWhile _ = [] from List.head?_eq_none_iff.mp hend] at hmem
          exact absurd hmem List.not_mem_nil
  | case3 offset edge edges active normalized group rest active' next hnext ih =>
      exact absurd ((h _ rfl).lt_next hnext) (lt_irrefl _)
  | case4 offset edge edges active normalized group rest active' nextOffset next hnext hdiffers kind
      hshown ih =>
      obtain ⟨hupTo, hshows⟩ := (h _ rfl).upTo.extend ((h _ rfl).lt_next hnext) kind
      have hstep := (h _ rfl).step hspans hnext rfl hupTo fun p shownKind => by
        rw [hshows, hshown, Option.some_inj]
      exact ih (fun head hhead => Option.some_injective _ (hnext.symm.trans hhead) ▸ hstep)
        fun hnil => by simp [rest, hnil] at hnext
  | case5 offset edge edges active normalized group rest active' nextOffset next hnext hdiffers
      hshown ih =>
      have hstep := (h _ rfl).step hspans hnext rfl
        ((h _ rfl).upTo.mono ((h _ rfl).lt_next hnext).le) fun p shownKind => by
        rw [hshown]
        simp
      exact ih (fun head hhead => Option.some_injective _ (hnext.symm.trans hhead) ▸ hstep)
        fun hnil => by simp [rest, hnil] at hnext

/-- **One line.** Whatever order the sort leaves at one offset, the spans are normal and show the
strongest kind. -/
theorem normalizeLine_normal (sorting : OffsetSort)
    (hspans : ∀ span ∈ spans, span.start < span.stop) :
    Normal (normalizeLine sorting spans) ∧
      ∀ p kind, Shows (normalizeLine sorting spans) p kind ↔ Strongest spans p kind := by
  have hperm := sorting.perm (edgesOf spans)
  have hsorted := sorting.sorted (edgesOf spans)
  have hstart : ∀ span ∈ spans, ∃ edge ∈ sorting.sort (edgesOf spans), edge.1 = span.start := by
    intro span hspan
    obtain ⟨index, hindex⟩ := List.mem_iff_getElem?.mp hspan
    exact ⟨_, hperm.mem_iff.mpr (start_mem_edgesOf.mpr ⟨span, hindex, rfl⟩), rfl⟩
  rw [normalizeLine]
  generalize sorting.sort (edgesOf spans) = edges at *
  cases edges with
  | nil =>
      refine ⟨by simp [sweep, normal_nil], fun p kind => ⟨fun h => ?_, fun h => ?_⟩⟩
      · obtain ⟨span, hspan, -⟩ := h
        simp [sweep] at hspan
      · obtain ⟨span, hspan, -⟩ := Strongest.covered h
        obtain ⟨edge, hedge, -⟩ := hstart span hspan
        exact absurd hedge List.not_mem_nil
  | cons first edges =>
      have hfirst : ∀ edge ∈ first :: edges, first.1 ≤ edge.1 :=
        List.forall_mem_cons.mpr ⟨le_rfl, (List.pairwise_cons.mp hsorted).1⟩
      have hleStart : ∀ span ∈ spans, first.1 ≤ span.start := by
        intro span hspan
        obtain ⟨edge, hedge, heq⟩ := hstart span hspan
        exact heq ▸ hfirst edge hedge
      refine sweep_normal hspans (fun head hhead => ?_) (List.cons_ne_nil _ _)
      obtain rfl : first = head := Option.some_injective _ hhead
      refine ⟨hsorted, fun edge => ?_, fun k => ?_, ⟨normal_nil, by simp⟩, fun p hp kind => ?_⟩
      · rw [hperm.mem_iff]
        exact ⟨fun h => ⟨h, hfirst edge (hperm.mem_iff.mpr h)⟩, And.left⟩
      · refine ⟨fun h => absurd h (Finset.notMem_empty k), ?_⟩
        rintro ⟨index, span, hspan, ⟨hbefore, -⟩, -⟩
        exact absurd (hleStart span (List.mem_of_getElem? hspan)) (Nat.not_le.mpr hbefore)
      · refine ⟨fun ⟨span, hspan, _⟩ => absurd hspan List.not_mem_nil, fun h => ?_⟩
        obtain ⟨span, hspan, hcovers⟩ := Strongest.covered h
        exact absurd (hcovers.1.trans_lt hp) (Nat.not_lt.mpr (hleStart span hspan))

/-! ### The lines of a source -/

/-- `str::match_indices` of the newline; the source starts at `offset`. -/
def newlines (offset : Nat) : Bytes → List Nat
  | [] => []
  | byte :: source =>
      if byte = newline then offset :: newlines (offset + 1) source else newlines (offset + 1) source

/-- Where a line starts: at the front, and behind a newline that is not the last byte. -/
def lineStarts (source : Bytes) : List Nat :=
  0 :: ((newlines 0 source).map (· + 1)).filter (· < source.length)

/-- The end of a line without its terminator; `rawEnd` is where the next one starts. -/
def lineEnd (source : Bytes) (rawEnd : Nat) : Nat :=
  if rawEnd ≠ 0 ∧ source[rawEnd - 1]? = some newline then
    if rawEnd - 1 ≠ 0 ∧ source[rawEnd - 2]? = some carriageReturn then rawEnd - 2 else rawEnd - 1
  else rawEnd

def validateSpan (source : Bytes) (start stop : Nat) : Except HighlightError Unit :=
  if start > stop ∨ stop > source.length then .error (.invalidRange start stop source.length)
  else if isCharBoundary source start = false ∨ isCharBoundary source stop = false then
    .error (.invalidUtf8Boundary start stop)
  else .ok ()

/-- The part of a span on each line from `lineIx` on; `starts` lists the lines from there. -/
def splitSpan (source : Bytes) (span : HighlightSpan) :
    List Nat → Nat → List (List HighlightSpan) → List (List HighlightSpan)
  | [], _, lines => lines
  | start :: starts, lineIx, lines =>
      let rawEnd := starts.headD source.length
      let segmentStart := max span.start start
      let segmentEnd := min span.stop (lineEnd source rawEnd)
      let lines :=
        if segmentStart < segmentEnd then
          lines.modify lineIx
            (· ++ [{ start := segmentStart - start, stop := segmentEnd - start, kind := span.kind }])
        else lines
      if span.stop ≤ rawEnd then lines else splitSpan source span starts (lineIx + 1) lines

def pushSpan (source : Bytes) (lines : List (List HighlightSpan)) (span : HighlightSpan) :
    Except HighlightError (List (List HighlightSpan)) := do
  validateSpan source span.start span.stop
  if span.start = span.stop then return lines
  let starts := lineStarts source
  let firstLine := (starts.takeWhile (· ≤ span.start)).length - 1
  return splitSpan source span (starts.drop firstLine) firstLine lines

def fromAbsoluteSpans (sorting : OffsetSort) (language : LanguageId) (source : Bytes)
    (spans : List HighlightSpan) : Except HighlightError HighlightedDocument := do
  let lines ← spans.foldlM (pushSpan source) (List.replicate (lineStarts source).length [])
  return { language, lines := lines.map (normalizeLine sorting) }

/-! ### The lines of a text -/

def textLines : Bytes → List Bytes
  | [] => [[]]
  | byte :: source =>
      if byte = newline then [newline] :: (if source = [] then [] else textLines source)
      else (byte :: (textLines source).headD []) :: (textLines source).tail

def content (line : Bytes) : Bytes :=
  if line.getLast? = some newline then
    if line.dropLast.getLast? = some carriageReturn then line.dropLast.dropLast else line.dropLast
  else line

def startsOf : Nat → List Bytes → List Nat
  | _, [] => []
  | offset, line :: lines => offset :: startsOf (offset + line.length) lines

theorem textLines_ne_nil (source : Bytes) : textLines source ≠ [] := by
  cases source with
  | nil => exact List.cons_ne_nil _ _
  | cons byte source =>
      rw [textLines]
      split_ifs <;> exact List.cons_ne_nil _ _

theorem flatten_textLines (source : Bytes) : (textLines source).flatten = source := by
  induction source with
  | nil => rfl
  | cons byte source ih =>
      rw [textLines]
      split_ifs with hbyte hend
      · rw [hbyte, hend]
        rfl
      · rw [List.flatten_cons, ih, hbyte]
        rfl
      · obtain ⟨line, lines, hlines⟩ := List.exists_cons_of_ne_nil (textLines_ne_nil source)
        rw [hlines] at ih ⊢
        rw [← ih]
        rfl

theorem getLast?_of_mem_dropLast :
    ∀ line ∈ (textLines source).dropLast, line.getLast? = some newline := by
  induction source with
  | nil => simp [textLines]
  | cons byte source ih =>
      rw [textLines]
      split_ifs with hbyte hend
      · simp
      · rw [List.dropLast_cons_of_ne_nil (textLines_ne_nil source)]
        exact List.forall_mem_cons.mpr ⟨rfl, ih⟩
      · obtain ⟨line, lines, hlines⟩ := List.exists_cons_of_ne_nil (textLines_ne_nil source)
        rw [hlines] at ih ⊢
        cases lines with
        | nil => simp
        | cons next lines =>
            obtain ⟨hline, hrest⟩ := List.forall_mem_cons.mp ih
            refine List.forall_mem_cons.mpr ⟨?_, hrest⟩
            rw [List.headD_cons, List.getLast?_cons, hline]
            rfl

theorem ne_nil_of_mem_textLines (hsource : source ≠ []) :
    ∀ line ∈ textLines source, line ≠ [] := by
  induction source with
  | nil => exact absurd rfl hsource
  | cons byte source ih =>
      rw [textLines]
      split_ifs with hbyte hend
      · simp
      · simpa using ih hend
      · by_cases hend : source = []
        · simp [hend, textLines]
        · exact List.forall_mem_cons.mpr ⟨List.cons_ne_nil _ _, fun line hline =>
            ih hend line (List.mem_of_mem_tail hline)⟩

/-- The end that is read off the bytes is the end of the content. -/
theorem lineEnd_eq {front line back : Bytes} (hfront : front = [] ∨ front.getLast? = some newline)
    (hline : line = [] → front = []) :
    lineEnd (front ++ line ++ back) (front.length + line.length) =
      front.length + (content line).length := by
  obtain rfl | ⟨text, last, rfl⟩ := List.eq_nil_or_concat' line
  · rw [hline rfl]
    rfl
  · have hlast : (front ++ (text ++ [last]) ++ back)[front.length + (text ++ [last]).length - 1]? =
        some last := by
      simp
    rw [lineEnd, hlast, content, List.getLast?_concat, List.dropLast_concat]
    by_cases hnewline : last = newline
    · have hreturn : (front.length + (text ++ [last]).length - 1 ≠ 0 ∧
          (front ++ (text ++ [last]) ++ back)[front.length + (text ++ [last]).length - 2]? =
            some carriageReturn) ↔ text.getLast? = some carriageReturn := by
        obtain rfl | ⟨text, before, rfl⟩ := List.eq_nil_or_concat' text
        · obtain rfl | hfront := hfront
          · simp
          · -- a carriage return that ends no line is not before it
            obtain ⟨front, rfl⟩ := List.getLast?_eq_some_iff.mp hfront
            have hne : newline ≠ carriageReturn := by decide
            simp [hne]
        · have hplace : front.length + (text ++ [before] ++ [last]).length - 2 =
              (front ++ text).length := by
            simp only [List.length_append, List.length_singleton]
            omega
          rw [hplace]
          simp
      subst hnewline
      rw [if_congr hreturn rfl rfl, if_pos ⟨by simp, rfl⟩, if_pos rfl]
      split_ifs with hend
      · have hpos : 0 < text.length := by
          by_contra hzero
          rw [List.eq_nil_of_length_eq_zero (Nat.eq_zero_of_not_pos hzero)] at hend
          cases hend
        rw [List.length_append, List.length_singleton, List.length_dropLast]
        omega
      · rw [List.length_append, List.length_singleton]
        omega
    · rw [if_neg (by simp [hnewline]), if_neg (by simp [hnewline])]

theorem lineStarts_eq (source : Bytes) : lineStarts source = startsOf 0 (textLines source) := by
  have hfrom : ∀ offset, offset :: ((newlines offset source).map (· + 1)).filter
      (· < offset + source.length) = startsOf offset (textLines source) := by
    induction source with
    | nil => exact fun offset => rfl
    | cons byte source ih =>
        intro offset
        have ih := ih (offset + 1)
        rw [newlines, textLines, List.length_cons, ← Nat.add_assoc, Nat.add_right_comm]
        split_ifs with hbyte hend
        · simp [hend, newlines, startsOf]
        · rw [List.map_cons, List.filter_cons_of_pos, ih]
          · rfl
          · have := List.length_pos_of_ne_nil hend
            simpa
        · obtain ⟨line, lines, hlines⟩ := List.exists_cons_of_ne_nil (textLines_ne_nil source)
          rw [hlines, startsOf, List.cons.injEq] at ih
          rw [hlines, ih.2, List.headD_cons, List.tail_cons, startsOf, List.length_cons]
          rw [Nat.add_right_comm, Nat.add_assoc]
  rw [← hfrom 0, Nat.zero_add]
  rfl

/-! ### The parts of a span -/

/-- The part of a span on a line that starts at `start`, from there on. -/
def clip (start length : Nat) (span : HighlightSpan) : Option HighlightSpan :=
  if max span.start start < min span.stop (start + length) then
    some { start := max span.start start - start
           stop := min span.stop (start + length) - start
           kind := span.kind }
  else none

def addSpan (span : HighlightSpan) :
    Nat → List Bytes → List (List HighlightSpan) → List (List HighlightSpan)
  | offset, line :: lines, row :: rows =>
      (row ++ (clip offset (content line).length span).toList) ::
        addSpan span (offset + line.length) lines rows
  | _, _, rows => rows

theorem length_content_le (line : Bytes) : (content line).length ≤ line.length := by
  unfold content
  split_ifs
  · rw [List.length_dropLast, List.length_dropLast]
    omega
  · rw [List.length_dropLast]
    exact Nat.sub_le _ _
  · exact le_rfl

theorem startsOf_drop (n offset : Nat) (lines : List Bytes) :
    (startsOf offset lines).drop n =
      startsOf (offset + (lines.take n).flatten.length) (lines.drop n) := by
  induction n generalizing offset lines with
  | zero => simp
  | succ n ih =>
      cases lines with
      | nil => rfl
      | cons line lines =>
          rw [startsOf, List.drop_succ_cons, ih, List.take_succ_cons, List.flatten_cons,
            List.length_append, Nat.add_assoc]
          rfl

theorem addSpan_behind (h : span.stop ≤ max span.start offset) (lines : List Bytes)
    (rows : List (List HighlightSpan)) : addSpan span offset lines rows = rows := by
  fun_induction addSpan span offset lines rows with
  | case1 offset line lines row rows ih =>
      rw [ih (by omega), clip, if_neg (by omega), Option.toList_none, List.append_nil]
  | case2 => rfl

theorem addSpan_front (front lines : List Bytes) (h : offset + front.flatten.length ≤ span.start)
    {rows rows' : List (List HighlightSpan)}
    (hlength : rows.length = front.length) :
    addSpan span offset (front ++ lines) (rows ++ rows') =
      rows ++ addSpan span (offset + front.flatten.length) lines rows' := by
  induction front generalizing offset rows with
  | nil => simp [List.eq_nil_of_length_eq_zero hlength]
  | cons line front ih =>
      obtain ⟨row, rows, rfl⟩ := List.exists_cons_of_length_eq_add_one hlength
      rw [List.flatten_cons, List.length_append, ← Nat.add_assoc] at h
      have hcontent := length_content_le line
      rw [List.cons_append, List.cons_append, addSpan, ih h (by simpa using hlength), clip,
        if_neg (by omega), List.flatten_cons, List.length_append, Nat.add_assoc]
      simp

theorem splitSpan_eq (span : HighlightSpan) {lines : List Bytes} {front : Bytes}
    (hsource : source = front ++ lines.flatten) (hfront : front = [] ∨ front.getLast? = some newline)
    (hends : ∀ line ∈ lines.dropLast, line.getLast? = some newline)
    (hne : source ≠ [] → ∀ line ∈ lines, line ≠ [])
    {rows rows' : List (List HighlightSpan)} (hlength : rows'.length = lines.length) :
    splitSpan source span (startsOf front.length lines) rows.length (rows ++ rows') =
      rows ++ addSpan span front.length lines rows' := by
  induction lines generalizing front rows rows' with
  | nil =>
      rw [startsOf, splitSpan]
      rfl
  | cons line lines ih =>
      obtain ⟨row, rows', rfl⟩ := List.exists_cons_of_length_eq_add_one hlength
      have hempty : line = [] → front = [] := by
        rintro rfl
        by_contra hfront
        exact hne (by simp [hsource, hfront]) [] List.mem_cons_self rfl
      have hrawEnd : (startsOf (front.length + line.length) lines).headD source.length =
          front.length + line.length := by
        cases lines with
        | nil => simp [hsource, startsOf]
        | cons next lines => rfl
      have hend : lineEnd source (front.length + line.length) =
          front.length + (content line).length := by
        rw [hsource, List.flatten_cons, ← List.append_assoc]
        exact lineEnd_eq hfront hempty
      have hrow : (if max span.start front.length < min span.stop (front.length + (content line).length)
          then (rows ++ row :: rows').modify rows.length
            (· ++ [⟨max span.start front.length - front.length,
              min span.stop (front.length + (content line).length) - front.length, span.kind⟩])
          else rows ++ row :: rows') =
          rows ++ [row ++ (clip front.length (content line).length span).toList] ++ rows' := by
        rw [clip]
        split_ifs
        · rw [List.modify, show rows.length = rows.length + 0 from rfl, List.modifyTailIdx_add]
          simp
        · simp
      rw [startsOf, splitSpan, hrawEnd, hend, hrow, addSpan]
      split_ifs with hbreak
      · rw [addSpan_behind (hbreak.trans (le_max_right _ _))]
        simp
      · by_cases hlines : lines = []
        · rw [hlines, startsOf, splitSpan, List.append_assoc]
          rfl
        · rw [List.dropLast_cons_of_ne_nil hlines] at hends
          obtain ⟨hline, hends⟩ := List.forall_mem_cons.mp hends
          have hlast : (front ++ line).getLast? = some newline := by
            rw [List.getLast?_append, hline]
            rfl
          have ih := @ih (front ++ line) (by rw [hsource, List.flatten_cons, List.append_assoc])
            (.inr hlast) hends (fun h => (List.forall_mem_cons.mp (hne h)).2)
            (rows ++ [row ++ (clip front.length (content line).length span).toList]) rows'
            (by simpa using hlength)
          rw [List.length_append, List.length_append, List.length_singleton] at ih
          rw [ih, List.append_assoc, List.singleton_append]

theorem getLast?_flatten_front {front back : List Bytes} (h : textLines source = front ++ back)
    (hback : back ≠ []) :
    front.flatten = [] ∨ front.flatten.getLast? = some newline := by
  have hends := @getLast?_of_mem_dropLast source
  rw [h, List.dropLast_append_of_ne_nil hback] at hends
  obtain rfl | ⟨front, line, rfl⟩ := List.eq_nil_or_concat' front
  · exact .inl rfl
  · rw [List.flatten_concat, List.getLast?_append, hends line (by simp)]
    exact .inr rfl

theorem exists_firstLine {start : Nat} {lines : List Bytes} (hoffset : offset ≤ start)
    (hlines : lines ≠ []) :
    ∃ front back, lines = front ++ back ∧ back ≠ [] ∧
      ((startsOf offset lines).takeWhile (· ≤ start)).length = front.length + 1 ∧
        offset + front.flatten.length ≤ start := by
  induction lines generalizing offset with
  | nil => exact absurd rfl hlines
  | cons line lines ih =>
      rw [startsOf, List.takeWhile_cons_of_pos (by simpa using hoffset), List.length_cons]
      by_cases hnext : lines ≠ [] ∧ offset + line.length ≤ start
      · obtain ⟨front, back, rfl, hback, hlength, hle⟩ := ih hnext.2 hnext.1
        refine ⟨line :: front, back, rfl, hback, by rw [hlength, List.length_cons], ?_⟩
        rwa [List.flatten_cons, List.length_append, ← Nat.add_assoc]
      · refine ⟨[], line :: lines, rfl, hlines, ?_, hoffset⟩
        cases lines with
        | nil => rfl
        | cons next lines =>
            have hbeyond : ¬offset + line.length ≤ start := fun h => hnext ⟨List.cons_ne_nil _ _, h⟩
            rw [startsOf, List.takeWhile_cons_of_neg (by simpa using hbeyond)]
            rfl

/-- Each valid span is added to the rows of its lines. -/
theorem pushSpan_eq (hvalid : validateSpan source span.start span.stop = .ok ())
    {rows : List (List HighlightSpan)}
    (hlength : rows.length = (textLines source).length) :
    pushSpan source rows span = .ok (addSpan span 0 (textLines source) rows) := by
  rw [pushSpan, hvalid]
  by_cases hempty : span.start = span.stop
  · rw [addSpan_behind (hempty ▸ le_max_left _ _)]
    simp [hempty, bind, pure, Except.bind, Except.pure]
  · obtain ⟨front, back, hlines, hback, hplace, hle⟩ :=
      exists_firstLine (Nat.zero_le span.start) (textLines_ne_nil source)
    have hends := @getLast?_of_mem_dropLast source
    have hnonempty := @ne_nil_of_mem_textLines source
    have hsource := flatten_textLines source
    have hfront := getLast?_flatten_front hlines hback
    have hdrop := startsOf_drop front.length 0 (front ++ back)
    rw [hlines] at hends hnonempty hsource hlength
    rw [List.dropLast_append_of_ne_nil hback] at hends
    rw [List.take_left, List.drop_left, Nat.zero_add] at hdrop
    obtain ⟨rows, rows', rfl, hrows⟩ : ∃ front' back', rows = front' ++ back' ∧
        front'.length = front.length := 
      ⟨rows.take front.length, rows.drop front.length, (List.take_append_drop _ _).symm,
        by simp [hlength]⟩
    have hsplit := @splitSpan_eq source span back front.flatten
      (hsource.symm.trans List.flatten_append) hfront
      (fun line hline => hends line (List.mem_append_right _ hline))
      (fun h line hline => hnonempty h line (List.mem_append_right _ hline)) rows rows'
      (by simpa [hrows] using hlength)
    rw [hrows] at hsplit
    have hadd := @addSpan_front 0 span front back hle rows rows' hrows
    rw [Nat.zero_add] at hadd
    rw [hlines] at hplace
    simp only [hlines, hadd, lineStarts_eq, hplace, Nat.add_sub_cancel, hdrop, hsplit, hempty,
      if_false, bind, pure, Except.bind, Except.pure]

def rowsOf (spans : List HighlightSpan) : Nat → List Bytes → List (List HighlightSpan)
  | _, [] => []
  | offset, line :: lines =>
      spans.filterMap (clip offset (content line).length) ::
        rowsOf spans (offset + line.length) lines

theorem length_rowsOf (spans : List HighlightSpan) (offset : Nat) (lines : List Bytes) :
    (rowsOf spans offset lines).length = lines.length := by
  induction lines generalizing offset with
  | nil => rfl
  | cons line lines ih => rw [rowsOf, List.length_cons, ih, List.length_cons]

theorem rowsOf_nil (offset : Nat) (lines : List Bytes) :
    rowsOf [] offset lines = List.replicate (startsOf offset lines).length [] := by
  induction lines generalizing offset with
  | nil => rfl
  | cons line lines ih => rw [rowsOf, ih, startsOf, List.length_cons, List.replicate_succ]; rfl

theorem getElem?_rowsOf (spans : List HighlightSpan) (offset : Nat) (lines : List Bytes) (i : Nat) :
    (rowsOf spans offset lines)[i]? = lines[i]?.map fun line =>
      spans.filterMap (clip (offset + (lines.take i).flatten.length) (content line).length) := by
  induction lines generalizing offset i with
  | nil => rfl
  | cons line lines ih =>
      cases i with
      | zero => rfl
      | succ i =>
          rw [rowsOf, List.getElem?_cons_succ, List.getElem?_cons_succ, ih, List.take_succ_cons,
            List.flatten_cons, List.length_append, Nat.add_assoc]

theorem addSpan_rowsOf (spans : List HighlightSpan) (span : HighlightSpan) (offset : Nat)
    (lines : List Bytes) :
    addSpan span offset lines (rowsOf spans offset lines) = rowsOf (spans ++ [span]) offset lines := by
  induction lines generalizing offset with
  | nil => rfl
  | cons line lines ih =>
      rw [rowsOf, addSpan, ih, rowsOf, List.filterMap_append]
      cases hclip : clip offset (content line).length span <;> simp [hclip]

theorem foldlM_pushSpan (hvalid : ∀ span ∈ spans, validateSpan source span.start span.stop = .ok ())
    (before : List HighlightSpan) :
    spans.foldlM (pushSpan source) (rowsOf before 0 (textLines source)) =
      .ok (rowsOf (before ++ spans) 0 (textLines source)) := by
  induction spans generalizing before with
  | nil => rw [List.append_nil]; rfl
  | cons span spans ih =>
      obtain ⟨hspan, hspans⟩ := List.forall_mem_cons.mp hvalid
      rw [List.foldlM_cons, pushSpan_eq hspan (length_rowsOf _ _ _), addSpan_rowsOf]
      exact (ih hspans (before ++ [span])).trans (by rw [List.append_assoc]; rfl)

theorem fromAbsoluteSpans_eq (sorting : OffsetSort) (language : LanguageId)
    (hvalid : ∀ span ∈ spans, validateSpan source span.start span.stop = .ok ()) :
    fromAbsoluteSpans sorting language source spans =
      .ok { language, lines := (rowsOf spans 0 (textLines source)).map (normalizeLine sorting) } := by
  rw [fromAbsoluteSpans, lineStarts_eq, ← rowsOf_nil, foldlM_pushSpan hvalid, List.nil_append]
  rfl

theorem clip_eq_some {start length : Nat} {span part : HighlightSpan}
    (h : clip start length span = some part) :
    part.kind = span.kind ∧ part.start < part.stop ∧ part.stop ≤ length ∧
      ∀ offset < length, part.Covers offset ↔ span.Covers (start + offset) := by
  unfold clip at h
  split_ifs at h with hpart
  cases h
  simp only [HighlightSpan.Covers]
  refine ⟨trivial, by omega, by omega, fun offset hoffset => ?_⟩
  omega

theorem clip_eq_none {start length : Nat} (h : clip start length span = none)
    (hoffset : offset < length) : ¬span.Covers (start + offset) := by
  unfold clip at h
  split_ifs at h with hpart
  simp only [HighlightSpan.Covers]
  omega

/-- The parts say on the line what the spans say in the source. -/
theorem strongest_filterMap_clip {start length offset : Nat} (hoffset : offset < length)
    (spans : List HighlightSpan) (kind : HighlightKind) :
    Strongest (spans.filterMap (clip start length)) offset kind ↔
      Strongest spans (start + offset) kind := by
  have hparts : ∀ {others : List HighlightSpan} {P : Nat → Prop},
      (∀ part ∈ others.filterMap (clip start length), part.Covers offset → P part.kind.precedence) ↔
        ∀ other ∈ others, other.Covers (start + offset) → P other.kind.precedence := by
    intro others P
    constructor
    · intro h other hother hcovers
      cases hclip : clip start length other with
      | none => exact absurd hcovers (clip_eq_none hclip hoffset)
      | some part =>
          obtain ⟨hkind, -, -, hpart⟩ := clip_eq_some hclip
          rw [← hkind]
          exact h part (List.mem_filterMap.mpr ⟨other, hother, hclip⟩)
            ((hpart offset hoffset).mpr hcovers)
    · intro h part hpart hcovers
      obtain ⟨other, hother, hclip⟩ := List.mem_filterMap.mp hpart
      obtain ⟨hkind, -, -, hpart⟩ := clip_eq_some hclip
      rw [hkind]
      exact h other hother ((hpart offset hoffset).mp hcovers)
  constructor
  · rintro ⟨front, part, back, hsplit, hcovers, rfl, hfront, hback⟩
    obtain ⟨front', rest, rfl, rfl, hrest⟩ := List.filterMap_eq_append_iff.mp hsplit
    obtain ⟨skipped, span, back', rfl, hskipped, hclip, rfl⟩ := List.filterMap_eq_cons_iff.mp hrest
    obtain ⟨hkind, -, -, hpart⟩ := clip_eq_some hclip
    refine ⟨front' ++ skipped, span, back', by simp, (hpart offset hoffset).mp hcovers, hkind.symm, ?_,
      (hparts (P := (· < _))).mp hback⟩
    intro other hother hcoversOther
    obtain hother | hother := List.mem_append.mp hother
    · exact (hparts (P := (· ≤ _))).mp hfront other hother hcoversOther
    · exact absurd hcoversOther (clip_eq_none (hskipped other hother) hoffset)
  · rintro ⟨front, span, back, rfl, hcovers, rfl, hfront, hback⟩
    cases hclip : clip start length span with
    | none => exact absurd hcovers (clip_eq_none hclip hoffset)
    | some part =>
        obtain ⟨hkind, -, -, hpart⟩ := clip_eq_some hclip
        refine ⟨_, part, _, ?_, (hpart offset hoffset).mpr hcovers, hkind,
          (hparts (P := (· ≤ _))).mpr hfront, (hparts (P := (· < _))).mpr hback⟩
        rw [List.filterMap_append, List.filterMap_cons_some hclip]

/-- **Highlighting.** Valid spans give a document; on each line its spans are not empty, end in the
line before the terminator, stand one behind the other, differ in kind where they touch, and a byte
of the line has the kind of the strongest span across it. -/
theorem document_shows_strongest (sorting : OffsetSort) (language : LanguageId) {source : Bytes}
    {spans : List HighlightSpan}
    (hvalid : ∀ span ∈ spans, validateSpan source span.start span.stop = .ok ()) :
    ∃ document, fromAbsoluteSpans sorting language source spans = .ok document ∧
      document.language = language ∧ document.lines.length = (textLines source).length ∧
      ∀ i line, (textLines source)[i]? = some line → ∃ row, document.lines[i]? = some row ∧
        (∀ span ∈ row, span.start < span.stop ∧ span.stop ≤ (content line).length) ∧
        row.Pairwise (fun a b => a.stop ≤ b.start ∧ (a.stop = b.start → a.kind ≠ b.kind)) ∧
        ∀ offset < (content line).length, ∀ kind,
          Shows row offset kind ↔
            Strongest spans (((textLines source).take i).flatten.length + offset) kind := by
  refine ⟨_, fromAbsoluteSpans_eq sorting language hvalid, rfl, ?_, fun i line hline => ?_⟩
  · rw [List.length_map, length_rowsOf]
  · have hrow := getElem?_rowsOf spans 0 (textLines source) i
    rw [hline, Option.map_some, Nat.zero_add] at hrow
    have hparts : ∀ part ∈ spans.filterMap (clip ((textLines source).take i).flatten.length
        (content line).length), part.start < part.stop ∧ part.stop ≤ (content line).length := by
      intro part hpart
      obtain ⟨span, -, hclip⟩ := List.mem_filterMap.mp hpart
      exact ⟨(clip_eq_some hclip).2.1, (clip_eq_some hclip).2.2.1⟩
    obtain ⟨hnormal, hshows⟩ := normalizeLine_normal sorting fun part hpart => (hparts part hpart).1
    refine ⟨_, by rw [List.getElem?_map, hrow]; rfl, fun span hspan => ?_, hnormal.sorted,
      fun offset hoffset kind => ?_⟩
    · have hnonempty := hnormal.nonempty span hspan
      obtain ⟨part, hpart, hcovers⟩ := Strongest.covered
        ((hshows (span.stop - 1) span.kind).mp ⟨span, hspan, by unfold HighlightSpan.Covers; omega, rfl⟩)
      have hle := (hparts part hpart).2
      exact ⟨hnonempty, by have := hcovers.2; omega⟩
    · rw [hshows, strongest_filterMap_clip hoffset]

/-- Of a comment and a keyword over `ab`, a line break and `c`, the later one shows. -/
theorem later_capture_shows :
    ∃ document, fromAbsoluteSpans .stable .rust [97, 98, 13, 10, 99]
        [⟨0, 5, .comment⟩, ⟨1, 5, .keyword⟩] = .ok document ∧
      ∃ row, document.lines[0]? = some row ∧ Shows row 0 .comment ∧ Shows row 1 .keyword := by
  obtain ⟨document, hdocument, -, -, hrows⟩ := @document_shows_strongest .stable .rust
    [97, 98, 13, 10, 99] [⟨0, 5, .comment⟩, ⟨1, 5, .keyword⟩] (by decide)
  obtain ⟨row, hrow, -, -, hshows⟩ := hrows 0 [97, 98, 13, 10] (by decide)
  refine ⟨document, hdocument, row, hrow, (hshows 0 (by decide) _).mpr ?_,
    (hshows 1 (by decide) _).mpr ?_⟩
  · exact ⟨[], _, [⟨1, 5, .keyword⟩], rfl, ⟨by decide, by decide⟩, rfl, by simp,
      by simp [HighlightSpan.Covers, textLines]⟩
  · exact ⟨[⟨0, 5, .comment⟩], _, [], rfl, ⟨by decide, by decide⟩, rfl,
      by simp [HighlightKind.precedence], by simp⟩

end Zeron.Syntax
