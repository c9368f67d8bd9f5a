import Zeron.Doc.Rebuild
import Zeron.Lib.ByteSlices
import Zeron.Lib.Machine

/-!
# Text selection

`crates/ui/src/markdown/selection.rs` and the mouse listeners of `render.rs` that drive it. The
anchor of a drag is a byte offset that is kept from frame to frame; the registry of elements belongs
to a frame. A drag resolves both into spans, each with a copy of its element's text, and only a copy
or a release slices them.
-/

namespace Zeron.Ui.Selection

open Zeron.Doc (isWhitespace)
open Zeron.Lib Utf8

structure Element where
  key : String
  text : List Char
  deriving DecidableEq

structure Span where
  key : String
  start : Nat
  stop : Nat
  text : List Char
  deriving DecidableEq

def Span.isEmpty (span : Span) : Bool := !decide (span.start < span.stop)

structure MdSelection where
  anchorKey : String
  anchorIx : Nat
  dragging : Bool
  spans : List Span
  deriving DecidableEq

/-- An element's index and a byte offset in its text. -/
abbrev Point : Type := Nat × Nat

def Point.le (a b : Point) : Bool := a.1 < b.1 || a.1 == b.1 && decide (a.2 ≤ b.2)

/-- `from` of `resolve_spans` -/
def fromIx (start : Point) (element : Element) (ei : Nat) : Nat :=
  min (if ei = start.1 then start.2 else 0) (utf8Len element.text)

def toIx (stop : Point) (element : Element) (ei : Nat) : Nat :=
  min (if ei = stop.1 then stop.2 else utf8Len element.text) (utf8Len element.text)

def spanOf (start stop : Point) (element : Element) (ei : Nat) : Option Span :=
  if fromIx start element ei < toIx stop element ei then
    some { key := element.key, start := fromIx start element ei, stop := toIx stop element ei
           text := element.text }
  else none

def spansBetween (elements : List Element) (start stop : Point) : List Span :=
  ((elements.zipIdx.take (stop.1 + 1)).drop start.1).filterMap fun (element, ei) =>
    spanOf start stop element ei

def resolveSpans (elements : List Element) (a b : Point) : List Span :=
  if Point.le a b then spansBetween elements a b else spansBetween elements b a

/-! ## The selection and what is done to it -/

def begin (key : String) (ix : Nat) : Option MdSelection :=
  some { anchorKey := key, anchorIx := ix, dragging := true, spans := [] }

def beginWithSpan (key : String) (text : List Char) (range : Nat × Nat) : Option MdSelection :=
  some { anchorKey := key, anchorIx := range.1, dragging := true
         spans := [{ key, start := range.1, stop := range.2, text }] }

def dragAnchor (key : String) (state : Option MdSelection) : Option Nat :=
  state.bind fun sel => if sel.dragging ∧ sel.anchorKey = key then some sel.anchorIx else none

def updateSpans (spans : List Span) (state : Option MdSelection) : Option MdSelection :=
  state.map fun sel => if sel.spans = spans then sel else { sel with spans }

/-- The slices of a copy. One that is out of bounds or cuts a character fails. -/
def slices (spans : List Span) : Option (List (List Char)) :=
  (spans.filter fun span => !span.isEmpty).mapM fun span => slice? span.start span.stop span.text

def joinSpans (spans : List Span) : Option (List Char) := (slices spans).map ['\n'].intercalate

def endDrag (key : String) : Option MdSelection → Option (Option MdSelection × Option (List Char))
  | none => some (none, none)
  | some sel =>
      if sel.anchorKey ≠ key ∨ sel.dragging = false then some (some sel, none)
      else if sel.spans.all Span.isEmpty then some (none, none)
      else (joinSpans sel.spans).map fun text => (some { sel with dragging := false }, some text)

def clearIfOwner (key : String) (state : Option MdSelection) : Option MdSelection :=
  if state.any fun sel => sel.anchorKey = key ∧ sel.dragging = false then none else state

def selectedText : Option MdSelection → Option (Option (List Char))
  | none => some none
  | some sel =>
      if sel.spans.all Span.isEmpty then some none else (joinSpans sel.spans).map some

/-- The last boundary at or before an offset. -/
def snap (text : List Char) : Nat → Nat
  | 0 => 0
  | ix + 1 => if isBoundary text (ix + 1) then ix + 1 else snap text ix

/-- No element of the registry is the drag's own: its spans are kept. -/
def resolveDrag (elements : List Element) (key : String) (anchorIx : Nat) (head : Point)
    (state : Option MdSelection) : Option MdSelection :=
  match elements.findIdx? fun element => element.key = key with
  | none => state
  | some ei => updateSpans (resolveSpans elements (ei, anchorIx) head) state

/-- What the listeners of one element are told, and `Cmd+C`. A move comes with the registry of its
frame and the point under the mouse. -/
inductive Event where
  | down (key : String) (text : List Char) (ix clicks : Nat)
  | downElsewhere (key : String)
  | move (key : String) (elements : List Element) (head : Option Point)
  | up (key : String)
  | copy

section Words

variable (isAlphanumeric : Char → Bool)

def isWord (c : Char) : Bool := isAlphanumeric c || c == '_'

/-- A word reaches from behind the last character before the offset that is of no word to the next
one behind it. -/
def wordRange (text : List Char) (ix : Nat) : Option (Nat × Nat) :=
  let ix := snap text (min ix (utf8Len text))
  (splitAt? ix text).map fun (front, back) =>
    let atWord := back.head?.any (isWord isAlphanumeric)
    let behindWord := front.getLast?.any (isWord isAlphanumeric)
    if atWord = false ∧ behindWord = false then
      match back.head? with
      | some c => if isWhitespace c then (ix, ix) else (ix, ix + utf8Len [c])
      | none => (ix, ix)
    else (utf8Len (front.rdropWhile (isWord isAlphanumeric)),
      ix + utf8Len (back.takeWhile (isWord isAlphanumeric)))

/-- The state behind an event and the text it gives to the clipboard. Only a slice fails. -/
def step (state : Option MdSelection) : Event → Option (Option MdSelection × Option (List Char))
  | .down key text ix clicks =>
      if clicks = 2 then
        (wordRange isAlphanumeric text ix).map fun range => (beginWithSpan key text range, none)
      else if 3 ≤ clicks then some (beginWithSpan key text (0, utf8Len text), none)
      else some (begin key ix, none)
  | .downElsewhere key => some (clearIfOwner key state, none)
  | .move key elements head =>
      match dragAnchor key state with
      | none => some (state, none)
      | some anchorIx =>
          match head with
          | none => some (state, none)
          | some head => some (resolveDrag elements key anchorIx head state, none)
  | .up key => endDrag key state
  | .copy => (selectedText state).map fun text => (state, text)

def machine : Machine (Option MdSelection) Event where
  init state := state = none
  step state event := (step isAlphanumeric state event).map (·.1)

end Words

/-! ## Offsets that are passed -/

/-- An offset that is passed is a boundary in the text that its element has then. -/
def Valid : Event → Prop
  | .down _ text ix _ => isBoundary text ix = true
  | .move _ elements (some head) =>
      ∃ element, elements[head.1]? = some element ∧ isBoundary element.text head.2 = true
  | _ => True

/-- Where a drag is resolved, its anchor is still a boundary of its element's text, or not before
its end. -/
def AnchorFits (state : Option MdSelection) : Event → Prop
  | .move key elements (some _) => ∀ ix ∈ dragAnchor key state,
      ∀ element ∈ elements.find? fun element => element.key = key,
        isBoundary element.text (min ix (utf8Len element.text)) = true
  | _ => True

section Slices

theorem slice?_isSome_iff {start stop : Nat} {text : List Char} :
    (slice? start stop text).isSome = true ↔
      start ≤ stop ∧ isBoundary text start = true ∧ isBoundary text stop = true := by
  constructor
  · intro h
    obtain ⟨middle, hmiddle⟩ := Option.isSome_iff_exists.mp h
    rw [slice?] at hmiddle
    obtain ⟨⟨front, back⟩, hstop, hstart⟩ := Option.bind_eq_some_iff.mp hmiddle
    obtain ⟨rfl, rfl⟩ := splitAt?_eq_some.mp hstop
    have hfront : isBoundary front start = true := by
      rw [isBoundary]
      obtain ⟨cut, hcut, -⟩ := Option.map_eq_some_iff.mp hstart
      rw [hcut]
      rfl
    have hle := isBoundary_le hfront
    exact ⟨hle, by rwa [isBoundary_append_left hle], isBoundary_utf8Len front back⟩
  · rintro ⟨hle, hstart, hstop⟩
    obtain ⟨front, back, rfl, rfl⟩ := isBoundary_iff.mp hstop
    rw [isBoundary_append_left hle] at hstart
    obtain ⟨before, middle, rfl, rfl⟩ := isBoundary_iff.mp hstart
    rw [utf8Len_append, List.append_assoc, slice?_append]
    rfl

theorem mapM_isSome {α β : Type} {f : α → Option β} {items : List α} :
    (items.mapM f).isSome = true ↔ ∀ item ∈ items, (f item).isSome = true := by
  induction items with
  | nil => simp
  | cons item items ih =>
      rw [List.mapM_cons, List.forall_mem_cons, ← ih]
      cases hitem : f item with
      | none => simp
      | some value => cases items.mapM f <;> simp

theorem slices_isSome {spans : List Span} :
    (slices spans).isSome = true ↔ ∀ span ∈ spans, span.isEmpty = false →
      (slice? span.start span.stop span.text).isSome = true := by
  rw [slices, mapM_isSome]
  simp only [List.mem_filter, Bool.not_eq_true', and_imp]

theorem selectedText_isSome {sel : MdSelection} :
    (selectedText (some sel)).isSome = true ↔ (slices sel.spans).isSome = true := by
  rw [selectedText]
  split_ifs with hempty
  · have hnone : (slices sel.spans).isSome = true := by
      refine slices_isSome.mpr fun span hspan hfilled => ?_
      rw [List.all_eq_true.mp hempty span hspan] at hfilled
      cases hfilled
    simp [hnone]
  · rw [joinSpans]
    simp

end Slices

/-! ## Resolving a drag -/

variable {elements : List Element} {start stop : Point}

theorem mem_spansBetween {span : Span} :
    span ∈ spansBetween elements start stop ↔ ∃ ei element, elements[ei]? = some element ∧
      start.1 ≤ ei ∧ ei ≤ stop.1 ∧ spanOf start stop element ei = some span := by
  have hmem (element : Element) (ei : Nat) :
      (element, ei) ∈ (elements.zipIdx.take (stop.1 + 1)).drop start.1 ↔
        elements[ei]? = some element ∧ start.1 ≤ ei ∧ ei ≤ stop.1 := by
    rw [List.mem_iff_getElem?]
    constructor
    · rintro ⟨i, hi⟩
      rw [List.getElem?_drop, List.getElem?_take] at hi
      split_ifs at hi with hlt
      rw [List.getElem?_zipIdx] at hi
      obtain ⟨element', helement, heq⟩ := Option.map_eq_some_iff.mp hi
      cases heq
      rw [Nat.zero_add]
      exact ⟨helement, by omega, by omega⟩
    · rintro ⟨helement, hle, hle'⟩
      refine ⟨ei - start.1, ?_⟩
      rw [List.getElem?_drop, Nat.add_sub_cancel' hle, List.getElem?_take, if_pos (by omega),
        List.getElem?_zipIdx, helement]
      simp
  rw [spansBetween, List.mem_filterMap, Prod.exists, exists_comm]
  refine exists_congr fun ei => exists_congr fun element => ?_
  rw [hmem, and_assoc, and_assoc]

def Fits (elements : List Element) (p : Point) : Prop :=
  ∀ element ∈ elements[p.1]?, isBoundary element.text (min p.2 (utf8Len element.text)) = true

variable {element : Element}

theorem Fits.isBoundary_fromIx {start : Point} (h : Fits elements start) {ei : Nat}
    (helement : elements[ei]? = some element) :
    isBoundary element.text (fromIx start element ei) = true := by
  rw [fromIx]
  split_ifs with hei
  · exact h element (hei ▸ helement)
  · rw [Nat.zero_min]
    exact isBoundary_zero _

theorem Fits.isBoundary_toIx {stop : Point} (h : Fits elements stop) {ei : Nat}
    (helement : elements[ei]? = some element) :
    isBoundary element.text (toIx stop element ei) = true := by
  rw [toIx]
  split_ifs with hei
  · exact h element (hei ▸ helement)
  · rw [Nat.min_self]
    exact isBoundary_end _

theorem spansBetween_sliced (hstart : Fits elements start) (hstop : Fits elements stop) :
    (slices (spansBetween elements start stop)).isSome = true := by
  refine slices_isSome.mpr fun span hspan _ => ?_
  obtain ⟨ei, element, helement, -, -, h⟩ := mem_spansBetween.mp hspan
  rw [spanOf] at h
  split_ifs at h with hlt
  cases h
  exact slice?_isSome_iff.mpr ⟨Nat.le_of_lt hlt, hstart.isBoundary_fromIx helement,
    hstop.isBoundary_toIx helement⟩

theorem slices_isSome_of_spanOf
    (h : (slices (spansBetween elements start stop)).isSome = true) {ei : Nat}
    (helement : elements[ei]? = some element) (hstart : start.1 ≤ ei) (hstop : ei ≤ stop.1)
    (hlt : fromIx start element ei < toIx stop element ei) :
    isBoundary element.text (fromIx start element ei) = true ∧
      isBoundary element.text (toIx stop element ei) = true := by
  have hspan : spanOf start stop element ei = some
      { key := element.key, start := fromIx start element ei, stop := toIx stop element ei
        text := element.text } := if_pos hlt
  have hslice := slices_isSome.mp h _ (mem_spansBetween.mpr
    ⟨ei, element, helement, hstart, hstop, hspan⟩) (by simpa [Span.isEmpty] using hlt)
  exact (slice?_isSome_iff.mp hslice).2

/-- A drag from a point to a boundary is copied exactly when the point fits. -/
theorem resolveSpans_isSome_iff {a head : Point} {headElement : Element}
    (hhead : elements[head.1]? = some headElement)
    (hboundary : isBoundary headElement.text head.2 = true) :
    (slices (resolveSpans elements a head)).isSome = true ↔ Fits elements a := by
  have hfits : Fits elements head := by
    intro element helement
    rw [hhead] at helement
    cases helement
    rwa [Nat.min_eq_left (isBoundary_le hboundary)]
  constructor
  · intro h element helement
    have helement : elements[a.1]? = some element := helement
    by_contra hcut
    have hlt : a.2 < utf8Len element.text := by
      by_contra hle
      rw [Nat.min_eq_right (by omega)] at hcut
      exact hcut (isBoundary_end _)
    rw [Nat.min_eq_left (Nat.le_of_lt hlt)] at hcut
    have hsame (hindex : a.1 = head.1) : a.2 ≠ head.2 ∧ head.2 ≤ utf8Len element.text := by
      rw [← hindex, helement] at hhead
      cases hhead
      refine ⟨fun heq => hcut (heq ▸ hboundary), isBoundary_le hboundary⟩
    have hpos : a.2 ≠ 0 := fun hzero => hcut (hzero ▸ isBoundary_zero _)
    have hfrom : fromIx a element a.1 = a.2 := by
      rw [fromIx, if_pos rfl, Nat.min_eq_left (Nat.le_of_lt hlt)]
    have hto : toIx a element a.1 = a.2 := by
      rw [toIx, if_pos rfl, Nat.min_eq_left (Nat.le_of_lt hlt)]
    rw [resolveSpans] at h
    split_ifs at h with hle
    · -- The anchor is the start: its slice reaches to the head or to the end of the element.
      have hle : a.1 < head.1 ∨ a.1 = head.1 ∧ a.2 ≤ head.2 := by simpa [Point.le] using hle
      have hspan : fromIx a element a.1 < toIx head element a.1 := by
        rw [hfrom, toIx]
        split_ifs with hindex
        · have := hsame hindex
          omega
        · omega
      exact hcut (hfrom ▸ (slices_isSome_of_spanOf h helement (Nat.le_refl _) (by omega) hspan).1)
    · have hle : ¬ (a.1 < head.1 ∨ a.1 = head.1 ∧ a.2 ≤ head.2) := by simpa [Point.le] using hle
      have hspan : fromIx head element a.1 < toIx a element a.1 := by
        rw [hto, fromIx]
        split_ifs with hindex
        · have := hsame hindex
          omega
        · omega
      exact hcut (hto ▸ (slices_isSome_of_spanOf h helement (by omega) (Nat.le_refl _) hspan).2)
  · intro ha
    rw [resolveSpans]
    split_ifs
    · exact spansBetween_sliced ha hfits
    · exact spansBetween_sliced hfits ha

/-! ## Every run -/

theorem isBoundary_snap (text : List Char) (ix : Nat) : isBoundary text (snap text ix) = true := by
  induction ix with
  | zero => exact isBoundary_zero text
  | succ ix ih =>
      rw [snap]
      split_ifs with h
      · exact h
      · exact ih

section Words

variable (isAlphanumeric : Char → Bool)

theorem wordRange_spec (text : List Char) (ix : Nat) :
    ∃ range, wordRange isAlphanumeric text ix = some range ∧ range.1 ≤ range.2 ∧
      isBoundary text range.1 = true ∧ isBoundary text range.2 = true := by
  obtain ⟨front, back, htext, hlength⟩ :=
    isBoundary_iff.mp (isBoundary_snap text (min ix (utf8Len text)))
  rw [wordRange]
  dsimp only
  rw [← hlength, htext, splitAt?_append, Option.map_some]
  refine ⟨_, rfl, ?_⟩
  have hhere : isBoundary (front ++ back) (utf8Len front) = true := isBoundary_utf8Len front back
  dsimp only
  split_ifs
  · cases back with
    | nil => exact ⟨Nat.le_refl _, hhere, hhere⟩
    | cons c back =>
        rw [List.head?_cons]
        dsimp only
        split_ifs
        · exact ⟨Nat.le_refl _, hhere, hhere⟩
        · refine ⟨Nat.le_add_right _ _, hhere, ?_⟩
          rw [isBoundary_append_right]
          exact isBoundary_utf8Len [c] back
  · obtain ⟨word, hword⟩ := front.rdropWhile_prefix (p := isWord isAlphanumeric)
    have hstart : utf8Len (front.rdropWhile (isWord isAlphanumeric)) ≤ utf8Len front := by
      conv_rhs => rw [← hword, utf8Len_append]
      exact Nat.le_add_right _ _
    have hback := isBoundary_utf8Len (back.takeWhile (isWord isAlphanumeric))
      (back.dropWhile (isWord isAlphanumeric))
    rw [List.takeWhile_append_dropWhile] at hback
    refine ⟨Nat.le_trans hstart (Nat.le_add_right _ _), ?_, by rwa [isBoundary_append_right]⟩
    rw [isBoundary_append_left hstart]
    have := isBoundary_utf8Len (front.rdropWhile (isWord isAlphanumeric)) word
    rwa [hword] at this

end Words

def Sound (state : Option MdSelection) : Prop :=
  ∀ sel ∈ state, (slices sel.spans).isSome = true

variable {state : Option MdSelection}

theorem sound_iff_copy (isAlphanumeric : Char → Bool) :
    Sound state ↔ (step isAlphanumeric state .copy).isSome = true := by
  rw [step, Option.isSome_map]
  cases state with
  | none => exact iff_of_true (fun _ h => by cases h) rfl
  | some sel =>
      rw [selectedText_isSome]
      exact ⟨fun h => h sel rfl, fun h _ heq => by cases heq; exact h⟩

theorem Sound.of_spans_eq {sel sel' : MdSelection} (h : Sound (some sel))
    (hspans : sel'.spans = sel.spans) : Sound (some sel') := by
  intro other heq
  cases heq
  rw [hspans]
  exact h sel rfl

theorem sound_none : Sound none := by
  intro _ h
  cases h

theorem sound_begin (key : String) (ix : Nat) : Sound (begin key ix) := by
  intro _ h
  cases h
  rfl

theorem sound_beginWithSpan {key : String} {text : List Char} {range : Nat × Nat}
    (hle : range.1 ≤ range.2) (hstart : isBoundary text range.1 = true)
    (hstop : isBoundary text range.2 = true) : Sound (beginWithSpan key text range) := by
  intro _ h
  cases h
  refine slices_isSome.mpr fun span hspan _ => ?_
  rw [List.mem_singleton.mp hspan]
  exact slice?_isSome_iff.mpr ⟨hle, hstart, hstop⟩

theorem sound_updateSpans {sel : MdSelection} {spans : List Span} :
    Sound (updateSpans spans (some sel)) ↔ (slices spans).isSome = true := by
  rw [updateSpans, Option.map_some]
  split_ifs with hsame
  · rw [← hsame]
    exact ⟨fun h => h sel rfl, fun h _ heq => by cases heq; exact h⟩
  · exact ⟨fun h => h _ rfl, fun h _ heq => by cases heq; exact h⟩

theorem sound_resolveDrag {key : String} {anchorIx : Nat} {head : Point} {sel : MdSelection}
    (hsound : Sound (some sel))
    (hvalid : Valid (.move key elements (some head))) :
    Sound (resolveDrag elements key anchorIx head (some sel)) ↔
      ∀ element ∈ elements.find? fun element => element.key = key,
        isBoundary element.text (min anchorIx (utf8Len element.text)) = true := by
  obtain ⟨headElement, hhead, hboundary⟩ := hvalid
  rw [resolveDrag, List.find?_eq_bind_findIdx?_getElem?]
  cases elements.findIdx? fun element => element.key = key with
  | none => simpa using hsound
  | some ei =>
      dsimp only
      rw [sound_updateSpans, resolveSpans_isSome_iff hhead hboundary]
      rfl

theorem sound_endDrag {key : String} (h : Sound state) :
    ∃ state' out, endDrag key state = some (state', out) ∧ Sound state' := by
  cases state with
  | none => exact ⟨none, none, rfl, h⟩
  | some sel =>
      rw [endDrag]
      split_ifs
      · exact ⟨_, _, rfl, h⟩
      · exact ⟨_, _, rfl, sound_none⟩
      · obtain ⟨pieces, hpieces⟩ := Option.isSome_iff_exists.mp (h sel rfl)
        rw [joinSpans, hpieces]
        exact ⟨_, _, rfl, h.of_spans_eq rfl⟩

theorem sound_clearIfOwner {key : String} (h : Sound state) :
    Sound (clearIfOwner key state) := by
  rw [clearIfOwner]
  split_ifs
  · exact sound_none
  · exact h

/-- A slice that fails is made by the resolved drags whose anchor does not fit, and by nothing
else. -/
theorem step_spec (isAlphanumeric : Char → Bool) {e : Event} (hsound : Sound state)
    (hvalid : Valid e) :
    ∃ state' out, step isAlphanumeric state e = some (state', out) ∧
      (Sound state' ↔ AnchorFits state e) := by
  cases e with
  | down key text ix clicks =>
      rw [step]
      split_ifs
      · obtain ⟨range, hrange, hle, hstart, hstop⟩ := wordRange_spec isAlphanumeric text ix
        rw [hrange]
        exact ⟨_, _, rfl, iff_of_true (sound_beginWithSpan hle hstart hstop) trivial⟩
      · have hspan := @sound_beginWithSpan key text (0, utf8Len text) (Nat.zero_le _)
          (isBoundary_zero text) (isBoundary_end text)
        exact ⟨_, _, rfl, iff_of_true hspan trivial⟩
      · exact ⟨_, _, rfl, iff_of_true (sound_begin key ix) trivial⟩
  | downElsewhere key =>
      exact ⟨_, _, rfl, iff_of_true (sound_clearIfOwner hsound) trivial⟩
  | move key elements head =>
      rw [step]
      cases head with
      | none =>
          refine ⟨state, none, ?_, iff_of_true hsound trivial⟩
          cases dragAnchor key state <;> rfl
      | some head =>
          cases hanchor : dragAnchor key state with
          | none =>
              refine ⟨_, _, rfl, iff_of_true hsound fun ix hix => ?_⟩
              rw [hanchor] at hix
              cases hix
          | some anchorIx =>
              obtain ⟨sel, rfl⟩ : ∃ sel, state = some sel := by
                cases state with
                | none => cases hanchor
                | some sel => exact ⟨sel, rfl⟩
              refine ⟨_, _, rfl, (sound_resolveDrag hsound hvalid).trans ?_⟩
              rw [AnchorFits, hanchor]
              simp
  | up key =>
      obtain ⟨state', out, hstep, hsound'⟩ := @sound_endDrag state key hsound
      exact ⟨state', out, hstep, iff_of_true hsound' trivial⟩
  | copy =>
      obtain ⟨⟨state', out⟩, hcopy⟩ := Option.isSome_iff_exists.mp
        ((sound_iff_copy isAlphanumeric).mp hsound)
      have hsame : state' = state := by
        rw [step] at hcopy
        obtain ⟨text, -, heq⟩ := Option.map_eq_some_iff.mp hcopy
        exact (congrArg Prod.fst heq).symm
      exact ⟨state', out, hcopy, iff_of_true (hsame ▸ hsound) trivial⟩

theorem sound_of_reachable (isAlphanumeric : Char → Bool)
    (h : (machine isAlphanumeric).ReachableWhen (fun state e => Valid e ∧ AnchorFits state e)
      state) : Sound state := by
  refine h.invariant ?_ fun state e state' hsound hguard hstep => ?_
  · rintro _ rfl
    exact sound_none
  · obtain ⟨next, out, heq, hiff⟩ := step_spec isAlphanumeric hsound hguard.1
    change (step isAlphanumeric state e).map (·.1) = some state' at hstep
    rw [heq] at hstep
    cases hstep
    exact hiff.mpr hguard.2

/-! ## Between two points -/

/-- The text between two points, element by element. -/
inductive Between (elements : List Element) : Point → Point → List (List Char) → Prop where
  | within {ei : Nat} {element : Element} {front middle back : List Char} :
      elements[ei]? = some element → element.text = front ++ (middle ++ back) →
        Between elements (ei, utf8Len front) (ei, utf8Len front + utf8Len middle) [middle]
  | across {before middle after : List Element} {first last : Element}
      {front tail front' tail' : List Char} :
      elements = before ++ first :: (middle ++ last :: after) → first.text = front ++ tail →
        last.text = front' ++ tail' →
          Between elements (before.length, utf8Len front)
            (before.length + 1 + middle.length, utf8Len front')
            (tail :: (middle.map Element.text ++ [front']))

def filled (pieces : List (List Char)) : List (List Char) :=
  pieces.filter fun piece => !piece.isEmpty

theorem slices_append {spans spans' : List Span} {pieces pieces' : List (List Char)}
    (h : slices spans = some pieces) (h' : slices spans' = some pieces') :
    slices (spans ++ spans') = some (pieces ++ pieces') := by
  rw [slices] at h h' ⊢
  rw [List.filter_append, List.mapM_append, h, h']
  rfl

theorem slices_singleton {key : String} {text front middle back : List Char}
    (htext : text = front ++ (middle ++ back)) :
    slices [{ key, start := utf8Len front, stop := utf8Len front + utf8Len middle, text }] =
      some (filled [middle]) := by
  by_cases hmiddle : middle = []
  · subst hmiddle
    rw [slices, List.filter_cons_of_neg (by simp [Span.isEmpty])]
    rfl
  · have hpos := utf8Len_pos_of_ne_nil hmiddle
    rw [slices, List.filter_cons_of_pos (by simpa [Span.isEmpty] using hpos), List.filter_nil,
      List.mapM_cons]
    dsimp only
    rw [htext, slice?_append, filled, List.filter_cons_of_pos (by simp [hmiddle])]
    rfl

theorem slices_spanOf {ei : Nat} {front middle back : List Char}
    (htext : element.text = front ++ (middle ++ back))
    (hfrom : fromIx start element ei = utf8Len front)
    (hto : toIx stop element ei = utf8Len front + utf8Len middle) :
    slices (spanOf start stop element ei).toList = some (filled [middle]) := by
  rw [spanOf, hfrom, hto]
  by_cases hmiddle : middle = []
  · subst hmiddle
    rw [if_neg (by simp)]
    rfl
  · have hpos := utf8Len_pos_of_ne_nil hmiddle
    rw [if_pos (by omega), Option.toList_some]
    exact slices_singleton htext

theorem filterMap_cons_eq {α β : Type} (f : α → Option β) (a : α) (items : List α) :
    (a :: items).filterMap f = (f a).toList ++ items.filterMap f := by
  rw [List.filterMap_cons]
  cases f a <;> rfl

theorem window_eq (before middle after : List Element) :
    ((before ++ (middle ++ after)).zipIdx.take (before.length + middle.length)).drop before.length =
      middle.zipIdx before.length := by
  rw [List.zipIdx_append, List.zipIdx_append, ← List.append_assoc, List.take_left',
    List.drop_left' List.length_zipIdx, Nat.zero_add]
  rw [List.length_append, List.length_zipIdx, List.length_zipIdx]

theorem slices_middle {middle : List Element} {n : Nat} (hstart : start.1 < n)
    (hstop : n + middle.length ≤ stop.1) :
    slices ((middle.zipIdx n).filterMap fun (element, ei) => spanOf start stop element ei) =
      some (filled (middle.map Element.text)) := by
  induction middle generalizing n with
  | nil => rfl
  | cons element middle ih =>
      rw [List.length_cons] at hstop
      have hhere : slices (spanOf start stop element n).toList = some (filled [element.text]) := by
        refine @slices_spanOf start stop element n [] element.text [] (by simp) ?_ ?_
        · rw [fromIx, if_neg (by omega)]
          exact Nat.zero_min _
        · rw [toIx, if_neg (by omega), Nat.min_self, utf8Len_nil, Nat.zero_add]
      rw [List.zipIdx_cons, filterMap_cons_eq]
      refine (slices_append hhere (@ih (n + 1) (by omega) (by omega))).trans ?_
      rw [filled, filled, ← List.filter_append]
      rfl

theorem eq_take_append {α : Type} {items : List α} {i : Nat} {item : α}
    (h : items[i]? = some item) :
    items = items.take i ++ item :: items.drop (i + 1) ∧ (items.take i).length = i := by
  obtain ⟨hlt, hget⟩ := List.getElem?_eq_some_iff.mp h
  rw [← hget, List.getElem_cons_drop, List.take_append_drop]
  exact ⟨rfl, List.length_take_of_le (Nat.le_of_lt hlt)⟩

variable {pieces : List (List Char)}

theorem slices_spansBetween (h : Between elements start stop pieces) :
    slices (spansBetween elements start stop) = some (filled pieces) := by
  cases h with
  | @within ei element front middle back helement htext =>
      obtain ⟨helements, hlength⟩ := eq_take_append helement
      have hwindow := window_eq (elements.take ei) [element] (elements.drop (ei + 1))
      rw [List.singleton_append, ← helements, hlength, List.length_singleton] at hwindow
      have hlen : utf8Len element.text =
          utf8Len front + (utf8Len middle + utf8Len back) := by
        rw [htext, utf8Len_append, utf8Len_append]
      have hspan := slices_append (@slices_spanOf (ei, utf8Len front)
        (ei, utf8Len front + utf8Len middle) element ei front middle back htext (by
          rw [fromIx, if_pos rfl, Nat.min_eq_left (by omega)]) (by
          rw [toIx, if_pos rfl, Nat.min_eq_left (by omega)])) (show slices [] = some [] from rfl)
      rw [spansBetween, hwindow, List.zipIdx_singleton, filterMap_cons_eq]
      exact hspan.trans (congrArg _ (List.append_nil _))
  | @across before middle after first last front tail front' tail' helements hfirst hlast =>
      have hwindow := window_eq before (first :: (middle ++ [last])) after
      rw [List.length_cons, List.length_append, List.length_singleton, List.cons_append,
        List.append_assoc, List.singleton_append, ← helements] at hwindow
      have hfirstLen : utf8Len first.text = utf8Len front + utf8Len tail := by
        rw [hfirst, utf8Len_append]
      have hlastLen : utf8Len last.text = utf8Len front' + utf8Len tail' := by
        rw [hlast, utf8Len_append]
      have hheadSpan := @slices_spanOf (before.length, utf8Len front)
        (before.length + 1 + middle.length, utf8Len front') first before.length front tail []
        (by rw [hfirst, List.append_nil]) (by
          rw [fromIx, if_pos rfl, Nat.min_eq_left (by omega)]) (by
          rw [toIx, if_neg (by dsimp only; omega), Nat.min_self, hfirstLen])
      have hlastSpan := @slices_spanOf (before.length, utf8Len front)
        (before.length + 1 + middle.length, utf8Len front') last
        (before.length + 1 + middle.length) [] front' tail' hlast (by
          rw [fromIx, if_neg (by dsimp only; omega), Nat.zero_min, utf8Len_nil]) (by
          rw [toIx, if_pos rfl, Nat.min_eq_left (by omega), utf8Len_nil, Nat.zero_add])
      have hmiddle := @slices_middle (before.length, utf8Len front)
        (before.length + 1 + middle.length, utf8Len front') middle (before.length + 1)
        (Nat.lt_succ_self _) (Nat.le_refl _)
      have hcount : before.length + 1 + middle.length + 1 =
          before.length + (middle.length + 1 + 1) := by omega
      rw [spansBetween, hcount, hwindow, List.zipIdx_cons, filterMap_cons_eq, List.zipIdx_append,
        List.filterMap_append, List.zipIdx_singleton, filterMap_cons_eq]
      have hall := slices_append hheadSpan (slices_append hmiddle
        (slices_append hlastSpan (show slices [] = some [] from rfl)))
      refine hall.trans ?_
      rw [List.append_nil, filled, filled, filled, ← List.filter_append, ← List.filter_append]
      rfl

theorem Between.le (h : Between elements start stop pieces) :
    Point.le start stop = true := by
  cases h with
  | within => simp [Point.le]
  | across =>
      rw [Point.le, decide_eq_true (by dsimp only; omega)]
      rfl

def IsPoint (elements : List Element) (p : Point) : Prop :=
  ∃ element, elements[p.1]? = some element ∧ isBoundary element.text p.2 = true

theorem exists_between (hstart : IsPoint elements start) (hstop : IsPoint elements stop)
    (hle : Point.le start stop = true) :
    ∃ pieces, Between elements start stop pieces := by
  obtain ⟨ei, ix⟩ := start
  obtain ⟨ej, jx⟩ := stop
  obtain ⟨first, hfirst, hix⟩ := hstart
  obtain ⟨last, hlast, hjx⟩ := hstop
  dsimp only at hfirst hix hlast hjx
  have hle : ei < ej ∨ ei = ej ∧ ix ≤ jx := by simpa [Point.le] using hle
  obtain hlt | ⟨rfl, hle'⟩ := hle
  · obtain ⟨front, tail, hfront, rfl⟩ := isBoundary_iff.mp hix
    obtain ⟨front', tail', hfront', rfl⟩ := isBoundary_iff.mp hjx
    obtain ⟨helements, hlength⟩ := eq_take_append hfirst
    have hrest : (elements.drop (ei + 1))[ej - ei - 1]? = some last := by
      rw [List.getElem?_drop, ← hlast]
      exact congrArg _ (by omega)
    obtain ⟨hdrop, hcount⟩ := eq_take_append hrest
    have hall := Between.across (helements.trans (congrArg (elements.take ei ++ first :: ·) hdrop))
      hfront hfront'
    have hindex : ei + 1 + (ej - ei - 1) = ej := by omega
    rw [hlength, hcount, hindex] at hall
    exact ⟨_, hall⟩
  · rw [hfirst] at hlast
    cases hlast
    obtain ⟨front, back, hback, rfl⟩ := isBoundary_iff.mp hjx
    rw [hback, isBoundary_append_left hle'] at hix
    obtain ⟨before, middle, rfl, rfl⟩ := isBoundary_iff.mp hix
    rw [utf8Len_append]
    exact ⟨_, .within hfirst (by rw [hback, List.append_assoc])⟩

/-- The text between two points, in whatever order they stand. -/
def TextOf (elements : List Element) (a b : Point) (pieces : List (List Char)) : Prop :=
  Between elements a b pieces ∨ Between elements b a pieces

theorem exists_textOf {a b : Point} (ha : IsPoint elements a) (hb : IsPoint elements b) :
    ∃ pieces, TextOf elements a b pieces := by
  by_cases hle : Point.le a b = true
  · obtain ⟨pieces, hpieces⟩ := exists_between ha hb hle
    exact ⟨pieces, .inl hpieces⟩
  · have hle' : Point.le b a = true := by
      simp only [Point.le, Bool.or_eq_true, Bool.and_eq_true, decide_eq_true_eq,
        beq_iff_eq] at hle ⊢
      omega
    obtain ⟨pieces, hpieces⟩ := exists_between hb ha hle'
    exact ⟨pieces, .inr hpieces⟩

theorem slices_resolveSpans {a b : Point} (h : TextOf elements a b pieces) :
    slices (resolveSpans elements a b) = some (filled pieces) := by
  rw [resolveSpans]
  obtain h | h := h
  · rw [if_pos h.le]
    exact slices_spansBetween h
  · split_ifs with hle
    · have hsame : a = b := by
        have hle' := h.le
        simp only [Point.le, Bool.or_eq_true, Bool.and_eq_true, decide_eq_true_eq,
          beq_iff_eq] at hle hle'
        exact Prod.ext (by omega) (by omega)
      subst hsame
      exact slices_spansBetween h
    · exact slices_spansBetween h

/-! ## Selections of elements that stay as they are -/

/-- Between which points a selection is, and whether it follows the mouse. -/
structure Gesture where
  anchor : Point
  head : Point
  dragging : Bool

/-- The selection of an element's listeners behind an event. -/
def after (key : String) : Option Gesture → Event → Option Gesture
  | none, _ => none
  | some gesture, .move key' _ (some head) =>
      if gesture.dragging = true ∧ key' = key then some { gesture with head } else some gesture
  | some gesture, .up key' =>
      if key' = key then some { gesture with dragging := false } else some gesture
  | some gesture, .downElsewhere key' =>
      if key' = key ∧ gesture.dragging = false then none else some gesture
  | some gesture, _ => some gesture

def clip (pieces : List (List Char)) : Option (List Char) :=
  if filled pieces = [] then none else some (['\n'].intercalate (filled pieces))

def Clips (elements : List Element) (out : Option (List Char)) : Option Gesture → Prop
  | none => out = none
  | some gesture => (∃ pieces, TextOf elements gesture.anchor gesture.head pieces) ∧
      ∀ pieces, TextOf elements gesture.anchor gesture.head pieces → out = clip pieces

def Copies (elements : List Element) (key : String) (gesture : Option Gesture)
    (out : Option (List Char)) : Event → Prop
  | .copy => Clips elements out gesture
  | .up key' =>
      if key' = key ∧ gesture.any Gesture.dragging = true then Clips elements out gesture
      else out = none
  | _ => out = none

/-- No start, and a move finds the same elements. -/
def Unchanged (elements : List Element) : Event → Prop
  | .down .. => False
  | .move _ elements' _ => elements' = elements
  | _ => True

/-- The range that a click selects, which begins with the anchor. -/
def clicked (isAlphanumeric : Char → Bool) (text : List Char) (ix clicks : Nat) :
    Option (Nat × Nat) :=
  if clicks = 2 then wordRange isAlphanumeric text ix
  else if 3 ≤ clicks then some (0, utf8Len text)
  else some (ix, ix)

section Simulation

variable {elements : List Element} {key : String}

/-- The end points of a gesture are points of the elements, and its anchor is found by its key. -/
structure Gesture.Anchored (elements : List Element) (key : String) (gesture : Gesture) :
    Prop where
  anchor : IsPoint elements gesture.anchor
  head : IsPoint elements gesture.head
  found : elements.findIdx? (fun element => element.key = key) = some gesture.anchor.1

def Stands (elements : List Element) (key : String) :
    Option Gesture → Option MdSelection → Prop
  | none, state => state = none
  | some gesture, none => gesture.Anchored elements key ∧ gesture.dragging = false ∧
      slices (resolveSpans elements gesture.anchor gesture.head) = some []
  | some gesture, some sel => gesture.Anchored elements key ∧ sel.dragging = gesture.dragging ∧
      sel.anchorKey = key ∧ sel.anchorIx = gesture.anchor.2 ∧
        slices sel.spans = slices (resolveSpans elements gesture.anchor gesture.head)

theorem all_isEmpty_iff {spans : List Span} (h : slices spans = some pieces) :
    spans.all Span.isEmpty = true ↔ pieces = [] := by
  have hfilter : spans.all Span.isEmpty = true ↔ spans.filter (fun span => !span.isEmpty) = [] := by
    rw [List.all_eq_true, List.filter_eq_nil_iff]
    simp only [Bool.not_eq_true', Bool.not_eq_false]
  rw [slices] at h
  rw [hfilter]
  cases hspans : spans.filter fun span => !span.isEmpty with
  | nil =>
      rw [hspans] at h
      cases h
      simp
  | cons span more =>
      rw [hspans, List.mapM_cons] at h
      obtain ⟨piece, -, h⟩ := Option.bind_eq_some_iff.mp h
      obtain ⟨rest, -, h⟩ := Option.bind_eq_some_iff.mp h
      cases h
      simp

theorem selectedText_eq {sel : MdSelection} (h : slices sel.spans = some (filled pieces)) :
    selectedText (some sel) = some (clip pieces) := by
  rw [selectedText, clip, joinSpans, h]
  split_ifs with hempty hnil
  · rfl
  · exact absurd ((all_isEmpty_iff h).mp hempty) hnil
  · exact absurd ((all_isEmpty_iff h).mpr ‹_›) hempty
  · rfl

theorem endDrag_eq {sel : MdSelection} (h : slices sel.spans = some (filled pieces))
    (hdragging : sel.dragging = true) :
    endDrag sel.anchorKey (some sel) = some
      (if filled pieces = [] then none else some { sel with dragging := false }, clip pieces) := by
  rw [endDrag, if_neg (by simp [hdragging]), clip, joinSpans, h]
  split_ifs with hempty hnil
  · rfl
  · exact absurd ((all_isEmpty_iff h).mp hempty) hnil
  · exact absurd ((all_isEmpty_iff h).mpr ‹_›) hempty
  · rfl

theorem Gesture.Anchored.clips {gesture : Gesture} (h : gesture.Anchored elements key) :
    ∃ pieces, slices (resolveSpans elements gesture.anchor gesture.head) = some (filled pieces) ∧
      Clips elements (clip pieces) (some gesture) := by
  obtain ⟨pieces, hpieces⟩ := exists_textOf h.anchor h.head
  have hslices := slices_resolveSpans hpieces
  refine ⟨pieces, hslices, ⟨pieces, hpieces⟩, fun pieces' hpieces' => ?_⟩
  have hsame : filled pieces = filled pieces' :=
    Option.some.inj (hslices.symm.trans (slices_resolveSpans hpieces'))
  rw [clip, clip, hsame]

variable {state : Option MdSelection} {gesture : Option Gesture}

theorem Stands.copy (h : Stands elements key gesture state) :
    ∃ out, selectedText state = some out ∧ Clips elements out gesture := by
  cases gesture with
  | none =>
      obtain rfl : state = none := h
      exact ⟨none, rfl, rfl⟩
  | some gesture =>
      cases state with
      | none =>
          obtain ⟨hanchored, -, hnil⟩ := h
          obtain ⟨pieces, hpieces, hclips⟩ := hanchored.clips
          rw [hnil] at hpieces
          have hnone : clip pieces = none := if_pos (Option.some.inj hpieces).symm
          exact ⟨none, rfl, hnone ▸ hclips⟩
      | some sel =>
          obtain ⟨hanchored, -, -, -, hslices⟩ := h
          obtain ⟨pieces, hpieces, hclips⟩ := hanchored.clips
          exact ⟨_, selectedText_eq (hslices.trans hpieces), hclips⟩

theorem Gesture.Anchored.release {gesture : Gesture} (h : gesture.Anchored elements key) :
    Gesture.Anchored elements key { gesture with dragging := false } := ⟨h.anchor, h.head, h.found⟩

theorem Stands.up (h : Stands elements key gesture state) (key' : String) :
    ∃ state' out, endDrag key' state = some (state', out) ∧
      Stands elements key (after key gesture (.up key')) state' ∧
        Copies elements key gesture out (.up key') := by
  cases gesture with
  | none =>
      obtain rfl : state = none := h
      exact ⟨none, none, rfl, rfl, by simp [Copies]⟩
  | some gesture =>
      have hafter : after key (some gesture) (.up key') =
          if key' = key then some { gesture with dragging := false } else some gesture := rfl
      simp only [hafter, Copies, Option.any_some]
      cases state with
      | none =>
          obtain ⟨hanchored, hreleased, hnil⟩ := h
          refine ⟨none, none, rfl, ?_, by simp [hreleased]⟩
          split_ifs
          · exact ⟨hanchored.release, rfl, hnil⟩
          · exact ⟨hanchored, hreleased, hnil⟩
      | some sel =>
          obtain ⟨hanchored, hdragging, rfl, hix, hslices⟩ := h
          by_cases hkey : key' = sel.anchorKey
          · subst hkey
            rw [if_pos rfl]
            by_cases hdrag : gesture.dragging = true
            · obtain ⟨pieces, hpieces, hclips⟩ := hanchored.clips
              refine ⟨_, _, endDrag_eq (hslices.trans hpieces) (hdragging.trans hdrag), ?_,
                by rwa [if_pos ⟨rfl, hdrag⟩]⟩
              split_ifs with hnil
              · exact ⟨hanchored.release, rfl, hpieces.trans (congrArg _ hnil)⟩
              · exact ⟨hanchored.release, rfl, rfl, hix, hslices⟩
            · have hreleased : sel.dragging = false := hdragging.trans (by simpa using hdrag)
              refine ⟨some sel, none, ?_, ⟨hanchored.release, hreleased, rfl, hix, hslices⟩,
                by rw [if_neg fun hboth => hdrag hboth.2]⟩
              rw [endDrag, if_pos (.inr hreleased)]
          · rw [if_neg hkey]
            refine ⟨some sel, none, ?_, ⟨hanchored, hdragging, rfl, hix, hslices⟩,
              by rw [if_neg fun hboth => hkey hboth.1]⟩
            rw [endDrag, if_pos (.inl (Ne.symm hkey))]

theorem Stands.downElsewhere (h : Stands elements key gesture state) (key' : String) :
    Stands elements key (after key gesture (.downElsewhere key')) (clearIfOwner key' state) := by
  cases gesture with
  | none =>
      obtain rfl : state = none := h
      rfl
  | some gesture =>
      have hafter : after key (some gesture) (.downElsewhere key') =
          if key' = key ∧ gesture.dragging = false then none else some gesture := rfl
      rw [hafter]
      cases state with
      | none =>
          obtain ⟨hanchored, hreleased, hnil⟩ := h
          split_ifs
          · rfl
          · exact ⟨hanchored, hreleased, hnil⟩
      | some sel =>
          obtain ⟨hanchored, hdragging, rfl, hix, hslices⟩ := h
          rw [clearIfOwner, Option.any_some, hdragging]
          by_cases hclear : key' = sel.anchorKey ∧ gesture.dragging = false
          · rw [if_pos hclear, if_pos (by simp [hclear.1, hclear.2])]
            rfl
          · rw [if_neg hclear, if_neg fun hboth => hclear
              ⟨(of_decide_eq_true hboth).1.symm, (of_decide_eq_true hboth).2⟩]
            exact ⟨hanchored, hdragging, rfl, hix, hslices⟩

theorem Stands.move (isAlphanumeric : Char → Bool) (h : Stands elements key gesture state)
    {key' : String} {head : Point} (hhead : IsPoint elements head) :
    ∃ state', step isAlphanumeric state (.move key' elements (some head)) = some (state', none) ∧
      Stands elements key (after key gesture (.move key' elements (some head))) state' := by
  cases gesture with
  | none =>
      obtain rfl : state = none := h
      exact ⟨none, rfl, rfl⟩
  | some gesture =>
      have hafter : after key (some gesture) (.move key' elements (some head)) =
          if gesture.dragging = true ∧ key' = key then some { gesture with head }
          else some gesture := rfl
      rw [hafter]
      cases state with
      | none =>
          obtain ⟨hanchored, hreleased, hnil⟩ := h
          refine ⟨none, rfl, ?_⟩
          rw [if_neg (by simp [hreleased])]
          exact ⟨hanchored, hreleased, hnil⟩
      | some sel =>
          obtain ⟨hanchored, hdragging, rfl, hix, hslices⟩ := h
          by_cases hdrag : gesture.dragging = true ∧ key' = sel.anchorKey
          · obtain ⟨hdrag', rfl⟩ := hdrag
            rw [if_pos ⟨hdrag', rfl⟩]
            have hanchor : dragAnchor sel.anchorKey (some sel) = some gesture.anchor.2 := by
              rw [dragAnchor, Option.bind_some, if_pos ⟨hdragging.trans hdrag', rfl⟩, hix]
            have hresolve : resolveDrag elements sel.anchorKey gesture.anchor.2 head (some sel) =
                updateSpans (resolveSpans elements gesture.anchor head) (some sel) := by
              rw [resolveDrag, hanchored.found]
            refine ⟨updateSpans (resolveSpans elements gesture.anchor head) (some sel), ?_, ?_⟩
            · rw [step, hanchor]
              dsimp only
              rw [hresolve]
            · have hanchored' : Gesture.Anchored elements sel.anchorKey { gesture with head } :=
                ⟨hanchored.anchor, hhead, hanchored.found⟩
              rw [updateSpans, Option.map_some]
              split_ifs with hsame
              · exact ⟨hanchored', hdragging, rfl, hix, congrArg slices hsame⟩
              · exact ⟨hanchored', hdragging, rfl, hix, rfl⟩
          · rw [if_neg hdrag]
            have hanchor : dragAnchor key' (some sel) = none := by
              rw [dragAnchor, Option.bind_some, hdragging]
              exact if_neg fun hboth => hdrag ⟨hboth.1, hboth.2.symm⟩
            refine ⟨some sel, ?_, hanchored, hdragging, rfl, hix, hslices⟩
            rw [step, hanchor]

theorem Stands.step (isAlphanumeric : Char → Bool) (h : Stands elements key gesture state)
    {e : Event} (hvalid : Valid e) (hunchanged : Unchanged elements e) :
    ∃ state' out, step isAlphanumeric state e = some (state', out) ∧
      Stands elements key (after key gesture e) state' ∧ Copies elements key gesture out e := by
  cases e with
  | down => exact hunchanged.elim
  | downElsewhere key' => exact ⟨_, none, rfl, h.downElsewhere key', rfl⟩
  | move key' elements' head =>
      obtain rfl : elements' = elements := hunchanged
      cases head with
      | none =>
          have hafter : after key gesture (.move key' elements' none) = gesture := by
            cases gesture <;> rfl
          refine ⟨state, none, ?_, by rwa [hafter], rfl⟩
          rw [Selection.step]
          cases dragAnchor key' state <;> rfl
      | some head =>
          obtain ⟨state', hstep, hstands⟩ := h.move isAlphanumeric hvalid
          exact ⟨state', none, hstep, hstands, rfl⟩
  | up key' => exact h.up key'
  | copy =>
      obtain ⟨out, hout, hclips⟩ := h.copy
      have hafter : after key gesture .copy = gesture := by
        cases gesture <;> rfl
      refine ⟨state, out, ?_, by rwa [hafter], hclips⟩
      rw [Selection.step, hout]
      rfl

theorem isPoint_of {ei ix : Nat} (helement : elements[ei]? = some element)
    (hix : isBoundary element.text ix = true) : IsPoint elements (ei, ix) :=
  ⟨element, helement, hix⟩

theorem stands_span {ei : Nat} (helement : elements[ei]? = some element)
    (hfound : elements.findIdx? (fun other => other.key = element.key) = some ei)
    {range : Nat × Nat} (hle : range.1 ≤ range.2) (hstart : isBoundary element.text range.1 = true)
    (hstop : isBoundary element.text range.2 = true) :
    Stands elements element.key
      (some { anchor := (ei, range.1), head := (ei, range.2), dragging := true })
      (beginWithSpan element.key element.text range) := by
  obtain ⟨start, stop⟩ := range
  dsimp only at hle hstart hstop ⊢
  refine ⟨⟨isPoint_of helement hstart, isPoint_of helement hstop, hfound⟩, rfl, rfl, rfl, ?_⟩
  obtain ⟨front, back, hback, rfl⟩ := isBoundary_iff.mp hstop
  rw [hback, isBoundary_append_left hle] at hstart
  obtain ⟨before, middle, rfl, rfl⟩ := isBoundary_iff.mp hstart
  rw [List.append_assoc] at hback
  rw [utf8Len_append, slices_resolveSpans (.inl (.within helement hback)), slices_singleton hback]

theorem stands_down (isAlphanumeric : Char → Bool) {ei : Nat} {ix : Nat} (clicks : Nat)
    (helement : elements[ei]? = some element)
    (hfound : elements.findIdx? (fun other => other.key = element.key) = some ei)
    (hix : isBoundary element.text ix = true) :
    ∃ range, clicked isAlphanumeric element.text ix clicks = some range ∧
      ∀ state, ∃ state', Selection.step isAlphanumeric state
        (.down element.key element.text ix clicks) = some (state', none) ∧
          Stands elements element.key
            (some { anchor := (ei, range.1), head := (ei, range.2), dragging := true }) state' := by
  by_cases hdouble : clicks = 2
  · obtain ⟨range, hrange, hle, hstart, hstop⟩ := wordRange_spec isAlphanumeric element.text ix
    rw [clicked, if_pos hdouble]
    refine ⟨range, hrange, fun state => ⟨_, ?_, stands_span helement hfound hle hstart hstop⟩⟩
    rw [Selection.step, if_pos hdouble, hrange]
    rfl
  · by_cases htriple : 3 ≤ clicks
    · rw [clicked, if_neg hdouble, if_pos htriple]
      refine ⟨_, rfl, fun state => ⟨_, ?_, stands_span helement hfound (Nat.zero_le _)
        (isBoundary_zero _) (isBoundary_end _)⟩⟩
      rw [Selection.step, if_neg hdouble, if_pos htriple]
    · rw [clicked, if_neg hdouble, if_neg htriple]
      refine ⟨_, rfl, fun state => ⟨begin element.key ix, ?_, ?_⟩⟩
      · rw [Selection.step, if_neg hdouble, if_neg htriple]
      · -- Nothing is selected yet: the text between a point and itself is empty.
        have hpoint := isPoint_of helement hix
        refine ⟨⟨hpoint, hpoint, hfound⟩, rfl, rfl, rfl, ?_⟩
        obtain ⟨front, back, hback, rfl⟩ := isBoundary_iff.mp hix
        have hempty := slices_resolveSpans
          (.inl (@Between.within elements ei element front [] back helement hback))
        exact hempty.symm

theorem stands_run (isAlphanumeric : Char → Bool) {events : List Event}
    (hevents : ∀ e ∈ events, Valid e ∧ Unchanged elements e)
    (h : Stands elements key gesture state) :
    ∃ state', (machine isAlphanumeric).run state events = some state' ∧
      Stands elements key (events.foldl (after key) gesture) state' := by
  induction events generalizing state gesture with
  | nil => exact ⟨state, rfl, h⟩
  | cons e events ih =>
      obtain ⟨⟨hvalid, hunchanged⟩, hrest⟩ := List.forall_mem_cons.mp hevents
      obtain ⟨next, out, hstep, hnext, -⟩ := h.step isAlphanumeric hvalid hunchanged
      obtain ⟨state', hrun, hstands⟩ := ih hrest hnext
      refine ⟨state', ?_, hstands⟩
      have hmachine : (machine isAlphanumeric).step state e = some next :=
        congrArg (Option.map Prod.fst) hstep
      rw [Machine.run, hmachine]
      exact hrun

end Simulation

/-- In a run in which every resolved drag had an anchor that fits, no event slices out of bounds or
off a boundary, and the next copy fails exactly behind a drag whose anchor does not fit. While the
elements stay as they are, a copy and a release give the text between the end points of the
selection, element by element. -/
theorem selection_spec (isAlphanumeric : Char → Bool) :
    (∀ state, (machine isAlphanumeric).ReachableWhen (fun state e => Valid e ∧ AnchorFits state e)
        state → ∀ e, Valid e → ∃ state' out, step isAlphanumeric state e = some (state', out) ∧
          ((step isAlphanumeric state' .copy).isSome = true ↔ AnchorFits state e)) ∧
      ∀ (elements : List Element) (ei : Nat) (element : Element) (ix clicks : Nat),
        elements[ei]? = some element →
        elements.findIdx? (fun other => other.key = element.key) = some ei →
        isBoundary element.text ix = true →
          ∃ range, clicked isAlphanumeric element.text ix clicks = some range ∧
            ∀ (state : Option MdSelection) (events : List Event) (e : Event),
              (∀ e ∈ events, Valid e ∧ Unchanged elements e) → Valid e → Unchanged elements e →
                ∃ state' state'' out,
                  (machine isAlphanumeric).run state
                    (.down element.key element.text ix clicks :: events) = some state' ∧
                  step isAlphanumeric state' e = some (state'', out) ∧
                  Copies elements element.key (events.foldl (after element.key)
                    (some { anchor := (ei, range.1), head := (ei, range.2), dragging := true }))
                    out e := by
  refine ⟨fun state hreachable e hvalid => ?_, ?_⟩
  · obtain ⟨state', out, hstep, hiff⟩ :=
      step_spec isAlphanumeric (sound_of_reachable isAlphanumeric hreachable) hvalid
    exact ⟨state', out, hstep, (sound_iff_copy isAlphanumeric).symm.trans hiff⟩
  · intro elements ei element ix clicks helement hfound hix
    obtain ⟨range, hrange, hdown⟩ :=
      stands_down isAlphanumeric clicks helement hfound hix
    refine ⟨range, hrange, fun state events e hevents hvalid hunchanged => ?_⟩
    obtain ⟨next, hstep, hstands⟩ := hdown state
    obtain ⟨state', hrun, hstands'⟩ := stands_run isAlphanumeric hevents hstands
    obtain ⟨state'', out, hlast, -, hcopies⟩ :=
      hstands'.step isAlphanumeric hvalid hunchanged
    refine ⟨state', state'', out, ?_, hlast, hcopies⟩
    have hmachine : (machine isAlphanumeric).step state
        (.down element.key element.text ix clicks) = some next :=
      congrArg (Option.map Prod.fst) hstep
    rw [Machine.run, hmachine]
    exact hrun

/-- A drag over the end of one element and the beginning of the next one. -/
theorem selection_spec_drag : ∃ state' state'' out,
    (machine Char.isAlphanum).run none [.down "a" ['x', 'y'] 1 1,
      .move "a" [⟨"a", ['x', 'y']⟩, ⟨"b", ['z', 'z']⟩] (some (1, 1))] = some state' ∧
    step Char.isAlphanum state' .copy = some (state'', out) ∧ out = some ['y', '\n', 'z'] := by
  obtain ⟨range, hrange, hruns⟩ := (selection_spec Char.isAlphanum).2
    [⟨"a", ['x', 'y']⟩, ⟨"b", ['z', 'z']⟩] 0 ⟨"a", ['x', 'y']⟩ 1 1 rfl (by decide) (by decide)
  cases hrange
  have hmove : ∀ e ∈ [Event.move "a" [⟨"a", ['x', 'y']⟩, ⟨"b", ['z', 'z']⟩] (some (1, 1))],
      Valid e ∧ Unchanged [⟨"a", ['x', 'y']⟩, ⟨"b", ['z', 'z']⟩] e := by
    intro e he
    rw [List.mem_singleton.mp he]
    exact ⟨⟨⟨"b", ['z', 'z']⟩, rfl, by decide⟩, rfl⟩
  obtain ⟨state', state'', out, hrun, hstep, -, hcopies⟩ :=
    hruns none [.move "a" [⟨"a", ['x', 'y']⟩, ⟨"b", ['z', 'z']⟩] (some (1, 1))] .copy hmove
      trivial trivial
  refine ⟨state', state'', out, hrun, hstep, (hcopies [['y'], ['z']] (.inl ?_)).trans (by decide)⟩
  exact @Between.across _ [] [] [] ⟨"a", ['x', 'y']⟩ ⟨"b", ['z', 'z']⟩ ['x'] ['y'] ['z'] ['z']
    rfl rfl rfl

/-- A press behind the first character of an entity; when the rest of it has come, the element shows
one letter, and the anchor is inside it. -/
theorem anchor_inside_letter :
    Valid (.down "a" ['&', 'e'] 1 1) ∧ Valid (.move "a" [⟨"a", ['é']⟩] (some (0, 2))) ∧
      ∃ state, (machine Char.isAlphanum).run none
        [.down "a" ['&', 'e'] 1 1, .move "a" [⟨"a", ['é']⟩] (some (0, 2))] = some state ∧
          step Char.isAlphanum state .copy = none := by
  have hpress : isBoundary ['&', 'e'] 1 = true := by decide
  exact ⟨hpress, ⟨_, rfl, by decide⟩, _, rfl, by decide⟩

end Zeron.Ui.Selection
