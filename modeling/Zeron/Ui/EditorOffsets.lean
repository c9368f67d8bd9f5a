import Zeron.Ui.ComposerInput

/-!
# The offsets of the composer's input

The selection and the composition are ranges of the draft that cut no character, and no operation
slices anything else, as long as a composition's selection is measured where it counts from, no token
is inserted under a composition, and points are looked up in the text that is shown.
-/

namespace Zeron.Ui.Composer

open Zeron.Doc (isWhitespace)
open Zeron.Lib.Utf8
open Zeron.Ui.Mentions (existingSeparator localFileLink)
open Zeron.Ui.Projection (ByteRange TextProjection Aligned)

/-- A range of a text that cuts no character. -/
structure ValidRange (text : List Char) (range : ByteRange) : Prop where
  le : range.start ≤ range.stop
  start : isBoundary text range.start = true
  stop : isBoundary text range.stop = true

variable {range : ByteRange} {text : List Char}

theorem ValidRange.stop_le (h : ValidRange text range) :
    range.stop ≤ utf8Len text :=
  isBoundary_le h.stop

theorem ValidRange.stop_empty (h : ValidRange text range) :
    ValidRange text ⟨range.stop, range.stop⟩ :=
  ⟨Nat.le_refl _, h.stop, h.stop⟩

theorem validRange_empty {offset : Nat} (h : isBoundary text offset = true) :
    ValidRange text ⟨offset, offset⟩ :=
  ⟨Nat.le_refl _, h, h⟩

theorem ValidRange.exists_split (h : ValidRange text range) :
    ∃ before middle after, text = before ++ (middle ++ after) ∧ range.start = utf8Len before ∧
      range.stop = utf8Len (before ++ middle) := by
  obtain ⟨before, rest, htext, hstart⟩ := isBoundary_iff.mp h.start
  obtain ⟨front, after, htext', hstop⟩ := isBoundary_iff.mp h.stop
  have hle := h.le
  rw [← hstart, ← hstop] at hle
  obtain ⟨middle, rfl, rfl⟩ := exists_of_utf8Len_le (htext.symm.trans htext') hle
  exact ⟨before, middle, after, htext, hstart.symm, hstop.symm⟩

theorem ComposerInput.splice_split (before middle after newText : List Char) :
    splice (before ++ (middle ++ after)) ⟨utf8Len before, utf8Len (before ++ middle)⟩ newText =
      some (before ++ newText ++ after) := by
  rw [splice, splitAt?_append]
  dsimp only [Option.bind_eq_bind, Option.bind_some]
  rw [← List.append_assoc, splitAt?_append]
  rfl

/-! ### What the offsets come from -/

theorem isBoundary_offsetFromUtf16 (text : List Char) (offset : Nat) :
    isBoundary text (offsetFromUtf16 text offset) = true := by
  induction text generalizing offset with
  | nil => rfl
  | cons c text ih =>
      rw [offsetFromUtf16]
      split_ifs
      · exact isBoundary_zero _
      · exact (isBoundary_append_right [c] text _).trans (ih _)

theorem offsetFromUtf16_mono (text : List Char) {offset offset' : Nat} (h : offset ≤ offset') :
    offsetFromUtf16 text offset ≤ offsetFromUtf16 text offset' := by
  induction text generalizing offset offset' with
  | nil => exact Nat.le_refl _
  | cons c text ih =>
      rw [offsetFromUtf16, offsetFromUtf16]
      split_ifs
      · exact Nat.le_refl _
      · exact Nat.zero_le _
      · omega
      · exact Nat.add_le_add_left (ih (Nat.sub_le_sub_right h _)) _

theorem validRange_rangeFromUtf16 (text : List Char) (range : Utf16Range) :
    ValidRange text (rangeFromUtf16 text range) :=
  ⟨offsetFromUtf16_mono text range.le, isBoundary_offsetFromUtf16 text _,
    isBoundary_offsetFromUtf16 text _⟩

theorem isBoundary_indices {ix : Nat} {piece : List Char} {pieces : List (List Char)}
    (front : List Char) (h : (ix, piece) ∈ indices (utf8Len front) pieces) :
    isBoundary (front ++ pieces.flatten) ix = true ∧
      isBoundary (front ++ pieces.flatten) (ix + utf8Len piece) = true := by
  induction pieces generalizing front with
  | nil => cases h
  | cons first pieces ih =>
      rw [List.flatten_cons, ← List.append_assoc]
      cases h with
      | head =>
          rw [← utf8Len_append]
          refine ⟨?_, isBoundary_utf8Len _ _⟩
          rw [List.append_assoc]
          exact isBoundary_utf8Len _ _
      | tail _ h =>
          rw [← utf8Len_append] at h
          exact ih (front ++ first) h

theorem isBoundary_of_mem_indices {pieces : List (List Char)} (hflatten : pieces.flatten = text)
    {ix : Nat} {piece : List Char}
    (h : (ix, piece) ∈ indices 0 pieces) :
    isBoundary text ix = true ∧ isBoundary text (ix + utf8Len piece) = true := by
  subst hflatten
  exact isBoundary_indices [] h

/-! ### The invariant -/

namespace ComposerInput

/-- What holds between the operations. -/
structure Valid (input : ComposerInput) : Prop where
  aligned : Aligned 0 0 input.content input.projection.display input.projection.mentions
  selection : ValidRange input.content input.selectedRange
  marked : ∀ range ∈ input.markedRange, ValidRange input.content range
  undo : ∀ snapshot ∈ input.undoStack, ValidRange snapshot.content snapshot.selectedRange
  redo : ∀ snapshot ∈ input.redoStack, ValidRange snapshot.content snapshot.selectedRange

theorem exists_refreshProjection (input : ComposerInput) : ∃ projection,
    input.refreshProjection = some { input with projection } ∧
      Aligned 0 0 input.content projection.display projection.mentions := by
  rw [refreshProjection]
  split_ifs
  · obtain ⟨projection, hnew, haligned⟩ := TextProjection.exists_new input.content
    exact ⟨projection, by rw [hnew]; rfl, haligned⟩
  · exact ⟨_, rfl, .text 0 0 input.content⟩

variable {input : ComposerInput}

theorem Valid.normalize (h : Valid input) (hrange : ValidRange input.content range) :
    ValidRange input.content (input.projection.normalizeRange range) := by
  have hends := @TextProjection.normalizeRange_ends range input.projection
    (fun offset => isBoundary input.content offset = true) hrange.start hrange.stop
    (fun mention hmem => (h.aligned.mem hmem).2.2)
  exact ⟨TextProjection.normalizeRange_le hrange.le, hends.1, hends.2⟩

theorem Valid.cursorOffset (h : Valid input) : isBoundary input.content input.cursorOffset = true := by
  rw [ComposerInput.cursorOffset]
  split_ifs
  · exact h.selection.start
  · exact h.selection.stop

theorem Valid.moveTo (h : Valid input) {offset : Nat} (hoffset : isBoundary input.content offset = true) :
    Valid (input.moveTo offset) :=
  { h with selection := validRange_empty (h.normalize (validRange_empty hoffset)).start }

theorem Valid.selectTo (h : Valid input) {offset : Nat} (hoffset : isBoundary input.content offset = true) :
    Valid (input.selectTo offset) := by
  have hnormal := (h.normalize (validRange_empty hoffset)).start
  rw [ComposerInput.selectTo]
  split_ifs with hreversed hlt hlt
  · exact { h with selection := ⟨Nat.le_of_lt hlt, h.selection.stop, hnormal⟩ }
  · exact { h with selection := ⟨Nat.not_lt.mp hlt, hnormal, h.selection.stop⟩ }
  · exact { h with selection := ⟨Nat.le_of_lt hlt, hnormal, h.selection.start⟩ }
  · exact { h with selection := ⟨Nat.not_lt.mp hlt, h.selection.start, hnormal⟩ }

/-! ### Boundaries to move to -/

theorem Valid.projection_boundary (h : Valid input) {offset offset' : Nat}
    (hboundary : input.projection.previousBoundary offset = some offset' ∨
      input.projection.nextBoundary offset = some offset') :
    isBoundary input.content offset' = true := by
  obtain hfind | hfind := hboundary
  all_goals
    obtain ⟨mention, hmem, hlink⟩ := List.exists_of_findSome?_eq_some hfind
    obtain ⟨-, -, hstart, hstop⟩ := h.aligned.mem hmem
    dsimp only at hlink
    split_ifs at hlink
    cases hlink
  · exact hstart
  · exact hstop

theorem Valid.isBoundary_found (h : Valid input) {offset : Nat} {mention : Option Nat}
    {found : Option (Nat × List Char)} {place : Nat × List Char → Nat} {otherwise : Nat}
    (hmention : input.projection.previousBoundary offset = mention ∨
      input.projection.nextBoundary offset = mention)
    (hnone : isBoundary input.content otherwise = true)
    (hsome : ∀ piece ∈ found, isBoundary input.content (place piece) = true) :
    isBoundary input.content (mention.getD ((found.map place).getD otherwise)) = true := by
  cases mention with
  | some offset' => exact h.projection_boundary hmention
  | none =>
      cases found with
      | none => exact hnone
      | some piece => exact hsome piece rfl

theorem Valid.previousBoundary (h : Valid input) (unicode : Segmentation) (offset : Nat) :
    isBoundary input.content (input.previousBoundary unicode offset) = true := by
  refine h.isBoundary_found (.inl rfl) (isBoundary_zero _) fun piece hfind => ?_
  have hmem := List.mem_reverse.mp (List.mem_of_find?_eq_some hfind)
  exact (isBoundary_of_mem_indices (unicode.graphemes_flatten _) hmem).1

theorem Valid.nextBoundary (h : Valid input) (unicode : Segmentation) (offset : Nat) :
    isBoundary input.content (input.nextBoundary unicode offset) = true := by
  refine h.isBoundary_found (.inr rfl) (isBoundary_end _) fun piece hfind => ?_
  have hmem := List.mem_of_find?_eq_some hfind
  exact (isBoundary_of_mem_indices (unicode.graphemes_flatten _) hmem).1

theorem Valid.previousWordBoundary (h : Valid input) (unicode : Segmentation) (offset : Nat) :
    isBoundary input.content (input.previousWordBoundary unicode offset) = true := by
  refine h.isBoundary_found (.inl rfl) (isBoundary_zero _) fun piece hfind => ?_
  have hmem := List.mem_reverse.mp (List.mem_of_find?_eq_some hfind)
  exact (isBoundary_of_mem_indices (unicode.wordBounds_flatten _) hmem).1

theorem Valid.nextWordBoundary (h : Valid input) (unicode : Segmentation) (offset : Nat) :
    isBoundary input.content (input.nextWordBoundary unicode offset) = true := by
  refine h.isBoundary_found (.inr rfl) (isBoundary_end _) fun piece hfind => ?_
  have hmem := List.mem_of_find?_eq_some hfind
  exact (isBoundary_of_mem_indices (unicode.wordBounds_flatten _) hmem).2

theorem exists_lineRangeAt {offset : Nat}
    (hoffset : isBoundary input.content offset = true) :
    ∃ line, input.lineRangeAt offset = some line ∧ isBoundary input.content line.start = true ∧
      isBoundary input.content line.stop = true := by
  obtain ⟨before, after, htext, rfl⟩ := isBoundary_iff.mp hoffset
  obtain ⟨line, hline⟩ := List.rdropWhile_prefix (· ≠ '\n') before
  obtain ⟨rest, hrest⟩ := List.takeWhile_prefix (· ≠ '\n') (l := after)
  refine ⟨_, by rw [ComposerInput.lineRangeAt, htext, splitAt?_append]; rfl, ?_, ?_⟩
  · rw [htext]
    conv => enter [1, 1, 1]; rw [← hline]
    rw [List.append_assoc]
    exact isBoundary_utf8Len _ _
  · rw [htext]
    conv => enter [1, 1, 2]; rw [← hrest]
    rw [isBoundary_append_right]
    exact isBoundary_utf8Len _ _

/-! ### Edits -/

theorem exists_splice {content : List Char} (h : ValidRange content range) :
    ∃ before middle after, content = before ++ (middle ++ after) ∧ range.start = utf8Len before ∧
      splitAt? range.stop content = some (before ++ middle, after) ∧
      ∀ newText, splice content range newText = some (before ++ newText ++ after) := by
  obtain ⟨before, middle, after, rfl, hstart, hstop⟩ := h.exists_split
  obtain ⟨start, stop⟩ := range
  dsimp only at hstart hstop
  subst hstart hstop
  refine ⟨before, middle, after, rfl, rfl, ?_, splice_split before middle after⟩
  rw [← List.append_assoc, splitAt?_append]

theorem validRange_inside {middle : List Char} (h : ValidRange middle range)
    (before after : List Char) :
    ValidRange (before ++ middle ++ after)
      ⟨range.start + utf8Len before, range.stop + utf8Len before⟩ := by
  have hinside : ∀ n, isBoundary middle n = true →
      isBoundary (before ++ middle ++ after) (n + utf8Len before) = true := by
    intro n hn
    rw [List.append_assoc, Nat.add_comm, isBoundary_append_right,
      isBoundary_append_left (isBoundary_le hn), hn]
  exact ⟨Nat.add_le_add_right h.le _, hinside _ h.start, hinside _ h.stop⟩

theorem validRange_before {before rest : List Char} (h : ValidRange (before ++ rest) range)
    (hle : range.stop ≤ utf8Len before) (rest' : List Char) :
    ValidRange (before ++ rest') range := by
  have hstart := Nat.le_trans h.le hle
  refine ⟨h.le, ?_, ?_⟩
  · rw [isBoundary_append_left hstart, ← isBoundary_append_left hstart rest, h.start]
  · rw [isBoundary_append_left hle, ← isBoundary_append_left hle rest, h.stop]

theorem Valid.snapshot (h : Valid input) :
    ValidRange input.snapshot.content input.snapshot.selectedRange :=
  h.selection

theorem Valid.pushUndo (h : Valid input) : Valid input.pushUndo := by
  refine { h with undo := fun snapshot hmem => ?_ }
  have hcons : snapshot ∈ input.snapshot :: input.undoStack := by
    rw [ComposerInput.pushUndo, pushStep] at hmem
    dsimp only at hmem
    split_ifs at hmem
    · exact List.dropLast_subset _ hmem
    · exact hmem
  obtain rfl | hmem := List.mem_cons.mp hcons
  · exact h.snapshot
  · exact h.undo _ hmem

theorem Valid.recordEdit (h : Valid input) (range : ByteRange) (newText : List Char) :
    Valid (input.recordEdit range newText) := by
  have hpushed : Valid (if input.mergeable range newText then input else input.pushUndo) := by
    split_ifs
    · exact h
    · exact h.pushUndo
  exact { hpushed with redo := fun _ hmem => absurd hmem List.not_mem_nil }

/-- What an operation gives: it fails at no slice, and the offsets stay valid. -/
def Keeps (result : Option ComposerInput) : Prop := ∃ input, result = some input ∧ Valid input

theorem Valid.editRange (h : Valid input) (rangeUtf16 : Option Utf16Range) :
    ValidRange input.content (input.editRange rangeUtf16) := by
  refine h.normalize ?_
  cases rangeUtf16 with
  | some range => exact validRange_rangeFromUtf16 _ range
  | none =>
      cases hmarked : input.markedRange with
      | some marked => exact h.marked marked hmarked
      | none => exact h.selection

theorem Valid.refreshed (h : Valid input) {content : List Char} {selectedRange : ByteRange}
    {markedRange : Option ByteRange} (hselection : ValidRange content selectedRange)
    (hmarked : ∀ range ∈ markedRange, ValidRange content range) {projection : TextProjection}
    (haligned : Aligned 0 0 content projection.display projection.mentions) :
    Valid { input with content, projection, selectedRange, markedRange } :=
  ⟨haligned, hselection, hmarked, h.undo, h.redo⟩

theorem Valid.replaceTextInRange (h : Valid input) (rangeUtf16 : Option Utf16Range)
    (newText : List Char) : Keeps (input.replaceTextInRange rangeUtf16 newText) := by
  obtain ⟨before, middle, after, -, hstart, -, hsplice⟩ := exists_splice (h.editRange rangeUtf16)
  rw [ComposerInput.replaceTextInRange, hsplice]
  dsimp only [Option.bind_eq_bind, Option.bind_some]
  generalize hrecorded : (if input.markedRange.isNone then
    input.recordEdit (input.editRange rangeUtf16) newText else input) = recorded
  have hvalid : Valid recorded := by
    rw [← hrecorded]
    split_ifs
    · exact h.recordEdit _ _
    · exact h
  obtain ⟨projection, hrefresh, haligned⟩ := exists_refreshProjection
    { recorded with content := before ++ newText ++ after }
  rw [hrefresh]
  refine ⟨_, rfl, hvalid.refreshed (validRange_empty ?_) (by simp) haligned⟩
  rw [hstart, ← utf8Len_append]
  exact isBoundary_utf8Len _ _

theorem validRange_composed {before : List Char} {start : Nat} (hstart : start = utf8Len before)
    (newText after : List Char) :
    ValidRange (before ++ newText ++ after) ⟨start, start + utf8Len newText⟩ := by
  have hall : ValidRange newText ⟨0, utf8Len newText⟩ :=
    ⟨Nat.zero_le _, isBoundary_zero _, isBoundary_end newText⟩
  have hwhole := validRange_inside hall before after
  rwa [Nat.zero_add, Nat.add_comm, ← hstart] at hwhole

theorem validRange_composedSelection {before newText after : List Char} {start : Nat}
    (hstart : start = utf8Len before) {newSelectedRangeUtf16 : Option Utf16Range}
    (hmeasured : ∀ selected ∈ newSelectedRangeUtf16,
      rangeFromUtf16 (before ++ newText ++ after) selected = rangeFromUtf16 newText selected) :
    ValidRange (before ++ newText ++ after)
      (composedSelection (before ++ newText ++ after) start newText newSelectedRangeUtf16) := by
  cases newSelectedRangeUtf16 with
  | none => exact (validRange_composed hstart newText after).stop_empty
  | some selected =>
      rw [composedSelection, hmeasured selected rfl, hstart]
      exact validRange_inside (validRange_rangeFromUtf16 newText selected) before after

/-- The selection a composition asks for is measured in the composed text, as in the draft with it. -/
def MeasuredInComposition (input : ComposerInput) (rangeUtf16 : Option Utf16Range)
    (newText : List Char) (newSelectedRangeUtf16 : Option Utf16Range) : Prop :=
  ∀ selected ∈ newSelectedRangeUtf16, ∀ content,
    splice input.content (input.editRange rangeUtf16) newText = some content →
      rangeFromUtf16 content selected = rangeFromUtf16 newText selected

theorem Valid.replaceAndMarkTextInRange (h : Valid input) (rangeUtf16 : Option Utf16Range)
    (newText : List Char) (newSelectedRangeUtf16 : Option Utf16Range) :
    ∃ input', input.replaceAndMarkTextInRange rangeUtf16 newText newSelectedRangeUtf16 = some input' ∧
      (MeasuredInComposition input rangeUtf16 newText newSelectedRangeUtf16 → Valid input') := by
  obtain ⟨before, middle, after, -, hstart, -, hsplice⟩ := exists_splice (h.editRange rangeUtf16)
  rw [ComposerInput.replaceAndMarkTextInRange, hsplice]
  dsimp only [Option.bind_eq_bind, Option.bind_some]
  generalize hrecorded : (if input.markedRange.isNone then
    { input.pushUndo with redoStack := [], lastEdit := none } else input) = recorded
  have hvalid : Valid recorded := by
    rw [← hrecorded]
    split_ifs
    · exact { h.pushUndo with redo := fun _ hmem => absurd hmem List.not_mem_nil }
    · exact h
  obtain ⟨projection, hrefresh, haligned⟩ := exists_refreshProjection
    { recorded with content := before ++ newText ++ after }
  rw [hrefresh]
  refine ⟨_, rfl, fun hmeasured => hvalid.refreshed ?_ (fun marked hmem => ?_) haligned⟩
  · refine validRange_composedSelection hstart fun selected hmem => ?_
    exact hmeasured selected hmem _ (hsplice newText)
  · split_ifs at hmem
    · cases hmem
    · cases hmem
      exact validRange_composed hstart newText after

theorem Valid.replaceToken (h : Valid input) (hrange : ValidRange input.content range)
    (replacement : List Char) :
    ∃ input', input.replaceToken range replacement = some input' ∧
      ((∀ marked ∈ input.markedRange, marked.stop ≤ range.start) → Valid input') := by
  obtain ⟨before, middle, after, hcontent, hstart, hstop, hsplice⟩ := exists_splice hrange
  rw [ComposerInput.replaceToken, hstop]
  dsimp only [Option.bind_eq_bind, Option.bind_some]
  generalize (if (existingSeparator after).isSome then replacement else replacement ++ [' ']) =
    inserted
  rw [hsplice]
  dsimp only [Option.bind_some]
  have hvalid := h.recordEdit range inserted
  have hmark := recordEdit_markedRange input range inserted
  generalize input.recordEdit range inserted = recorded at hvalid hmark ⊢
  obtain ⟨projection, hrefresh, haligned⟩ := exists_refreshProjection
    { recorded with content := before ++ inserted ++ after }
  rw [hrefresh]
  refine ⟨_, rfl, fun hmarked => ⟨haligned, validRange_empty ?_, ?_, hvalid.undo, hvalid.redo⟩⟩
  · rw [hstart, ← utf8Len_append]
    cases hseparator : existingSeparator after with
    | none => exact isBoundary_utf8Len _ _
    | some c =>
        obtain ⟨rest, rfl⟩ := List.head?_eq_some_iff.mp (Option.eq_some_of_filter_eq_some hseparator)
        rw [Option.map_some, Option.getD_some, ← utf8Len_append, ← List.singleton_append,
          ← List.append_assoc]
        exact isBoundary_utf8Len _ _
  · intro marked hmem
    rw [List.append_assoc]
    rw [hmark] at hmem
    have hrange := h.marked marked hmem
    rw [hcontent] at hrange
    exact validRange_before hrange (hstart ▸ hmarked marked hmem) _

theorem replaceMention_eq (input : ComposerInput) (range : ByteRange) (path : List Char)
    (isDir : Bool) :
    (input.replaceMention range path isDir).map
        (fun input' => (input'.content, input'.selectedRange.stop)) =
      Mentions.replaceMention input.content range.start range.stop path isDir := by
  rw [replaceMention, replaceToken, Mentions.replaceMention]
  cases hstop : splitAt? range.stop input.content with
  | none => rfl
  | some split =>
      dsimp only [Option.bind_eq_bind, Option.bind_some]
      generalize (if (existingSeparator split.2).isSome then localFileLink path isDir
        else localFileLink path isDir ++ [' ']) = inserted
      cases hstart : splitAt? range.start input.content with
      | none =>
          rw [splice, hstart]
          rfl
      | some split' =>
          have hsplice : splice input.content range inserted =
              some (split'.1 ++ inserted ++ split.2) := by
            rw [splice, hstart, hstop]
            rfl
          obtain ⟨projection, hrefresh, -⟩ := exists_refreshProjection
            { input.recordEdit range inserted with content := split'.1 ++ inserted ++ split.2 }
          rw [hsplice]
          dsimp only [Option.bind_some]
          rw [hrefresh]
          rfl

/-! ### Tokens -/

theorem isBoundary_takeWhile (p : Char → Bool) (text : List Char) :
    isBoundary text (utf8Len (text.takeWhile p)) = true := by
  have hsplit := isBoundary_utf8Len (text.takeWhile p) (text.dropWhile p)
  rwa [List.takeWhile_append_dropWhile] at hsplit

theorem isBoundary_take (text : List Char) (n : Nat) :
    isBoundary text (utf8Len (text.take n)) = true := by
  have hsplit := isBoundary_utf8Len (text.take n) (text.drop n)
  rwa [List.take_append_drop] at hsplit

theorem validRange_mentionToken {cursor : Nat} {query : List Char}
    (h : mentionToken text cursor = some (range, query)) :
    ValidRange text range := by
  simp only [mentionToken, Option.bind_eq_bind, Option.bind_eq_some_iff, Prod.exists,
    Option.ite_none_left_eq_some, Option.some_inj, Prod.mk.injEq] at h
  obtain ⟨before, after, hsplit, -, -, rfl, -⟩ := h
  obtain ⟨rfl, rfl⟩ := splitAt?_eq_some.mp hsplit
  have hfront := isBoundary_take before
    (before.length - (((before.rtakeWhile (!isWhitespace ·)).rtakeWhile (· ≠ '@')).length + 1))
  have hle := isBoundary_le hfront
  refine ⟨Nat.le_trans hle (Nat.le_add_right _ _), ?_, ?_⟩
  · exact (isBoundary_append_left hle after).trans hfront
  · exact (isBoundary_append_right before after _).trans (isBoundary_takeWhile _ after)

theorem validRange_slashToken {cursor : Nat} {query : List Char}
    (h : slashToken text cursor = some (range, query)) :
    ValidRange text range := by
  simp only [slashToken, Option.ite_none_left_eq_some, Option.bind_eq_some_iff, Option.some_inj,
    Prod.mk.injEq] at h
  obtain ⟨-, -, query', -, -, rfl, -⟩ := h
  exact ⟨Nat.zero_le _, isBoundary_zero _, isBoundary_takeWhile _ text⟩

/-! ### The history, the layout and the handlers -/

theorem Valid.restore (h : Valid input) {snapshot : EditSnapshot}
    (hsnapshot : ValidRange snapshot.content snapshot.selectedRange) :
    Keeps (input.restore snapshot) := by
  obtain ⟨projection, hrefresh, haligned⟩ := exists_refreshProjection
    { input with
      content := snapshot.content
      selectedRange := snapshot.selectedRange
      selectionReversed := snapshot.selectionReversed
      markedRange := none
      lastEdit := none }
  exact ⟨_, hrefresh, haligned, hsnapshot, by simp, h.undo, h.redo⟩

theorem Valid.keeps_undo (h : Valid input) : Keeps input.undo := by
  rw [ComposerInput.undo]
  cases hstack : input.undoStack with
  | nil => exact ⟨_, rfl, h⟩
  | cons previous undoStack =>
      have hvalid : Valid { input with undoStack, redoStack := input.snapshot :: input.redoStack } :=
        { h with
          undo := fun snapshot hmem => h.undo _ (hstack ▸ List.mem_cons_of_mem _ hmem)
          redo := List.forall_mem_cons.mpr ⟨h.snapshot, h.redo⟩ }
      exact hvalid.restore (h.undo _ (hstack ▸ List.mem_cons_self ..))

theorem Valid.keeps_redo (h : Valid input) : Keeps input.redo := by
  rw [ComposerInput.redo]
  cases hstack : input.redoStack with
  | nil => exact ⟨_, rfl, h⟩
  | cons next redoStack =>
      have hvalid : Valid { input with redoStack, undoStack := input.snapshot :: input.undoStack } :=
        { h with
          undo := List.forall_mem_cons.mpr ⟨h.snapshot, h.undo⟩
          redo := fun snapshot hmem => h.redo _ (hstack ▸ List.mem_cons_of_mem _ hmem) }
      exact hvalid.restore (h.redo _ (hstack ▸ List.mem_cons_self ..))

theorem keeps_setText (input : ComposerInput) (text : List Char) : Keeps (input.setText text) := by
  obtain ⟨projection, hrefresh, haligned⟩ := exists_refreshProjection
    { input with
      content := text
      selectedRange := ⟨utf8Len text, utf8Len text⟩
      selectionReversed := false
      markedRange := none
      undoStack := []
      redoStack := []
      lastEdit := none }
  exact ⟨_, hrefresh, haligned, validRange_empty (isBoundary_end text), by simp, by simp, by simp⟩

theorem Valid.refreshProjection (h : Valid input) : ∃ projection,
    input.refreshProjection = some { input with projection } ∧ Valid { input with projection } := by
  obtain ⟨projection, hrefresh, haligned⟩ := exists_refreshProjection input
  exact ⟨projection, hrefresh, { h with aligned := haligned }⟩

theorem Valid.enableMentions (h : Valid input) : Keeps input.enableMentions := by
  have hvalid : Valid { input with mentionsEnabled := true } := { h with }
  obtain ⟨projection, hrefresh, hkeeps⟩ := hvalid.refreshProjection
  exact ⟨_, hrefresh, hkeeps⟩

theorem Valid.rawToDisplay_le (h : Valid input) {offset : Nat}
    (hoffset : isBoundary input.content offset = true) :
    input.projection.rawToDisplay offset ≤ utf8Len input.projection.display := by
  have hmaps := TextProjection.mapsOffsets h.aligned
  rw [← hmaps.stop]
  exact hmaps.mono _ _ (isBoundary_le hoffset)

theorem Valid.layoutText (h : Valid input) : Keeps input.layoutText := by
  obtain ⟨projection, hrefresh, hkeeps⟩ := h.refreshProjection
  rw [ComposerInput.layoutText, hrefresh]
  dsimp only [Option.bind_eq_bind, Option.bind_some]
  have hmarked : (input.markedRange.all fun marked =>
      projection.rawToDisplay marked.stop ≤ utf8Len projection.display) = true := by
    cases hmark : input.markedRange with
    | none => rfl
    | some marked => exact decide_eq_true (hkeeps.rawToDisplay_le (h.marked marked hmark).stop)
  rw [if_pos hmarked]
  split_ifs
  · exact ⟨_, rfl, { hkeeps with }⟩
  · exact ⟨_, rfl, { hkeeps with }⟩

theorem Valid.backspace (h : Valid input) (unicode : Segmentation) :
    Keeps (input.backspace unicode) := by
  rw [ComposerInput.backspace]
  dsimp only
  split_ifs
  · exact h.replaceTextInRange none []
  · exact ⟨_, rfl, h⟩
  · exact (h.selectTo (h.previousBoundary unicode _)).replaceTextInRange none []

theorem Valid.delete (h : Valid input) (unicode : Segmentation) : Keeps (input.delete unicode) := by
  rw [ComposerInput.delete]
  dsimp only
  split_ifs
  · exact h.replaceTextInRange none []
  · exact ⟨_, rfl, h⟩
  · exact (h.selectTo (h.nextBoundary unicode _)).replaceTextInRange none []

theorem Valid.deleteTo (h : Valid input) {offset : Nat}
    (hoffset : isBoundary input.content offset = true) : Keeps (input.deleteTo offset) := by
  rw [ComposerInput.deleteTo]
  split_ifs
  · exact h.replaceTextInRange none []
  · exact ⟨_, rfl, h⟩
  · exact (h.selectTo hoffset).replaceTextInRange none []

theorem Valid.left (h : Valid input) (unicode : Segmentation) : Valid (input.left unicode) := by
  rw [ComposerInput.left]
  split_ifs
  · exact h.moveTo h.selection.start
  · exact h.moveTo (h.previousBoundary unicode _)

theorem Valid.right (h : Valid input) (unicode : Segmentation) : Valid (input.right unicode) := by
  rw [ComposerInput.right]
  split_ifs
  · exact h.moveTo h.selection.stop
  · exact h.moveTo (h.nextBoundary unicode _)

theorem Valid.lineRange (h : Valid input) : ∃ line,
    input.lineRangeAt input.cursorOffset = some line ∧ isBoundary input.content line.start = true ∧
      isBoundary input.content line.stop = true :=
  exists_lineRangeAt h.cursorOffset

theorem Valid.exists_copy (h : Valid input) : ∃ text, input.copy = some text := by
  obtain ⟨before, middle, after, hcontent, hstart, hstop⟩ := h.selection.exists_split
  rw [copy, hcontent, hstart, hstop, utf8Len_append, slice?_append]
  split_ifs
  · exact ⟨_, rfl⟩
  · exact ⟨_, rfl⟩

theorem Valid.cut (h : Valid input) : Keeps input.cut := by
  obtain ⟨text, hcopy⟩ := h.exists_copy
  rw [ComposerInput.cut, hcopy, Option.bind_some]
  split_ifs
  · exact h.replaceTextInRange none []
  · exact ⟨_, rfl, h⟩

/-! ### Points -/

/-- The text that is shown is the one that is laid out, and the hit cuts no character of it. -/
def SoundHit (input : ComposerInput) : Hit → Prop
  | .shaped ix => input.displayIsPlaceholder = true ∨
      input.shaped = input.projection.display ∧ isBoundary input.shaped ix = true
  | _ => True

theorem Valid.indexForPoint (h : Valid input) {hit : Hit} (hsound : SoundHit input hit) :
    isBoundary input.content (input.indexForPoint hit) = true := by
  cases hit with
  | above => exact isBoundary_zero _
  | below => exact isBoundary_end _
  | shaped ix =>
      rw [ComposerInput.indexForPoint]
      split_ifs with hplaceholder
      · exact isBoundary_zero _
      · obtain ⟨hshaped, hboundary⟩ := hsound.resolve_left hplaceholder
        rw [hshaped] at hboundary
        rw [Nat.min_eq_left (isBoundary_le hboundary)]
        exact ((TextProjection.mapsOffsets h.aligned).back ix hboundary).1

/-- A token that is replaced while something is composed stands behind the composition. -/
def SoundToken (input : ComposerInput) (token : Option (ByteRange × List Char)) : Prop :=
  ∀ marked ∈ input.markedRange, ∀ found ∈ token, marked.stop ≤ found.1.start

theorem Valid.acceptMention (h : Valid input) (cursor : Nat) (path : List Char) (isDir : Bool) :
    ∃ input', input.acceptMention cursor path isDir = some input' ∧
      (SoundToken input (mentionToken input.content cursor) → Valid input') := by
  rw [ComposerInput.acceptMention]
  cases htoken : mentionToken input.content cursor with
  | none => exact ⟨_, rfl, fun _ => h⟩
  | some token =>
      obtain ⟨input', hreplace, hvalid⟩ := h.replaceToken (validRange_mentionToken htoken)
        (localFileLink path isDir)
      exact ⟨input', hreplace, fun hsound => hvalid fun marked hmem => hsound marked hmem token rfl⟩

theorem Valid.acceptSlash (h : Valid input) (cursor : Nat) (name : List Char) :
    ∃ input', input.acceptSlash cursor name = some input' ∧
      (SoundToken input (slashToken input.content cursor) → Valid input') := by
  rw [ComposerInput.acceptSlash]
  cases htoken : slashToken input.content cursor with
  | none => exact ⟨_, rfl, fun _ => h⟩
  | some token =>
      obtain ⟨input', hreplace, hvalid⟩ := h.replaceToken (validRange_slashToken htoken) ('/' :: name)
      exact ⟨input', hreplace, fun hsound => hvalid fun marked hmem => hsound marked hmem token rfl⟩

end ComposerInput

/-! ### Runs -/

open ComposerInput

/-- What keeps the offsets valid where the code does not see to it. -/
def Sound (input : ComposerInput) : Operation → Prop
  | .replaceAndMarkTextInRange range text selected => MeasuredInComposition input range text selected
  | .acceptMention cursor _ _ => SoundToken input (mentionToken input.content cursor)
  | .acceptSlash cursor _ => SoundToken input (slashToken input.content cursor)
  | .upOrDown hit => ∀ point ∈ hit, SoundHit input point
  | .selectUpOrDown hit => ∀ point ∈ hit, SoundHit input point
  | .onMouseDown _ hit => SoundHit input hit
  | .onMouseMove hit => SoundHit input hit
  | _ => True

/-- No operation fails at a slice, and a sound one keeps the offsets valid. -/
theorem step_valid {input : ComposerInput} (h : Valid input) (unicode : Segmentation)
    (operation : Operation) : ∃ input', step unicode input operation = some input' ∧
      (Sound input operation → Valid input') := by
  have hkeeps : ∀ {result}, Keeps result → ∃ input', result = some input' ∧
      (Sound input operation → Valid input') := by
    rintro result ⟨input', hresult, hvalid⟩
    exact ⟨input', hresult, fun _ => hvalid⟩
  have hgives : ∀ {input'}, Valid input' → ∃ result, some input' = some result ∧
      (Sound input operation → Valid result) :=
    fun hvalid => ⟨_, rfl, fun _ => hvalid⟩
  obtain ⟨line, hline, hstart, hstop⟩ := h.lineRange
  cases operation with
  | backspace => exact hkeeps (h.backspace unicode)
  | delete => exact hkeeps (h.delete unicode)
  | left => exact hgives (h.left unicode)
  | right => exact hgives (h.right unicode)
  | upOrDown hit =>
      refine ⟨_, rfl, fun hsound => ?_⟩
      rw [upOrDown]
      split_ifs
      · exact h
      · cases hit with
        | none => exact h
        | some point => exact h.moveTo (h.indexForPoint (hsound point rfl))
  | selectUpOrDown hit =>
      refine ⟨_, rfl, fun hsound => ?_⟩
      cases hit with
      | none => exact h
      | some point => exact h.selectTo (h.indexForPoint (hsound point rfl))
  | selectLeft => exact hgives (h.selectTo (h.previousBoundary unicode _))
  | selectRight => exact hgives (h.selectTo (h.nextBoundary unicode _))
  | selectAll =>
      exact hgives ((h.moveTo (isBoundary_zero _)).selectTo (isBoundary_end input.content))
  | home => exact hkeeps ⟨_, by rw [step, home, hline]; rfl, h.moveTo hstart⟩
  | «end» => exact hkeeps ⟨_, by rw [step, ComposerInput.end, hline]; rfl, h.moveTo hstop⟩
  | selectHome => exact hkeeps ⟨_, by rw [step, selectHome, hline]; rfl, h.selectTo hstart⟩
  | selectEnd => exact hkeeps ⟨_, by rw [step, selectEnd, hline]; rfl, h.selectTo hstop⟩
  | docStart => exact hgives (h.moveTo (isBoundary_zero _))
  | docEnd => exact hgives (h.moveTo (isBoundary_end _))
  | selectDocStart => exact hgives (h.selectTo (isBoundary_zero _))
  | selectDocEnd => exact hgives (h.selectTo (isBoundary_end _))
  | wordLeft => exact hgives (h.moveTo (h.previousWordBoundary unicode _))
  | wordRight => exact hgives (h.moveTo (h.nextWordBoundary unicode _))
  | selectWordLeft => exact hgives (h.selectTo (h.previousWordBoundary unicode _))
  | selectWordRight => exact hgives (h.selectTo (h.nextWordBoundary unicode _))
  | deleteWordLeft => exact hkeeps (h.deleteTo (h.previousWordBoundary unicode _))
  | deleteWordRight => exact hkeeps (h.deleteTo (h.nextWordBoundary unicode _))
  | deleteToLineStart =>
      obtain ⟨input', hdelete, hvalid⟩ := h.deleteTo hstart
      exact hkeeps ⟨input', by rw [step, deleteToLineStart, hline, Option.bind_some, hdelete], hvalid⟩
  | deleteToLineEnd =>
      obtain ⟨input', hdelete, hvalid⟩ := h.deleteTo hstop
      exact hkeeps ⟨input', by rw [step, deleteToLineEnd, hline, Option.bind_some, hdelete], hvalid⟩
  | copy =>
      obtain ⟨text, hcopy⟩ := h.exists_copy
      exact hkeeps ⟨input, by rw [step, hcopy, Option.map_some], h⟩
  | cut => exact hkeeps h.cut
  | paste text => exact hkeeps (h.replaceTextInRange none text)
  | newline => exact hkeeps (h.replaceTextInRange none ['\n'])
  | undo => exact hkeeps h.keeps_undo
  | redo => exact hkeeps h.keeps_redo
  | setText text => exact hkeeps (keeps_setText input text)
  | enableMentions => exact hkeeps h.enableMentions
  | setMentionControls hasSelection => exact hgives { h with }
  | acceptMention cursor path isDir => exact h.acceptMention cursor path isDir
  | acceptSlash cursor name => exact h.acceptSlash cursor name
  | replaceTextInRange range text => exact hkeeps (h.replaceTextInRange range text)
  | replaceAndMarkTextInRange range text selected =>
      exact h.replaceAndMarkTextInRange range text selected
  | unmarkText => exact hgives { h with marked := by simp [unmarkText] }
  | selectedTextRange => exact hgives { h with selection := h.normalize h.selection }
  | layoutText => exact hkeeps h.layoutText
  | onMouseDown shift hit =>
      refine ⟨_, rfl, fun hsound => ?_⟩
      have hvalid : Valid { input with isSelecting := true } := { h with }
      rw [onMouseDown]
      split_ifs
      · exact hvalid.selectTo (hvalid.indexForPoint hsound)
      · exact hvalid.moveTo (hvalid.indexForPoint hsound)
  | onMouseMove hit =>
      refine ⟨_, rfl, fun hsound => ?_⟩
      rw [onMouseMove]
      split_ifs
      · exact h.selectTo (h.indexForPoint hsound)
      · exact h
  | onMouseUp | pause time => exact hgives { h with }

theorem valid_init {unicode : Segmentation} {input : ComposerInput} (h : (machine unicode).init input) :
    Valid input := by
  obtain ⟨placeholder, now, rfl⟩ := h
  exact ⟨.text 0 0 [], validRange_empty rfl, by simp, by simp, by simp⟩

/-- The offsets an input holds are on boundaries of its draft. -/
structure OffsetsValid (input : ComposerInput) : Prop where
  selection : ValidRange input.content input.selectedRange
  length : input.selectedRange.stop ≤ utf8Len input.content
  marked : ∀ range ∈ input.markedRange, ValidRange input.content range

/-- In a run of sound operations the offsets are valid, and the next operation fails at no slice. -/
theorem run_keeps_offsets (unicode : Segmentation) {input : ComposerInput}
    (h : (machine unicode).ReachableWhen Sound input) :
    OffsetsValid input ∧
      ∀ operation, ∃ input', step unicode input operation = some input' := by
  have hvalid : Valid input := by
    refine h.invariant (fun _ => valid_init) ?_
    intro input operation input' hinv hsound hstep
    obtain ⟨result, hresult, hkeeps⟩ := step_valid hinv unicode operation
    cases hresult.symm.trans hstep
    exact hkeeps hsound
  refine ⟨⟨hvalid.selection, hvalid.selection.stop_le, hvalid.marked⟩, fun operation => ?_⟩
  obtain ⟨input', hstep, -⟩ := step_valid hvalid unicode operation
  exact ⟨input', hstep⟩

/-- Every character is a cluster and a word. -/
def characters : Segmentation where
  graphemes text := text.map ([·])
  wordBounds text := text.map ([·])
  graphemes_flatten text := by rw [← List.flatMap_def, List.flatMap_singleton']
  wordBounds_flatten text := by rw [← List.flatMap_def, List.flatMap_singleton']

theorem offsets_after_typing : ∃ input,
    (machine characters).run { placeholder := [], now := 0 }
      [.paste ['é'], .replaceAndMarkTextInRange none ['a'] none] = some input ∧
    OffsetsValid input ∧ ∀ operation, ∃ input', step characters input operation = some input' := by
  have hinit : (machine characters).init { placeholder := [], now := 0 } := ⟨[], 0, rfl⟩
  obtain ⟨typed, htyped, hvalid⟩ := step_valid (valid_init hinit) characters (.paste ['é'])
  obtain ⟨input, hinput, -⟩ := step_valid (hvalid trivial) characters
    (.replaceAndMarkTextInRange none ['a'] none)
  have hreached : (machine characters).ReachableWhen Sound input :=
    ⟨_, hinit, .head (a := .paste ['é']) trivial htyped
      (.head (a := .replaceAndMarkTextInRange none ['a'] none) (fun _ hmem => nomatch hmem) hinput
        (.refl input))⟩
  refine ⟨input, ?_, run_keeps_offsets characters hreached⟩
  refine Option.bind_eq_some_iff.mpr ⟨typed, htyped, Option.bind_eq_some_iff.mpr ?_⟩
  exact ⟨input, hinput, rfl⟩

/-- A letter is composed behind another: the selection in it is measured from the start of the draft. -/
theorem composed_selection_outside : ∃ input,
    (machine characters).run { placeholder := [], now := 0 }
      [.paste ['é'], .replaceAndMarkTextInRange none ['a'] (some ⟨1, 1, Nat.le_refl 1⟩)] =
        some input ∧
    ¬OffsetsValid input ∧ step characters input .home = none := by
  have hrun : ((machine characters).run { placeholder := [], now := 0 }
      [.paste ['é'], .replaceAndMarkTextInRange none ['a'] (some ⟨1, 1, Nat.le_refl 1⟩)]).map
        (fun input => (input.content, input.selectedRange, step characters input .home)) =
      some (['é', 'a'], ⟨4, 4⟩, none) := by
    decide +kernel
  obtain ⟨input, hinput, hstate⟩ := Option.map_eq_some_iff.mp hrun
  rw [Prod.mk.injEq, Prod.mk.injEq] at hstate
  obtain ⟨hcontent, hselected, hhome⟩ := hstate
  refine ⟨input, hinput, fun hvalid => ?_, hhome⟩
  have hlength := hvalid.length
  rw [hcontent, hselected] at hlength
  exact absurd hlength (by decide)

end Zeron.Ui.Composer
