import Zeron.Lib.Timeline
import Zeron.Ui.EditorOffsets

/-!
# Undo in the composer's input

What each operation does to the history: it leaves it alone, records a step, goes on with the last one,
or moves in it. From that, what undoing and redoing to the end come to.
-/

namespace Zeron.Ui.Composer

open Zeron.Lib (Timeline)
open Zeron.Lib.Utf8
open Zeron.Ui.Mentions (existingSeparator localFileLink)
open Zeron.Ui.Projection (ByteRange TextProjection)

variable {text : List Char}

namespace ComposerInput

def timeline (input : ComposerInput) : Timeline (List Char) :=
  ⟨input.undoStack.map (·.content), input.content, input.redoStack.map (·.content)⟩

def undoTimes : Nat → ComposerInput → Option ComposerInput
  | 0, input => some input
  | n + 1, input => input.undo.bind (undoTimes n)

def redoTimes : Nat → ComposerInput → Option ComposerInput
  | 0, input => some input
  | n + 1, input => input.redo.bind (redoTimes n)

def undoAll (input : ComposerInput) : Option ComposerInput := undoTimes input.undoStack.length input

def redoAll (input : ComposerInput) : Option ComposerInput := redoTimes input.redoStack.length input

/-! ### Moving in the history -/

theorem exists_restore (input : ComposerInput) (snapshot : EditSnapshot) : ∃ input',
    input.restore snapshot = some input' ∧ input'.content = snapshot.content ∧
      input'.undoStack = input.undoStack ∧ input'.redoStack = input.redoStack ∧
      input'.lastEdit = none ∧ input'.markedRange = none := by
  obtain ⟨projection, hrefresh, -⟩ := exists_refreshProjection
    { input with
      content := snapshot.content
      selectedRange := snapshot.selectedRange
      selectionReversed := snapshot.selectionReversed
      markedRange := none
      lastEdit := none }
  exact ⟨_, hrefresh, rfl, rfl, rfl, rfl, rfl⟩

theorem exists_undo (input : ComposerInput) : ∃ input', input.undo = some input' ∧
    input'.timeline = input.timeline.undo ∧
      (input' = input ∨ input'.lastEdit = none ∧ input'.markedRange = none) := by
  rw [undo, timeline, Timeline.undo]
  cases hstack : input.undoStack with
  | nil => exact ⟨input, rfl, by rw [timeline, hstack]; rfl, .inl rfl⟩
  | cons previous undoStack =>
      obtain ⟨input', hrestore, hcontent, hundo, hredo, hlast, hmarked⟩ := exists_restore
        { input with undoStack, redoStack := input.snapshot :: input.redoStack } previous
      refine ⟨input', hrestore, ?_, .inr ⟨hlast, hmarked⟩⟩
      rw [timeline, hcontent, hundo, hredo]
      rfl

theorem exists_redo (input : ComposerInput) : ∃ input', input.redo = some input' ∧
    input'.timeline = input.timeline.redo ∧
      (input' = input ∨ input'.lastEdit = none ∧ input'.markedRange = none) := by
  rw [redo, timeline, Timeline.redo]
  cases hstack : input.redoStack with
  | nil => exact ⟨input, rfl, by rw [timeline, hstack]; rfl, .inl rfl⟩
  | cons next redoStack =>
      obtain ⟨input', hrestore, hcontent, hundo, hredo, hlast, hmarked⟩ := exists_restore
        { input with redoStack, undoStack := input.snapshot :: input.undoStack } next
      refine ⟨input', hrestore, ?_, .inr ⟨hlast, hmarked⟩⟩
      rw [timeline, hcontent, hundo, hredo]
      rfl

theorem exists_undoTimes (n : Nat) (input : ComposerInput) : ∃ input',
    undoTimes n input = some input' ∧ input'.timeline = Timeline.undo^[n] input.timeline := by
  induction n generalizing input with
  | zero => exact ⟨input, rfl, rfl⟩
  | succ n ih =>
      obtain ⟨next, hundo, htimeline, -⟩ := exists_undo input
      obtain ⟨input', htimes, hresult⟩ := ih next
      refine ⟨input', by rw [undoTimes, hundo, Option.bind_some, htimes], ?_⟩
      rw [hresult, htimeline, Function.iterate_succ_apply]

theorem exists_redoTimes (n : Nat) (input : ComposerInput) : ∃ input',
    redoTimes n input = some input' ∧ input'.timeline = Timeline.redo^[n] input.timeline := by
  induction n generalizing input with
  | zero => exact ⟨input, rfl, rfl⟩
  | succ n ih =>
      obtain ⟨next, hredo, htimeline, -⟩ := exists_redo input
      obtain ⟨input', htimes, hresult⟩ := ih next
      refine ⟨input', by rw [redoTimes, hredo, Option.bind_some, htimes], ?_⟩
      rw [hresult, htimeline, Function.iterate_succ_apply]

theorem exists_undoAll (input : ComposerInput) : ∃ undone, input.undoAll = some undone ∧
    undone.undoStack = [] ∧ undone.content = input.timeline.first ∧
      undone.timeline.last = input.timeline.last := by
  obtain ⟨undone, hundo, htimeline⟩ := exists_undoTimes input.undoStack.length input
  obtain ⟨hpast, hpresent, hlast⟩ :=
    input.timeline.undo_iterate (n := input.undoStack.length) (List.length_map _)
  rw [← htimeline] at hpast hpresent hlast
  exact ⟨undone, hundo, List.map_eq_nil_iff.mp hpast, hpresent, hlast⟩

theorem exists_redoAll (input : ComposerInput) : ∃ redone, input.redoAll = some redone ∧
    redone.redoStack = [] ∧ redone.content = input.timeline.last := by
  obtain ⟨redone, hredo, htimeline⟩ := exists_redoTimes input.redoStack.length input
  obtain ⟨hfuture, hpresent⟩ :=
    input.timeline.redo_iterate (n := input.redoStack.length) (List.length_map _)
  rw [← htimeline] at hfuture hpresent
  exact ⟨redone, hredo, List.map_eq_nil_iff.mp hfuture, hpresent⟩

/-! ### What an operation does to the history -/

def typedText (input : ComposerInput) : Operation → Option (ByteRange × List Char)
  | .paste text => some (input.editRange none, text)
  | .newline => some (input.editRange none, ['\n'])
  | .replaceTextInRange range text => some (input.editRange range, text)
  | _ => none

inductive HistoryStep (input : ComposerInput) (operation : Operation) (input' : ComposerInput) : Prop
  /-- The draft and its history stay; a composition may end. -/
  | silent (hcontent : input'.content = input.content) (hundo : input'.undoStack = input.undoStack)
      (hredo : input'.redoStack = input.redoStack) (hlast : input'.lastEdit = input.lastEdit)
      (hmarked : input'.markedRange = input.markedRange ∨ input'.markedRange = none)
  /-- The draft as it was is a new step. -/
  | recorded (snapshot : EditSnapshot) (hsnapshot : snapshot.content = input.content)
      (hundo : input'.undoStack = pushStep snapshot input.undoStack) (hredo : input'.redoStack = [])
  /-- The edit goes on with the last one. -/
  | merged (range : ByteRange) (text : List Char) (hmergeable : input.mergeable range text = true)
      (htyped : text = [] ∨ typedText input operation = some (range, text))
      (hundo : input'.undoStack = input.undoStack)
  /-- The composition that began a step goes on. -/
  | composed (hmarked : input.markedRange ≠ none) (hundo : input'.undoStack = input.undoStack)
  | undone (hoperation : operation = .undo) (hundo : input.undo = some input')
  | redone (hoperation : operation = .redo) (hredo : input.redo = some input')

/-- Only the selection, the layout or the pointer differ. -/
structure SameDraft (input input' : ComposerInput) : Prop where
  content : input'.content = input.content
  undoStack : input'.undoStack = input.undoStack
  redoStack : input'.redoStack = input.redoStack
  lastEdit : input'.lastEdit = input.lastEdit
  markedRange : input'.markedRange = input.markedRange
  now : input'.now = input.now

variable {input input' : ComposerInput} {operation : Operation}

theorem SameDraft.refl (input : ComposerInput) : SameDraft input input := ⟨rfl, rfl, rfl, rfl, rfl, rfl⟩

theorem SameDraft.trans {input'' : ComposerInput} (h : SameDraft input input')
    (h' : SameDraft input' input'') : SameDraft input input'' where
  content := h'.content.trans h.content
  undoStack := h'.undoStack.trans h.undoStack
  redoStack := h'.redoStack.trans h.redoStack
  lastEdit := h'.lastEdit.trans h.lastEdit
  markedRange := h'.markedRange.trans h.markedRange
  now := h'.now.trans h.now

theorem SameDraft.silent (h : SameDraft input input') : HistoryStep input operation input' :=
  .silent h.content h.undoStack h.redoStack h.lastEdit (.inl h.markedRange)

theorem sameDraft_moveTo (input : ComposerInput) (offset : Nat) :
    SameDraft input (input.moveTo offset) :=
  ⟨rfl, rfl, rfl, rfl, rfl, rfl⟩

theorem sameDraft_selectTo (input : ComposerInput) (offset : Nat) :
    SameDraft input (input.selectTo offset) := by
  have hfields : ∀ selectionReversed selectedRange,
      SameDraft input { input with selectionReversed, selectedRange } :=
    fun _ _ => ⟨rfl, rfl, rfl, rfl, rfl, rfl⟩
  rw [selectTo]
  split_ifs
  · exact hfields _ _
  · exact hfields _ _
  · exact hfields _ _
  · exact hfields _ _

theorem SameDraft.mergeable (h : SameDraft input input') (range : ByteRange) (text : List Char) :
    input'.mergeable range text = input.mergeable range text := by
  rw [ComposerInput.mergeable, ComposerInput.mergeable, h.lastEdit, h.now]

theorem historyStep_recordEdit {edit : ComposerInput} (hsame : SameDraft input edit)
    {range : ByteRange}
    (htyped : text = [] ∨ typedText input operation = some (range, text) ∨
      edit.mergeable range text = false)
    (hundo : input'.undoStack = (edit.recordEdit range text).undoStack)
    (hredo : input'.redoStack = (edit.recordEdit range text).redoStack) :
    HistoryStep input operation input' := by
  rw [recordEdit] at hundo hredo
  cases hmergeable : edit.mergeable range text with
  | true =>
      rw [hmergeable, if_pos rfl] at hundo
      have hmerges := hsame.mergeable range text ▸ hmergeable
      refine .merged range text hmerges ?_ (hundo.trans hsame.undoStack)
      simpa [hmergeable] using htyped
  | false =>
      rw [hmergeable, if_neg Bool.false_ne_true] at hundo
      refine .recorded edit.snapshot hsame.content ?_ hredo
      rw [hundo, ← hsame.undoStack]
      rfl

theorem historyStep_replaceTextInRange {edit : ComposerInput} (hsame : SameDraft input edit)
    {rangeUtf16 : Option Utf16Range}
    (htyped : text = [] ∨ typedText input operation = some (edit.editRange rangeUtf16, text))
    (h : edit.replaceTextInRange rangeUtf16 text = some input') :
    HistoryStep input operation input' := by
  obtain ⟨content, -, h⟩ := Option.bind_eq_some_iff.mp h
  dsimp only at h
  generalize hrecorded : (if edit.markedRange.isNone then
    edit.recordEdit (edit.editRange rangeUtf16) text else edit) = recorded at h
  obtain ⟨projection, hrefresh, -⟩ := exists_refreshProjection { recorded with content }
  rw [hrefresh] at h
  obtain rfl := Option.some.inj h
  cases hmarked : edit.markedRange with
  | none =>
      rw [hmarked, Option.isNone_none, if_pos rfl] at hrecorded
      subst hrecorded
      exact historyStep_recordEdit hsame (htyped.imp_right .inl) rfl rfl
  | some marked =>
      rw [hmarked, Option.isNone_some, if_neg Bool.false_ne_true] at hrecorded
      subst hrecorded
      refine .composed ?_ hsame.undoStack
      rw [← hsame.markedRange, hmarked]
      exact Option.some_ne_none marked

theorem historyStep_replaceAndMark {rangeUtf16 selected : Option Utf16Range}
    (h : input.replaceAndMarkTextInRange rangeUtf16 text selected = some input') :
    HistoryStep input operation input' := by
  obtain ⟨content, -, h⟩ := Option.bind_eq_some_iff.mp h
  dsimp only at h
  generalize hrecorded : (if input.markedRange.isNone then
    { input.pushUndo with redoStack := [], lastEdit := none } else input) = recorded at h
  obtain ⟨projection, hrefresh, -⟩ := exists_refreshProjection { recorded with content }
  rw [hrefresh] at h
  obtain rfl := Option.some.inj h
  cases hmarked : input.markedRange with
  | none =>
      rw [hmarked, Option.isNone_none, if_pos rfl] at hrecorded
      subst hrecorded
      exact .recorded input.snapshot rfl rfl rfl
  | some marked =>
      rw [hmarked, Option.isNone_some, if_neg Bool.false_ne_true] at hrecorded
      subst hrecorded
      exact .composed (hmarked ▸ Option.some_ne_none marked) rfl

theorem not_mergeable {range : ByteRange} (htext : text ≠ [])
    (h : text.length ≠ 1 ∨ range.start < range.stop) : input.mergeable range text = false := by
  rw [ComposerInput.mergeable]
  split
  · refine decide_eq_false ?_
    rintro ⟨-, hrange, -, hlength, -⟩
    exact h.elim (fun hne => hne hlength) hrange
  · exact decide_eq_false fun hdelete => htext hdelete.1
  · rfl

theorem historyStep_replaceToken {range : ByteRange} {replacement : List Char}
    (hreplacement : replacement ≠ [])
    (hfresh : ∀ separator, input.mergeable range (replacement ++ separator) = false)
    (h : input.replaceToken range replacement = some input') :
    HistoryStep input operation input' ∧ (∃ offset time, input'.lastEdit = some (.insert, offset, time)) ∧
      input'.markedRange = input.markedRange := by
  obtain ⟨⟨before, after⟩, -, h⟩ := Option.bind_eq_some_iff.mp h
  dsimp only at h
  generalize hinserted : (if (existingSeparator after).isSome then replacement
    else replacement ++ [' ']) = inserted at h
  have hmergeable : input.mergeable range inserted = false := by
    rw [← hinserted]
    split_ifs
    · simpa using hfresh []
    · exact hfresh [' ']
  have hne : inserted ≠ [] := by
    rw [← hinserted]
    split_ifs
    · exact hreplacement
    · exact List.append_ne_nil_of_left_ne_nil hreplacement _
  obtain ⟨content, -, h⟩ := Option.bind_eq_some_iff.mp h
  obtain ⟨projection, hrefresh, -⟩ := exists_refreshProjection
    { input.recordEdit range inserted with content }
  rw [hrefresh] at h
  obtain rfl := Option.some.inj h
  refine ⟨historyStep_recordEdit (.refl input) (.inr (.inr hmergeable)) rfl rfl,
    ⟨range.start + utf8Len inserted, input.now, ?_⟩, recordEdit_markedRange input range inserted⟩
  dsimp only
  rw [recordEdit, if_neg hne]

theorem length_localFileLink (path : List Char) (isDir : Bool) :
    2 ≤ (localFileLink path isDir).length := by
  rw [localFileLink]
  simp only [List.length_append, List.length_cons]
  omega

theorem historyStep_acceptMention {cursor : Nat} {path : List Char} {isDir : Bool}
    {token : ByteRange × List Char} (htoken : mentionToken input.content cursor = some token)
    (h : input.acceptMention cursor path isDir = some input') :
    HistoryStep input operation input' ∧ (∃ offset time, input'.lastEdit = some (.insert, offset, time)) ∧
      input'.markedRange = input.markedRange := by
  have hlength := length_localFileLink path isDir
  have hne : localFileLink path isDir ≠ [] := List.ne_nil_of_length_pos (by omega)
  rw [acceptMention, htoken] at h
  refine historyStep_replaceToken hne (fun separator => ?_) h
  refine not_mergeable (List.append_ne_nil_of_left_ne_nil hne _) (.inl ?_)
  rw [List.length_append]
  omega

theorem slashToken_lt {cursor : Nat} {range : ByteRange} {query : List Char}
    (h : slashToken text cursor = some (range, query)) : range.start < range.stop := by
  simp only [slashToken, Option.ite_none_left_eq_some, Option.bind_eq_some_iff, Option.some_inj,
    Prod.mk.injEq] at h
  obtain ⟨-, hcursor, query', -, -, rfl, -⟩ := h
  dsimp only
  omega

theorem historyStep_acceptSlash {cursor : Nat} {name : List Char}
    (h : input.acceptSlash cursor name = some input') : HistoryStep input operation input' := by
  rw [acceptSlash] at h
  cases htoken : slashToken input.content cursor with
  | none =>
      rw [htoken] at h
      exact Option.some.inj h ▸ (SameDraft.refl input).silent
  | some token =>
      rw [htoken] at h
      refine (historyStep_replaceToken (List.cons_ne_nil _ _) (fun separator => ?_) h).1
      exact not_mergeable (List.cons_ne_nil _ _) (.inr (slashToken_lt htoken))

theorem sameDraft_layoutText (h : input.layoutText = some input') : SameDraft input input' := by
  obtain ⟨projection, hrefresh, -⟩ := exists_refreshProjection input
  rw [layoutText, hrefresh] at h
  dsimp only [Option.bind_eq_bind, Option.bind_some] at h
  split_ifs at h
  · obtain rfl := Option.some.inj h
    exact ⟨rfl, rfl, rfl, rfl, rfl, rfl⟩
  · obtain rfl := Option.some.inj h
    exact ⟨rfl, rfl, rfl, rfl, rfl, rfl⟩

theorem sameDraft_onMouseDown (input : ComposerInput) (shift : Bool) (hit : Hit) :
    SameDraft input (input.onMouseDown shift hit) := by
  have hpressed : SameDraft input { input with isSelecting := true } := ⟨rfl, rfl, rfl, rfl, rfl, rfl⟩
  rw [onMouseDown]
  split_ifs
  · exact hpressed.trans (sameDraft_selectTo _ _)
  · exact hpressed.trans (sameDraft_moveTo _ _)

/-- **Inversion.** What an operation other than a new document does to the history. -/
theorem historyStep_of_step {unicode : Segmentation} (hoperation : ∀ text, operation ≠ .setText text)
    (h : step unicode input operation = some input') : HistoryStep input operation input' := by
  have hmoves : ∀ offset, some (input.moveTo offset) = some input' →
      HistoryStep input operation input' :=
    fun offset h => Option.some.inj h ▸ (sameDraft_moveTo input offset).silent
  have hselects : ∀ offset, some (input.selectTo offset) = some input' →
      HistoryStep input operation input' :=
    fun offset h => Option.some.inj h ▸ (sameDraft_selectTo input offset).silent
  have hstays : some input = some input' → HistoryStep input operation input' :=
    fun h => Option.some.inj h ▸ (SameDraft.refl input).silent
  have hdeletes : ∀ {edit : ComposerInput}, SameDraft input edit →
      edit.replaceTextInRange none [] = some input' → HistoryStep input operation input' :=
    fun hsame h => historyStep_replaceTextInRange hsame (.inl rfl) h
  have hdeleteTo : ∀ offset, input.deleteTo offset = some input' →
      HistoryStep input operation input' := by
    intro offset h
    rw [deleteTo] at h
    split_ifs at h
    · exact hdeletes (.refl input) h
    · exact hstays h
    · exact hdeletes (sameDraft_selectTo input offset) h
  cases operation with
  | backspace =>
      rw [step, backspace] at h
      dsimp only at h
      split_ifs at h
      · exact hdeletes (.refl input) h
      · exact hstays h
      · exact hdeletes (sameDraft_selectTo input _) h
  | delete =>
      rw [step, delete] at h
      dsimp only at h
      split_ifs at h
      · exact hdeletes (.refl input) h
      · exact hstays h
      · exact hdeletes (sameDraft_selectTo input _) h
  | left =>
      rw [step, left] at h
      split_ifs at h
      · exact hmoves _ h
      · exact hmoves _ h
  | right =>
      rw [step, right] at h
      split_ifs at h
      · exact hmoves _ h
      · exact hmoves _ h
  | upOrDown hit =>
      rw [step, upOrDown] at h
      split_ifs at h
      · exact hstays h
      · cases hit with
        | none => exact hstays h
        | some point => exact hmoves _ h
  | selectUpOrDown hit =>
      cases hit with
      | none => exact hstays h
      | some point => exact hselects _ h
  | selectLeft | selectRight | selectDocStart | selectDocEnd | selectWordLeft | selectWordRight =>
      exact hselects _ h
  | docStart | docEnd | wordLeft | wordRight => exact hmoves _ h
  | selectAll =>
      obtain rfl := Option.some.inj h
      exact ((sameDraft_moveTo input 0).trans (sameDraft_selectTo _ _)).silent
  | home | «end» =>
      obtain ⟨line, -, rfl⟩ := Option.map_eq_some_iff.mp h
      exact (sameDraft_moveTo input _).silent
  | selectHome | selectEnd =>
      obtain ⟨line, -, rfl⟩ := Option.map_eq_some_iff.mp h
      exact (sameDraft_selectTo input _).silent
  | deleteWordLeft | deleteWordRight => exact hdeleteTo _ h
  | deleteToLineStart | deleteToLineEnd =>
      obtain ⟨line, -, h⟩ := Option.bind_eq_some_iff.mp h
      exact hdeleteTo _ h
  | copy =>
      obtain ⟨text, -, rfl⟩ := Option.map_eq_some_iff.mp h
      exact (SameDraft.refl input).silent
  | cut =>
      obtain ⟨text, -, h⟩ := Option.bind_eq_some_iff.mp h
      split_ifs at h
      · exact hdeletes (.refl input) h
      · exact hstays h
  | paste _ | newline => exact historyStep_replaceTextInRange (.refl input) (.inr rfl) h
  | replaceTextInRange range text =>
      exact historyStep_replaceTextInRange (.refl input) (.inr rfl) h
  | replaceAndMarkTextInRange range text selected => exact historyStep_replaceAndMark h
  | undo => exact .undone rfl h
  | redo => exact .redone rfl h
  | setText text => exact absurd rfl (hoperation text)
  | enableMentions =>
      obtain ⟨projection, hrefresh, -⟩ := exists_refreshProjection
        { input with mentionsEnabled := true }
      rw [step, enableMentions, hrefresh] at h
      obtain rfl := Option.some.inj h
      exact .silent rfl rfl rfl rfl (.inl rfl)
  | acceptMention cursor path isDir =>
      cases htoken : mentionToken input.content cursor with
      | none =>
          rw [step, acceptMention, htoken] at h
          exact hstays h
      | some token => exact (historyStep_acceptMention htoken h).1
  | acceptSlash cursor name => exact historyStep_acceptSlash h
  | unmarkText =>
      obtain rfl := Option.some.inj h
      exact .silent rfl rfl rfl rfl (.inr rfl)
  | layoutText => exact (sameDraft_layoutText h).silent
  | onMouseDown shift hit =>
      obtain rfl := Option.some.inj h
      exact (sameDraft_onMouseDown input shift hit).silent
  | onMouseMove hit =>
      rw [step, onMouseMove] at h
      split_ifs at h
      · exact hselects _ h
      · exact hstays h
  | selectedTextRange | setMentionControls _ | onMouseUp | pause _ =>
      obtain rfl := Option.some.inj h
      exact .silent rfl rfl rfl rfl (.inl rfl)

end ComposerInput

open ComposerInput

/-! ### Undoing to the start -/

/-- An operation on the document, by which no recorded step falls out of the history. -/
def KeepsSteps (unicode : Segmentation) (input : ComposerInput) (operation : Operation) : Prop :=
  (∀ text, operation ≠ .setText text) ∧ ∀ input', step unicode input operation = some input' →
    input.undoStack <:+ input'.undoStack ∨ input'.undoStack <:+ input.undoStack

/-- A document that began with this content: what is not a step of its own goes on with one. -/
structure BeganWith (content : List Char) (input : ComposerInput) : Prop where
  first : input.timeline.first = content
  typed : input.lastEdit ≠ none → input.undoStack ≠ []
  composed : input.markedRange ≠ none → input.undoStack ≠ []

theorem first_of_undoStack {input input' : ComposerInput} (h : input'.undoStack = input.undoStack)
    (hne : input.undoStack ≠ []) : input'.timeline.first = input.timeline.first := by
  obtain ⟨top, rest, hstack⟩ := List.exists_cons_of_ne_nil hne
  rw [timeline, timeline, Timeline.first, Timeline.first, h, hstack]
  dsimp only
  rw [List.map_cons, List.getLast?_cons, Option.getD_some, Option.getD_some]

theorem first_of_pushed {input input' : ComposerInput} {snapshot : EditSnapshot}
    (hsnapshot : snapshot.content = input.content)
    (h : input'.undoStack = snapshot :: input.undoStack) :
    input'.timeline.first = input.timeline.first := by
  rw [timeline, timeline, Timeline.first, Timeline.first, h, ← hsnapshot]
  exact Timeline.getLast?_getD_cons _ _ _

theorem exists_pushStep (snapshot : EditSnapshot) (undoStack : List EditSnapshot) :
    ∃ rest, pushStep snapshot undoStack = snapshot :: rest := by
  rw [pushStep]
  cases undoStack with
  | nil => exact ⟨[], rfl⟩
  | cons top undoStack =>
      split_ifs
      · exact ⟨_, List.dropLast_cons_cons⟩
      · exact ⟨_, rfl⟩

theorem pushStep_cases {snapshot : EditSnapshot} {undoStack : List EditSnapshot}
    (h : undoStack <:+ pushStep snapshot undoStack ∨ pushStep snapshot undoStack <:+ undoStack) :
    pushStep snapshot undoStack = snapshot :: undoStack ∨
      pushStep snapshot undoStack = undoStack ∧ undoStack ≠ [] := by
  by_cases hlimit : (snapshot :: undoStack).length > undoLimit
  · have hpush : pushStep snapshot undoStack = (snapshot :: undoStack).dropLast := if_pos hlimit
    have hlength : (pushStep snapshot undoStack).length = undoStack.length := by
      rw [hpush, List.length_dropLast, List.length_cons, Nat.add_sub_cancel]
    right
    constructor
    · obtain hsuffix | hsuffix := h
      · exact (hsuffix.eq_of_length hlength.symm).symm
      · exact hsuffix.eq_of_length hlength
    · rintro rfl
      rw [List.length_singleton, undoLimit] at hlimit
      omega
  · exact .inl (if_neg hlimit)

theorem BeganWith.step {unicode : Segmentation} {content : List Char} {input input' : ComposerInput}
    {operation : Operation} (h : BeganWith content input) (hkeeps : KeepsSteps unicode input operation)
    (hstep : step unicode input operation = some input') : BeganWith content input' := by
  cases historyStep_of_step hkeeps.1 hstep with
  | silent hcontent hundo hredo hlast hmarked =>
      refine ⟨?_, ?_, ?_⟩
      · rw [← h.first, timeline, timeline, hcontent, hundo, hredo]
      · rw [hlast, hundo]
        exact h.typed
      · rw [hundo]
        obtain hmarked | hmarked := hmarked
        · rw [hmarked]
          exact h.composed
        · exact fun hne => absurd hmarked hne
  | recorded snapshot hsnapshot hundo hredo =>
      have hne : input'.undoStack ≠ [] := by
        obtain ⟨rest, hpush⟩ := exists_pushStep snapshot input.undoStack
        rw [hundo, hpush]
        exact List.cons_ne_nil _ _
      refine ⟨?_, fun _ => hne, fun _ => hne⟩
      rw [← h.first]
      have hsuffix := hkeeps.2 input' hstep
      rw [hundo] at hsuffix
      obtain hpushed | ⟨hsame, hstack⟩ := pushStep_cases hsuffix
      · exact first_of_pushed hsnapshot (hundo.trans hpushed)
      · exact first_of_undoStack (hundo.trans hsame) hstack
  | merged range text hmergeable htyped hundo =>
      have hne : input.undoStack ≠ [] := by
        refine h.typed fun hnone => ?_
        rw [mergeable, hnone] at hmergeable
        cases hmergeable
      rw [← hundo] at hne
      exact ⟨(first_of_undoStack hundo (hundo ▸ hne)).trans h.first, fun _ => hne, fun _ => hne⟩
  | composed hmarked hundo =>
      have hne := h.composed hmarked
      rw [← hundo] at hne
      exact ⟨(first_of_undoStack hundo (hundo ▸ hne)).trans h.first, fun _ => hne, fun _ => hne⟩
  | undone hoperation hundo =>
      obtain ⟨result, hresult, htimeline, hmoved⟩ := exists_undo input
      obtain rfl := Option.some.inj (hresult.symm.trans hundo)
      have hfirst : result.timeline.first = content := by
        rw [htimeline, Timeline.first_undo, h.first]
      obtain rfl | ⟨hlast, hmarked⟩ := hmoved
      · exact h
      · exact ⟨hfirst, fun hne => absurd hlast hne, fun hne => absurd hmarked hne⟩
  | redone hoperation hredo =>
      obtain ⟨result, hresult, htimeline, hmoved⟩ := exists_redo input
      obtain rfl := Option.some.inj (hresult.symm.trans hredo)
      have hfirst : result.timeline.first = content := by
        rw [htimeline, Timeline.first_redo, h.first]
      obtain rfl | ⟨hlast, hmarked⟩ := hmoved
      · exact h
      · exact ⟨hfirst, fun hne => absurd hlast hne, fun hne => absurd hmarked hne⟩

theorem exists_setText (before : ComposerInput) (text : List Char) : ∃ start,
    before.setText text = some start ∧ start.content = text ∧ start.undoStack = [] ∧
      start.lastEdit = none ∧ start.markedRange = none := by
  obtain ⟨projection, hrefresh, -⟩ := exists_refreshProjection
    { before with
      content := text
      selectedRange := ⟨utf8Len text, utf8Len text⟩
      selectionReversed := false
      markedRange := none
      undoStack := []
      redoStack := []
      lastEdit := none }
  exact ⟨_, hrefresh, rfl, rfl, rfl, rfl⟩

theorem beganWith_setText {before start : ComposerInput} (h : before.setText text = some start) :
    BeganWith start.content start := by
  obtain ⟨result, hresult, -, hundo, hlast, hmarked⟩ := exists_setText before text
  obtain rfl := Option.some.inj (hresult.symm.trans h)
  refine ⟨?_, fun hne => absurd hlast hne, fun hne => absurd hmarked hne⟩
  rw [timeline, Timeline.first, hundo]
  rfl

/-! ### Typing behind a mention -/

/-- An operation after the mention was inserted: no undo, redo or new document, and not typing that
goes on with the insertion. -/
def Typing (inserted input : ComposerInput) (operation : Operation) : Prop :=
  operation ≠ .undo ∧ operation ≠ .redo ∧ (∀ text, operation ≠ .setText text) ∧
    (input.undoStack = inserted.undoStack → ∀ typed ∈ typedText input operation,
      input.mergeable typed.1 typed.2 = false)

/-- Nothing was typed yet, or the last step is a draft since the insertion. -/
def StepSince (unicode : Segmentation) (inserted input : ComposerInput) : Prop :=
  input.undoStack = inserted.undoStack ∧ input.content = inserted.content ∧
      input.lastEdit = inserted.lastEdit ∧ input.markedRange = none ∨
    ∃ between top rest, (machine unicode).Steps (Typing inserted) inserted between ∧
      (machine unicode).Steps (Typing inserted) between input ∧
      input.undoStack = top :: rest ∧ top.content = between.content

theorem StepSince.step {unicode : Segmentation} {inserted input input' : ComposerInput}
    {operation : Operation} (hinserted : ∃ offset time, inserted.lastEdit = some (.insert, offset, time))
    (hreached : (machine unicode).Steps (Typing inserted) inserted input)
    (h : StepSince unicode inserted input) (htyping : Typing inserted input operation)
    (hstep : step unicode input operation = some input') : StepSince unicode inserted input' := by
  have hnext : (machine unicode).Steps (Typing inserted) input input' :=
    .head htyping hstep (.refl input')
  have hstays : ∀ {between top rest}, (machine unicode).Steps (Typing inserted) inserted between →
      (machine unicode).Steps (Typing inserted) between input → input.undoStack = top :: rest →
      top.content = between.content → input'.undoStack = input.undoStack →
      StepSince unicode inserted input' :=
    fun hfrom hto hstack htop hundo =>
      .inr ⟨_, _, _, hfrom, hto.trans hnext, hundo.trans hstack, htop⟩
  obtain ⟨hundoOp, hredoOp, hsetText, hfresh⟩ := htyping
  cases historyStep_of_step hsetText hstep with
  | silent hcontent hundo hredo hlast hmarked =>
      obtain ⟨hstack, hsame, hedit, hmark⟩ | ⟨between, top, rest, hfrom, hto, hstack, htop⟩ := h
      · refine .inl ⟨hundo.trans hstack, hcontent.trans hsame, hlast.trans hedit, ?_⟩
        exact hmarked.elim (fun heq => heq.trans hmark) id
      · exact hstays hfrom hto hstack htop hundo
  | recorded snapshot hsnapshot hundo hredo =>
      obtain ⟨rest, hpush⟩ := exists_pushStep snapshot input.undoStack
      exact .inr ⟨input, snapshot, rest, hreached, hnext, hundo.trans hpush, hsnapshot⟩
  | merged range text hmergeable htyped hundo =>
      obtain ⟨hstack, hsame, hedit, hmark⟩ | ⟨between, top, rest, hfrom, hto, hstack, htop⟩ := h
      · obtain rfl | htyped := htyped
        · obtain ⟨offset, time, hinsert⟩ := hinserted
          rw [mergeable, hedit, hinsert] at hmergeable
          exact absurd rfl (of_decide_eq_true hmergeable).1
        · have hnot := hfresh hstack _ htyped
          rw [hmergeable] at hnot
          cases hnot
      · exact hstays hfrom hto hstack htop hundo
  | composed hmarked hundo =>
      obtain ⟨-, -, -, hmark⟩ | ⟨between, top, rest, hfrom, hto, hstack, htop⟩ := h
      · exact absurd hmark hmarked
      · exact hstays hfrom hto hstack htop hundo
  | undone hoperation => exact absurd hoperation hundoOp
  | redone hoperation => exact absurd hoperation hredoOp

theorem undo_since_insertion {unicode : Segmentation} {input inserted typed undone : ComposerInput}
    {cursor : Nat} {path : List Char} {isDir : Bool} (hmarked : input.markedRange = none)
    (htoken : (mentionToken input.content cursor).isSome)
    (hinsert : input.acceptMention cursor path isDir = some inserted)
    (htyped : (machine unicode).Steps (Typing inserted) inserted typed)
    (hundo : typed.undo = some undone) :
    typed.undoStack = inserted.undoStack ∧ typed.content = inserted.content ∨
      ∃ between, (machine unicode).Steps (Typing inserted) inserted between ∧
        (machine unicode).Steps (Typing inserted) between typed ∧ undone.content = between.content := by
  obtain ⟨token, htoken⟩ := Option.isSome_iff_exists.mp htoken
  have hstep : HistoryStep input .undo inserted ∧ _ := historyStep_acceptMention htoken hinsert
  obtain ⟨-, hlast, hmark⟩ := hstep
  have hsince : StepSince unicode inserted typed := by
    refine (htyped.invariant (I := fun state => (machine unicode).Steps (Typing inserted) inserted state ∧
      StepSince unicode inserted state) ?_ ⟨.refl _, .inl ⟨rfl, rfl, rfl, hmark.trans hmarked⟩⟩).2
    rintro state operation state' ⟨hreached, hsince⟩ htyping hstep
    exact ⟨hreached.tail htyping hstep, hsince.step hlast hreached htyping hstep⟩
  obtain ⟨hstack, hcontent, -⟩ | ⟨between, top, rest, hfrom, hto, hstack, htop⟩ := hsince
  · exact .inl ⟨hstack, hcontent⟩
  · refine .inr ⟨between, hfrom, hto, ?_⟩
    rw [undo, hstack] at hundo
    obtain ⟨result, hrestore, hcontent, -⟩ := exists_restore
      { typed with undoStack := rest, redoStack := typed.snapshot :: typed.redoStack } top
    obtain rfl := Option.some.inj (hrestore.symm.trans hundo)
    exact hcontent.trans htop

/-! ### Undo and redo lose no text -/

/-- What undoing and redoing to the end come to. -/
structure Restores (start input : ComposerInput) : Prop where
  undone : ∃ undone, input.undoAll = some undone ∧ undone.undoStack = [] ∧
    undone.content = start.content ∧ ∃ redone, undone.redoAll = some redone ∧
      redone.redoStack = [] ∧
      redone.content = (input.redoStack.getLast?.map (·.content)).getD input.content

theorem undo_redo_restore (unicode : Segmentation) :
    (∀ before text start input, ComposerInput.setText before text = some start →
      (machine unicode).Steps (KeepsSteps unicode) start input → Restores start input) ∧
    ∀ input cursor path isDir inserted typed undone, ComposerInput.markedRange input = none →
      (mentionToken input.content cursor).isSome →
      input.acceptMention cursor path isDir = some inserted →
      (machine unicode).Steps (Typing inserted) inserted typed → typed.undo = some undone →
      typed.undoStack = inserted.undoStack ∧ typed.content = inserted.content ∨
        ∃ between, (machine unicode).Steps (Typing inserted) inserted between ∧
          (machine unicode).Steps (Typing inserted) between typed ∧
          undone.content = between.content := by
  constructor
  · intro before text start input hstart hsteps
    have hbegan : BeganWith start.content input :=
      hsteps.invariant (fun _ _ _ hinv hkeeps hstep => hinv.step hkeeps hstep)
        (beganWith_setText hstart)
    obtain ⟨undone, hundo, hempty, hcontent, hlast⟩ := exists_undoAll input
    obtain ⟨redone, hredo, hempty', hcontent'⟩ := exists_redoAll undone
    refine ⟨undone, hundo, hempty, hcontent.trans hbegan.first, redone, hredo, hempty', ?_⟩
    rw [hcontent', hlast, timeline, Timeline.last, List.getLast?_map]
  · intro input cursor path isDir inserted typed undone hmarked htoken hinsert htyped hundo
    exact undo_since_insertion hmarked htoken hinsert htyped hundo

/-- With a mention and two letters pasted behind it. -/
theorem restores_after_paste :
    (∃ start input, ComposerInput.setText { placeholder := [], now := 0 } ['a'] = some start ∧
      step characters start (.paste ['b', 'c']) = some input ∧ Restores start input) ∧
    ∃ input inserted typed undone : ComposerInput,
      input.acceptMention 2 ['f'] false = some inserted ∧
      step characters inserted (.paste ['x', 'y']) = some typed ∧ typed.undo = some undone ∧
      (typed.undoStack = inserted.undoStack ∧ typed.content = inserted.content ∨
        ∃ between, (machine characters).Steps (Typing inserted) inserted between ∧
          (machine characters).Steps (Typing inserted) between typed ∧
          undone.content = between.content) := by
  constructor
  · obtain ⟨start, hstart, hvalid⟩ := keeps_setText { placeholder := [], now := 0 } ['a']
    obtain ⟨result, hresult, -, hundo, -⟩ := exists_setText { placeholder := [], now := 0 } ['a']
    obtain rfl := Option.some.inj (hresult.symm.trans hstart)
    obtain ⟨input, hstep, -⟩ := step_valid hvalid characters (.paste ['b', 'c'])
    have hkeeps : KeepsSteps characters result (.paste ['b', 'c']) :=
      ⟨fun _ hset => (nomatch hset), fun _ _ => .inl (hundo ▸ List.nil_suffix)⟩
    exact ⟨result, input, hstart, hstep, (undo_redo_restore characters).1 _ _ result input hstart
      (Lib.Machine.Steps.head hkeeps hstep (.refl input))⟩
  · have hrun : ((machine characters).run { placeholder := [], now := 0 }
          [.setText [], .enableMentions, .paste ['@', 'f']]).bind (fun input =>
        (input.acceptMention 2 ['f'] false).bind fun inserted =>
          (step characters inserted (.paste ['x', 'y'])).bind fun typed =>
            typed.undo.map fun _ => (input.markedRange, (mentionToken input.content 2).isSome,
              inserted.mergeable (inserted.editRange none) ['x', 'y'])) =
        some (none, true, false) := by
      decide +kernel
    obtain ⟨input, -, hinput⟩ := Option.bind_eq_some_iff.mp hrun
    obtain ⟨inserted, hinsert, hinserted⟩ := Option.bind_eq_some_iff.mp hinput
    obtain ⟨typed, hstep, htyped⟩ := Option.bind_eq_some_iff.mp hinserted
    obtain ⟨undone, hundo, hflags⟩ := Option.map_eq_some_iff.mp htyped
    obtain ⟨hmarked, htoken, hmerge⟩ := by simpa only [Prod.mk.injEq] using hflags
    have htyping : Typing inserted inserted (.paste ['x', 'y']) := by
      refine ⟨fun h => (nomatch h), fun h => (nomatch h), fun _ h => (nomatch h), fun _ edit hedit => ?_⟩
      cases hedit
      exact hmerge
    exact ⟨input, inserted, typed, undone, hinsert, hstep, hundo,
      (undo_redo_restore characters).2 input 2 ['f'] false inserted typed undone hmarked htoken
        hinsert (Lib.Machine.Steps.head htyping hstep (.refl typed)) hundo⟩

/-- Redoing to the end goes past where the undoing began, and a letter goes on with a mention. -/
theorem history_by_steps :
    ((machine characters).run { placeholder := [], now := 0 }
      [.setText [], .paste ['a', 'b'], .paste ['c', 'd'], .undo]).bind (fun input =>
        input.undoAll.bind fun undone =>
          undone.redoAll.map fun redone => (input.content, redone.content)) =
      some (['a', 'b'], ['a', 'b', 'c', 'd']) ∧
    ((machine characters).run { placeholder := [], now := 0 }
      [.setText [], .enableMentions, .paste ['@', 'f'], .acceptMention 2 ['f'] false, .paste ['x'],
        .undo]).map (·.content) = some ['@', 'f'] := by
  decide +kernel

end Zeron.Ui.Composer
