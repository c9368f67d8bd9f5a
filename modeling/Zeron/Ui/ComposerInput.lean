import Mathlib.Data.List.DropRight
import Zeron.Lib.Machine
import Zeron.Ui.Projection

/-!
# The composer's input

`ComposerInput` of `crates/ui/src/composer.rs`: the draft, the selection and the range an input method
composes in, as byte offsets, with the undo history. An operation is `none` where a slice of the draft
would be out of bounds or cut a character. The shaped text is the text system's: of a point it is told
only the offset that is hit.
-/

namespace Zeron.Ui.Composer

open Zeron.Doc (isWhitespace)
open Zeron.Lib.Utf8
open Zeron.Ui.Mentions (existingSeparator localFileLink)
open Zeron.Ui.Projection (ByteRange TextProjection)

/-- Grapheme clusters and words: each cuts a text into pieces. -/
structure Segmentation where
  graphemes : List Char → List (List Char)
  wordBounds : List Char → List (List Char)
  graphemes_flatten : ∀ text, (graphemes text).flatten = text
  wordBounds_flatten : ∀ text, (wordBounds text).flatten = text

def indices : Nat → List (List Char) → List (Nat × List Char)
  | _, [] => []
  | offset, piece :: pieces => (offset, piece) :: indices (offset + utf8Len piece) pieces

/-- A range in UTF-16 units, as the platform passes it. -/
structure Utf16Range where
  start : Nat
  stop : Nat
  le : start ≤ stop

/-- `char::len_utf16` -/
def lenUtf16 (c : Char) : Nat := if c.toNat < 0x10000 then 1 else 2

def offsetFromUtf16 : List Char → Nat → Nat
  | [], _ => 0
  | c :: text, offset =>
      if offset = 0 then 0 else utf8Len [c] + offsetFromUtf16 text (offset - lenUtf16 c)

def rangeFromUtf16 (text : List Char) (range : Utf16Range) : ByteRange :=
  ⟨offsetFromUtf16 text range.start, offsetFromUtf16 text range.stop⟩

inductive EditKind
  | insert
  | delete
deriving DecidableEq

structure EditSnapshot where
  content : List Char
  selectedRange : ByteRange
  selectionReversed : Bool
deriving DecidableEq

/-- In nanoseconds. -/
def undoCoalesce : Nat := 700000000

def undoLimit : Nat := 200

/-- The stacks have their top in front; `shaped` is the text of the last layout. -/
structure ComposerInput where
  content : List Char := []
  placeholder : List Char
  selectedRange : ByteRange := ⟨0, 0⟩
  selectionReversed : Bool := false
  markedRange : Option ByteRange := none
  isSelecting : Bool := false
  shaped : List Char := []
  projection : TextProjection := {}
  mentionsEnabled : Bool := false
  displayIsPlaceholder : Bool := true
  undoStack : List EditSnapshot := []
  redoStack : List EditSnapshot := []
  lastEdit : Option (EditKind × Nat × Nat) := none
  mentionHasSelection : Bool := false
  now : Nat
deriving DecidableEq

/-- What a point is over: it is above or below the text, or the text system finds an offset. -/
inductive Hit
  | above
  | shaped (ix : Nat)
  | below

namespace ComposerInput

def refreshProjection (input : ComposerInput) : Option ComposerInput :=
  if input.mentionsEnabled then
    (TextProjection.new input.content).map fun projection => { input with projection }
  else some { input with projection := ⟨input.content, []⟩ }

/-! ### The undo history -/

def snapshot (input : ComposerInput) : EditSnapshot :=
  ⟨input.content, input.selectedRange, input.selectionReversed⟩

/-- The oldest step falls out beyond the limit. -/
def pushStep (snapshot : EditSnapshot) (undoStack : List EditSnapshot) : List EditSnapshot :=
  let undoStack := snapshot :: undoStack
  if undoStack.length > undoLimit then undoStack.dropLast else undoStack

def pushUndo (input : ComposerInput) : ComposerInput :=
  { input with undoStack := pushStep input.snapshot input.undoStack }

/-- An edit that goes on with the run of the last one. -/
def mergeable (input : ComposerInput) (range : ByteRange) (newText : List Char) : Bool :=
  match input.lastEdit with
  | some (.insert, offset, time) =>
      newText ≠ [] ∧ ¬range.start < range.stop ∧ range.start = offset ∧ newText.length = 1 ∧
        newText.head?.all (fun ch => ch ≠ '\n' ∧ ch ≠ ' ' ∧ ch ≠ '\t') ∧
        input.now - time < undoCoalesce
  | some (.delete, offset, time) =>
      newText = [] ∧ range.stop = offset ∧ input.now - time < undoCoalesce
  | none => false

def recordEdit (input : ComposerInput) (range : ByteRange) (newText : List Char) : ComposerInput :=
  let lastEdit :=
    if newText = [] then (EditKind.delete, range.start, input.now)
    else (EditKind.insert, range.start + utf8Len newText, input.now)
  { if input.mergeable range newText then input else input.pushUndo with
    redoStack := []
    lastEdit := some lastEdit }

@[simp]
theorem recordEdit_markedRange (input : ComposerInput) (range : ByteRange) (newText : List Char) :
    (input.recordEdit range newText).markedRange = input.markedRange := by
  rw [recordEdit]
  split_ifs <;> rfl

def restore (input : ComposerInput) (snapshot : EditSnapshot) : Option ComposerInput :=
  { input with
    content := snapshot.content
    selectedRange := snapshot.selectedRange
    selectionReversed := snapshot.selectionReversed
    markedRange := none
    lastEdit := none }.refreshProjection

def undo (input : ComposerInput) : Option ComposerInput :=
  match input.undoStack with
  | [] => some input
  | previous :: undoStack =>
      { input with undoStack, redoStack := input.snapshot :: input.redoStack }.restore previous

def redo (input : ComposerInput) : Option ComposerInput :=
  match input.redoStack with
  | [] => some input
  | next :: redoStack =>
      { input with redoStack, undoStack := input.snapshot :: input.undoStack }.restore next

/-! ### Edits -/

def setText (input : ComposerInput) (text : List Char) : Option ComposerInput :=
  { input with
    content := text
    selectedRange := ⟨utf8Len text, utf8Len text⟩
    selectionReversed := false
    markedRange := none
    undoStack := []
    redoStack := []
    lastEdit := none }.refreshProjection

def enableMentions (input : ComposerInput) : Option ComposerInput :=
  { input with mentionsEnabled := true }.refreshProjection

def splice (content : List Char) (range : ByteRange) (newText : List Char) : Option (List Char) := do
  let (before, _) ← splitAt? range.start content
  let (_, after) ← splitAt? range.stop content
  some (before ++ newText ++ after)

/-- A completed token: a separator that is there takes the place of the one behind it. -/
def replaceToken (input : ComposerInput) (range : ByteRange) (replacement : List Char) :
    Option ComposerInput := do
  let (_, after) ← splitAt? range.stop input.content
  let inserted := if (existingSeparator after).isSome then replacement else replacement ++ [' ']
  let content ← splice input.content range inserted
  let input ← { input.recordEdit range inserted with content }.refreshProjection
  let cursor := range.start + utf8Len inserted +
    ((existingSeparator after).map (utf8Len [·])).getD 0
  some { input with selectedRange := ⟨cursor, cursor⟩, selectionReversed := false }

def replaceMention (input : ComposerInput) (range : ByteRange) (path : List Char) (isDir : Bool) :
    Option ComposerInput :=
  input.replaceToken range (localFileLink path isDir)

def replacePlainToken (input : ComposerInput) (range : ByteRange) (replacement : List Char) :
    Option ComposerInput :=
  input.replaceToken range replacement

/-- The range an edit is about: the platform's, else the composition's, else the selection. -/
def editRange (input : ComposerInput) (rangeUtf16 : Option Utf16Range) : ByteRange :=
  input.projection.normalizeRange
    (((rangeUtf16.map (rangeFromUtf16 input.content)).or input.markedRange).getD
      input.selectedRange)

def replaceTextInRange (input : ComposerInput) (rangeUtf16 : Option Utf16Range)
    (newText : List Char) : Option ComposerInput := do
  let range := input.editRange rangeUtf16
  let content ← splice input.content range newText
  let recorded := if input.markedRange.isNone then input.recordEdit range newText else input
  let input ← { recorded with content }.refreshProjection
  let cursor := range.start + utf8Len newText
  some { input with selectedRange := ⟨cursor, cursor⟩, markedRange := none }

/-- The selection in a composed text, by the units of the new draft; else the end of the text. -/
def composedSelection (content : List Char) (start : Nat) (newText : List Char) :
    Option Utf16Range → ByteRange
  | some selected =>
      let newRange := rangeFromUtf16 content selected
      ⟨newRange.start + start, newRange.stop + start⟩
  | none => ⟨start + utf8Len newText, start + utf8Len newText⟩

def replaceAndMarkTextInRange (input : ComposerInput) (rangeUtf16 : Option Utf16Range)
    (newText : List Char) (newSelectedRangeUtf16 : Option Utf16Range) : Option ComposerInput := do
  let range := input.editRange rangeUtf16
  let content ← splice input.content range newText
  let recorded :=
    if input.markedRange.isNone then { input.pushUndo with redoStack := [], lastEdit := none }
    else input
  let input ← { recorded with content }.refreshProjection
  some { input with
    markedRange := if newText = [] then none else some ⟨range.start, range.start + utf8Len newText⟩
    selectedRange := composedSelection content range.start newText newSelectedRangeUtf16 }

def unmarkText (input : ComposerInput) : ComposerInput := { input with markedRange := none }

def selectedTextRange (input : ComposerInput) : ComposerInput :=
  { input with selectedRange := input.projection.normalizeRange input.selectedRange }

/-! ### Motion -/

def cursorOffset (input : ComposerInput) : Nat :=
  if input.selectionReversed then input.selectedRange.start else input.selectedRange.stop

def moveTo (input : ComposerInput) (offset : Nat) : ComposerInput :=
  let offset := (input.projection.normalizeRange ⟨offset, offset⟩).start
  { input with selectedRange := ⟨offset, offset⟩ }

def selectTo (input : ComposerInput) (offset : Nat) : ComposerInput :=
  let offset := (input.projection.normalizeRange ⟨offset, offset⟩).start
  let range : ByteRange :=
    if input.selectionReversed then ⟨offset, input.selectedRange.stop⟩
    else ⟨input.selectedRange.start, offset⟩
  if range.stop < range.start then
    { input with
      selectionReversed := !input.selectionReversed
      selectedRange := ⟨range.stop, range.start⟩ }
  else { input with selectedRange := range }

/-- `str::trim` leaves nothing of it. -/
def blank (word : List Char) : Bool := word.all isWhitespace

section

variable (unicode : Segmentation)

def previousBoundary (input : ComposerInput) (offset : Nat) : Nat :=
  (input.projection.previousBoundary offset).getD
    ((((indices 0 (unicode.graphemes input.content)).reverse.find? (·.1 < offset)).map (·.1)).getD 0)

def nextBoundary (input : ComposerInput) (offset : Nat) : Nat :=
  (input.projection.nextBoundary offset).getD
    ((((indices 0 (unicode.graphemes input.content)).find? (offset < ·.1)).map (·.1)).getD
      (utf8Len input.content))

def previousWordBoundary (input : ComposerInput) (offset : Nat) : Nat :=
  (input.projection.previousBoundary offset).getD
    ((((indices 0 (unicode.wordBounds input.content)).reverse.find? fun (ix, word) =>
      ix < offset ∧ !blank word).map (·.1)).getD 0)

def nextWordBoundary (input : ComposerInput) (offset : Nat) : Nat :=
  (input.projection.nextBoundary offset).getD
    ((((indices 0 (unicode.wordBounds input.content)).find? fun (ix, word) =>
      offset < ix + utf8Len word ∧ !blank word).map fun (ix, word) => ix + utf8Len word).getD
      (utf8Len input.content))

end

def lineRangeAt (input : ComposerInput) (offset : Nat) : Option ByteRange :=
  (splitAt? offset input.content).map fun (before, after) =>
    ⟨utf8Len (before.rdropWhile (· ≠ '\n')), offset + utf8Len (after.takeWhile (· ≠ '\n'))⟩

def indexForPoint (input : ComposerInput) : Hit → Nat
  | .above => 0
  | .shaped ix =>
      if input.displayIsPlaceholder then 0
      else input.projection.displayToRaw (min ix (utf8Len input.projection.display))
  | .below => utf8Len input.content

/-- The text and the underlined runs are shaped: the part behind the composition has a length. -/
def layoutText (input : ComposerInput) : Option ComposerInput := do
  let input ← input.refreshProjection
  let display := input.projection.display
  if input.content = [] then
    some { input with shaped := input.placeholder, displayIsPlaceholder := true }
  else if input.markedRange.all fun marked => input.projection.rawToDisplay marked.stop ≤ utf8Len display then
    some { input with shaped := display, displayIsPlaceholder := false }
  else none

/-! ### Completed tokens -/

/-- The `@` must begin a token. -/
def mentionToken (text : List Char) (cursor : Nat) : Option (ByteRange × List Char) := do
  let (before, after) ← splitAt? cursor text
  let token := before.rtakeWhile (!isWhitespace ·)
  if '@' ∉ token then none
  else
    let query := token.rtakeWhile (· ≠ '@')
    let front := before.take (before.length - (query.length + 1))
    let validBoundary := front.getLast?.all fun ch => isWhitespace ch ∨ ch ∈ ['(', '[', '\x7b']
    if '@' ∈ query ∨ !validBoundary then none
    else some (⟨utf8Len front, cursor + utf8Len (after.takeWhile (!isWhitespace ·))⟩, query)

/-- The `/` must open the input. -/
def slashToken (text : List Char) (cursor : Nat) : Option (ByteRange × List Char) :=
  if (splitAt? cursor text).isNone ∨ text.head? ≠ some '/' then none
  else
    let stop := utf8Len (text.takeWhile (!isWhitespace ·))
    if cursor = 0 ∨ stop < cursor then none
    else
      (slice? 1 cursor text).bind fun query =>
        if '/' ∈ query then none else some (⟨0, stop⟩, query)

/-! ### Handlers -/

section

variable (unicode : Segmentation)

def backspace (input : ComposerInput) : Option ComposerInput :=
  if input.selectedRange.start < input.selectedRange.stop then input.replaceTextInRange none []
  else
    let prev := input.previousBoundary unicode input.cursorOffset
    if input.cursorOffset = prev then some input
    else (input.selectTo prev).replaceTextInRange none []

def delete (input : ComposerInput) : Option ComposerInput :=
  if input.selectedRange.start < input.selectedRange.stop then input.replaceTextInRange none []
  else
    let next := input.nextBoundary unicode input.cursorOffset
    if input.cursorOffset = next then some input
    else (input.selectTo next).replaceTextInRange none []

def left (input : ComposerInput) : ComposerInput :=
  if input.selectedRange.start < input.selectedRange.stop then input.moveTo input.selectedRange.start
  else input.moveTo (input.previousBoundary unicode input.cursorOffset)

def right (input : ComposerInput) : ComposerInput :=
  if input.selectedRange.start < input.selectedRange.stop then input.moveTo input.selectedRange.stop
  else input.moveTo (input.nextBoundary unicode input.selectedRange.stop)

/-- `vertical_target`: there is none before the first layout. -/
def verticalTarget (input : ComposerInput) (hit : Option Hit) : Option Nat :=
  hit.map input.indexForPoint

/-- `up` and `down`: while a mention is picked the keys go to the list. -/
def upOrDown (input : ComposerInput) (hit : Option Hit) : ComposerInput :=
  if input.mentionHasSelection then input
  else ((input.verticalTarget hit).map input.moveTo).getD input

/-- `select_up` and `select_down` -/
def selectUpOrDown (input : ComposerInput) (hit : Option Hit) : ComposerInput :=
  ((input.verticalTarget hit).map input.selectTo).getD input

def selectLeft (input : ComposerInput) : ComposerInput :=
  input.selectTo (input.previousBoundary unicode input.cursorOffset)

def selectRight (input : ComposerInput) : ComposerInput :=
  input.selectTo (input.nextBoundary unicode input.cursorOffset)

def selectAll (input : ComposerInput) : ComposerInput :=
  (input.moveTo 0).selectTo (utf8Len input.content)

def home (input : ComposerInput) : Option ComposerInput :=
  (input.lineRangeAt input.cursorOffset).map fun line => input.moveTo line.start

def «end» (input : ComposerInput) : Option ComposerInput :=
  (input.lineRangeAt input.cursorOffset).map fun line => input.moveTo line.stop

def selectHome (input : ComposerInput) : Option ComposerInput :=
  (input.lineRangeAt input.cursorOffset).map fun line => input.selectTo line.start

def selectEnd (input : ComposerInput) : Option ComposerInput :=
  (input.lineRangeAt input.cursorOffset).map fun line => input.selectTo line.stop

def docStart (input : ComposerInput) : ComposerInput := input.moveTo 0

def docEnd (input : ComposerInput) : ComposerInput := input.moveTo (utf8Len input.content)

def selectDocStart (input : ComposerInput) : ComposerInput := input.selectTo 0

def selectDocEnd (input : ComposerInput) : ComposerInput := input.selectTo (utf8Len input.content)

def wordLeft (input : ComposerInput) : ComposerInput :=
  input.moveTo (input.previousWordBoundary unicode input.cursorOffset)

def wordRight (input : ComposerInput) : ComposerInput :=
  input.moveTo (input.nextWordBoundary unicode input.cursorOffset)

def selectWordLeft (input : ComposerInput) : ComposerInput :=
  input.selectTo (input.previousWordBoundary unicode input.cursorOffset)

def selectWordRight (input : ComposerInput) : ComposerInput :=
  input.selectTo (input.nextWordBoundary unicode input.cursorOffset)

def deleteTo (input : ComposerInput) (offset : Nat) : Option ComposerInput :=
  if input.selectedRange.start < input.selectedRange.stop then input.replaceTextInRange none []
  else if input.cursorOffset = offset then some input
  else (input.selectTo offset).replaceTextInRange none []

def deleteWordLeft (input : ComposerInput) : Option ComposerInput :=
  input.deleteTo (input.previousWordBoundary unicode input.cursorOffset)

def deleteWordRight (input : ComposerInput) : Option ComposerInput :=
  input.deleteTo (input.nextWordBoundary unicode input.cursorOffset)

def deleteToLineStart (input : ComposerInput) : Option ComposerInput :=
  (input.lineRangeAt input.cursorOffset).bind fun line => input.deleteTo line.start

def deleteToLineEnd (input : ComposerInput) : Option ComposerInput :=
  (input.lineRangeAt input.cursorOffset).bind fun line => input.deleteTo line.stop

end

def copy (input : ComposerInput) : Option (Option (List Char)) :=
  if input.selectedRange.start < input.selectedRange.stop then
    (slice? input.selectedRange.start input.selectedRange.stop input.content).map some
  else some none

def cut (input : ComposerInput) : Option ComposerInput :=
  input.copy.bind fun text =>
    if text.isSome then input.replaceTextInRange none [] else some input

def paste (input : ComposerInput) (text : List Char) : Option ComposerInput :=
  input.replaceTextInRange none text

def newline (input : ComposerInput) : Option ComposerInput := input.replaceTextInRange none ['\n']

def onMouseDown (input : ComposerInput) (shift : Bool) (hit : Hit) : ComposerInput :=
  let input := { input with isSelecting := true }
  if shift then input.selectTo (input.indexForPoint hit) else input.moveTo (input.indexForPoint hit)

/-- A drag and its scroll at the edge select the same way. -/
def onMouseMove (input : ComposerInput) (hit : Hit) : ComposerInput :=
  if input.isSelecting then input.selectTo (input.indexForPoint hit) else input

def onMouseUp (input : ComposerInput) : ComposerInput := { input with isSelecting := false }

/-- The token at a cursor, as the composer asked for it, is replaced by what was picked. -/
def acceptMention (input : ComposerInput) (cursor : Nat) (path : List Char) (isDir : Bool) :
    Option ComposerInput :=
  match mentionToken input.content cursor with
  | none => some input
  | some (range, _) => input.replaceMention range path isDir

def acceptSlash (input : ComposerInput) (cursor : Nat) (name : List Char) : Option ComposerInput :=
  match slashToken input.content cursor with
  | none => some input
  | some (range, _) => input.replacePlainToken range ('/' :: name)

end ComposerInput

/-! ### Operations -/

inductive Operation
  | backspace
  | delete
  | left
  | right
  | upOrDown (hit : Option Hit)
  | selectUpOrDown (hit : Option Hit)
  | selectLeft
  | selectRight
  | selectAll
  | home
  | «end»
  | selectHome
  | selectEnd
  | docStart
  | docEnd
  | selectDocStart
  | selectDocEnd
  | wordLeft
  | wordRight
  | selectWordLeft
  | selectWordRight
  | deleteWordLeft
  | deleteWordRight
  | deleteToLineStart
  | deleteToLineEnd
  | copy
  | cut
  | paste (text : List Char)
  | newline
  | undo
  | redo
  | setText (text : List Char)
  | enableMentions
  | setMentionControls (hasSelection : Bool)
  | acceptMention (cursor : Nat) (path : List Char) (isDir : Bool)
  | acceptSlash (cursor : Nat) (name : List Char)
  | replaceTextInRange (range : Option Utf16Range) (text : List Char)
  | replaceAndMarkTextInRange (range : Option Utf16Range) (text : List Char)
      (selected : Option Utf16Range)
  | unmarkText
  | selectedTextRange
  | layoutText
  | onMouseDown (shift : Bool) (hit : Hit)
  | onMouseMove (hit : Hit)
  | onMouseUp
  | pause (time : Nat)

def step (unicode : Segmentation) (input : ComposerInput) : Operation → Option ComposerInput
  | .backspace => input.backspace unicode
  | .delete => input.delete unicode
  | .left => some (input.left unicode)
  | .right => some (input.right unicode)
  | .upOrDown hit => some (input.upOrDown hit)
  | .selectUpOrDown hit => some (input.selectUpOrDown hit)
  | .selectLeft => some (input.selectLeft unicode)
  | .selectRight => some (input.selectRight unicode)
  | .selectAll => some input.selectAll
  | .home => input.home
  | .end => input.end
  | .selectHome => input.selectHome
  | .selectEnd => input.selectEnd
  | .docStart => some input.docStart
  | .docEnd => some input.docEnd
  | .selectDocStart => some input.selectDocStart
  | .selectDocEnd => some input.selectDocEnd
  | .wordLeft => some (input.wordLeft unicode)
  | .wordRight => some (input.wordRight unicode)
  | .selectWordLeft => some (input.selectWordLeft unicode)
  | .selectWordRight => some (input.selectWordRight unicode)
  | .deleteWordLeft => input.deleteWordLeft unicode
  | .deleteWordRight => input.deleteWordRight unicode
  | .deleteToLineStart => input.deleteToLineStart
  | .deleteToLineEnd => input.deleteToLineEnd
  | .copy => input.copy.map fun _ => input
  | .cut => input.cut
  | .paste text => input.paste text
  | .newline => input.newline
  | .undo => input.undo
  | .redo => input.redo
  | .setText text => input.setText text
  | .enableMentions => input.enableMentions
  | .setMentionControls hasSelection => some { input with mentionHasSelection := hasSelection }
  | .acceptMention cursor path isDir => input.acceptMention cursor path isDir
  | .acceptSlash cursor name => input.acceptSlash cursor name
  | .replaceTextInRange range text => input.replaceTextInRange range text
  | .replaceAndMarkTextInRange range text selected =>
      input.replaceAndMarkTextInRange range text selected
  | .unmarkText => some input.unmarkText
  | .selectedTextRange => some input.selectedTextRange
  | .layoutText => input.layoutText
  | .onMouseDown shift hit => some (input.onMouseDown shift hit)
  | .onMouseMove hit => some (input.onMouseMove hit)
  | .onMouseUp => some input.onMouseUp
  | .pause time => some { input with now := input.now + time }

/-- The input runs from an empty draft; the clock may stand anywhere. -/
def machine (unicode : Segmentation) : Lib.Machine ComposerInput Operation where
  init input := ∃ placeholder now, input = { placeholder, now }
  step := step unicode

end Zeron.Ui.Composer
