import Mathlib.Algebra.Order.BigOperators.Group.List
import Mathlib.Algebra.Order.Ring.Nat
import Mathlib.Data.List.Forall2
import Mathlib.Data.Nat.Cast.Basic
import Zeron.Doc.Parts
import Zeron.Lib.CharBoundary

/-!
# Messages split

`split_parts` of `crates/doc/src/parts.rs`: the parts of a message go into chunks of bounded size, and a
text that is too long for one is cut between characters.
-/

namespace Zeron.Doc

open Zeron.Lib Zeron.Lib.Utf8

/-- `MSG_INLINE_MAX` -/
def msgInlineMax : Nat := 256 * 1024

/-- How many bytes `serde_json` writes. -/
structure JsonSizes (Value : Type) where
  call : ToolCall Value → Nat
  questions : List UserInputQuestion → Nat
  diff : ToolDiff → Nat
  diffStats : List ToolDiffStat → Nat

variable {Value : Type}

section Split

def textLen (text : String) : Nat := (encode text).length

variable (sizes : JsonSizes Value)

def byteLen : MessagePart Value → Nat
  | .text _ text | .commentary _ text => textLen text
  | .notice _ _ message => textLen message
  | .tool part =>
      sizes.call part.call + (part.output.map textLen).getD 0 +
        (part.diff.map sizes.diff).getD 0 + (part.diffStats.map sizes.diffStats).getD 0
  | .input _ _ questions _ => sizes.questions questions
  | .error _ message => textLen message

def pieceId (id : String) (piece : Nat) : String :=
  if piece = 0 then id else id ++ "~" ++ toString piece

/-- The end of the piece from a position on, with the guard for progress. -/
def pieceStop (bytes : Bytes) (start : Nat) : Nat :=
  let stop := backToBoundary bytes (min (start + msgInlineMax) bytes.length)
  if stop ≤ start then bytes.length else stop

theorem lt_pieceStop {bytes : Bytes} {start : Nat} (h : start < bytes.length) :
    start < pieceStop bytes start := by
  unfold pieceStop
  dsimp only
  split
  · exact h
  · omega

/-- The pieces of a text from a position on; none if a slice cuts a character. -/
def pieces (bytes : Bytes) (start : Nat) : Option (List String) :=
  if _h : start < bytes.length then
    (sliceText bytes start (pieceStop bytes start)).bind fun piece =>
      (pieces bytes (pieceStop bytes start)).map (piece :: ·)
  else some []
termination_by bytes.length - start
decreasing_by
  have := lt_pieceStop _h
  omega

/-- A long text or commentary becomes several parts. -/
def subParts : MessagePart Value → Option (List (MessagePart Value))
  | .text id text =>
      if msgInlineMax < textLen text then
        (pieces (encode text) 0).map fun texts =>
          texts.zipIdx.map fun (text, piece) => .text (pieceId id piece) text
      else some [.text id text]
  | .commentary id text =>
      if msgInlineMax < textLen text then
        (pieces (encode text) 0).map fun texts =>
          texts.zipIdx.map fun (text, piece) => .commentary (pieceId id piece) text
      else some [.commentary id text]
  | part => some [part]

/-- The chunks so far; the last one is open, and its bytes are counted. -/
structure Chunks (Value : Type) where
  full : List (List (MessagePart Value))
  last : List (MessagePart Value)
  currentBytes : Nat

namespace Chunks

def pushPart (chunks : Chunks Value) (part : MessagePart Value) : Chunks Value :=
  let len := byteLen sizes part
  if 0 < chunks.currentBytes ∧ msgInlineMax < chunks.currentBytes + len then
    { full := chunks.full ++ [chunks.last], last := [part], currentBytes := len }
  else { chunks with last := chunks.last ++ [part], currentBytes := chunks.currentBytes + len }

end Chunks

def splitParts (parts : List (MessagePart Value)) : Option (List (List (MessagePart Value))) :=
  (parts.foldlM (fun chunks part =>
    (subParts part).map fun subs => subs.foldl (Chunks.pushPart sizes) chunks)
      { full := [], last := [], currentBytes := 0 }).map fun chunks =>
        chunks.full ++ [chunks.last]

end Split

section Pieces

def bytesOf (chars : List Char) : Bytes := chars.flatMap encodeChar

theorem bytesOf_append (front back : List Char) :
    bytesOf (front ++ back) = bytesOf front ++ bytesOf back :=
  List.flatMap_append

theorem length_bytesOf_append (front back : List Char) :
    (bytesOf (front ++ back)).length = (bytesOf front).length + (bytesOf back).length := by
  rw [bytesOf_append, List.length_append]

theorem length_bytesOf_singleton (c : Char) :
    1 ≤ (bytesOf [c]).length ∧ (bytesOf [c]).length ≤ msgInlineMax := by
  obtain ⟨lead, tail, hshape, -, -, htail⟩ := encodeChar_shape c
  unfold bytesOf
  rw [List.flatMap_singleton, hshape, List.length_cons]
  unfold msgInlineMax
  omega

/-- The way back from the end of the budget ends after some whole characters. -/
theorem backToBoundary_spec {front back : List Char} (h : back ≠ []) :
    ∃ mid rest, back = mid ++ rest ∧ mid ≠ [] ∧ (bytesOf mid).length ≤ msgInlineMax ∧
      backToBoundary (bytesOf (front ++ back))
        (min ((bytesOf front).length + msgInlineMax) (bytesOf (front ++ back)).length) =
          (bytesOf (front ++ mid)).length := by
  obtain ⟨c, tail, rfl⟩ := List.exists_cons_of_ne_nil h
  obtain ⟨hpos, hmax⟩ := length_bytesOf_singleton c
  have htotal := length_bytesOf_append front (c :: tail)
  have hstep := length_bytesOf_append front [c]
  have htail := length_bytesOf_append [c] tail
  rw [List.singleton_append] at htail
  generalize hlimit : min ((bytesOf front).length + msgInlineMax)
    (bytesOf (front ++ c :: tail)).length = limit
  have hfirst : isCharBoundary (bytesOf (front ++ c :: tail)) (bytesOf (front ++ [c])).length =
      true :=
    (isCharBoundary_iff (by change _ ≤ (bytesOf _).length; omega)).mpr
      ⟨front ++ [c], tail, by simp, rfl⟩
  have hlast : isCharBoundary (bytesOf (front ++ c :: tail))
      (backToBoundary (bytesOf (front ++ c :: tail)) limit) = true :=
    isCharBoundary_backToBoundary (by omega)
  have hge : (bytesOf (front ++ [c])).length ≤
      backToBoundary (bytesOf (front ++ c :: tail)) limit :=
    le_backToBoundary (by omega) hfirst
  have hle := backToBoundary_le (bytesOf (front ++ c :: tail)) limit
  generalize backToBoundary (bytesOf (front ++ c :: tail)) limit = stop at hlast hge hle
  obtain ⟨front', back', heq, hstop⟩ :=
    (isCharBoundary_iff (by change _ ≤ (bytesOf _).length; omega)).mp hlast
  have hstop : stop = (bytesOf front').length := hstop
  obtain ⟨mid, rfl, hmid⟩ | ⟨mid, rfl, -⟩ := List.append_eq_append_iff.mp heq
  · have hsplit := length_bytesOf_append front mid
    refine ⟨mid, back', hmid, ?_, by omega, hstop⟩
    rintro rfl
    have hnil : (bytesOf []).length = 0 := rfl
    omega
  · have hsplit := length_bytesOf_append front' mid
    omega

theorem pieceStop_spec {front back : List Char} (h : back ≠ []) : ∃ mid rest, back = mid ++ rest ∧
    mid ≠ [] ∧ (bytesOf mid).length ≤ msgInlineMax ∧
      pieceStop (bytesOf (front ++ back)) (bytesOf front).length =
        (bytesOf (front ++ mid)).length := by
  obtain ⟨mid, rest, hback, hmid, hmax, hstop⟩ := backToBoundary_spec h
  refine ⟨mid, rest, hback, hmid, hmax, ?_⟩
  obtain ⟨c, tail, rfl⟩ := List.exists_cons_of_ne_nil hmid
  have hpos := (length_bytesOf_singleton c).1
  have hsplit := length_bytesOf_append front (c :: tail)
  have htail := length_bytesOf_append [c] tail
  rw [List.singleton_append] at htail
  unfold pieceStop
  dsimp only
  rw [hstop, if_neg (by omega)]

/-- The pieces are texts that make up the text, none empty and none too long. -/
theorem pieces_spec (front back : List Char) : ∃ texts,
    pieces (bytesOf (front ++ back)) (bytesOf front).length = some texts ∧
      texts.flatMap String.toList = back ∧
        ∀ text ∈ texts, text ≠ "" ∧ textLen text ≤ msgInlineMax := by
  induction hlength : back.length using Nat.strongRecOn generalizing front back with
  | ind length ih =>
      have htotal := length_bytesOf_append front back
      rw [pieces]
      by_cases hback : back = []
      · subst hback
        rw [dif_neg (by rw [List.append_nil]; exact Nat.lt_irrefl _)]
        exact ⟨[], rfl, rfl, by simp⟩
      · obtain ⟨mid, rest, rfl, hmid, hmax, hstop⟩ := pieceStop_spec hback
        have hshorter : rest.length < length := by
          have := List.length_pos_iff.mpr hmid
          rw [← hlength, List.length_append]
          omega
        obtain ⟨texts, hpieces, hjoin, htexts⟩ := ih rest.length hshorter (front ++ mid) rest rfl
        have hslice := sliceText_chars front mid rest
        rw [List.append_assoc] at hpieces hslice
        have hlt : (bytesOf front).length < (bytesOf (front ++ (mid ++ rest))).length := by
          obtain ⟨c, tail, rfl⟩ := List.exists_cons_of_ne_nil hmid
          have hpos := (length_bytesOf_singleton c).1
          have htail := length_bytesOf_append [c] (tail ++ rest)
          rw [List.singleton_append] at htail
          rw [List.cons_append] at htotal ⊢
          omega
        rw [dif_pos hlt, hstop, hpieces]
        refine ⟨String.ofList mid :: texts, ?_, ?_, ?_⟩
        · exact (congrArg (Option.bind · _) hslice).trans rfl
        · rw [List.flatMap_cons, String.toList_ofList, hjoin]
        · intro text htext
          obtain rfl | htext := List.mem_cons.mp htext
          · refine ⟨fun hempty => hmid ?_, ?_⟩
            · simpa using hempty
            · unfold textLen encode
              rw [String.toList_ofList]
              exact hmax
          · exact htexts text htext

end Pieces

section Parts

def MessagePart.isText : MessagePart Value → Bool
  | .text _ _ | .commentary _ _ => true
  | _ => false

/-- What a part becomes: itself, or numbered pieces that make up a text too long for a chunk. -/
inductive SplitInto (sizes : JsonSizes Value) :
    MessagePart Value → List (MessagePart Value) → Prop where
  | whole (part : MessagePart Value)
      (h : byteLen sizes part ≤ msgInlineMax ∨ part.isText = false) : SplitInto sizes part [part]
  | text (id : String) (texts : List String) (hlong : msgInlineMax < textLen (String.join texts))
      (htexts : ∀ text ∈ texts, text ≠ "" ∧ textLen text ≤ msgInlineMax) :
      SplitInto sizes (.text id (String.join texts))
        (texts.zipIdx.map fun (text, piece) => .text (pieceId id piece) text)
  | commentary (id : String) (texts : List String)
      (hlong : msgInlineMax < textLen (String.join texts))
      (htexts : ∀ text ∈ texts, text ≠ "" ∧ textLen text ≤ msgInlineMax) :
      SplitInto sizes (.commentary id (String.join texts))
        (texts.zipIdx.map fun (text, piece) => .commentary (pieceId id piece) text)

variable {sizes : JsonSizes Value}

theorem toList_join (texts : List String) :
    (String.join texts).toList = texts.flatMap String.toList := by
  have hfold : ∀ start : String,
      (texts.foldl (· ++ ·) start).toList = start.toList ++ texts.flatMap String.toList := by
    induction texts with
    | nil => simp
    | cons text texts ih =>
        intro start
        rw [List.foldl_cons, ih, String.toList_append, List.flatMap_cons, List.append_assoc]
  exact hfold ""

theorem pieces_text (text : String) : ∃ texts, pieces (encode text) 0 = some texts ∧
    String.join texts = text ∧ ∀ text ∈ texts, text ≠ "" ∧ textLen text ≤ msgInlineMax := by
  obtain ⟨texts, hpieces, hjoin, htexts⟩ := pieces_spec [] text.toList
  refine ⟨texts, hpieces, ?_, htexts⟩
  rw [← String.toList_inj, toList_join, hjoin]

theorem subParts_spec (sizes : JsonSizes Value) (part : MessagePart Value) :
    ∃ subs, subParts part = some subs ∧ SplitInto sizes part subs := by
  cases part with
  | text id text =>
      rw [subParts]
      split
      · rename_i hlong
        obtain ⟨texts, hpieces, rfl, htexts⟩ := pieces_text text
        rw [hpieces]
        exact ⟨_, rfl, .text id texts hlong htexts⟩
      · rename_i hshort
        exact ⟨_, rfl, .whole _ (.inl (Nat.le_of_not_lt hshort))⟩
  | commentary id text =>
      rw [subParts]
      split
      · rename_i hlong
        obtain ⟨texts, hpieces, rfl, htexts⟩ := pieces_text text
        rw [hpieces]
        exact ⟨_, rfl, .commentary id texts hlong htexts⟩
      · rename_i hshort
        exact ⟨_, rfl, .whole _ (.inl (Nat.le_of_not_lt hshort))⟩
  | notice _ _ _ | tool _ | input _ _ _ _ | error id message => exact ⟨_, rfl, .whole _ (.inr rfl)⟩

variable {part : MessagePart Value} {subs : List (MessagePart Value)}

theorem ne_nil_of_long {texts : List String} (h : msgInlineMax < textLen (String.join texts)) :
    texts ≠ [] := by
  rintro rfl
  exact absurd h (by decide)

theorem SplitInto.ne_nil (h : SplitInto sizes part subs) : subs ≠ [] := by
  cases h with
  | whole _ _ => exact List.cons_ne_nil _ _
  | text id texts hlong _ | commentary id texts hlong _ => simpa using ne_nil_of_long hlong

theorem SplitInto.small (h : SplitInto sizes part subs) :
    ∀ sub ∈ subs, byteLen sizes sub ≤ msgInlineMax ∨ sub.isText = false := by
  cases h with
  | whole _ hsmall =>
      intro sub hsub
      rw [List.mem_singleton.mp hsub]
      exact hsmall
  | text id texts _ htexts | commentary id texts _ htexts =>
      intro sub hsub
      obtain ⟨⟨text, piece⟩, htext, rfl⟩ := List.mem_map.mp hsub
      exact .inl (htexts text (List.fst_mem_of_mem_zipIdx htext)).2

theorem pieceId_toList {piece : Nat} (h : piece ≠ 0) (id : String) :
    (pieceId id piece).toList = id.toList ++ '~' :: (Nat.repr piece).toList := by
  unfold pieceId
  rw [if_neg h, String.toList_append, String.toList_append, List.append_assoc]
  rfl

theorem pieceId_injective (id : String) : Function.Injective (pieceId id) := by
  have hfirst : ∀ {piece}, piece ≠ 0 → pieceId id 0 ≠ pieceId id piece := by
    intro piece hpiece heq
    have hlist := congrArg String.toList heq
    rw [pieceId_toList hpiece] at hlist
    exact absurd (List.self_eq_append_right.mp hlist) (by simp)
  intro piece piece' heq
  by_cases hpiece : piece = 0
  · by_cases hpiece' : piece' = 0
    · rw [hpiece, hpiece']
    · rw [hpiece] at heq
      exact absurd heq (hfirst hpiece')
  · by_cases hpiece' : piece' = 0
    · rw [hpiece'] at heq
      exact absurd heq.symm (hfirst hpiece)
    · have hlist := congrArg String.toList heq
      rw [pieceId_toList hpiece, pieceId_toList hpiece'] at hlist
      have hdigits := (List.cons.inj (List.append_cancel_left hlist)).2
      have hvalue := congrArg (Nat.ofDigitChars 10 · 0) hdigits
      simpa using hvalue

end Parts

section Chunking

variable {sizes : JsonSizes Value} {chunks : Chunks Value} {pushed : List (MessagePart Value)}

def chunkLen (sizes : JsonSizes Value) (chunk : List (MessagePart Value)) : Nat :=
  (chunk.map (byteLen sizes)).sum

/-- Within the cap, or one part that cannot be split behind parts of no size. -/
def Fits (sizes : JsonSizes Value) (chunk : List (MessagePart Value)) : Prop :=
  chunkLen sizes chunk ≤ msgInlineMax ∨ ∃ blanks big, chunk = blanks ++ [big] ∧
    (∀ blank ∈ blanks, byteLen sizes blank = 0) ∧ msgInlineMax < byteLen sizes big ∧
      big.isText = false

/-- The chunks hold what was pushed. -/
structure Chunks.Sound (sizes : JsonSizes Value) (chunks : Chunks Value)
    (pushed : List (MessagePart Value)) : Prop where
  pushed : chunks.full.flatten ++ chunks.last = pushed
  currentBytes : chunks.currentBytes = chunkLen sizes chunks.last
  fits : ∀ chunk ∈ chunks.full ++ [chunks.last], Fits sizes chunk
  full : [] ∉ chunks.full
  last : chunks.last = [] → chunks.full = []

theorem chunkLen_concat (chunk : List (MessagePart Value)) (part : MessagePart Value) :
    chunkLen sizes (chunk ++ [part]) = chunkLen sizes chunk + byteLen sizes part := by
  simp [chunkLen]

theorem blank_of_chunkLen {chunk : List (MessagePart Value)} (h : chunkLen sizes chunk = 0) :
    ∀ part ∈ chunk, byteLen sizes part = 0 := by
  intro part hpart
  exact List.sum_eq_zero_iff.mp h _ (List.mem_map_of_mem hpart)

theorem fits_blanks {blanks : List (MessagePart Value)} {part : MessagePart Value}
    (hblanks : chunkLen sizes blanks = 0)
    (h : byteLen sizes part ≤ msgInlineMax ∨ part.isText = false) :
    Fits sizes (blanks ++ [part]) := by
  by_cases hle : byteLen sizes part ≤ msgInlineMax
  · left
    rw [chunkLen_concat, hblanks, Nat.zero_add]
    exact hle
  · exact .inr ⟨blanks, part, rfl, blank_of_chunkLen hblanks, Nat.lt_of_not_le hle,
      h.resolve_left hle⟩

theorem Chunks.Sound.pushPart (h : chunks.Sound sizes pushed) {part : MessagePart Value}
    (hpart : byteLen sizes part ≤ msgInlineMax ∨ part.isText = false) :
    (chunks.pushPart sizes part).Sound sizes (pushed ++ [part]) := by
  unfold Chunks.pushPart
  dsimp only
  split
  · rename_i hfull
    have hlast : chunks.last ≠ [] := by
      intro hempty
      have hbytes := h.currentBytes
      rw [hempty] at hbytes
      have hzero : chunkLen sizes [] = 0 := rfl
      omega
    refine ⟨?_, ?_, ?_, ?_, fun hempty => (by cases hempty)⟩
    · rw [← h.pushed, List.flatten_append, List.flatten_singleton]
    · exact (chunkLen_concat [] part).trans (Nat.zero_add _) |>.symm
    · intro chunk hchunk
      obtain hchunk | hchunk := List.mem_append.mp hchunk
      · exact h.fits chunk hchunk
      · rw [List.mem_singleton.mp hchunk]
        exact (fits_blanks rfl hpart : Fits sizes ([] ++ [part]))
    · intro hmem
      obtain hmem | hmem := List.mem_append.mp hmem
      · exact h.full hmem
      · exact hlast (List.mem_singleton.mp hmem).symm
  · rename_i hroom
    refine ⟨?_, ?_, ?_, h.full, fun hempty => absurd hempty (by simp)⟩
    · rw [← h.pushed, List.append_assoc]
    · rw [chunkLen_concat, h.currentBytes]
    · intro chunk hchunk
      obtain hchunk | hchunk := List.mem_append.mp hchunk
      · exact h.fits chunk (List.mem_append_left _ hchunk)
      · rw [List.mem_singleton.mp hchunk]
        by_cases hblank : chunkLen sizes chunks.last = 0
        · exact fits_blanks hblank hpart
        · left
          rw [chunkLen_concat]
          have hbytes := h.currentBytes
          omega

theorem Chunks.Sound.foldl (h : chunks.Sound sizes pushed) {subs : List (MessagePart Value)}
    (hsubs : ∀ sub ∈ subs, byteLen sizes sub ≤ msgInlineMax ∨ sub.isText = false) :
    (subs.foldl (Chunks.pushPart sizes) chunks).Sound sizes (pushed ++ subs) := by
  induction subs generalizing chunks pushed with
  | nil =>
      rw [List.append_nil]
      exact h
  | cons sub subs ih =>
      have hnext := ih (h.pushPart (hsubs sub List.mem_cons_self)) fun other hother =>
        hsubs other (List.mem_cons_of_mem _ hother)
      rwa [List.append_assoc, List.singleton_append] at hnext

theorem foldlM_sound (h : chunks.Sound sizes pushed) (parts : List (MessagePart Value)) :
    ∃ chunks' subs, parts.foldlM (fun chunks part =>
        (subParts part).map fun subs => subs.foldl (Chunks.pushPart sizes) chunks) chunks =
          some chunks' ∧
      List.Forall₂ (SplitInto sizes) parts subs ∧ chunks'.Sound sizes (pushed ++ subs.flatten) := by
  induction parts generalizing chunks pushed with
  | nil => exact ⟨chunks, [], rfl, .nil, by rwa [List.flatten_nil, List.append_nil]⟩
  | cons part parts ih =>
      obtain ⟨sub, hsub, hinto⟩ := subParts_spec sizes part
      obtain ⟨chunks', subs, hfold, hsubs, hsound⟩ := ih (h.foldl hinto.small)
      refine ⟨chunks', sub :: subs, ?_, .cons hinto hsubs, ?_⟩
      · rw [List.foldlM_cons, hsub]
        exact hfold
      · rwa [List.flatten_cons, ← List.append_assoc]

theorem flatten_ne_nil {parts : List (MessagePart Value)} {subs : List (List (MessagePart Value))}
    (h : List.Forall₂ (SplitInto sizes) parts subs) (hparts : parts ≠ []) : subs.flatten ≠ [] := by
  cases h with
  | nil => exact absurd rfl hparts
  | cons hfirst _ =>
      rw [List.flatten_cons]
      exact fun hempty => hfirst.ne_nil (List.append_eq_nil_iff.mp hempty).1

/-- **Split.** No slice cuts a character. The chunks hold the parts in order, each whole or as numbered
texts that make it up; none is empty unless there are no parts, and each fits. -/
theorem splitParts_lossless (sizes : JsonSizes Value) (parts : List (MessagePart Value)) :
    ∃ chunks subs, splitParts sizes parts = some chunks ∧
      List.Forall₂ (SplitInto sizes) parts subs ∧ chunks.flatten = subs.flatten ∧
        (parts = [] → chunks = [[]]) ∧ (parts ≠ [] → [] ∉ chunks) ∧
          (∀ chunk ∈ chunks, Fits sizes chunk) ∧ ∀ id, Function.Injective (pieceId id) := by
  have hstart : Chunks.Sound sizes { full := [], last := [], currentBytes := 0 } [] :=
    ⟨rfl, rfl, by simp [Fits, chunkLen], by simp, fun _ => rfl⟩
  obtain ⟨chunks, subs, hfold, hsubs, hsound⟩ := foldlM_sound hstart parts
  rw [List.nil_append] at hsound
  refine ⟨chunks.full ++ [chunks.last], subs, ?_, hsubs, ?_, ?_, ?_, hsound.fits,
    pieceId_injective⟩
  · unfold splitParts
    rw [hfold]
    rfl
  · rw [List.flatten_append, List.flatten_singleton, hsound.pushed]
  · rintro rfl
    cases hsubs
    cases hfold
    rfl
  · intro hparts hmem
    obtain hmem | hmem := List.mem_append.mp hmem
    · exact hsound.full hmem
    · have hlast := (List.mem_singleton.mp hmem).symm
      have hpushed := hsound.pushed
      rw [hlast, hsound.last hlast] at hpushed
      exact flatten_ne_nil hsubs hparts hpushed.symm

def emptySizes : JsonSizes Unit := ⟨fun _ => 2, fun _ => 2, fun _ => 2, fun _ => 2⟩

def longMessage : String := String.ofList (List.replicate (msgInlineMax + 1) 'x')

theorem textLen_replicate (n : Nat) : textLen (String.ofList (List.replicate n 'x')) = n := by
  have hbyte : (encodeChar 'x').length = 1 := rfl
  unfold textLen encode
  rw [String.toList_ofList, List.length_flatMap, List.map_replicate, hbyte, List.sum_replicate,
    nsmul_one, Nat.cast_id]

theorem split_blank_error (message : String) :
    splitParts emptySizes [.text "t0" "", .error "e1" message] =
      some [[.text "t0" "", .error "e1" message]] := rfl

theorem chunkLen_blank_error (message : String) :
    chunkLen emptySizes [.text "t0" "", .error "e1" message] = textLen message := by
  have hblank : textLen "" = 0 := rfl
  simp only [chunkLen, byteLen, List.map_cons, List.map_nil, List.sum_cons, List.sum_nil,
    Nat.add_zero, hblank, Nat.zero_add]

/-- No parts make an empty chunk, and an empty text stays with a part over the cap. -/
theorem chunk_exceptions : splitParts emptySizes [] = some [[]] ∧
    splitParts emptySizes [.text "t0" "", .error "e1" longMessage] =
      some [[.text "t0" "", .error "e1" longMessage]] ∧
    msgInlineMax < chunkLen emptySizes [.text "t0" "", .error "e1" longMessage] := by
  refine ⟨rfl, split_blank_error longMessage, ?_⟩
  rw [chunkLen_blank_error, longMessage, textLen_replicate]
  exact Nat.lt_succ_self _

end Chunking

end Zeron.Doc
