import Zeron.Lib.Lines
import Zeron.Lib.Machine
import Zeron.Lib.JsonString
import Mathlib.Logic.Function.Basic

/-!
# The run journal

`RunJournal` of the engine: one file of JSON lines per chat, appended through a bounded set of open
handles, read whole by every other operation. A write can fail and the process can die at any byte.
-/

namespace Zeron.Engine

open Zeron.Lib

/-- How a `JournalLine` is written and read; `isDone` tells a `Done` event. -/
structure JournalCodec (E : Type*) where
  toJson : Nat → E → String
  ofJson : String → Option (Nat × E)
  isDone : E → Bool

/-- What `serde_json` promises of the line of a record. -/
structure JournalCodec.Lawful {E : Type*} (codec : JournalCodec E) : Prop where
  ofJson_toJson : ∀ seq event, codec.ofJson (codec.toJson seq event) = some (seq, event)
  no_newline : ∀ seq event, '\n' ∉ (codec.toJson seq event).toList
  no_return : ∀ seq event, '\r' ∉ (codec.toJson seq event).toList
  opens : ∀ seq event, '{' ∈ (codec.toJson seq event).toList
  torn : ∀ seq event (text : String) rest,
    (codec.toJson seq event).toList = text.toList ++ rest → rest ≠ [] → codec.ofJson text = none

/-- The white space of `str::trim`. -/
def isWhiteSpace (c : Char) : Bool :=
  let n := c.toNat
  (9 ≤ n && n ≤ 13) || n == 0x20 || n == 0x85 || n == 0xA0 || n == 0x1680 ||
    (0x2000 ≤ n && n ≤ 0x200A) || n == 0x2028 || n == 0x2029 || n == 0x202F || n == 0x205F ||
    n == 0x3000

def sanitizeId (chatId : String) : String :=
  .ofList (chatId.toList.map fun c => if c.isAlphanum || c == '-' || c == '_' then c else '_')

structure ChatJournal where
  nextSeq : Nat
  needsNewline : Bool

/-- The journals and their open handles. `complete` and `acked` are kept for the statements: the
events whose lines were written in full, and among them those whose `append` returned. -/
structure RunJournal (E : Type*) where
  dir : List String
  content : String → Bytes
  openFiles : List (String × ChatJournal)
  complete : String → List (Nat × E)
  acked : String → List (Nat × E)

namespace RunJournal

variable {E : Type*} (codec : JournalCodec E) {events : List (Nat × E)} {file : Bytes}

def openFileCap : Nat := 16

def empty : RunJournal E :=
  { dir := [], content := fun _ => [], openFiles := []
    complete := fun _ => [], acked := fun _ => [] }

def readLine (text : String) : Option (Nat × E) :=
  if text.toList.all isWhiteSpace then none else codec.ofJson text

/-- Malformed lines are skipped, but a line that is no text ends the read with an error. -/
def readLines (file : Bytes) : Option (List (Nat × E)) :=
  ((Lines.lines file).mapM Utf8.decode?).map (·.filterMap (readLine codec))

def lastSeq (events : List (Nat × E)) : Nat := (events.getLast?.map Prod.fst).getD 0

/-- The next sequence number, and whether the file ends inside a line. -/
def scanTail (file : Bytes) : Option (Nat × Bool) :=
  (readLines codec file).map fun events => (lastSeq events + 1, Lines.endsMidLine file)

variable (s : RunJournal E)

/-- Room for one more handle. -/
def evict : RunJournal E :=
  if openFileCap ≤ s.openFiles.length then { s with openFiles := [] } else s

def openFor (chatId : String) : RunJournal E × Option ChatJournal :=
  match s.openFiles.find? (·.1 == chatId) with
  | some (_, journal) => (s, some journal)
  | none =>
      let s := s.evict
      let stem := sanitizeId chatId
      match scanTail codec (s.content stem) with
      | none => (s, none)
      | some (nextSeq, needsNewline) =>
          let journal := { nextSeq, needsNewline }
          ({ s with dir := if stem ∈ s.dir then s.dir else s.dir ++ [stem]
                    openFiles := (chatId, journal) :: s.openFiles }, some journal)

def lineText (journal : ChatJournal) (event : E) : Bytes :=
  Utf8.encode (codec.toJson journal.nextSeq event)

/-- What one `append` writes. -/
def buffer (journal : ChatJournal) (event : E) : Bytes :=
  (if journal.needsNewline then [Lines.newline] else [])
    ++ (lineText codec journal event ++ [Lines.newline])

/-- The first `k` bytes of the buffer hold the whole line. -/
def holdsLine (journal : ChatJournal) (event : E) (k : Nat) : Bool :=
  (if journal.needsNewline then 1 else 0) + (lineText codec journal event).length ≤ k

/-- The file after `k` bytes of the buffer. -/
def write (chatId : String) (journal : ChatJournal) (event : E) (k : Nat) : RunJournal E :=
  let stem := sanitizeId chatId
  { s with
    content := Function.update s.content stem
      (s.content stem ++ (buffer codec journal event).take k)
    complete := Function.update s.complete stem (s.complete stem ++
      if holdsLine codec journal event k then [(journal.nextSeq, event)] else []) }

/-- How the write of an `append` ends: in full, with an error after `k` bytes, or with the process
gone after `k` bytes. -/
inductive Outcome where
  | written
  | failed (k : Nat)
  | crashed (k : Nat)
deriving DecidableEq

/-- One `append`, and the sequence number it returns. -/
def append (chatId : String) (event : E) (outcome : Outcome) : RunJournal E × Option Nat :=
  match s.openFor codec chatId with
  | (s, none) => (s, none)
  | (s, some journal) =>
      match outcome with
      | .written =>
          let s := s.write codec chatId journal event (buffer codec journal event).length
          let stem := sanitizeId chatId
          ({ s with
              openFiles := (chatId, { nextSeq := journal.nextSeq + 1, needsNewline := false }) ::
                s.openFiles.filter (·.1 != chatId)
              acked := Function.update s.acked stem (s.acked stem ++ [(journal.nextSeq, event)]) },
            some journal.nextSeq)
      | .failed k => (s.write codec chatId journal event k, none)
      | .crashed k => ({ s.write codec chatId journal event k with openFiles := [] }, none)

/-- The events after a cursor; a cursor ahead of the last event is of another era. -/
def replay (chatId : String) (afterSeq : Nat) : Option (List (Nat × E)) :=
  let stem := sanitizeId chatId
  if stem ∈ s.dir then
    (readLines codec (s.content stem)).map fun all =>
      let start := if lastSeq all < afterSeq then 0 else afterSeq
      all.filter fun entry => start < entry.1
  else some []

/-- The last event of the journal is not a `Done`. -/
def isStale (all : List (Nat × E)) : Bool := all.getLast?.any fun entry => !codec.isDone entry.2

def staleSessions : Option (List String) :=
  (s.dir.mapM fun stem =>
    (readLines codec (s.content stem)).map fun all => (stem, isStale codec all)).map
    fun scanned => ((scanned.filter Prod.snd).map Prod.fst).mergeSort

inductive Action (E : Type*) where
  | append (chatId : String) (event : E) (outcome : Outcome)
  /-- The scan or the open of a journal fails, after the eviction. -/
  | openFails (chatId : String)
  | restart

def step (s : RunJournal E) : Action E → Option (RunJournal E)
  | .append chatId event outcome => some (s.append codec chatId event outcome).1
  | .openFails chatId => if s.openFiles.any (·.1 == chatId) then none else some s.evict
  | .restart => some { s with openFiles := [] }

def machine : Machine (RunJournal E) (Action E) :=
  { init := fun s => s = empty, step := step codec }

/-- The handle goes on where the file ends: its number is the next one, and it starts a new line if
the file ends inside one. -/
def describes (journal : ChatJournal) (file : Bytes) : Bool :=
  match scanTail codec file with
  | none => false
  | some (nextSeq, midLine) => journal.nextSeq == nextSeq && (!midLine || journal.needsNewline)

/-- What is written of the buffer is a text. -/
def Outcome.leavesText (buffer : Bytes) : Outcome → Bool
  | .written => true
  | .failed k | .crashed k => (Utf8.decode? (buffer.take k)).isSome

/-- The append goes through a handle that describes its file, and is not cut inside a character. -/
def sound (s : RunJournal E) : Action E → Bool
  | .append chatId event outcome =>
      match (s.openFor codec chatId).2 with
      | none => true
      | some journal =>
          describes codec journal (s.content (sanitizeId chatId))
            && outcome.leavesText (buffer codec journal event)
  | .openFails _ | .restart => true

def Sound (s : RunJournal E) (a : Action E) : Prop := s.sound codec a = true

instance (s : RunJournal E) (a : Action E) : Decidable (Sound codec s a) :=
  inferInstanceAs (Decidable (s.sound codec a = true))

/-! ## Reading what was written -/

variable {codec}

theorem readLines_append {file rest : Bytes} {events more : List (Nat × E)}
    (hclosed : Lines.endsMidLine file = false) (hfile : readLines codec file = some events)
    (hrest : readLines codec rest = some more) :
    readLines codec (file ++ rest) = some (events ++ more) := by
  obtain ⟨texts, htexts, rfl⟩ := Option.map_eq_some_iff.mp hfile
  obtain ⟨texts', htexts', rfl⟩ := Option.map_eq_some_iff.mp hrest
  unfold readLines
  rw [Lines.lines_append hclosed, List.mapM_append, htexts, htexts']
  simp

theorem readLines_append_newline (hreturn : Lines.carriageReturn ∉ file)
    (hfile : readLines codec file = some events) :
    readLines codec (file ++ [Lines.newline]) = some events := by
  obtain h | h := Lines.lines_append_newline hreturn
  · rw [readLines, h]
    exact hfile
  · obtain ⟨texts, htexts, rfl⟩ := Option.map_eq_some_iff.mp hfile
    unfold readLines
    rw [h, List.mapM_append, htexts]
    simp [Utf8.decode?, Utf8.units, Utf8.scan, Utf8.Pending.idle, readLine]

theorem readLines_line {file line : Bytes} {text : String} (hlines : Lines.lines file = [line])
    (htext : Utf8.decode? line = some text) :
    readLines codec file = some (readLine codec text).toList := by
  unfold readLines
  rw [hlines]
  cases hread : readLine codec text with
  | none | some entry => simp [htext, hread]

theorem readLine_toJson (hlaw : codec.Lawful) (seq : Nat) (event : E) :
    readLine codec (codec.toJson seq event) = some (seq, event) := by
  have hopen : ¬(codec.toJson seq event).toList.all isWhiteSpace = true := fun hall =>
    absurd (List.all_eq_true.mp hall _ (hlaw.opens seq event)) (by decide)
  rw [readLine, if_neg hopen, hlaw.ofJson_toJson]

theorem readLine_torn (hlaw : codec.Lawful) {seq : Nat} {event : E} {text : String}
    {rest : List Char} (h : (codec.toJson seq event).toList = text.toList ++ rest)
    (hrest : rest ≠ []) : readLine codec text = none := by
  unfold readLine
  split
  · rfl
  · exact hlaw.torn seq event text rest h hrest

theorem newline_notMem (hlaw : codec.Lawful) (seq : Nat) (event : E) :
    Lines.newline ∉ Utf8.encode (codec.toJson seq event) := fun hmem =>
  hlaw.no_newline seq event (Utf8.mem_of_ascii_mem_encode (by decide) hmem)

theorem return_notMem (hlaw : codec.Lawful) (seq : Nat) (event : E) :
    Lines.carriageReturn ∉ Utf8.encode (codec.toJson seq event) := fun hmem =>
  hlaw.no_return seq event (Utf8.mem_of_ascii_mem_encode (by decide) hmem)

theorem encode_toJson_ne_nil (hlaw : codec.Lawful) (seq : Nat) (event : E) :
    Utf8.encode (codec.toJson seq event) ≠ [] := by
  intro hnil
  have hlength := Utf8.length_le_length_encode (codec.toJson seq event)
  have hpos := List.length_pos_of_mem (hlaw.opens seq event)
  rw [hnil, List.length_nil] at hlength
  omega

theorem readLines_take (hlaw : codec.Lawful) (seq : Nat) (event : E) {k : Nat}
    (htext : (Utf8.decode?
        ((Utf8.encode (codec.toJson seq event) ++ [Lines.newline]).take k)).isSome
      ∨ (Utf8.encode (codec.toJson seq event)).length < k) :
    readLines codec ((Utf8.encode (codec.toJson seq event) ++ [Lines.newline]).take k) =
      some (if (Utf8.encode (codec.toJson seq event)).length ≤ k then [(seq, event)] else []) := by
  have hnewline := newline_notMem hlaw seq event
  have hwhole : (readLine codec (codec.toJson seq event)).toList = [(seq, event)] := by
    rw [readLine_toJson hlaw]
    rfl
  obtain hlt | heq | hgt := Nat.lt_trichotomy k (Utf8.encode (codec.toJson seq event)).length
  · rw [if_neg (by omega)]
    rw [List.take_append_of_le_length (by omega)] at htext ⊢
    obtain ⟨torn, htorn⟩ := Option.isSome_iff_exists.mp (htext.resolve_right (by omega))
    obtain ⟨rest, hrest, hne⟩ := Utf8.exists_append_of_decode?_take htorn
    have htake : Lines.newline ∉ (Utf8.encode (codec.toJson seq event)).take k := fun hmem =>
      hnewline (List.mem_of_mem_take hmem)
    have hlines := Lines.lines_torn htake
    split at hlines
    · simp [readLines, hlines]
    · rw [readLines_line hlines htorn, readLine_torn hlaw hrest (hne hlt)]
      rfl
  · subst heq
    rw [if_pos (by omega), List.take_left]
    have hlines := Lines.lines_torn hnewline
    rw [if_neg (encode_toJson_ne_nil hlaw seq event)] at hlines
    rw [readLines_line hlines (Utf8.decode?_encode _), hwhole]
  · rw [if_pos (by omega), List.take_of_length_le (by simp; omega)]
    rw [readLines_line (Lines.lines_line hnewline (return_notMem hlaw seq event))
      (Utf8.decode?_encode _), hwhole]

/-! ## One journal -/

theorem le_lastSeq (h : (0 :: events.map Prod.fst).Pairwise (· < ·)) :
    ∀ seq ∈ 0 :: events.map Prod.fst, seq ≤ lastSeq events := by
  obtain rfl | ⟨init, last, rfl⟩ := List.eq_nil_or_concat events
  · simp [lastSeq]
  · rw [List.concat_eq_append, List.map_append, ← List.cons_append, List.pairwise_append] at h
    intro seq hmem
    rw [List.concat_eq_append, List.map_append, ← List.cons_append, List.mem_append] at hmem
    have hlast : lastSeq (init.concat last) = last.1 := by simp [lastSeq]
    rw [hlast]
    obtain hmem | hmem := hmem
    · exact Nat.le_of_lt (h.2.2 seq hmem last.1 (by simp))
    · have heq : seq = last.1 := by simpa using hmem
      omega

/-- What a journal's file holds: it reads as these events, whose numbers rise from 1. -/
structure Holds (codec : JournalCodec E) (file : Bytes) (events : List (Nat × E)) : Prop where
  reads : readLines codec file = some events
  unreturned : Lines.carriageReturn ∉ file
  increasing : (0 :: events.map Prod.fst).Pairwise (· < ·)

theorem Holds.empty : Holds codec [] [] :=
  ⟨rfl, List.not_mem_nil, by simp⟩

theorem Holds.scanTail (h : Holds codec file events) :
    scanTail codec file = some (lastSeq events + 1, Lines.endsMidLine file) := by
  rw [RunJournal.scanTail, h.reads]
  rfl

theorem Holds.describes (h : Holds codec file events) {journal : ChatJournal}
    (hdescribes : describes codec journal file = true) :
    journal.nextSeq = lastSeq events + 1 ∧
      (Lines.endsMidLine file = true → journal.needsNewline = true) := by
  unfold RunJournal.describes at hdescribes
  rw [h.scanTail] at hdescribes
  simp only [Bool.and_eq_true, beq_iff_eq, Bool.or_eq_true, Bool.not_eq_true'] at hdescribes
  refine ⟨hdescribes.1, fun hmid => hdescribes.2.resolve_left ?_⟩
  simp [hmid]

theorem Holds.increasing_append (h : Holds codec file events) (event : E) :
    (0 :: (events ++ [(lastSeq events + 1, event)]).map Prod.fst).Pairwise (· < ·) := by
  rw [List.map_append, ← List.cons_append, List.pairwise_append]
  refine ⟨h.increasing, by simp, fun seq hmem seq' hmem' => ?_⟩
  have hle := le_lastSeq h.increasing seq hmem
  have heq : seq' = lastSeq events + 1 := by simpa using hmem'
  omega

theorem Holds.write_line (hlaw : codec.Lawful) (h : Holds codec file events)
    (hclosed : Lines.endsMidLine file = false) (event : E) {k : Nat}
    (htext : (Utf8.decode? ((Utf8.encode (codec.toJson (lastSeq events + 1) event)
        ++ [Lines.newline]).take k)).isSome
      ∨ (Utf8.encode (codec.toJson (lastSeq events + 1) event)).length < k) :
    Holds codec
      (file ++ (Utf8.encode (codec.toJson (lastSeq events + 1) event) ++ [Lines.newline]).take k)
      (events ++ if (Utf8.encode (codec.toJson (lastSeq events + 1) event)).length ≤ k
        then [(lastSeq events + 1, event)] else []) := by
  refine ⟨readLines_append hclosed h.reads (readLines_take hlaw _ event htext), ?_, ?_⟩
  · rw [List.mem_append, not_or]
    refine ⟨h.unreturned, fun hmem => ?_⟩
    obtain hmem | hmem := List.mem_append.mp (List.mem_of_mem_take hmem)
    · exact return_notMem hlaw _ event hmem
    · exact absurd (List.mem_singleton.mp hmem) (by decide)
  · split
    · exact h.increasing_append event
    · rw [List.append_nil]
      exact h.increasing

theorem Holds.newline (h : Holds codec file events) :
    Holds codec (file ++ [Lines.newline]) events := by
  refine ⟨readLines_append_newline h.unreturned h.reads, ?_, h.increasing⟩
  rw [List.mem_append, not_or]
  exact ⟨h.unreturned, by decide⟩

theorem decode?_newline {bytes : Bytes} (h : (Utf8.decode? (Lines.newline :: bytes)).isSome) :
    (Utf8.decode? bytes).isSome := by
  have hunits : Utf8.units (Lines.newline :: bytes) = some '\n' :: Utf8.units bytes := rfl
  unfold Utf8.decode? at h ⊢
  rw [hunits] at h
  split at h
  · cases h
  · rename_i hgap
    rw [if_neg fun hmem => hgap (List.mem_cons_of_mem _ hmem)]
    rfl

theorem Holds.write (hlaw : codec.Lawful) (h : Holds codec file events) {journal : ChatJournal}
    (hdescribes : RunJournal.describes codec journal file = true) (event : E) {k : Nat}
    (htext : (Utf8.decode? ((buffer codec journal event).take k)).isSome
      ∨ (buffer codec journal event).length ≤ k) :
    Holds codec (file ++ (buffer codec journal event).take k)
      (events ++ if holdsLine codec journal event k then [(journal.nextSeq, event)] else []) := by
  obtain ⟨hseq, hmid⟩ := h.describes hdescribes
  obtain ⟨nextSeq, needsNewline⟩ := journal
  cases hseq
  unfold buffer lineText at htext ⊢
  unfold holdsLine lineText
  cases needsNewline with
  | false =>
      have hclosed : Lines.endsMidLine file = false := by
        by_contra hne
        exact absurd (hmid (by simpa using hne)) nofun
      have hline := h.write_line hlaw hclosed event
        (htext.imp_right fun hle => by simp at hle; omega)
      simpa using hline
  | true =>
      cases k with
      | zero =>
          simpa using h
      | succ k =>
          have hline := h.newline.write_line hlaw (Lines.endsMidLine_newline file) event
            (htext.imp decode?_newline fun hle => by simp at hle; omega)
          have hlength : ∀ n, 1 + n ≤ k + 1 ↔ n ≤ k := by omega
          simpa [hlength] using hline

/-! ## Every journal -/

/-- Every file holds its complete events, which a file not yet created does not have. -/
structure Inv (codec : JournalCodec E) (s : RunJournal E) : Prop where
  holds : ∀ stem, Holds codec (s.content stem) (s.complete stem)
  opened : ∀ entry ∈ s.openFiles, sanitizeId entry.1 ∈ s.dir
  listed : ∀ stem, stem ∉ s.dir → s.complete stem = []
  acked : ∀ stem, (s.acked stem).Sublist (s.complete stem)

variable {s : RunJournal E}

theorem Inv.empty : Inv codec RunJournal.empty :=
  ⟨fun _ => Holds.empty, by simp [RunJournal.empty], fun _ _ => rfl, fun _ => List.Sublist.refl _⟩

theorem Inv.closed (h : Inv codec s) : Inv codec { s with openFiles := [] } :=
  ⟨h.holds, by simp, h.listed, h.acked⟩

theorem Inv.evict (h : Inv codec s) : Inv codec s.evict := by
  unfold RunJournal.evict
  split
  · exact h.closed
  · exact h

@[simp]
theorem evict_content (s : RunJournal E) : s.evict.content = s.content := by
  unfold evict
  split <;> rfl

@[simp]
theorem evict_complete (s : RunJournal E) : s.evict.complete = s.complete := by
  unfold evict
  split <;> rfl

theorem Inv.openFor (h : Inv codec s) (chatId : String) :
    ∃ s' journal, s.openFor codec chatId = (s', some journal) ∧ Inv codec s' ∧
      s'.content = s.content ∧ s'.complete = s.complete ∧ sanitizeId chatId ∈ s'.dir := by
  unfold RunJournal.openFor
  split
  · rename_i name journal hfind
    have hname : name = chatId := by simpa using List.find?_some hfind
    subst hname
    exact ⟨s, journal, rfl, h, rfl, rfl, h.opened (name, journal) (List.mem_of_find?_eq_some hfind)⟩
  · have hscan := (h.holds (sanitizeId chatId)).scanTail
    simp only [evict_content, hscan]
    have hdir : ∀ stem, stem ∈ s.evict.dir ∨ stem = sanitizeId chatId →
        stem ∈ if sanitizeId chatId ∈ s.evict.dir then s.evict.dir
          else s.evict.dir ++ [sanitizeId chatId] := by
      intro stem hstem
      split
      · rename_i hmem
        exact hstem.elim id fun heq => heq ▸ hmem
      · simpa using hstem
    refine ⟨_, _, rfl, ⟨fun stem => ?_, ?_, fun stem hstem => h.evict.listed stem ?_,
      h.evict.acked⟩, rfl, evict_complete s, hdir (sanitizeId chatId) (.inr rfl)⟩
    · simpa using h.holds stem
    · intro entry hentry
      obtain rfl | hentry := List.mem_cons.mp hentry
      · exact hdir (sanitizeId chatId) (.inr rfl)
      · exact hdir (sanitizeId entry.1) (.inl (h.evict.opened entry hentry))
    · exact fun hmem => hstem (hdir stem (.inl hmem))

theorem Inv.write (hlaw : codec.Lawful) (h : Inv codec s) {chatId : String}
    (hdir : sanitizeId chatId ∈ s.dir) {journal : ChatJournal}
    (hdescribes : describes codec journal (s.content (sanitizeId chatId)) = true) (event : E)
    {k : Nat} (htext : (Utf8.decode? ((buffer codec journal event).take k)).isSome
      ∨ (buffer codec journal event).length ≤ k) :
    Inv codec (s.write codec chatId journal event k) := by
  refine ⟨fun stem => ?_, h.opened, fun stem hstem => ?_, fun stem => ?_⟩
  · by_cases hstem : stem = sanitizeId chatId
    · subst hstem
      simpa [RunJournal.write] using (h.holds _).write hlaw hdescribes event htext
    · simpa [RunJournal.write, hstem] using h.holds stem
  · have hne : stem ≠ sanitizeId chatId := fun heq => hstem (heq ▸ hdir)
    simpa [RunJournal.write, hne] using h.listed stem hstem
  · by_cases hstem : stem = sanitizeId chatId
    · subst hstem
      simpa [RunJournal.write] using (h.acked _).trans (List.sublist_append_left _ _)
    · simpa [RunJournal.write, hstem] using h.acked stem

theorem holdsLine_buffer (journal : ChatJournal) (event : E) :
    holdsLine codec journal event (buffer codec journal event).length = true := by
  unfold holdsLine buffer
  split <;> simp
  omega

/-- An `append` that is written in full succeeds, and its event is complete. -/
theorem Inv.append_written (hlaw : codec.Lawful) (h : Inv codec s) {chatId : String} {event : E}
    (hsound : Sound codec s (.append chatId event .written)) :
    ∃ seq, (s.append codec chatId event .written).2 = some seq ∧
      Inv codec (s.append codec chatId event .written).1 ∧
      (s.append codec chatId event .written).1.complete (sanitizeId chatId)
        = s.complete (sanitizeId chatId) ++ [(seq, event)] := by
  obtain ⟨s', journal, hopen, hinv, hcontent, hcomplete, hdir⟩ := h.openFor chatId
  simp only [Sound, sound, hopen, Outcome.leavesText, Bool.and_true] at hsound
  rw [← hcontent] at hsound
  have hwrite := hinv.write hlaw hdir hsound event (k := (buffer codec journal event).length)
    (.inr (Nat.le_refl _))
  have hevents : (s'.write codec chatId journal event (buffer codec journal event).length).complete
      (sanitizeId chatId) = s.complete (sanitizeId chatId) ++ [(journal.nextSeq, event)] := by
    simp [RunJournal.write, holdsLine_buffer, hcomplete]
  have hacked : (s'.write codec chatId journal event (buffer codec journal event).length).acked =
      s'.acked := rfl
  have hlisted : sanitizeId chatId ∈
      (s'.write codec chatId journal event (buffer codec journal event).length).dir := hdir
  simp only [RunJournal.append, hopen]
  generalize s'.write codec chatId journal event (buffer codec journal event).length = written
    at hwrite hevents hacked hlisted ⊢
  refine ⟨journal.nextSeq, rfl, ⟨hwrite.holds, ?_, hwrite.listed, fun stem => ?_⟩, hevents⟩
  · intro entry hentry
    obtain rfl | hentry := List.mem_cons.mp hentry
    · exact hlisted
    · exact hwrite.opened entry (List.mem_filter.mp hentry).1
  · dsimp only
    by_cases hstem : stem = sanitizeId chatId
    · subst hstem
      rw [Function.update_self, hevents, hacked, ← hcomplete]
      exact (hinv.acked _).append_right _
    · rw [Function.update_of_ne hstem]
      exact hwrite.acked stem

theorem Inv.append_torn (hlaw : codec.Lawful) (h : Inv codec s) {chatId : String} {event : E}
    {outcome : Outcome} {k : Nat} (houtcome : outcome = .failed k ∨ outcome = .crashed k)
    (hsound : Sound codec s (.append chatId event outcome)) :
    Inv codec (s.append codec chatId event outcome).1 := by
  obtain ⟨s', journal, hopen, hinv, hcontent, -, hdir⟩ := h.openFor chatId
  simp only [Sound, sound, hopen, Bool.and_eq_true] at hsound
  rw [← hcontent] at hsound
  have htext : (Utf8.decode? ((buffer codec journal event).take k)).isSome := by
    obtain rfl | rfl := houtcome <;> exact hsound.2
  have hwrite := hinv.write hlaw hdir hsound.1 event (.inl htext)
  simp only [RunJournal.append, hopen]
  obtain rfl | rfl := houtcome
  · exact hwrite
  · exact hwrite.closed

theorem Inv.step (hlaw : codec.Lawful) (h : Inv codec s) {a : Action E} (hsound : Sound codec s a)
    {s' : RunJournal E} (hstep : s.step codec a = some s') : Inv codec s' := by
  cases a with
  | append chatId event outcome =>
      cases hstep
      cases outcome with
      | written =>
          obtain ⟨seq, -, hinv, -⟩ := h.append_written hlaw hsound
          exact hinv
      | failed k => exact h.append_torn hlaw (.inl rfl) hsound
      | crashed k => exact h.append_torn hlaw (.inr rfl) hsound
  | openFails chatId =>
      simp only [RunJournal.step] at hstep
      split at hstep <;> cases hstep
      exact h.evict
  | restart =>
      cases hstep
      exact h.closed

theorem Inv.of_reachable (hlaw : codec.Lawful)
    (h : (machine codec).ReachableWhen (Sound codec) s) : Inv codec s := by
  refine h.invariant (I := Inv codec) ?_ ?_
  · rintro _ rfl
    exact Inv.empty
  · intro s a s' hinv hsound hstep
    exact hinv.step hlaw hsound hstep

theorem Inv.replay (h : Inv codec s) (chatId : String) :
    s.replay codec chatId 0 = some (s.complete (sanitizeId chatId)) := by
  unfold RunJournal.replay
  dsimp only
  split
  · have hholds := h.holds (sanitizeId chatId)
    rw [hholds.reads, Option.map_some, if_neg (by omega), List.filter_eq_self.mpr]
    intro entry hentry
    have hpos := (List.pairwise_cons.mp hholds.increasing).1 entry.1 (List.mem_map_of_mem hentry)
    simpa using hpos
  · rename_i hdir
    rw [h.listed _ hdir]

theorem Inv.staleSessions (h : Inv codec s) :
    ∃ stems, s.staleSessions codec = some stems ∧
      ∀ stem, stem ∈ stems ↔ stem ∈ s.dir ∧ isStale codec (s.complete stem) = true := by
  have hscan : (fun stem => (readLines codec (s.content stem)).map
      fun all => (stem, isStale codec all)) =
      fun stem => pure (stem, isStale codec (s.complete stem)) := by
    funext stem
    rw [(h.holds stem).reads, Option.map_some]
    rfl
  unfold RunJournal.staleSessions
  rw [hscan, List.mapM_pure]
  refine ⟨_, rfl, fun stem => ?_⟩
  simp [List.mem_mergeSort]

/-- The replay has every acknowledged event once and in order, and the stale scan finds the journals
whose last complete event is not a `Done`. -/
structure Durable (codec : JournalCodec E) (s : RunJournal E) : Prop where
  replayed : ∀ chatId, ∃ events, s.replay codec chatId 0 = some events ∧
    (s.acked (sanitizeId chatId)).Sublist events ∧ (events.map Prod.fst).Pairwise (· < ·)
  stale : ∃ stems, s.staleSessions codec = some stems ∧ ∀ stem, stem ∈ stems ↔
    stem ∈ s.dir ∧ ∃ last, (s.complete stem).getLast? = some last ∧ codec.isDone last.2 = false

/-- The next append to the journal succeeds, and is replayed last. -/
def Appends (codec : JournalCodec E) (s : RunJournal E) (chatId : String) (event : E) : Prop :=
  ∃ seq events, (s.append codec chatId event .written).2 = some seq ∧
    s.replay codec chatId 0 = some events ∧
    (s.append codec chatId event .written).1.replay codec chatId 0 = some (events ++ [(seq, event)])

/-- **The journal is durable** while no write is cut inside a character and no append goes through a
handle that a failed write, or another chat of the same file, has left behind. -/
theorem journal_durable (hlaw : codec.Lawful)
    (h : (machine codec).ReachableWhen (Sound codec) s) :
    Durable codec s ∧ ∀ chatId event, Sound codec s (.append chatId event .written) →
      Appends codec s chatId event := by
  have hinv := Inv.of_reachable hlaw h
  refine ⟨⟨fun chatId => ⟨_, hinv.replay chatId, hinv.acked _, ?_⟩, ?_⟩, ?_⟩
  · exact (List.pairwise_cons.mp (hinv.holds _).increasing).2
  · obtain ⟨stems, hstems, hmem⟩ := hinv.staleSessions
    refine ⟨stems, hstems, fun stem => ?_⟩
    rw [hmem, isStale, Option.any_eq_true]
    simp
  · intro chatId event hsound
    obtain ⟨seq, hseq, hinv', hcomplete⟩ := hinv.append_written hlaw hsound
    refine ⟨seq, _, hseq, hinv.replay chatId, ?_⟩
    rw [hinv'.replay, hcomplete]

/-! ## The lines of two events -/

/-- Two of the agent's events, with their JSON lines. -/
inductive JournalEvent where
  | textDelta (text : String)
  | done
deriving DecidableEq

def seqText : List Char := '{' :: "\"seq\":".toList

def typeText : List Char := "\"event\":\x7b\"type\":\"".toList

def textDeltaText : List Char := 't' :: "extDelta\",\"text\":\"".toList

def doneText : List Char :=
  'd' :: ("one\",\"status\":\"completed\",\"result\":null,".toList
    ++ "\"error\":null,\"sessionId\":null".toList)

def closeText : List Char := "\x7d\x7d".toList

def eventChars : JournalEvent → List Char
  | .textDelta text => textDeltaText ++ (JsonString.escape text.toList ++ ['"'])
  | .done => doneText

def recordChars (seq : Nat) (event : JournalEvent) : List Char :=
  seqText ++ (Nat.toDigits 10 seq ++ ',' :: (typeText ++ (eventChars event ++ closeText)))

def readEvent (chars : List Char) : Option (JournalEvent × List Char) :=
  match textDeltaText.isPrefixOf? chars with
  | some rest =>
      (JsonString.readString rest).map fun (text, rest) => (.textDelta (.ofList text), rest)
  | none => (doneText.isPrefixOf? chars).map fun rest => (.done, rest)

def readRecord (chars : List Char) : Option ((Nat × JournalEvent) × List Char) := do
  let rest ← seqText.isPrefixOf? chars
  let seq := Nat.ofDigitChars 10 (rest.takeWhile Char.isDigit) 0
  let rest ← [','].isPrefixOf? (rest.dropWhile Char.isDigit)
  let rest ← typeText.isPrefixOf? rest
  let (event, rest) ← readEvent rest
  let rest ← closeText.isPrefixOf? rest
  some ((seq, event), rest)

def jsonCodec : JournalCodec JournalEvent :=
  { toJson := fun seq event => .ofList (recordChars seq event)
    ofJson := fun text => do
      let (entry, _) ← readRecord text.toList
      if recordChars entry.1 entry.2 = text.toList then some entry else none
    isDone := fun event => event == .done }

theorem isPrefixOf?_append (expected rest : List Char) :
    expected.isPrefixOf? (expected ++ rest) = some rest := by
  induction expected with
  | nil => rfl
  | cons c expected ih =>
      rw [List.cons_append, List.isPrefixOf?, if_pos (by simp)]
      exact ih

theorem readEvent_append (event : JournalEvent) (rest : List Char) :
    readEvent (eventChars event ++ rest) = some (event, rest) := by
  cases event with
  | textDelta text =>
      simp only [readEvent, eventChars, List.append_assoc, isPrefixOf?_append]
      rw [List.singleton_append, JsonString.readString_escape]
      simp
  | done =>
      have hother : textDeltaText.isPrefixOf? (doneText ++ rest) = none := rfl
      simp [readEvent, eventChars, hother, isPrefixOf?_append]

theorem readRecord_append (seq : Nat) (event : JournalEvent) (rest : List Char) :
    readRecord (recordChars seq event ++ rest) = some ((seq, event), rest) := by
  have hdigits : ∀ c ∈ Nat.toDigits 10 seq, c.isDigit = true := fun c hc =>
    Nat.isDigit_of_mem_toDigits (by omega) (by omega) hc
  have hcomma : Char.isDigit ',' = false := rfl
  have htake : ∀ tail, (Nat.toDigits 10 seq ++ ',' :: tail).takeWhile Char.isDigit =
      Nat.toDigits 10 seq := by
    intro tail
    rw [List.takeWhile_append_of_pos hdigits, List.takeWhile_cons, hcomma]
    simp
  have hdrop : ∀ tail, (Nat.toDigits 10 seq ++ ',' :: tail).dropWhile Char.isDigit =
      ',' :: tail := by
    intro tail
    rw [List.dropWhile_append_of_pos hdigits, List.dropWhile_cons, hcomma]
    rfl
  have hread : ∀ tail, [','].isPrefixOf? (',' :: tail) = some tail := isPrefixOf?_append [',']
  simp only [readRecord, recordChars, List.append_assoc, isPrefixOf?_append, Option.bind_eq_bind,
    Option.bind_some, List.cons_append, htake, hdrop, hread, readEvent_append,
    Nat.ofDigitChars_ten_toDigits]

theorem le_of_mem_recordChars {c : Char} {seq : Nat} {event : JournalEvent}
    (h : c ∈ recordChars seq event) : 0x20 ≤ c.toNat := by
  have hall : ∀ chars : List Char, (chars.all fun c => 0x20 ≤ c.toNat) = true → c ∈ chars →
      0x20 ≤ c.toNat := fun chars hchars hmem =>
    of_decide_eq_true (List.all_eq_true.mp hchars c hmem)
  simp only [recordChars, List.mem_append, List.mem_cons] at h
  obtain h | h | rfl | h | h | h := h
  · exact hall seqText rfl h
  · have hdigit := Char.isDigit_iff_toNat.mp (Nat.isDigit_of_mem_toDigits (by omega) (by omega) h)
    exact Nat.le_trans (by decide) hdigit.1
  · decide
  · exact hall typeText rfl h
  · cases event with
    | textDelta text =>
        simp only [eventChars, List.mem_append, List.mem_singleton] at h
        obtain h | h | rfl := h
        · exact hall textDeltaText rfl h
        · exact JsonString.le_of_mem_escape h
        · decide
    | done => exact hall doneText rfl h
  · exact hall closeText rfl h

theorem jsonCodec_lawful : jsonCodec.Lawful := by
  refine ⟨fun seq event => ?_, fun seq event => ?_, fun seq event => ?_, fun seq event => ?_,
    fun seq event text rest h hrest => ?_⟩
  · have hread := readRecord_append seq event []
    rw [List.append_nil] at hread
    simp [jsonCodec, hread]
  · simp only [jsonCodec, String.toList_ofList]
    exact fun hmem => absurd (le_of_mem_recordChars hmem) (by decide)
  · simp only [jsonCodec, String.toList_ofList]
    exact fun hmem => absurd (le_of_mem_recordChars hmem) (by decide)
  · simp only [jsonCodec, String.toList_ofList, recordChars, seqText]
    exact List.mem_append_left _ List.mem_cons_self
  · have hline : recordChars seq event = text.toList ++ rest := by simpa [jsonCodec] using h
    by_contra hne
    obtain ⟨entry, hentry⟩ := Option.ne_none_iff_exists'.mp hne
    simp only [jsonCodec, Option.bind_eq_bind, Option.bind_eq_some_iff] at hentry
    obtain ⟨⟨entry', rest'⟩, -, hentry⟩ := hentry
    split at hentry <;> cases hentry
    rename_i htext
    -- The text is itself a line, so the reader would stop inside the longer one.
    have hread := readRecord_append seq event []
    rw [List.append_nil, hline, ← htext, readRecord_append] at hread
    simp only [Option.some.injEq, Prod.mk.injEq] at hread
    exact hrest hread.2

/-- A line torn between two characters, and the journal goes on. -/
theorem torn_line_durable :
    ∃ s : RunJournal JournalEvent, s.acked "c" = [(1, .textDelta "a"), (2, .textDelta "b")] ∧
      Durable jsonCodec s := by
  obtain ⟨s, hsteps, hs⟩ := Machine.exists_steps_of_runWhen (machine jsonCodec) (Sound jsonCodec)
    (s := empty)
    [.append "c" (.textDelta "a") .written, .append "c" (.textDelta "é") (.crashed 20),
      .append "c" (.textDelta "b") .written]
    (p := fun s => s.acked "c" = [(1, .textDelta "a"), (2, .textDelta "b")]) (by decide)
  exact ⟨s, by simpa using hs, (journal_durable jsonCodec_lawful ⟨_, rfl, hsteps⟩).1⟩

/-- A line torn inside a character: the journal is not read again, nor is any other scanned. -/
theorem torn_character_breaks_journal :
    ¬∀ s, (machine jsonCodec).Reachable s →
      Durable jsonCodec s ∧ ∀ chatId event, Appends jsonCodec s chatId event := by
  intro hall
  obtain ⟨s, hsteps, hs⟩ := Machine.exists_steps_of_runWhen (machine jsonCodec) Machine.anyStep
    (s := empty) [.append "c" (.textDelta "é") (.crashed 46)]
    (p := fun s => (s.replay jsonCodec "c" 0).isNone && (s.staleSessions jsonCodec).isNone
      && (s.append jsonCodec "c" .done .written).2.isNone) (by decide)
  simp only [Bool.and_eq_true, Option.isNone_iff_eq_none] at hs
  obtain ⟨events, hevents, -⟩ := (hall s ⟨_, rfl, hsteps⟩).1.replayed "c"
  rw [hs.1.1] at hevents
  cases hevents

end RunJournal

end Zeron.Engine
