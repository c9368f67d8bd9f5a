import Zeron.Doc.Parts
import Mathlib.Data.List.Induction

/-!
# The entry of a segment

`SegmentWriter` of `crates/doc/src/schema.rs` with the calls that the engine makes of it. A Loro list is
a list, a text its characters, and the map of a part has one slot for each of its keys; `serde_json`
comes in as a pair of conversions for each type that is stored as JSON.
-/

namespace Zeron.Doc

section Json

structure Serde (Value α : Type) where
  toValue : α → Value
  fromValue : Value → Option α

/-- Tool inputs that no entry may hold are left out. -/
def sanitizeToolCall {Value : Type} : ToolCall Value → ToolCall Value
  | .writeFile path _ => .writeFile path none
  | .editFile path _ _ => .editFile path none none
  | .webFetch url _ => .webFetch url none
  | .mcp server tool _ => .mcp server tool none
  | .unknown name _ => .unknown name none
  | call => call

/-- Derived conversions give back what they were made from, of a call without its inputs. -/
structure Codecs (Value : Type) where
  call : Serde Value (ToolCall Value)
  questions : Serde Value (List UserInputQuestion)
  diff : Serde Value ToolDiff
  diffStats : Serde Value (List ToolDiffStat)
  call_roundtrip : ∀ c, call.fromValue (call.toValue (sanitizeToolCall c)) = some (sanitizeToolCall c)
  diffStats_roundtrip : ∀ stats, diffStats.fromValue (diffStats.toValue stats) = some stats

end Json

inductive MessageRole where
  | user
  | assistant
  | system
deriving DecidableEq

inductive MessageStatus where
  | streaming
  | complete
  | aborted
deriving DecidableEq

inductive DocError where
  | schema (message : String)

/-- The map of a part; `DocPartJson` has the same fields. -/
structure DocPart (Value : Type) where
  id : String
  kind : String
  text : Option String := none
  call : Option Value := none
  isError : Option Bool := none
  questions : Option Value := none
  resolved : Option Bool := none
  message : Option String := none
  level : Option NoticeLevel := none
  output : Option String := none
  diff : Option Value := none
  outputRef : Option String := none
  outputBytes : Option Nat := none
  diffRef : Option String := none
  diffStats : Option Value := none

/-- An entry of `messages`: in the document its parts are maps, for the readers message parts. -/
structure Entry (Part : Type) where
  id : String
  role : MessageRole
  parts : List Part
  createdAt : Int
  deviceId : String
  status : Option MessageStatus
  continuationOf : Option String

variable {Value : Type}

section Parts

variable (codecs : Codecs Value)

def toDocPart : MessagePart Value → DocPart Value
  | .text id text => { id, kind := "text", text := some text }
  | .commentary id text => { id, kind := "commentary", text := some text }
  | .notice id level message => { id, kind := "notice", level := some level, message := some message }
  | .tool part =>
      { id := part.id
        kind := "tool"
        call := some (codecs.call.toValue part.call)
        -- That it is there is what marks a resolved call.
        isError := if part.resolved then some part.isError else none
        output := part.output
        diff := part.diff.map codecs.diff.toValue
        outputRef := part.outputRef
        outputBytes := part.outputBytes
        diffRef := part.diffRef
        diffStats := part.diffStats.map codecs.diffStats.toValue }
  | .input _ requestId questions resolved =>
      { id := requestId, kind := "input", questions := some (codecs.questions.toValue questions)
        resolved := some resolved }
  | .error id message => { id, kind := "error", message := some message }

def fromDocPart (part : DocPart Value) : MessagePart Value :=
  if part.kind = "tool" then
    match part.call.bind codecs.call.fromValue with
    | some call =>
        .tool {
          id := part.id
          call
          isError := part.isError.getD false
          resolved := part.isError.isSome
          output := part.output
          diff := part.diff.bind codecs.diff.fromValue
          outputRef := part.outputRef
          outputBytes := part.outputBytes
          diffRef := part.diffRef
          diffStats := part.diffStats.bind codecs.diffStats.fromValue }
    | none => .text part.id ""
  else if part.kind = "input" then
    .input part.id part.id ((part.questions.bind codecs.questions.fromValue).getD [])
      (part.resolved.getD false)
  else if part.kind = "commentary" then .commentary part.id (part.text.getD "")
  else if part.kind = "notice" then
    .notice part.id (part.level.getD .warning) (part.message.getD "")
  else if part.kind = "error" then .error part.id (part.message.getD "")
  else .text part.id (part.text.getD "")

/-- What the part has is written, and what it lacks stays. -/
def updatePartFields (map : DocPart Value) (part : MessagePart Value) : DocPart Value :=
  let docPart := toDocPart codecs part
  { map with
    call := docPart.call <|> map.call
    isError := docPart.isError <|> map.isError
    questions := docPart.questions <|> map.questions
    resolved := docPart.resolved <|> map.resolved
    message := docPart.message <|> map.message
    output := docPart.output <|> map.output
    diff := docPart.diff <|> map.diff
    outputRef := docPart.outputRef <|> map.outputRef
    outputBytes := docPart.outputBytes <|> map.outputBytes
    diffRef := docPart.diffRef <|> map.diffRef
    diffStats := docPart.diffStats <|> map.diffStats
    text := map.text.map fun text => docPart.text.getD text }

def renderPart : MessagePart Value → MessagePart Value
  | .tool part => .tool { part with call := sanitizeToolCall part.call }
  | part => part

def readEntry (entry : Entry (DocPart Value)) : Entry (MessagePart Value) :=
  { entry with parts := entry.parts.map (fromDocPart codecs) }

end Parts

/-- `written` mirrors what was last written of each part. -/
structure SegmentWriter (Value : Type) where
  entryIndex : Nat
  written : List (MessagePart Value)

/-- The `messages` of the document, and the segment of a run. -/
structure Segment (Value : Type) where
  messages : List (Entry (DocPart Value))
  writer : Option (SegmentWriter Value)
  folded : List (MessagePart Value)

/-- What a segment's entry is begun with. -/
structure EntryInfo where
  entryId : String
  deviceId : String
  startedAt : Int

section Writer

variable [DecidableEq Value] (codecs : Codecs Value) (info : EntryInfo)

def partMapAt (maps : List (DocPart Value)) (index : Nat) : Except DocError (DocPart Value) :=
  match maps[index]? with
  | some map => .ok map
  | none => .error (.schema ("part map missing at " ++ toString index))

def trailingGrowth : MessagePart Value → MessagePart Value → Option String
  | .text _ old, .text _ new | .commentary _ old, .commentary _ new =>
      if old.toList.isPrefixOf new.toList then
        some (String.ofList (new.toList.drop old.toList.length))
      else none
  | _, _ => none

def appendText (maps : List (DocPart Value)) (index : Nat) (delta : String) :
    Except DocError (List (DocPart Value)) :=
  if delta = "" then .ok maps
  else
    (partMapAt maps index).bind fun map =>
      match map.text with
      | some text => .ok (maps.set index { map with text := some (text ++ delta) })
      | none => .error (.schema "text part missing LoroText")

def patchPart (maps : List (DocPart Value)) (index : Nat) (prev part : MessagePart Value) :
    Except DocError (List (DocPart Value)) :=
  match trailingGrowth prev part with
  | some delta => appendText maps index delta
  | none =>
      (partMapAt maps index).map fun map => maps.set index (updatePartFields codecs map part)

/-- The loop of `sync` from an index on, over the maps and what was written. -/
def syncParts (index : Nat) : List (MessagePart Value) → List (DocPart Value) →
    List (MessagePart Value) → Except DocError (List (DocPart Value) × List (MessagePart Value))
  | [], maps, written => .ok (maps, written)
  | part :: folded, maps, written =>
      match written[index]? with
      | none =>
          syncParts (index + 1) folded (maps ++ [toDocPart codecs part]) (written ++ [part])
      | some prev =>
          if prev = part then syncParts (index + 1) folded maps written
          else
            (patchPart codecs maps index prev part).bind fun maps =>
              syncParts (index + 1) folded maps (written.set index part)

def begun (info : EntryInfo) (maps : List (DocPart Value)) : Entry (DocPart Value) :=
  { id := info.entryId, role := .assistant, parts := maps, createdAt := info.startedAt
    deviceId := info.deviceId, status := some .streaming, continuationOf := none }

namespace SegmentWriter

def beginEntry (messages : List (Entry (DocPart Value))) :
    List (Entry (DocPart Value)) × SegmentWriter Value :=
  (messages ++ [begun info []], { entryIndex := messages.length, written := [] })

def entryMap (writer : SegmentWriter Value) (messages : List (Entry (DocPart Value))) :
    Except DocError (Entry (DocPart Value)) :=
  match messages[writer.entryIndex]? with
  | some entry => .ok entry
  | none => .error (.schema "streaming entry map missing")

def sync (writer : SegmentWriter Value) (messages : List (Entry (DocPart Value)))
    (folded : List (MessagePart Value)) :
    Except DocError (List (Entry (DocPart Value)) × SegmentWriter Value) :=
  (writer.entryMap messages).bind fun entry =>
    (syncParts codecs 0 folded entry.parts writer.written).map fun (maps, written) =>
      (messages.set writer.entryIndex { entry with parts := maps }, { writer with written })

def finish (writer : SegmentWriter Value) (messages : List (Entry (DocPart Value)))
    (folded : List (MessagePart Value)) (status : MessageStatus) :
    Except DocError (List (Entry (DocPart Value)) × SegmentWriter Value) :=
  (writer.sync codecs messages folded).bind fun (messages, writer) =>
    (writer.entryMap messages).map fun entry =>
      (messages.set writer.entryIndex { entry with status := some status }, writer)

end SegmentWriter

namespace Segment

variable (lineChanges : String → String → List ChangeTag) (segment : Segment Value)

/-- The writer, with the entry that it begins if it is the first. -/
def opened : List (Entry (DocPart Value)) × SegmentWriter Value :=
  match segment.writer with
  | some writer => (segment.messages, writer)
  | none => SegmentWriter.beginEntry info segment.messages

def syncSegment : Except DocError (Segment Value) :=
  if segment.folded.isEmpty then .ok segment
  else
    let (messages, writer) := segment.opened info
    (writer.sync codecs messages (segment.folded.map renderPart)).map fun (messages, writer) =>
      { segment with messages, writer := some writer }

/-- The writer, which is taken, is kept for the statements. -/
def finishSegment (status : MessageStatus) : Except DocError (Segment Value) :=
  if segment.writer.isNone ∧ segment.folded.isEmpty then .ok segment
  else
    let (messages, writer) := segment.opened info
    (writer.finish codecs messages (segment.folded.map renderPart) status).map
      fun (messages, writer) => { segment with messages, writer := some writer }

def close : Option MessageStatus → Except DocError (Segment Value)
  | none => segment.syncSegment codecs info
  | some status => segment.finishSegment codecs info status

/-- An event inside the segment is no steer, which would end it. -/
inductive Step (Value : Type) where
  | event (event : { event : AgentEvent Value // event ≠ .steered })
  | commit
  /-- Another entry is appended to the messages. -/
  | push (entry : Entry (DocPart Value))

def step (segment : Segment Value) : Step Value → Except DocError (Segment Value)
  | .event event => .ok { segment with folded := foldSegment lineChanges segment.folded event }
  | .commit => segment.syncSegment codecs info
  | .push entry => .ok { segment with messages := segment.messages ++ [entry] }

def run (steps : List (Step Value)) : Except DocError (Segment Value) :=
  steps.foldlM (fun segment step => segment.step codecs info lineChanges step) segment

def entry : Option (Entry (DocPart Value)) :=
  segment.writer.bind fun writer => segment.messages[writer.entryIndex]?

end Segment

end Writer

section Mirrors

variable {codecs : Codecs Value} {map : DocPart Value} {prev part : MessagePart Value}

/-- The map of a part is as one write of it gives, but for stats that an earlier write left. -/
def Mirrors (codecs : Codecs Value) (map : DocPart Value) (part : MessagePart Value) : Prop :=
  ∃ stats : Option (List ToolDiffStat),
    map = { toDocPart codecs part with diffStats := stats.map codecs.diffStats.toValue } ∧
      (part.diffStats.isSome → stats = part.diffStats) ∧
      (stats.isSome → ∃ tool, part = .tool tool)

theorem mirrors_toDocPart (codecs : Codecs Value) (part : MessagePart Value) :
    Mirrors codecs (toDocPart codecs part) part := by
  refine ⟨part.diffStats, ?_, fun _ => rfl, ?_⟩
  · cases part <;> rfl
  · cases part with
    | tool tool => exact fun _ => ⟨tool, rfl⟩
    | _ => exact fun h => by cases h

theorem Mirrors.stored (h : Mirrors codecs map part) (hstats : part.diffStats.isSome) :
    map.diffStats.isSome := by
  obtain ⟨stats, rfl, hsame, -⟩ := h
  rw [hsame hstats]
  simpa using hstats

theorem Mirrors.eq_toDocPart (h : Mirrors codecs map part)
    (hstats : map.diffStats.isSome → part.diffStats.isSome) : map = toDocPart codecs part := by
  obtain ⟨stats, rfl, hsame, -⟩ := h
  have hstats' : stats = part.diffStats := by
    cases stats with
    | some found => exact hsame (hstats rfl)
    | none =>
        by_contra hne
        exact hne (hsame (Option.isSome_iff_ne_none.mpr (Ne.symm hne)))
  rw [hstats']
  cases part <;> rfl

theorem stats_none {stats : Option (List ToolDiffStat)}
    (htool : stats.isSome → ∃ tool, part = .tool tool) (hpart : ∀ tool, part ≠ .tool tool) :
    stats = none := by
  cases stats with
  | none => rfl
  | some found =>
      obtain ⟨tool, heq⟩ := htool rfl
      exact absurd heq (hpart tool)

theorem orElse_map {α β : Type} (f : α → β) (first second : Option α) :
    (first.map f <|> second.map f) = (first <|> second).map f := by
  cases first <;> rfl

/-- A write of the fields leaves the map of the part; stats that it lacks stay. -/
theorem Mirrors.update (h : Mirrors codecs map prev) (hevolves : Evolves prev part) :
    Mirrors codecs (updatePartFields codecs map part) part ∧
      ((updatePartFields codecs map part).diffStats.isSome ↔
        map.diffStats.isSome ∨ part.diffStats.isSome) := by
  obtain ⟨stats, rfl, -, htool⟩ := h
  cases hevolves with
  | tool hid hplain hplain' hresolved =>
      rename_i old new
      obtain ⟨houtput, hdiff, houtputRef, houtputBytes, hdiffRef⟩ := hplain
      obtain ⟨houtput', hdiff', houtputRef', houtputBytes', hdiffRef'⟩ := hplain'
      refine ⟨⟨new.diffStats <|> stats, ?_, ?_, fun _ => ⟨new, rfl⟩⟩, ?_⟩
      · have herror : ((if new.resolved then some new.isError else none) <|>
            (if old.resolved then some old.isError else none)) =
              if new.resolved then some new.isError else none := by
          cases hnew : new.resolved with
          | true => rfl
          | false =>
              have hold : old.resolved = false := by
                by_contra hold
                rw [hresolved (Bool.eq_false_or_eq_true _ |>.resolve_right hold)] at hnew
                cases hnew
              rw [hold]
              rfl
        unfold updatePartFields toDocPart
        dsimp only
        rw [herror, orElse_map codecs.diffStats.toValue, houtput, hdiff, houtputRef, houtputBytes,
          hdiffRef, houtput', hdiff', houtputRef', houtputBytes', hdiffRef', hid]
        rfl
      · intro hsome
        obtain ⟨found, hfound⟩ := Option.isSome_iff_exists.mp hsome
        have hfound : new.diffStats = some found := hfound
        change (new.diffStats <|> stats) = new.diffStats
        rw [hfound]
        rfl
      · change (new.diffStats.map _ <|> stats.map _).isSome ↔ (stats.map _).isSome ∨
          new.diffStats.isSome
        rw [orElse_map]
        cases new.diffStats <;> simp
  | text _ _ _ | commentary _ _ _ | notice _ _ _ | input _ _ _ _ _ | error id message =>
      rw [stats_none htool (by simp)]
      exact ⟨⟨none, rfl, fun h => (by cases h), fun h => (by cases h)⟩, by
        simp [updatePartFields, toDocPart, MessagePart.diffStats]⟩

theorem append_growth {old new : String} (h : old.toList.isPrefixOf new.toList = true) :
    old ++ String.ofList (new.toList.drop old.toList.length) = new := by
  apply String.toList_inj.mp
  rw [String.toList_append, String.toList_ofList]
  exact List.prefix_iff_eq_append.mp (List.isPrefixOf_iff_prefix.mp h)

/-- The growth of a text, appended to its map, leaves the map of the new text. -/
theorem Mirrors.append (h : Mirrors codecs map prev) (hevolves : Evolves prev part) {delta : String}
    (hgrowth : trailingGrowth prev part = some delta) : ∃ text, map.text = some text ∧
      Mirrors codecs { map with text := some (text ++ delta) } part ∧ map.diffStats = none ∧
        part.diffStats = none ∧ (delta = "" → prev = part) := by
  obtain ⟨stats, rfl, -, htool⟩ := h
  have hsame : ∀ {old new : String}, old.toList.isPrefixOf new.toList = true →
      String.ofList (new.toList.drop old.toList.length) = "" → old = new := by
    intro old new hstarts hempty
    have happend := append_growth hstarts
    rw [hempty] at happend
    simpa using happend
  cases hevolves with
  | text id old new | commentary id old new =>
      obtain ⟨hstarts, hdelta⟩ := Option.ite_none_right_eq_some.mp hgrowth
      cases hdelta
      rw [stats_none htool (by simp)]
      refine ⟨old, rfl, ⟨none, ?_, fun h => (by cases h), fun h => (by cases h)⟩, rfl, rfl,
        fun hempty => by rw [hsame hstarts hempty]⟩
      rw [append_growth hstarts]
      rfl
  | notice _ _ _ | tool _ _ _ _ | input _ _ _ _ _ | error id message => cases hgrowth

end Mirrors

section Sync

variable {codecs : Codecs Value}

def HasStats (parts : List (MessagePart Value)) (index : Nat) : Prop :=
  (parts[index]?.bind MessagePart.diffStats).isSome

def Stored (maps : List (DocPart Value)) (index : Nat) : Prop :=
  (maps[index]?.bind DocPart.diffStats).isSome

theorem partMapAt_append (front rest : List (DocPart Value)) (map : DocPart Value) :
    partMapAt (front ++ map :: rest) front.length = .ok map := by
  unfold partMapAt
  rw [List.getElem?_append_right (Nat.le_refl _), Nat.sub_self]
  rfl

theorem set_append {α : Type} (front rest : List α) (old new : α) :
    (front ++ old :: rest).set front.length new = front ++ new :: rest := by
  rw [List.set_append_right _ _ (Nat.le_refl _), Nat.sub_self, List.set_cons_zero]

theorem patchPart_spec {map : DocPart Value} {prev part : MessagePart Value}
    (h : Mirrors codecs map prev) (hevolves : Evolves prev part) (hne : prev ≠ part)
    (front rest : List (DocPart Value)) : ∃ map',
      patchPart codecs (front ++ map :: rest) front.length prev part = .ok (front ++ map' :: rest) ∧
        Mirrors codecs map' part ∧
          (map'.diffStats.isSome ↔ map.diffStats.isSome ∨ part.diffStats.isSome) := by
  unfold patchPart
  cases hgrowth : trailingGrowth prev part with
  | none =>
      obtain ⟨hmirrors, hstats⟩ := h.update hevolves
      refine ⟨updatePartFields codecs map part, ?_, hmirrors, hstats⟩
      dsimp only
      rw [partMapAt_append, Except.map, set_append]
  | some delta =>
      obtain ⟨text, htext, hmirrors, hmap, hpart, hempty⟩ := h.append hevolves hgrowth
      refine ⟨_, ?_, hmirrors, ?_⟩
      · dsimp only
        unfold appendText
        rw [if_neg fun hdelta => hne (hempty hdelta), partMapAt_append]
        dsimp only [Except.bind]
        rw [htext]
        dsimp only
        rw [set_append]
      · dsimp only
        rw [hmap, hpart]
        simp

variable [DecidableEq Value]

/-- From any index on the loop leaves the maps of the folded parts, with the stats that they have or
that were stored. -/
theorem syncParts_spec {parts : List (MessagePart Value)} {maps : List (DocPart Value)}
    {written kept added : List (MessagePart Value)}
    (hmirrors : List.Forall₂ (Mirrors codecs) maps written) (hparts : parts = kept ++ added)
    (hevolves : List.Forall₂ Evolves written kept) (front : List (DocPart Value))
    (done : List (MessagePart Value)) (hlength : front.length = done.length) : ∃ maps',
      syncParts codecs done.length parts (front ++ maps) (done ++ written) =
        .ok (front ++ maps', done ++ parts) ∧ List.Forall₂ (Mirrors codecs) maps' parts ∧
          ∀ index, Stored maps' index ↔ Stored maps index ∨ HasStats parts index := by
  induction parts generalizing maps written kept added front done with
  | nil =>
      obtain ⟨rfl, rfl⟩ := List.append_eq_nil_iff.mp hparts.symm
      cases hevolves
      cases hmirrors
      exact ⟨[], rfl, .nil, fun index => by simp [Stored, HasStats]⟩
  | cons part parts ih =>
      -- One part is written, and the loop goes on behind it.
      have hnext : ∀ {map : DocPart Value} {maps : List (DocPart Value)}
          {written kept added : List (MessagePart Value)},
          Mirrors codecs map part → List.Forall₂ (Mirrors codecs) maps written →
          parts = kept ++ added → List.Forall₂ Evolves written kept → ∃ maps',
            syncParts codecs (done.length + 1) parts (front ++ map :: maps) (done ++ part :: written) =
              .ok (front ++ map :: maps', done ++ part :: parts) ∧
            List.Forall₂ (Mirrors codecs) (map :: maps') (part :: parts) ∧
              ∀ index, Stored maps' index ↔ Stored maps index ∨ HasStats parts index := by
        intro map maps written kept added hmap hmaps hparts hkept
        obtain ⟨maps', hsync, hmaps', hstats⟩ :=
          ih hmaps hparts hkept (front ++ [map]) (done ++ [part]) (by simp [hlength])
        refine ⟨maps', ?_, .cons hmap hmaps', hstats⟩
        simpa using hsync
      cases hevolves with
      | nil =>
          cases hmirrors
          obtain ⟨maps', hsync, hmaps', hstats⟩ :=
            hnext (mirrors_toDocPart codecs part) .nil (List.nil_append parts).symm .nil
          refine ⟨_ :: maps', ?_, hmaps', fun index => ?_⟩
          · rw [syncParts, List.append_nil, List.getElem?_eq_none (Nat.le_refl _), List.append_nil]
            exact hsync
          · cases index with
            | zero => cases part <;> simp [Stored, HasStats, toDocPart, MessagePart.diffStats]
            | succ index => simpa [Stored, HasStats] using hstats index
      | cons hpart hkept =>
          rename_i prev part' written kept
          obtain ⟨hhead, htail⟩ := List.cons.inj hparts
          subst hhead
          cases hmirrors with
          | cons hmap hmaps =>
              rename_i map maps
              have hfound : (done ++ prev :: written)[done.length]? = some prev := by
                rw [List.getElem?_append_right (Nat.le_refl _), Nat.sub_self]
                rfl
              obtain ⟨map', hloop, hmap', hstat⟩ : ∃ map',
                  syncParts codecs done.length (part :: parts) (front ++ map :: maps)
                      (done ++ prev :: written) =
                    syncParts codecs (done.length + 1) parts (front ++ map' :: maps)
                      (done ++ part :: written) ∧
                  Mirrors codecs map' part ∧
                    (map'.diffStats.isSome ↔ map.diffStats.isSome ∨ part.diffStats.isSome) := by
                rw [syncParts, hfound]
                dsimp only
                by_cases hsame : prev = part
                · subst hsame
                  rw [if_pos rfl]
                  exact ⟨map, rfl, hmap, by simpa using hmap.stored⟩
                · obtain ⟨map', hpatch, hmap', hstat⟩ := patchPart_spec hmap hpart hsame front maps
                  rw [hlength] at hpatch
                  rw [if_neg hsame, hpatch, set_append]
                  exact ⟨map', rfl, hmap', hstat⟩
              obtain ⟨maps', hsync, hmaps', hstats⟩ := hnext hmap' hmaps htail hkept
              refine ⟨map' :: maps', hloop.trans hsync, hmaps', fun index => ?_⟩
              cases index with
              | zero => simpa [Stored, HasStats] using hstat
              | succ index => simpa [Stored, HasStats] using hstats index

end Sync

section Reading

variable {codecs : Codecs Value} {map : DocPart Value} {part : MessagePart Value}

theorem bind_map_toValue (stats : Option (List ToolDiffStat)) :
    (stats.map codecs.diffStats.toValue).bind codecs.diffStats.fromValue = stats := by
  cases stats with
  | none => rfl
  | some found => exact codecs.diffStats_roundtrip found

theorem read_tool_stats (codecs : Codecs Value) (tool : ToolPart Value)
    (stats : Option (List ToolDiffStat)) :
    (fromDocPart codecs { toDocPart codecs (renderPart (.tool tool)) with
      diffStats := stats.map codecs.diffStats.toValue }).diffStats = stats := by
  have hcall : (some (codecs.call.toValue (sanitizeToolCall tool.call))).bind codecs.call.fromValue =
      some (sanitizeToolCall tool.call) := codecs.call_roundtrip tool.call
  unfold fromDocPart renderPart toDocPart
  dsimp only
  rw [if_pos rfl, hcall]
  exact bind_map_toValue stats

theorem Mirrors.stats_of_read (h : Mirrors codecs map (renderPart part))
    (hread : fromDocPart codecs map = fromDocPart codecs (toDocPart codecs (renderPart part)))
    (hstats : map.diffStats.isSome) : part.diffStats.isSome := by
  obtain ⟨stats, rfl, -, htool⟩ := h
  have hsome : stats.isSome := by simpa using hstats
  obtain ⟨rendered, hrendered⟩ := htool hsome
  cases part with
  | tool tool =>
      have hmap := read_tool_stats codecs tool stats
      have hpart := read_tool_stats codecs tool tool.diffStats
      rw [hread] at hmap
      have hsame : stats = tool.diffStats := hmap.symm.trans hpart
      rw [hsame] at hsome
      exact hsome
  | _ => cases hrendered

theorem read_eq_iff {maps : List (DocPart Value)} {parts : List (MessagePart Value)}
    (h : List.Forall₂ (Mirrors codecs) maps (parts.map renderPart)) :
    maps.map (fromDocPart codecs) =
        ((parts.map renderPart).map (toDocPart codecs)).map (fromDocPart codecs) ↔
      ∀ index, Stored maps index → HasStats parts index := by
  induction parts generalizing maps with
  | nil =>
      cases h
      simp [Stored]
  | cons part parts ih =>
      cases h with
      | cons hmap hmaps =>
          rename_i map maps
          rw [List.map_cons, List.map_cons, List.map_cons, List.map_cons, List.cons_eq_cons, ih hmaps]
          constructor
          · rintro ⟨hread, hrest⟩ index hstored
            cases index with
            | zero => exact hmap.stats_of_read hread hstored
            | succ index => exact hrest index hstored
          · intro hall
            refine ⟨?_, fun index => hall (index + 1)⟩
            have heq := hmap.eq_toDocPart fun hstored => by
              have hpart : part.diffStats.isSome := hall 0 hstored
              cases part with
              | tool tool => exact hpart
              | _ => cases hpart
            rw [heq]

end Reading

section Segments

variable {parts parts' : List (MessagePart Value)}

theorem Evolves.renderPart {part part' : MessagePart Value} (h : Evolves part part') :
    Evolves (renderPart part) (renderPart part') := by
  cases h with
  | text id old new => exact .text id old new
  | commentary id old new => exact .commentary id old new
  | notice id level message => exact .notice id level message
  | tool hid hplain hplain' hresolved => exact .tool hid hplain hplain' hresolved
  | input id requestId questions resolved resolved' => exact .input id requestId questions _ _
  | error id message => exact .error id message

theorem forall₂_render (h : List.Forall₂ Evolves parts parts') :
    List.Forall₂ Evolves (parts.map renderPart) (parts'.map renderPart) := by
  rw [List.forall₂_map_left_iff, List.forall₂_map_right_iff]
  exact h.imp fun _ _ => Evolves.renderPart

theorem Grows.render (h : Grows parts parts') :
    Grows (parts.map renderPart) (parts'.map renderPart) := by
  obtain ⟨kept, added, rfl, hkept, hadded⟩ := h
  exact ⟨_, _, List.map_append, forall₂_render hkept, forall₂_render hadded⟩

theorem hasStats_render (index : Nat) :
    HasStats (parts.map renderPart) index ↔ HasStats parts index := by
  unfold HasStats
  rw [List.getElem?_map]
  cases parts[index]? with
  | none => rfl
  | some part => cases part <;> rfl

variable {codecs : Codecs Value} {info : EntryInfo}
  {messages : List (Entry (DocPart Value))} {writer : SegmentWriter Value}
  {folded : List (MessagePart Value)} {stored : Nat → Prop} {segment : Segment Value}

/-- The writer's entry mirrors what was written, from which the fold has grown; `stored` are the places
of the stats in it. -/
def Opened (codecs : Codecs Value) (info : EntryInfo) (messages : List (Entry (DocPart Value)))
    (writer : SegmentWriter Value) (folded : List (MessagePart Value)) (stored : Nat → Prop) : Prop :=
  ∃ maps, messages[writer.entryIndex]? = some (begun info maps) ∧
    List.Forall₂ (Mirrors codecs) maps writer.written ∧ Grows writer.written folded ∧
      ∀ index, Stored maps index ↔ stored index

/-- A segment whose commits have stored stats at some places. -/
structure Segment.Inv (codecs : Codecs Value) (info : EntryInfo) (segment : Segment Value)
    (stored : Nat → Prop) : Prop where
  steady : Steady segment.folded
  unopened : segment.writer = none → ∀ index, ¬ stored index
  opened : ∀ writer, segment.writer = some writer → writer.written ≠ [] ∧
    Opened codecs info segment.messages writer (segment.folded.map renderPart) stored

namespace Segment

theorem Inv.congr {stored' : Nat → Prop} (h : segment.Inv codecs info stored)
    (hiff : ∀ index, stored index ↔ stored' index) : segment.Inv codecs info stored' := by
  rwa [show stored = stored' from funext fun index => propext (hiff index)] at h

theorem inv_start (messages : List (Entry (DocPart Value))) (h : Steady folded) :
    Inv codecs info ⟨messages, none, folded⟩ fun _ => False :=
  ⟨h, fun _ _ hfalse => hfalse, fun writer hwriter => by cases hwriter⟩

theorem Inv.opened_spec (h : segment.Inv codecs info stored) :
    Opened codecs info (segment.opened info).1 (segment.opened info).2
      (segment.folded.map renderPart) stored := by
  unfold Segment.opened
  cases hwriter : segment.writer with
  | some writer => exact (h.opened writer hwriter).2
  | none =>
      refine ⟨[], ?_, .nil, ⟨[], _, rfl, .nil, forall₂_render h.steady⟩, fun index =>
        iff_of_false (fun hstored => ?_) (h.unopened hwriter index)⟩
      · exact List.getElem?_concat_length
      · simp [Stored] at hstored

theorem Inv.writer_none (h : segment.Inv codecs info stored) (hfolded : segment.folded = []) :
    segment.writer = none := by
  cases hwriter : segment.writer with
  | none => rfl
  | some writer =>
      obtain ⟨hwritten, maps, -, -, ⟨kept, added, heq, hkept, -⟩, -⟩ := h.opened writer hwriter
      rw [hfolded] at heq
      obtain ⟨rfl, -⟩ := List.append_eq_nil_iff.mp heq.symm
      cases hkept' : writer.written with
      | nil => exact absurd hkept' hwritten
      | cons part rest =>
          rw [hkept'] at hkept
          cases hkept

theorem Inv.event (h : segment.Inv codecs info stored)
    (lineChanges : String → String → List ChangeTag)
    (event : { event : AgentEvent Value // event ≠ .steered }) :
    Inv codecs info { segment with folded := foldSegment lineChanges segment.folded event } stored := by
  have hgrows := h.steady.foldSegment lineChanges event.2
  refine ⟨hgrows.steady, h.unopened, fun writer hwriter => ?_⟩
  obtain ⟨hwritten, maps, hentry, hmirrors, hfolded, hstored⟩ := h.opened writer hwriter
  exact ⟨hwritten, maps, hentry, hmirrors, hfolded.trans hgrows.render, hstored⟩

theorem Inv.push (h : segment.Inv codecs info stored) (entry : Entry (DocPart Value)) :
    Inv codecs info { segment with messages := segment.messages ++ [entry] } stored := by
  refine ⟨h.steady, h.unopened, fun writer hwriter => ?_⟩
  obtain ⟨hwritten, maps, hentry, hrest⟩ := h.opened writer hwriter
  refine ⟨hwritten, maps, ?_, hrest⟩
  obtain ⟨hlt, -⟩ := List.getElem?_eq_some_iff.mp hentry
  exact (List.getElem?_append_left hlt).trans hentry

section Runs

variable (lineChanges : String → String → List ChangeTag)

def folds (steps : List (Step Value)) : List (MessagePart Value) :=
  steps.foldl (fun folded step =>
    match step with
    | .event event => foldSegment lineChanges folded event
    | .commit | .push _ => folded) []

/-- A commit has found stats at the place. -/
def Committed (steps : List (Step Value)) (index : Nat) : Prop :=
  ∃ before after, steps = before ++ .commit :: after ∧ HasStats (folds lineChanges before) index

/-- No part is without stats at the end that had some at a commit. -/
def KeepsStats (steps : List (Step Value)) : Prop :=
  ∀ before after index, steps = before ++ .commit :: after →
    HasStats (folds lineChanges before) index → HasStats (folds lineChanges steps) index

variable {lineChanges}

theorem folds_concat (steps : List (Step Value)) (step : Step Value) :
    folds lineChanges (steps ++ [step]) =
      match step with
      | .event event => foldSegment lineChanges (folds lineChanges steps) event
      | .commit | .push _ => folds lineChanges steps := by
  unfold folds
  rw [List.foldl_concat]

theorem committed_concat (steps : List (Step Value)) (step : Step Value) (index : Nat) :
    Committed lineChanges (steps ++ [step]) index ↔
      Committed lineChanges steps index ∨
        (step = .commit ∧ HasStats (folds lineChanges steps) index) := by
  constructor
  · rintro ⟨before, after, heq, hstats⟩
    obtain rfl | ⟨front, last, rfl⟩ := List.eq_nil_or_concat after
    · obtain ⟨rfl, hstep⟩ := List.append_inj' heq rfl
      exact .inr ⟨(List.cons.inj hstep).1, hstats⟩
    · have heq : steps ++ [step] = (before ++ .commit :: front) ++ [last] := by simpa using heq
      exact .inl ⟨before, front, (List.append_inj' heq rfl).1, hstats⟩
  · rintro (⟨before, after, rfl, hstats⟩ | ⟨rfl, hstats⟩)
    · exact ⟨before, after ++ [step], by simp, hstats⟩
    · exact ⟨steps, [], rfl, hstats⟩

variable [DecidableEq Value]

theorem sync_opened (h : Opened codecs info messages writer folded stored) : ∃ messages' maps,
    writer.sync codecs messages folded = .ok (messages', { writer with written := folded }) ∧
      messages'[writer.entryIndex]? = some (begun info maps) ∧
        List.Forall₂ (Mirrors codecs) maps folded ∧
          ∀ index, Stored maps index ↔ stored index ∨ HasStats folded index := by
  obtain ⟨maps, hentry, hmirrors, ⟨kept, added, hfolded, hkept, -⟩, hstored⟩ := h
  obtain ⟨maps', hsync, hmirrors', hstored'⟩ := syncParts_spec hmirrors hfolded hkept [] [] rfl
  refine ⟨messages.set writer.entryIndex (begun info maps'), maps', ?_, ?_, hmirrors', ?_⟩
  · unfold SegmentWriter.sync SegmentWriter.entryMap
    rw [hentry]
    dsimp only [Except.bind]
    change (syncParts codecs 0 folded maps writer.written).map _ = _
    have hsync : syncParts codecs 0 folded maps writer.written = .ok (maps', folded) := hsync
    rw [hsync]
    rfl
  · obtain ⟨hlt, -⟩ := List.getElem?_eq_some_iff.mp hentry
    exact List.getElem?_set_self hlt
  · intro index
    rw [hstored', hstored]

theorem Inv.commit (h : segment.Inv codecs info stored) : ∃ segment',
    segment.syncSegment codecs info = .ok segment' ∧ segment'.folded = segment.folded ∧
      segment'.Inv codecs info fun index => stored index ∨ HasStats segment.folded index := by
  unfold syncSegment
  by_cases hempty : segment.folded = []
  · rw [if_pos (List.isEmpty_iff.mpr hempty)]
    refine ⟨segment, rfl, rfl, h.congr fun index => ?_⟩
    rw [hempty]
    simp [HasStats]
  · rw [if_neg (mt List.isEmpty_iff.mp hempty)]
    obtain ⟨messages', maps, hsync, hentry, hmirrors, hstored⟩ := sync_opened h.opened_spec
    dsimp only
    rw [hsync]
    refine ⟨_, rfl, rfl, h.steady, fun hwriter => (by cases hwriter), ?_⟩
    intro writer hwriter
    cases hwriter
    refine ⟨fun hnil => hempty (List.map_eq_nil_iff.mp hnil), maps, hentry, hmirrors, ?_,
      fun index => ?_⟩
    · exact h.steady.grows.render
    · rw [hstored, hasStats_render]

/-- At its end a segment has written nothing because it has nothing, or its entry mirrors the fold. -/
theorem Inv.close (h : segment.Inv codecs info stored) (ending : Option MessageStatus) :
    (segment.folded = [] ∧ segment.writer = none ∧
      segment.close codecs info ending = .ok segment) ∨
    segment.folded ≠ [] ∧ ∃ segment' maps, segment.close codecs info ending = .ok segment' ∧
      segment'.entry = some { begun info maps with status := some (ending.getD .streaming) } ∧
        List.Forall₂ (Mirrors codecs) maps (segment.folded.map renderPart) ∧
          ∀ index, Stored maps index ↔ stored index ∨ HasStats segment.folded index := by
  by_cases hempty : segment.folded = []
  · have hwriter := h.writer_none hempty
    have hisEmpty := List.isEmpty_iff.mpr hempty
    refine .inl ⟨hempty, hwriter, ?_⟩
    cases ending with
    | none => exact if_pos hisEmpty
    | some status => exact if_pos ⟨by rw [hwriter]; rfl, hisEmpty⟩
  · obtain ⟨messages', maps, hsync, hentry, hmirrors, hstored⟩ := sync_opened h.opened_spec
    have hstored' : ∀ index, Stored maps index ↔ stored index ∨ HasStats segment.folded index :=
      fun index => by rw [hstored, hasStats_render]
    have hisEmpty := mt List.isEmpty_iff.mp hempty
    cases ending with
    | none =>
        refine .inr ⟨hempty, ⟨messages', some { (segment.opened info).2 with
          written := segment.folded.map renderPart }, segment.folded⟩, maps, ?_, ?_, hmirrors, hstored'⟩
        · unfold Segment.close syncSegment
          dsimp only
          rw [if_neg hisEmpty, hsync]
          rfl
        · exact hentry
    | some status =>
        refine .inr ⟨hempty, ⟨messages'.set (segment.opened info).2.entryIndex
          { begun info maps with status := some status }, some { (segment.opened info).2 with
            written := segment.folded.map renderPart }, segment.folded⟩, maps, ?_, ?_, hmirrors, hstored'⟩
        · unfold Segment.close finishSegment SegmentWriter.finish
          dsimp only
          rw [if_neg fun hboth => hisEmpty hboth.2, hsync]
          dsimp only [Except.bind]
          unfold SegmentWriter.entryMap
          dsimp only
          rw [hentry]
          rfl
        · obtain ⟨hlt, -⟩ := List.getElem?_eq_some_iff.mp hentry
          exact List.getElem?_set_self hlt

theorem run_concat (segment : Segment Value) (steps : List (Step Value)) (step : Step Value) :
    segment.run codecs info lineChanges (steps ++ [step]) =
      (segment.run codecs info lineChanges steps).bind fun segment =>
        segment.step codecs info lineChanges step := by
  unfold run
  rw [List.foldlM_append]
  simp only [List.foldlM_cons, List.foldlM_nil, bind_pure]
  rfl

theorem run_inv (codecs : Codecs Value) (info : EntryInfo)
    (lineChanges : String → String → List ChangeTag) (messages : List (Entry (DocPart Value)))
    (steps : List (Step Value)) : ∃ segment, run codecs info lineChanges ⟨messages, none, []⟩ steps =
      .ok segment ∧ segment.folded = folds lineChanges steps ∧
        segment.Inv codecs info (Committed lineChanges steps) := by
  induction steps using List.reverseRecOn with
  | nil =>
      refine ⟨_, rfl, rfl, (inv_start messages .nil).congr fun index => iff_of_false id ?_⟩
      rintro ⟨before, after, heq, -⟩
      simp at heq
  | append_singleton steps step ih =>
      obtain ⟨segment, hrun, hfolded, hinv⟩ := ih
      rw [run_concat, hrun]
      dsimp only [Except.bind]
      have hkept : step ≠ .commit → ∀ index, Committed lineChanges steps index ↔
          Committed lineChanges (steps ++ [step]) index := by
        intro hstep index
        rw [committed_concat]
        exact (or_iff_left fun h => hstep h.1).symm
      cases step with
      | event event =>
          refine ⟨_, rfl, ?_, (hinv.event lineChanges event).congr (hkept (by simp))⟩
          rw [folds_concat, ← hfolded]
      | push entry =>
          refine ⟨_, rfl, ?_, (hinv.push entry).congr (hkept (by simp))⟩
          rw [folds_concat]
          exact hfolded
      | commit =>
          obtain ⟨segment', hcommit, hfolded', hinv'⟩ := hinv.commit
          refine ⟨segment', hcommit, ?_, hinv'.congr fun index => ?_⟩
          · rw [folds_concat, hfolded', hfolded]
          · rw [committed_concat, hfolded]
            simp

/-- **Incremental commits.** After any events, commits and other entries, and a last commit or the end
of the segment, its entry is read back as that of one write exactly when the stats are kept. -/
theorem incremental_eq_oneShot_iff (codecs : Codecs Value) (info : EntryInfo)
    (lineChanges : String → String → List ChangeTag) (messages messages' : List (Entry (DocPart Value)))
    (steps : List (Step Value)) (ending : Option MessageStatus) : ∃ segment once,
      (run codecs info lineChanges ⟨messages, none, []⟩ steps).bind
          (fun segment => segment.close codecs info ending) = .ok segment ∧
      close codecs info ⟨messages', none, folds lineChanges steps⟩ ending = .ok once ∧
      (segment.entry.map (readEntry codecs) = once.entry.map (readEntry codecs) ↔
        KeepsStats lineChanges steps) := by
  obtain ⟨segment, hrun, hfolded, hinv⟩ := run_inv codecs info lineChanges messages steps
  have honce : Inv codecs info ⟨messages', none, folds lineChanges steps⟩ fun _ => False :=
    inv_start messages' (hfolded ▸ hinv.steady)
  rw [hrun]
  dsimp only [Except.bind]
  obtain ⟨hempty, hwriter, hclose⟩ | ⟨hfull, closed, maps, hclose, hentry, hmirrors, hstored⟩ :=
    hinv.close ending
  · obtain ⟨-, -, hclose'⟩ | ⟨hfull, -⟩ := honce.close ending
    · refine ⟨segment, _, hclose, hclose', iff_of_true ?_ ?_⟩
      · unfold Segment.entry
        rw [hwriter]
        rfl
      · intro before after index heq hstats
        exact absurd ⟨before, after, heq, hstats⟩ (hinv.unopened hwriter index)
    · exact absurd (hfolded.symm.trans hempty) hfull
  · obtain ⟨hempty, -, -⟩ | ⟨-, once, maps', hclose', hentry', hmirrors', hstored'⟩ :=
      honce.close ending
    · exact absurd (hfolded.trans hempty) hfull
    · refine ⟨closed, once, hclose, hclose', ?_⟩
      rw [hfolded] at hmirrors hstored
      -- The one write leaves the stats of the parts and no others.
      have honce := (read_eq_iff hmirrors').mpr fun index hindex =>
        ((hstored' index).mp hindex).resolve_left id
      have hparts : closed.entry.map (readEntry codecs) = once.entry.map (readEntry codecs) ↔
          maps.map (fromDocPart codecs) = maps'.map (fromDocPart codecs) := by
        rw [hentry, hentry', Option.map_some, Option.map_some, Option.some_inj]
        constructor
        · exact fun h => congrArg Entry.parts h
        · intro h
          unfold readEntry begun
          dsimp only
          rw [h]
      rw [hparts, honce, read_eq_iff hmirrors]
      constructor
      · intro hall before after index heq hstats
        exact hall index ((hstored index).mpr (.inl ⟨before, after, heq, hstats⟩))
      · intro hkeeps index hindex
        obtain ⟨before, after, heq, hstats⟩ | hstats := (hstored index).mp hindex
        · exact hkeeps before after index heq hstats
        · exact hstats

end Runs

section Cleared

/-- A stored value, as what it was made from. -/
inductive Json where
  | call (call : ToolCall Unit)
  | questions (questions : List UserInputQuestion)
  | diff (diff : ToolDiff)
  | diffStats (stats : List ToolDiffStat)
deriving DecidableEq

def withoutInput {Value Value' : Type} : ToolCall Value → ToolCall Value'
  | .exec command => .exec command
  | .readFile path => .readFile path
  | .writeFile path content => .writeFile path content
  | .editFile path oldString newString => .editFile path oldString newString
  | .applyPatch path => .applyPatch path
  | .search pattern path => .search pattern path
  | .glob pattern => .glob pattern
  | .webFetch url prompt => .webFetch url prompt
  | .webSearch query => .webSearch query
  | .todo items => .todo items
  | .mcp server tool _ => .mcp server tool none
  | .unknown name _ => .unknown name none

def jsonCodecs : Codecs Json where
  call := ⟨fun call => .call (withoutInput call), fun | .call call => some (withoutInput call) | _ => none⟩
  questions := ⟨.questions, fun | .questions questions => some questions | _ => none⟩
  diff := ⟨.diff, fun | .diff diff => some diff | _ => none⟩
  diffStats := ⟨.diffStats, fun | .diffStats stats => some stats | _ => none⟩
  call_roundtrip call := by cases call <;> rfl
  diffStats_roundtrip _ := rfl

/-- A file is written, and after a commit a second result of the call comes without its diff. -/
def clearedSteps : List (Step Json) :=
  [.event ⟨.toolCall "t1" (.writeFile "a.txt" none), fun h => by cases h⟩,
   .event ⟨.toolResult "t1" false none (some ⟨"a.txt", none, "new"⟩), fun h => by cases h⟩,
   .commit,
   .event ⟨.toolResult "t1" false none none, fun h => by cases h⟩]

/-- The stats of the first result stay in the entry. -/
theorem cleared_stats_stay : ∃ segment once,
    (run jsonCodecs ⟨"m1", "d1", 0⟩ (fun _ _ => []) ⟨[], none, []⟩ clearedSteps).bind
        (fun segment => segment.close jsonCodecs ⟨"m1", "d1", 0⟩ none) = .ok segment ∧
    close jsonCodecs ⟨"m1", "d1", 0⟩ ⟨[], none, folds (fun _ _ => []) clearedSteps⟩ none =
      .ok once ∧
    segment.entry.map (readEntry jsonCodecs) ≠ once.entry.map (readEntry jsonCodecs) := by
  refine ⟨_, _, rfl, rfl, fun h => ?_⟩
  have hstats := congrArg (Option.map fun entry => entry.parts.map MessagePart.diffStats) h
  have hread : some [some [(⟨"a.txt", 1, 0⟩ : ToolDiffStat)]] = some [none] := hstats
  cases hread

end Cleared

end Segment

end Segments

end Zeron.Doc
