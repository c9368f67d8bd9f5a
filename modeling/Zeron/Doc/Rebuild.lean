import Zeron.Doc.Ledger
import Mathlib.Data.List.DropRight

/-!
# The thin rebuild

`rebuild_thin_doc` of `crates/doc/src/rebuild.rs` with `summarize_tool_output` of
`crates/doc/src/parts.rs`: an old session document is written again without its tool outputs and
diffs, which are owed to the sidecar. A document is what it reads as.
-/

namespace Zeron.Doc

open Registry (JsonValue)

section Summaries

/-- `char::is_whitespace` -/
def isWhitespace (c : Char) : Bool :=
  let code := c.toNat
  (9 ≤ code ∧ code ≤ 13) ∨ code = 0x20 ∨ code = 0x85 ∨ code = 0xA0 ∨ code = 0x1680 ∨
    (0x2000 ≤ code ∧ code ≤ 0x200A) ∨ code = 0x2028 ∨ code = 0x2029 ∨ code = 0x202F ∨
    code = 0x205F ∨ code = 0x3000

def trimStart (chars : List Char) : List Char := chars.dropWhile isWhitespace

def trimEnd (chars : List Char) : List Char := chars.rdropWhile isWhitespace

def trim (chars : List Char) : List Char := trimEnd (trimStart chars)

theorem trim_eq_self {cs : List Char} (hhead : ∀ c ∈ cs.head?, isWhitespace c = false)
    (hlast : ∀ c ∈ cs.getLast?, isWhitespace c = false) : trim cs = cs := by
  unfold trim trimStart trimEnd
  have hstart : cs.dropWhile isWhitespace = cs := by
    cases cs with
    | nil => rfl
    | cons c cs => rw [List.dropWhile_cons_of_neg (by simp [hhead c rfl])]
  rw [hstart, List.rdropWhile_eq_self_iff]
  intro hne
  simpa using hlast _ (List.getLast?_eq_getLast_of_ne_nil hne)

/-- A line without the carriage return before its newline. -/
def chompLine (line : List Char) : List Char :=
  if line.getLast? = some '\r' then line.dropLast else line

/-- `str::lines`, with the line that was begun. -/
def charLines : List Char → List Char → List (List Char)
  | line, [] => if line = [] then [] else [line]
  | line, c :: chars =>
      if c = '\n' then chompLine line :: charLines [] chars else charLines (line ++ [c]) chars

def toolOutputSummaryMax : Nat := 160

def opensFence (line : List Char) : Bool := "```".toList.isPrefixOf (trimStart line)

/-- The lines that are no fence, without the white space around them. -/
def unfenced (text : String) : List Char :=
  trim (['\n'].intercalate ((charLines [] text.toList).filter fun line => !opensFence line))

def summarizeToolOutput (text : String) : Option String :=
  let stripped := unfenced text
  if stripped = [] then none
  else if stripped.length ≤ toolOutputSummaryMax then some (String.ofList stripped)
  else
    let line := trimEnd
      (((charLines [] stripped).find? fun line => trim line ≠ []).getD stripped)
    some (String.ofList (line.take toolOutputSummaryMax ++ ['…']))

def isBlank (text : String) : Bool := trim text.toList = []

end Summaries

/-! ## Documents -/

/-- What is read of a session document. -/
structure SessionDoc where
  /-- `meta.chatId`, if it is a text. -/
  chatId : Option String
  /-- `meta.epoch`, if it is an integer. -/
  epoch : Option Int
  messages : List JsonValue
  commands : List JsonValue

def thinDocEpoch : Int := 2

/-- Without an epoch the document is of before the migration. -/
def docEpoch (doc : SessionDoc) : Nat := (doc.epoch.getD 0).toNat % 2 ^ 32

namespace SessionDoc

def init (chatId : String) : SessionDoc :=
  { chatId := some chatId, epoch := none, messages := [], commands := [] }

def pushMessage (doc : SessionDoc) (entry : Entry (MessagePart JsonValue)) : SessionDoc :=
  { doc with messages := doc.messages ++ [messageMap entry] }

def queueCommand (doc : SessionDoc) (entry : SessionCommandEntry) : SessionDoc :=
  { doc with commands := doc.commands ++ [commandMap entry] }

/-- Elements that no reader can make an entry of are skipped. -/
def readEntries (stableHash : JsonValue → Nat) (doc : SessionDoc) :
    List (Entry (MessagePart JsonValue)) :=
  doc.messages.filterMap (entryFromJson stableHash)

def readCommands (doc : SessionDoc) : List SessionCommandEntry :=
  doc.commands.filterMap commandFromJson

end SessionDoc

/-! ## The rebuild -/

structure SidecarPayload where
  partId : String
  output : Option String
  diff : Option ToolDiff

structure ThinRebuild where
  doc : SessionDoc
  sidecar : List SidecarPayload
  entries : Nat
  commandsCopied : Nat

def outputKey (chatId id : String) : String := chatId ++ "/" ++ id

def diffKey (chatId id : String) : String := chatId ++ "/" ++ id ++ ".diff"

section Rebuild

variable (stableHash : JsonValue → Nat) (lineChanges : String → String → List ChangeTag)
variable (chatId : String)

/-- An output without a reference is fat; a blank one is dropped. -/
def stripOutput (part : ToolPart JsonValue) : ToolPart JsonValue × Option String :=
  match part.outputRef, part.output with
  | none, some full =>
      if isBlank full then ({ part with output := none }, none)
      else
        ({ part with
            output := summarizeToolOutput full
            outputBytes := some full.utf8ByteSize
            outputRef := some (outputKey chatId part.id) }, some full)
  | _, _ => (part, none)

/-- A reference that the part has already is kept. -/
def stripDiff (part : ToolPart JsonValue) : ToolPart JsonValue × Option ToolDiff :=
  match part.diff with
  | some full =>
      ({ part with
          diff := none
          diffStats := some [diffStat lineChanges full]
          diffRef := part.diffRef <|> some (diffKey chatId part.id) }, some full)
  | none => (part, none)

def stripPart : MessagePart JsonValue → MessagePart JsonValue × Option SidecarPayload
  | .tool part =>
      let (thin, output) := stripOutput chatId part
      let (thin, diff) := stripDiff lineChanges chatId thin
      (.tool thin,
        if output.isSome ∨ diff.isSome then some { partId := part.id, output, diff } else none)
  | part => (part, none)

def stripEntry (entry : Entry (MessagePart JsonValue)) :
    Entry (MessagePart JsonValue) × List SidecarPayload :=
  let stripped := entry.parts.map (stripPart lineChanges chatId)
  ({ entry with parts := stripped.map Prod.fst }, stripped.filterMap Prod.snd)

def pushThin (acc : SessionDoc × List SidecarPayload) (entry : Entry (MessagePart JsonValue)) :
    SessionDoc × List SidecarPayload :=
  let (entry, payloads) := stripEntry lineChanges chatId entry
  (acc.1.pushMessage entry, acc.2 ++ payloads)

def copyCommand (acc : SessionDoc × Nat) (command : SessionCommandEntry) : SessionDoc × Nat :=
  if command.status = .pending then (acc.1.queueCommand command, acc.2 + 1) else acc

def rebuildThinDoc (source : SessionDoc) : Except DocError ThinRebuild :=
  match source.chatId with
  | none => .error (.schema "source doc has no chatId")
  | some chatId =>
      let thin := { SessionDoc.init chatId with epoch := some thinDocEpoch }
      let entries := source.readEntries stableHash
      let (thin, sidecar) := entries.foldl (pushThin lineChanges chatId) (thin, [])
      let (thin, commandsCopied) := source.readCommands.foldl copyCommand (thin, 0)
      .ok { doc := thin, sidecar, entries := entries.length, commandsCopied }

end Rebuild

/-! ## What a rebuild is -/

section Closed

variable {stableHash : JsonValue → Nat} {lineChanges : String → String → List ChangeTag}
variable {chatId : String} {source : SessionDoc}

theorem foldl_pushThin (entries : List (Entry (MessagePart JsonValue))) (doc : SessionDoc)
    (sidecar : List SidecarPayload) :
    entries.foldl (pushThin lineChanges chatId) (doc, sidecar) =
      ({ doc with messages := doc.messages ++
          entries.map fun entry => messageMap (stripEntry lineChanges chatId entry).1 },
        sidecar ++ entries.flatMap fun entry => (stripEntry lineChanges chatId entry).2) := by
  induction entries generalizing doc sidecar with
  | nil => simp
  | cons entry entries ih =>
      rw [List.foldl_cons, pushThin, ih]
      simp [SessionDoc.pushMessage]

def pending (commands : List SessionCommandEntry) : List SessionCommandEntry :=
  commands.filter fun command => command.status = .pending

theorem foldl_copyCommand (commands : List SessionCommandEntry) (doc : SessionDoc) (copied : Nat) :
    commands.foldl copyCommand (doc, copied) =
      ({ doc with commands := doc.commands ++ (pending commands).map commandMap },
        copied + (pending commands).length) := by
  induction commands generalizing doc copied with
  | nil => simp [pending]
  | cons command commands ih =>
      rw [List.foldl_cons]
      by_cases h : command.status = .pending
      · have hpending : pending (command :: commands) = command :: pending commands :=
          List.filter_cons_of_pos (by simpa using h)
        rw [copyCommand, if_pos h, ih, hpending]
        simp [SessionDoc.queueCommand]
        omega
      · have hpending : pending (command :: commands) = pending commands :=
          List.filter_cons_of_neg (by simpa using h)
        rw [copyCommand, if_neg h, ih, hpending]

/-- The entries and commands as they are written, and what is owed, in the order of the source. -/
def thinRebuild (stableHash : JsonValue → Nat) (lineChanges : String → String → List ChangeTag)
    (chatId : String) (source : SessionDoc) : ThinRebuild where
  doc := {
    chatId := some chatId
    epoch := some thinDocEpoch
    messages := (source.readEntries stableHash).map fun entry =>
      messageMap (stripEntry lineChanges chatId entry).1
    commands := (pending source.readCommands).map commandMap }
  sidecar := (source.readEntries stableHash).flatMap fun entry =>
    (stripEntry lineChanges chatId entry).2
  entries := (source.readEntries stableHash).length
  commandsCopied := (pending source.readCommands).length

theorem rebuildThinDoc_eq (h : source.chatId = some chatId) :
    rebuildThinDoc stableHash lineChanges source =
      .ok (thinRebuild stableHash lineChanges chatId source) := by
  unfold rebuildThinDoc thinRebuild
  rw [h]
  dsimp only
  rw [foldl_pushThin, foldl_copyCommand]
  simp [SessionDoc.init]

theorem filterMap_map_some {α β γ : Type} {items : List α} {write : α → β} {read : β → Option γ}
    {reread : α → γ} (h : ∀ item ∈ items, read (write item) = some (reread item)) :
    (items.map write).filterMap read = items.map reread := by
  induction items with
  | nil => rfl
  | cons item items ih =>
      rw [List.map_cons, List.filterMap_cons_some (h item List.mem_cons_self), List.map_cons,
        ih fun other hother => h other (List.mem_cons_of_mem item hother)]

/-- What `strip_part` makes of the fields of a tool. -/
def stripTool (lineChanges : String → String → List ChangeTag) (chatId : String)
    (part : ToolPart JsonValue) : ToolPart JsonValue :=
  (stripDiff lineChanges chatId (stripOutput chatId part).1).1

def fatOutput (part : ToolPart JsonValue) : Option String :=
  if part.outputRef = none then part.output.filter fun full => !isBlank full else none

theorem stripOutput_cases (chatId : String) (part : ToolPart JsonValue) :
    (∃ full, fatOutput part = some full ∧ stripOutput chatId part = ({ part with
        output := summarizeToolOutput full
        outputBytes := some full.utf8ByteSize
        outputRef := some (outputKey chatId part.id) }, some full)) ∨
      fatOutput part = none ∧ stripOutput chatId part =
        ({ part with output := if part.outputRef = none then none else part.output }, none) := by
  obtain ⟨id, call, isError, resolved, output, diff, outputRef, outputBytes, diffRef, diffStats⟩ :=
    part
  cases outputRef with
  | some ref => exact .inr ⟨by simp [fatOutput], by simp [stripOutput]⟩
  | none =>
      cases output with
      | none => exact .inr ⟨by simp [fatOutput], by simp [stripOutput]⟩
      | some full =>
          by_cases hblank : isBlank full = true
          · exact .inr ⟨by simp [fatOutput, hblank], by simp [stripOutput, hblank]⟩
          · exact .inl ⟨full, by simp [fatOutput, hblank], by simp [stripOutput, hblank]⟩

theorem stripDiff_eq (lineChanges : String → String → List ChangeTag) (chatId : String)
    (part : ToolPart JsonValue) : stripDiff lineChanges chatId part =
      ({ part with
          diff := none
          diffStats := (part.diff.map fun full => [diffStat lineChanges full]) <|> part.diffStats
          diffRef := part.diffRef <|> part.diff.map fun _ => diffKey chatId part.id },
        part.diff) := by
  obtain ⟨id, call, isError, resolved, output, diff, outputRef, outputBytes, diffRef, diffStats⟩ :=
    part
  cases diff with
  | none => cases diffRef <;> rfl
  | some full => rfl

theorem stripTool_call (part : ToolPart JsonValue) :
    (stripTool lineChanges chatId part).call = part.call := by
  unfold stripTool
  rw [stripDiff_eq]
  obtain ⟨full, -, h⟩ | ⟨-, h⟩ := stripOutput_cases chatId part <;> rw [h]

theorem readable_stripPart {part : MessagePart JsonValue} (h : Readable part) :
    Readable (stripPart lineChanges chatId part).1 := by
  cases part with
  | tool part =>
      change (stripTool lineChanges chatId part).call.input ≠ some .null
      rw [stripTool_call]
      exact h
  | _ => exact h

theorem readableEntry_stripEntry {entry : Entry (MessagePart JsonValue)} (h : ReadableEntry entry) :
    ReadableEntry (stripEntry lineChanges chatId entry).1 := by
  refine ⟨h.createdAt, fun part hpart => ?_⟩
  dsimp only [stripEntry] at hpart
  rw [List.map_map] at hpart
  obtain ⟨source, hsource, rfl⟩ := List.mem_map.mp hpart
  exact readable_stripPart (h.parts source hsource)

theorem readable_readEntries {entry : Entry (MessagePart JsonValue)}
    (h : entry ∈ source.readEntries stableHash) : ReadableEntry entry := by
  obtain ⟨json, -, hread⟩ := List.mem_filterMap.mp h
  exact readableEntry_of_entryFromJson hread

/-- A part of the source as it is read of the thin document. -/
def thinPart (lineChanges : String → String → List ChangeTag) (chatId : String)
    (part : MessagePart JsonValue) : MessagePart JsonValue :=
  rewritten (stripPart lineChanges chatId part).1

/-- The fields of a tool as they are read of the thin document. -/
def thinTool (lineChanges : String → String → List ChangeTag) (chatId : String)
    (part : ToolPart JsonValue) : ToolPart JsonValue :=
  let thin := stripTool lineChanges chatId part
  { thin with isError := thin.resolved && thin.isError }

/-- An entry of the source as it is read of the thin document. -/
def thinEntry (lineChanges : String → String → List ChangeTag) (chatId : String)
    (entry : Entry (MessagePart JsonValue)) : Entry (MessagePart JsonValue) :=
  { entry with parts := entry.parts.map (thinPart lineChanges chatId) }

theorem readEntries_thinRebuild :
    (thinRebuild stableHash lineChanges chatId source).doc.readEntries stableHash =
      (source.readEntries stableHash).map (thinEntry lineChanges chatId) := by
  refine filterMap_map_some fun entry hentry => ?_
  have hreadable : ReadableEntry (stripEntry lineChanges chatId entry).1 :=
    readableEntry_stripEntry (readable_readEntries hentry)
  rw [entryFromJson_messageMap hreadable]
  simp [stripEntry, thinEntry, thinPart]

theorem readable_readCommands {command : SessionCommandEntry}
    (h : command ∈ source.readCommands) : ReadableCommand command := by
  obtain ⟨json, -, hread⟩ := List.mem_filterMap.mp h
  exact readableCommand_of_commandFromJson hread

theorem readCommands_thinRebuild :
    (thinRebuild stableHash lineChanges chatId source).doc.readCommands =
      (pending source.readCommands).map fun command => { command with resolution := none } := by
  refine filterMap_map_some fun command hcommand => ?_
  exact commandFromJson_commandMap (readable_readCommands (List.mem_of_mem_filter hcommand))

/-- A thin part has no diff, and an output only beside a reference. -/
theorem stripPart_thinPart (part : MessagePart JsonValue) :
    stripPart lineChanges chatId (thinPart lineChanges chatId part) =
      (thinPart lineChanges chatId part, none) := by
  cases part with
  | tool part =>
      have hdiff : (stripTool lineChanges chatId part).diff = none := by
        unfold stripTool
        rw [stripDiff_eq]
      have houtput : (stripTool lineChanges chatId part).outputRef = none →
          (stripTool lineChanges chatId part).output = none := by
        unfold stripTool
        rw [stripDiff_eq]
        obtain ⟨full, -, h⟩ | ⟨-, h⟩ := stripOutput_cases chatId part <;> rw [h]
        · simp
        · intro hnone
          exact if_pos hnone
      generalize hthin : stripTool lineChanges chatId part = thin at hdiff houtput
      have hpart : thinPart lineChanges chatId (.tool part) =
          .tool { thin with isError := thin.resolved && thin.isError } := by
        rw [← hthin]
        rfl
      rw [hpart]
      obtain ⟨id, call, isError, resolved, output, diff, outputRef, outputBytes, diffRef,
        diffStats⟩ := thin
      cases (hdiff : diff = none)
      cases outputRef with
      | some ref => rfl
      | none =>
          cases (houtput rfl : output = none)
          rfl
  | _ => rfl

theorem pushPart_rewritten (part : MessagePart JsonValue) :
    pushPart (rewritten part) = pushPart part := by
  cases part with
  | tool part =>
      have herror : (if part.resolved then some (part.resolved && part.isError) else none) =
          if part.resolved then some part.isError else none := by
        cases part.resolved <;> simp
      simp only [pushPart, rewritten, toDocPart, herror]
  | _ => rfl

theorem messageMap_thinEntry (entry : Entry (MessagePart JsonValue)) :
    messageMap (stripEntry lineChanges chatId (thinEntry lineChanges chatId entry)).1 =
      messageMap (stripEntry lineChanges chatId entry).1 := by
  have hpush : ∀ part, pushPart (thinPart lineChanges chatId part) =
      pushPart (stripPart lineChanges chatId part).1 := fun part => pushPart_rewritten _
  simp [messageMap, stripEntry, thinEntry, stripPart_thinPart, hpush]

theorem stripEntry_thinEntry_owes (entry : Entry (MessagePart JsonValue)) :
    (stripEntry lineChanges chatId (thinEntry lineChanges chatId entry)).2 = [] := by
  simp [stripEntry, thinEntry, stripPart_thinPart]

theorem pending_pending (commands : List SessionCommandEntry) :
    pending ((pending commands).map fun command => { command with resolution := none }) =
      (pending commands).map fun command => { command with resolution := none } := by
  refine List.filter_eq_self.mpr fun command hcommand => ?_
  obtain ⟨source, hsource, rfl⟩ := List.mem_map.mp hcommand
  exact (List.mem_filter.mp hsource).2

theorem thinRebuild_thinRebuild (chatId : String) (source : SessionDoc) :
    thinRebuild stableHash lineChanges chatId
        (thinRebuild stableHash lineChanges chatId source).doc =
      { thinRebuild stableHash lineChanges chatId source with sidecar := [] } := by
  have hmessages : ((source.readEntries stableHash).map (thinEntry lineChanges chatId)).map
      (fun entry => messageMap (stripEntry lineChanges chatId entry).1) =
        (source.readEntries stableHash).map fun entry =>
          messageMap (stripEntry lineChanges chatId entry).1 := by
    rw [List.map_map]
    exact List.map_congr_left fun entry _ => messageMap_thinEntry entry
  have hsidecar : (((source.readEntries stableHash).map (thinEntry lineChanges chatId)).flatMap
      fun entry => (stripEntry lineChanges chatId entry).2) = [] := by
    simp [stripEntry_thinEntry_owes]
  have hcommands : ((pending source.readCommands).map
      fun command => { command with resolution := none }).map commandMap =
        (pending source.readCommands).map commandMap := by
    rw [List.map_map]
    rfl
  rw [thinRebuild, readEntries_thinRebuild, readCommands_thinRebuild, pending_pending, hmessages,
    hsidecar, hcommands, List.length_map, List.length_map]
  rfl

end Closed

/-! ## Nothing is lost -/

/-- What the sidecar has under a key. -/
inductive Blob where
  | output (text : String)
  | diff (diff : ToolDiff)

def SidecarPayload.blobs (chatId : String) (payload : SidecarPayload) : List (String × Blob) :=
  (payload.output.map fun text => (outputKey chatId payload.partId, Blob.output text)).toList ++
    (payload.diff.map fun diff => (diffKey chatId payload.partId, Blob.diff diff)).toList

def ThinRebuild.blobs (chatId : String) (rebuilt : ThinRebuild) : List (String × Blob) :=
  rebuilt.sidecar.flatMap (SidecarPayload.blobs chatId)

/-- The reference has it and nothing else. -/
def Once (blobs : List (String × Blob)) (ref : String) (blob : Blob) : Prop :=
  (blobs.filter fun entry => entry.1 = ref) = [(ref, blob)]

theorem Once.length {blobs : List (String × Blob)} {ref : String} {blob : Blob}
    (h : Once blobs ref blob) : (blobs.filter fun entry => entry.1 = ref).length = 1 :=
  congrArg List.length h

/-- The entry is the same but for its parts, which go with each other in order. -/
def SameEntry (Part : MessagePart JsonValue → MessagePart JsonValue → Prop)
    (entry thin : Entry (MessagePart JsonValue)) : Prop :=
  thin = { entry with parts := thin.parts } ∧ List.Forall₂ Part entry.parts thin.parts

/-- The tool part is the same but for an output and a diff, which may be in the sidecar, once, under
the reference that the part has. -/
structure ReplacedTool (blobs : List (String × Blob)) (part thin : ToolPart JsonValue) : Prop where
  same : thin = { part with
    output := thin.output, diff := none, outputRef := thin.outputRef
    outputBytes := thin.outputBytes, diffRef := thin.diffRef, diffStats := thin.diffStats }
  output : (thin.output = part.output ∧ thin.outputRef = part.outputRef ∧
      thin.outputBytes = part.outputBytes) ∨
    ∃ full ref, part.output = some full ∧ thin.outputRef = some ref ∧ Once blobs ref (.output full)
  diff : (part.diff = none ∧ thin.diffRef = part.diffRef ∧ thin.diffStats = part.diffStats) ∨
    ∃ full ref, part.diff = some full ∧ thin.diffRef = some ref ∧ Once blobs ref (.diff full)

def Replaced (blobs : List (String × Blob)) : (part thin : MessagePart JsonValue) → Prop
  | .tool part, .tool thin => ReplacedTool blobs part thin
  | part, thin => thin = part

section Kept

variable (stableHash : JsonValue → Nat) (lineChanges : String → String → List ChangeTag)

/-- Outputs and diffs have gone to the sidecar, and nothing else has changed. -/
structure LosesNothing (chatId : String) (source : SessionDoc) (rebuilt : ThinRebuild) : Prop where
  entries : List.Forall₂ (SameEntry (Replaced (rebuilt.blobs chatId)))
    (source.readEntries stableHash) (rebuilt.doc.readEntries stableHash)
  commands : rebuilt.doc.readCommands = pending source.readCommands
  again : ∃ second, rebuildThinDoc stableHash lineChanges rebuilt.doc = .ok second ∧
    second.sidecar = [] ∧ second.doc.readEntries stableHash = rebuilt.doc.readEntries stableHash

/-- What the sidecar has of a part, under the keys of its id. -/
def taken (chatId : String) : MessagePart JsonValue → List (String × Blob)
  | .tool part =>
      ((fatOutput part).map fun full => (outputKey chatId part.id, Blob.output full)).toList ++
        (part.diff.map fun full => (diffKey chatId part.id, Blob.diff full)).toList
  | _ => []

/-- Of a fat output there are the summary, the length and the reference, and of a diff its stats
and the reference, which is the one that the part had if it had one. A blank output is dropped, and
so is the error of a call without a result. -/
structure ThinTool (chatId : String) (part thin : ToolPart JsonValue) : Prop where
  same : thin = { part with
    isError := part.resolved && part.isError, diff := none
    output := thin.output, outputRef := thin.outputRef, outputBytes := thin.outputBytes
    diffRef := thin.diffRef, diffStats := thin.diffStats }
  fat : ∀ full, fatOutput part = some full → thin.output = summarizeToolOutput full ∧
    thin.outputRef = some (outputKey chatId part.id) ∧ thin.outputBytes = some full.utf8ByteSize
  noFat : fatOutput part = none →
    thin.output = (if part.outputRef = none then none else part.output) ∧
      thin.outputRef = part.outputRef ∧ thin.outputBytes = part.outputBytes
  diff : ∀ full, part.diff = some full → thin.diffStats = some [diffStat lineChanges full] ∧
    thin.diffRef = some (part.diffRef.getD (diffKey chatId part.id))
  noDiff : part.diff = none → thin.diffRef = part.diffRef ∧ thin.diffStats = part.diffStats

def Thin (chatId : String) : (part thin : MessagePart JsonValue) → Prop
  | .tool part, .tool thin => ThinTool lineChanges chatId part thin
  | part, thin => thin = part

structure KeepsAll (chatId : String) (source : SessionDoc) (rebuilt : ThinRebuild) : Prop where
  lineage : rebuilt.doc.chatId = some chatId ∧ docEpoch rebuilt.doc = 2
  entries : List.Forall₂ (SameEntry (Thin lineChanges chatId))
    (source.readEntries stableHash) (rebuilt.doc.readEntries stableHash)
  /-- What was taken out of the parts, in their order and no more. -/
  sidecar : rebuilt.blobs chatId =
    (source.readEntries stableHash).flatMap fun entry => entry.parts.flatMap (taken chatId)
  /-- So a reader finds what was taken out under its reference, unless another part's has the same
  key. -/
  once : ∀ ref blob, (ref, blob) ∈ rebuilt.blobs chatId →
    ((rebuilt.blobs chatId).map Prod.fst).count ref = 1 → Once (rebuilt.blobs chatId) ref blob
  commands : rebuilt.doc.readCommands =
    (pending source.readCommands).map fun command => { command with resolution := none }
  again : rebuildThinDoc stableHash lineChanges rebuilt.doc = .ok { rebuilt with sidecar := [] }

variable {stableHash : JsonValue → Nat} {lineChanges : String → String → List ChangeTag}
variable {chatId : String}

theorem blobs_stripPart (part : MessagePart JsonValue) :
    (stripPart lineChanges chatId part).2.toList.flatMap (SidecarPayload.blobs chatId) =
      taken chatId part := by
  cases part with
  | tool part =>
      have hdiff : (stripOutput chatId part).1.diff = part.diff := by
        obtain ⟨full, -, h⟩ | ⟨-, h⟩ := stripOutput_cases chatId part <;> rw [h]
      have houtput : (stripOutput chatId part).2 = fatOutput part := by
        obtain ⟨full, hfat, h⟩ | ⟨hfat, h⟩ := stripOutput_cases chatId part <;> rw [h, hfat]
      have hpayload : (stripPart lineChanges chatId (.tool part)).2 =
          if (fatOutput part).isSome ∨ part.diff.isSome then
            some { partId := part.id, output := fatOutput part, diff := part.diff } else none := by
        rw [← houtput, ← hdiff]
        unfold stripPart
        dsimp only
        rw [stripDiff_eq]
      rw [hpayload, taken]
      cases fatOutput part <;> cases part.diff <;> simp [SidecarPayload.blobs]
  | _ => rfl

theorem flatMap_filterMap_toList {α β γ : Type} (read : α → Option β) (f : β → List γ)
    (items : List α) : (items.filterMap read).flatMap f =
      items.flatMap fun item => (read item).toList.flatMap f := by
  induction items with
  | nil => rfl
  | cons item items ih =>
      rw [List.flatMap_cons, ← ih]
      cases hread : read item with
      | none => rw [List.filterMap_cons_none hread]; rfl
      | some value => rw [List.filterMap_cons_some hread, List.flatMap_cons]; simp

theorem once_of_count {blobs : List (String × Blob)} {ref : String} {blob : Blob}
    (h : (ref, blob) ∈ blobs) (hcount : (blobs.map Prod.fst).count ref = 1) :
    Once blobs ref blob := by
  have hlength : (blobs.filter fun entry => entry.1 = ref).length = 1 := by
    rw [← hcount, List.count_eq_countP, List.countP_map, List.countP_eq_length_filter]
    rfl
  obtain ⟨entry, hentry⟩ := List.length_eq_one_iff.mp hlength
  have hmem : (ref, blob) ∈ blobs.filter fun entry => entry.1 = ref := by
    simpa using h
  unfold Once
  rw [hentry] at hmem ⊢
  rw [List.mem_singleton.mp hmem]

theorem thinTool_spec (lineChanges : String → String → List ChangeTag) (chatId : String)
    (part : ToolPart JsonValue) :
    ThinTool lineChanges chatId part (thinTool lineChanges chatId part) := by
  have hdiff : ∀ full, part.diff = some full →
      ((part.diff.map fun full => [diffStat lineChanges full]) <|> part.diffStats) =
          some [diffStat lineChanges full] ∧
        (part.diffRef <|> part.diff.map fun _ => diffKey chatId part.id) =
          some (part.diffRef.getD (diffKey chatId part.id)) := by
    intro full hfull
    rw [hfull]
    exact ⟨rfl, by cases part.diffRef <;> rfl⟩
  have hnoDiff : part.diff = none →
      (part.diffRef <|> part.diff.map fun _ => diffKey chatId part.id) = part.diffRef ∧
        ((part.diff.map fun full => [diffStat lineChanges full]) <|> part.diffStats) =
          part.diffStats := by
    intro hnone
    rw [hnone]
    exact ⟨by cases part.diffRef <;> rfl, rfl⟩
  unfold thinTool stripTool
  rw [stripDiff_eq]
  obtain ⟨full, hfat, h⟩ | ⟨hfat, h⟩ := stripOutput_cases chatId part
  · rw [h]
    dsimp only
    generalize hsummary : summarizeToolOutput full = summary
    refine ⟨rfl, fun found hfound => ?_, fun hnone => ?_, hdiff, hnoDiff⟩
    · cases hfat.symm.trans hfound
      exact ⟨hsummary.symm, rfl, rfl⟩
    · cases hfat.symm.trans hnone
  · rw [h]
    dsimp only
    refine ⟨rfl, fun found hfound => ?_, fun _ => ⟨rfl, rfl, rfl⟩, hdiff, hnoDiff⟩
    cases hfat.symm.trans hfound

theorem thin_thinPart (part : MessagePart JsonValue) :
    Thin lineChanges chatId part (thinPart lineChanges chatId part) := by
  cases part with
  | tool part => exact thinTool_spec lineChanges chatId part
  | _ => rfl

theorem blobs_thinRebuild (source : SessionDoc) :
    (thinRebuild stableHash lineChanges chatId source).blobs chatId =
      (source.readEntries stableHash).flatMap fun entry => entry.parts.flatMap (taken chatId) := by
  unfold ThinRebuild.blobs thinRebuild
  dsimp only
  rw [List.flatMap_assoc]
  refine List.flatMap_congr fun entry _ => ?_
  dsimp only [stripEntry]
  rw [flatMap_filterMap_toList, List.flatMap_map]
  exact List.flatMap_congr fun part _ => blobs_stripPart part

theorem forall₂_map_right {α β : Type} {R : α → β → Prop} {f : α → β}
    (h : ∀ item, R item (f item)) (items : List α) : List.Forall₂ R items (items.map f) := by
  induction items with
  | nil => exact .nil
  | cons item items ih => exact .cons (h item) ih

def RebuildLosesNothing (stableHash : JsonValue → Nat)
    (lineChanges : String → String → List ChangeTag) (source : SessionDoc) : Prop :=
  ∀ chatId, source.chatId = some chatId →
    ∃ rebuilt, rebuildThinDoc stableHash lineChanges source = .ok rebuilt ∧
      LosesNothing stableHash lineChanges chatId source rebuilt

theorem losesNothing_thinRebuild {source : SessionDoc} (hchat : source.chatId = some chatId)
    (h : RebuildLosesNothing stableHash lineChanges source) :
    LosesNothing stableHash lineChanges chatId source
      (thinRebuild stableHash lineChanges chatId source) := by
  obtain ⟨rebuilt, hrebuilt, hlose⟩ := h chatId hchat
  cases (rebuildThinDoc_eq hchat).symm.trans hrebuilt
  exact hlose

theorem replaced_of_losesNothing {source : SessionDoc} (hchat : source.chatId = some chatId)
    (h : RebuildLosesNothing stableHash lineChanges source)
    {entry : Entry (MessagePart JsonValue)} (hentry : entry ∈ source.readEntries stableHash)
    {part : MessagePart JsonValue} (hpart : part ∈ entry.parts) :
    Replaced ((thinRebuild stableHash lineChanges chatId source).blobs chatId) part
      (thinPart lineChanges chatId part) := by
  have hentries := (losesNothing_thinRebuild hchat h).entries
  rw [readEntries_thinRebuild, List.forall₂_map_right_iff, List.forall₂_same] at hentries
  have hparts := (hentries entry hentry).2
  unfold thinEntry at hparts
  rw [List.forall₂_map_right_iff, List.forall₂_same] at hparts
  exact hparts part hpart

end Kept

section Exceptions

def execPart (output : Option String) (diff : Option ToolDiff) (diffRef : Option String) :
    ToolPart JsonValue where
  id := "t1"
  call := .exec "ls"
  isError := false
  resolved := true
  output := output
  diff := diff
  outputRef := none
  outputBytes := none
  diffRef := diffRef
  diffStats := none

def toolEntry (parts : List (ToolPart JsonValue)) : Entry (MessagePart JsonValue) where
  id := "m1"
  role := .assistant
  parts := parts.map .tool
  createdAt := 5
  deviceId := "d1"
  status := some .complete
  continuationOf := none

def toolDoc (parts : List (ToolPart JsonValue)) : SessionDoc :=
  (SessionDoc.init "c1").pushMessage (toolEntry parts)

theorem readEntries_toolDoc (stableHash : JsonValue → Nat) (parts : List (ToolPart JsonValue))
    (h : ∀ part ∈ parts, part.call = .exec "ls" ∧ part.resolved = true) :
    (toolDoc parts).readEntries stableHash = [toolEntry parts] := by
  have hreadable : ReadableEntry (toolEntry parts) := by
    refine ⟨rfl, fun part hpart => ?_⟩
    obtain ⟨tool, htool, rfl⟩ := List.mem_map.mp hpart
    change tool.call.input ≠ some .null
    rw [(h tool htool).1]
    simp [ToolCall.input]
  have hparts : (toolEntry parts).parts.map rewritten = (toolEntry parts).parts := by
    refine (List.map_congr_left fun part hpart => ?_).trans (List.map_id _)
    obtain ⟨tool, htool, rfl⟩ := List.mem_map.mp hpart
    have herror : (tool.resolved && tool.isError) = tool.isError := by
      rw [(h tool htool).2, Bool.true_and]
    change MessagePart.tool { tool with isError := tool.resolved && tool.isError } = .tool tool
    rw [herror]
  have hread := entryFromJson_messageMap hreadable stableHash
  rw [hparts] at hread
  simp [SessionDoc.readEntries, toolDoc, SessionDoc.init, SessionDoc.pushMessage, hread]

variable (stableHash : JsonValue → Nat) (lineChanges : String → String → List ChangeTag)

theorem replacedTool_toolDoc {parts : List (ToolPart JsonValue)}
    (hparts : ∀ part ∈ parts, part.call = .exec "ls" ∧ part.resolved = true)
    (h : RebuildLosesNothing stableHash lineChanges (toolDoc parts))
    {part : ToolPart JsonValue} (hpart : part ∈ parts) :
    ReplacedTool (parts.flatMap fun part => taken "c1" (.tool part)) part
      (thinTool lineChanges "c1" part) := by
  have hread := readEntries_toolDoc stableHash parts hparts
  have hchat : (toolDoc parts).chatId = some "c1" := rfl
  have hreplaced := replaced_of_losesNothing hchat h (by rw [hread]; exact List.mem_cons_self)
    (List.mem_map_of_mem hpart)
  rw [blobs_thinRebuild, hread] at hreplaced
  have hparts' : [toolEntry parts].flatMap (fun entry => entry.parts.flatMap (taken "c1")) =
      parts.flatMap fun part => taken "c1" (.tool part) := by
    simp [toolEntry, List.flatMap_map]
  rw [hparts'] at hreplaced
  exact hreplaced

theorem loses_blank_output :
    ¬RebuildLosesNothing stableHash lineChanges (toolDoc [execPart (some " ") none none]) := by
  intro h
  obtain ⟨-, houtput, -⟩ :=
    replacedTool_toolDoc stableHash lineChanges (by simp [execPart]) h List.mem_cons_self
  have hthin := thinTool_spec lineChanges "c1" (execPart (some " ") none none)
  obtain ⟨hnone, href, -⟩ := hthin.noFat (by decide)
  obtain ⟨hsame, -⟩ | ⟨full, ref, -, hkey, -⟩ := houtput
  · cases hnone.symm.trans hsame
  · cases href.symm.trans hkey

theorem loses_repeated_id :
    ¬RebuildLosesNothing stableHash lineChanges
      (toolDoc [execPart (some "one") none none, execPart (some "two") none none]) := by
  intro h
  obtain ⟨-, houtput, -⟩ :=
    replacedTool_toolDoc stableHash lineChanges (by simp [execPart]) h List.mem_cons_self
  have hthin := thinTool_spec lineChanges "c1" (execPart (some "one") none none)
  obtain ⟨-, href, -⟩ := hthin.fat "one" (by decide)
  obtain ⟨-, hsame, -⟩ | ⟨full, ref, -, hkey, honce⟩ := houtput
  · cases href.symm.trans hsame
  · cases href.symm.trans hkey
    exact absurd honce.length (by decide)

theorem loses_kept_ref :
    ¬RebuildLosesNothing stableHash lineChanges
      (toolDoc [execPart none (some ⟨"a.txt", none, "new"⟩) (some "c0/t1.diff")]) := by
  intro h
  obtain ⟨-, -, hdiff⟩ :=
    replacedTool_toolDoc stableHash lineChanges (by simp [execPart]) h List.mem_cons_self
  have hthin := thinTool_spec lineChanges "c1"
    (execPart none (some ⟨"a.txt", none, "new"⟩) (some "c0/t1.diff"))
  obtain ⟨-, href⟩ := hthin.diff _ rfl
  obtain ⟨hnone, -⟩ | ⟨full, ref, -, hkey, honce⟩ := hdiff
  · cases hnone
  · cases href.symm.trans hkey
    exact absurd honce.length (by decide)

/-- A failed call that is said to have no result, in a part without its kind. -/
def failedDoc : SessionDoc :=
  { SessionDoc.init "c1" with messages := [.object
      [("id", .string "m1"), ("role", .string "assistant"), ("createdAt", .int 5),
        ("deviceId", .string "d1"), ("status", .string "complete"), ("parts", .array [.object
          [("id", .string "t1"), ("call", encodeToolCall (.exec "ls")), ("isError", .bool true),
            ("resolved", .bool false)]])]] }

theorem loses_error : ¬RebuildLosesNothing stableHash lineChanges failedDoc := by
  intro h
  have hread : failedDoc.readEntries stableHash =
      [toolEntry [{ execPart none none none with isError := true, resolved := false }]] := rfl
  have hchat : failedDoc.chatId = some "c1" := rfl
  have hreplaced := replaced_of_losesNothing hchat h (by rw [hread]; exact List.mem_cons_self)
    List.mem_cons_self
  obtain ⟨hsame, -, -⟩ := hreplaced
  have herror : false = true := congrArg ToolPart.isError hsame
  cases herror

def resolvedDoc : SessionDoc :=
  { SessionDoc.init "c1" with commands := [.object
      [("id", .string "k1"), ("payload", .object [("kind", .string "interrupt")]),
        ("issuedBy", .string "d1"), ("issuedAt", .int 9), ("status", .string "pending"),
        ("resolution", .string "later")]] }

theorem loses_resolution : ¬RebuildLosesNothing stableHash lineChanges resolvedDoc := by
  intro h
  have hchat : resolvedDoc.chatId = some "c1" := rfl
  have hcommands := (losesNothing_thinRebuild hchat h).commands
  rw [readCommands_thinRebuild] at hcommands
  have hread : pending resolvedDoc.readCommands =
      [⟨"k1", .interrupt, "d1", 9, none, none, .pending, some "later"⟩] := by rfl
  rw [hread] at hcommands
  have hresolution : none = some "later" := congrArg
    (fun commands : List SessionCommandEntry => commands.head?.bind SessionCommandEntry.resolution)
    hcommands
  cases hresolution

end Exceptions

/-- A blank output, two outputs of one id, a diff that has a reference of another form, the error of
a call without a result and the resolution of a pending command: they are lost, or not where their
reference says. -/
theorem thin_rebuild_exceptions :
    ¬RebuildLosesNothing (fun _ => 0) (fun _ _ => [])
      (toolDoc [execPart (some " ") none none]) ∧
    ¬RebuildLosesNothing (fun _ => 0) (fun _ _ => [])
      (toolDoc [execPart (some "one") none none, execPart (some "two") none none]) ∧
    ¬RebuildLosesNothing (fun _ => 0) (fun _ _ => [])
      (toolDoc [execPart none (some ⟨"a.txt", none, "new"⟩) (some "c0/t1.diff")]) ∧
    ¬RebuildLosesNothing (fun _ => 0) (fun _ _ => []) failedDoc ∧
    ¬RebuildLosesNothing (fun _ => 0) (fun _ _ => []) resolvedDoc :=
  ⟨loses_blank_output _ _, loses_repeated_id _ _, loses_kept_ref _ _, loses_error _ _,
    loses_resolution _ _⟩

/-- **The thin rebuild.** It takes the fat outputs and the diffs out of the parts and keeps the
rest, but for blank outputs and the errors of calls without a result; of its own result it takes
nothing. -/
theorem rebuild_keepsAll (stableHash : JsonValue → Nat)
    (lineChanges : String → String → List ChangeTag) {chatId : String} (source : SessionDoc)
    (h : source.chatId = some chatId) :
    ∃ rebuilt, rebuildThinDoc stableHash lineChanges source = .ok rebuilt ∧
      KeepsAll stableHash lineChanges chatId source rebuilt := by
  refine ⟨_, rebuildThinDoc_eq h, ⟨rfl, rfl⟩, ?_, blobs_thinRebuild source,
    fun _ _ => once_of_count, readCommands_thinRebuild, ?_⟩
  · rw [readEntries_thinRebuild]
    exact forall₂_map_right (fun entry => ⟨rfl, forall₂_map_right thin_thinPart _⟩) _
  · rw [rebuildThinDoc_eq rfl, thinRebuild_thinRebuild]

/-- A document with a fat output and a diff. -/
theorem fat_doc_kept : ∃ rebuilt, rebuildThinDoc (fun _ => 0) (fun _ _ => [])
      (toolDoc [execPart (some "one\ntwo") (some ⟨"a.txt", none, "new"⟩) none]) = .ok rebuilt ∧
    KeepsAll (fun _ => 0) (fun _ _ => []) "c1"
      (toolDoc [execPart (some "one\ntwo") (some ⟨"a.txt", none, "new"⟩) none]) rebuilt :=
  rebuild_keepsAll _ _ _ rfl

end Zeron.Doc
