import Zeron.Doc.Segment

/-!
# What an entry does not show

Two runs of a segment whose events differ in tool outputs, in the texts of diffs and in the inputs that
`sanitize_tool_call` drops. The fold sees the whole of an event, and what it writes down is the same in
both runs once the calls are rendered.
-/

namespace Zeron.Doc

variable {Value : Type}

section Agreement

/-- Two calls but for their inputs. -/
inductive CallsAgree : ToolCall Value → ToolCall Value → Prop where
  | same (call : ToolCall Value) : CallsAgree call call
  | writeFile (path : String) (content content' : Option String) :
      CallsAgree (.writeFile path content) (.writeFile path content')
  | editFile (path : String) (old old' new new' : Option String) :
      CallsAgree (.editFile path old new) (.editFile path old' new')
  | webFetch (url : String) (prompt prompt' : Option String) :
      CallsAgree (.webFetch url prompt) (.webFetch url prompt')
  | mcp (server tool : String) (input input' : Option Value) :
      CallsAgree (.mcp server tool input) (.mcp server tool input')
  | unknown (name : String) (input input' : Option Value) :
      CallsAgree (.unknown name input) (.unknown name input')

variable (lineChanges : String → String → List ChangeTag)

/-- Two diffs with equal statistics. -/
inductive DiffsAgree : Option ToolDiff → Option ToolDiff → Prop where
  | none : DiffsAgree none none
  | some (diff diff' : ToolDiff) (hstats : diffStat lineChanges diff = diffStat lineChanges diff') :
      DiffsAgree (some diff) (some diff')

/-- Two events but for outputs, diff texts and inputs. -/
inductive EventsAgree : AgentEvent Value → AgentEvent Value → Prop where
  | same (event : AgentEvent Value) : EventsAgree event event
  | toolCall (id : String) {call call' : ToolCall Value} (hcall : CallsAgree call call') :
      EventsAgree (.toolCall id call) (.toolCall id call')
  | toolResult (id : String) (isError : Bool) (output output' : Option String)
      {diff diff' : Option ToolDiff} (hdiff : DiffsAgree lineChanges diff diff') :
      EventsAgree (.toolResult id isError output diff) (.toolResult id isError output' diff')

/-- The schedule of commits and of other entries is the same. -/
inductive StepsAgree : Segment.Step Value → Segment.Step Value → Prop where
  | event {event event' : { event : AgentEvent Value // event ≠ .steered }}
      (hevent : EventsAgree lineChanges event.1 event'.1) : StepsAgree (.event event) (.event event')
  | commit : StepsAgree .commit .commit
  | push (entry : Entry (DocPart Value)) : StepsAgree (.push entry) (.push entry)

end Agreement

/-! ## Rendering -/

section Rendering

variable {lineChanges : String → String → List ChangeTag} {parts parts' : List (MessagePart Value)}

theorem CallsAgree.sanitize_eq {call call' : ToolCall Value} (h : CallsAgree call call') :
    sanitizeToolCall call = sanitizeToolCall call' := by
  cases h <;> rfl

theorem DiffsAgree.stats_eq {diff diff' : Option ToolDiff} (h : DiffsAgree lineChanges diff diff') :
    diff.map (fun diff => [diffStat lineChanges diff]) =
      diff'.map fun diff => [diffStat lineChanges diff] := by
  cases h with
  | none => rfl
  | some diff diff' hstats => rw [Option.map_some, Option.map_some, hstats]

def rendered : AgentEvent Value → AgentEvent Value
  | .toolCall id call => .toolCall id (sanitizeToolCall call)
  | event => event

@[simp] theorem id_renderPart (part : MessagePart Value) : (renderPart part).id = part.id := by
  cases part <;> rfl

theorem renderPart_settle (part : MessagePart Value) (id : String) (isError : Bool)
    (stats : Option (List ToolDiffStat)) :
    renderPart (part.settle id isError stats) = (renderPart part).settle id isError stats := by
  cases part with
  | tool part =>
      simp only [MessagePart.settle, renderPart]
      by_cases hid : part.id = id
      · rw [if_pos hid, if_pos hid]
      · rw [if_neg hid, if_neg hid]
  | _ => rfl

theorem renderPart_resolveInput (part : MessagePart Value) (requestId : String) :
    renderPart (part.resolveInput requestId) = (renderPart part).resolveInput requestId := by
  cases part <;> rfl

theorem renderPart_closeInput (part : MessagePart Value) :
    renderPart part.closeInput = (renderPart part).closeInput := by
  cases part <;> rfl

theorem refreshCall_render (id : String) (call : ToolCall Value) :
    (refreshCall id call parts).map (List.map renderPart) =
      refreshCall id (sanitizeToolCall call) (parts.map renderPart) := by
  induction parts with
  | nil => rfl
  | cons part rest ih =>
      have hlater : ((refreshCall id call rest).map (part :: ·)).map (List.map renderPart) =
          (refreshCall id (sanitizeToolCall call) (rest.map renderPart)).map (renderPart part :: ·) := by
        rw [← ih, Option.map_map, Option.map_map]
        rfl
      cases part with
      | tool part =>
          simp only [refreshCall, List.map_cons, renderPart]
          by_cases hid : part.id = id
          · rw [if_pos hid, if_pos hid]
            rfl
          · rw [if_neg hid, if_neg hid]
            exact hlater
      | _ => exact hlater

/-- Rendering is a homomorphism of the fold. -/
theorem foldEvent_render (event : AgentEvent Value) :
    (foldEvent lineChanges parts event).map renderPart =
      foldEvent lineChanges (parts.map renderPart) (rendered event) := by
  have htail : ∀ part : MessagePart Value, (parts.dropLast ++ [part]).map renderPart =
      (parts.map renderPart).dropLast ++ [renderPart part] := by
    intro part
    rw [List.map_append, List.map_dropLast]
    rfl
  cases event with
  | textDelta text | commentaryDelta text =>
      simp only [foldEvent, rendered, List.getLast?_map, List.length_map]
      cases parts.getLast? with
      | none => simp [renderPart]
      | some last => cases last <;> simp [renderPart]
  | toolCall id call =>
      simp only [foldEvent, rendered]
      rw [← refreshCall_render]
      cases refreshCall id call parts with
      | none => simp [renderPart]
      | some parts' => rfl
  | toolResult id isError output diff =>
      simp only [foldEvent, rendered, List.map_map]
      exact List.map_congr_left fun part _ => renderPart_settle ..
  | inputResolved requestId =>
      simp only [foldEvent, rendered, List.map_map]
      exact List.map_congr_left fun part _ => renderPart_resolveInput ..
  | inputRequested requestId questions =>
      simp only [foldEvent, rendered, List.any_map]
      have hany : ((fun part => decide (part.id = "in-" ++ requestId)) ∘ renderPart :
          MessagePart Value → Bool) = fun part => decide (part.id = "in-" ++ requestId) := by
        ext part
        simp
      rw [hany]
      split_ifs <;> simp [renderPart]
  | done error => cases error <;> simp [foldEvent, rendered, renderPart]
  | notice _ _ | error _ => simp [foldEvent, rendered, renderPart]
  | _ => rfl

theorem foldSegment_render (event : AgentEvent Value) :
    (foldSegment lineChanges parts event).map renderPart =
      foldSegment lineChanges (parts.map renderPart) (rendered event) := by
  have hevent := @foldEvent_render _ lineChanges parts event
  cases event with
  | sessionStarted =>
      simp only [foldSegment, rendered, List.isEmpty_map]
      split_ifs
      · rfl
      · rfl
  | done error =>
      simp only [foldSegment, rendered]
      have hfold : foldEvent lineChanges (parts.map renderPart) (.done error) =
          (foldEvent lineChanges parts (.done error)).map renderPart := hevent.symm
      rw [hfold, List.map_map, List.map_map]
      exact List.map_congr_left fun part _ => renderPart_closeInput part
  | _ => exact hevent

theorem EventsAgree.foldEvent_eq {event event' : AgentEvent Value}
    (h : EventsAgree lineChanges event event') :
    foldEvent lineChanges parts (rendered event) = foldEvent lineChanges parts (rendered event') := by
  cases h with
  | same event => rfl
  | toolCall id hcall => simp only [rendered, hcall.sanitize_eq]
  | toolResult id isError output output' hdiff =>
      simp only [rendered, foldEvent, hdiff.stats_eq]

theorem EventsAgree.foldSegment_eq {event event' : AgentEvent Value}
    (h : EventsAgree lineChanges event event') :
    foldSegment lineChanges parts (rendered event) =
      foldSegment lineChanges parts (rendered event') := by
  have hfold := @EventsAgree.foldEvent_eq _ lineChanges parts _ _ h
  cases h with
  | same event => rfl
  | toolCall id hcall | toolResult id isError output output' hdiff => exact hfold

theorem EventsAgree.render_eq {event event' : AgentEvent Value}
    (h : EventsAgree lineChanges event event') (hparts : parts.map renderPart = parts'.map renderPart) :
    (foldSegment lineChanges parts event).map renderPart =
      (foldSegment lineChanges parts' event').map renderPart := by
  rw [foldSegment_render, foldSegment_render, hparts]
  exact h.foldSegment_eq

end Rendering

/-! ## Sidecar marks -/

section Sidecar

/-- The step of `apply_sidecar_refs`, which the live fold no longer takes. -/
def markPart (chatId : String) : MessagePart Value → MessagePart Value
  | .tool part =>
      if part.resolved then
        .tool { part with
          outputRef :=
            if part.outputRef.isNone && part.outputBytes.isSome then some (chatId ++ "/" ++ part.id)
            else part.outputRef
          diffRef :=
            if part.diffRef.isNone && part.diffStats.isSome then
              some (chatId ++ "/" ++ part.id ++ ".diff")
            else part.diffRef }
      else .tool part
  | part => part

def applySidecarRefs (chatId : String) (parts : List (MessagePart Value)) :
    List (MessagePart Value) :=
  parts.map (markPart chatId)

theorem applySidecarRefs_render (chatId : String) (parts : List (MessagePart Value)) :
    (applySidecarRefs chatId parts).map renderPart =
      applySidecarRefs chatId (parts.map renderPart) := by
  simp only [applySidecarRefs, List.map_map]
  apply List.map_congr_left
  intro part _
  cases part with
  | tool part =>
      simp only [Function.comp_apply, markPart, renderPart]
      split_ifs <;> rfl
  | _ => rfl

end Sidecar

/-! ## Two runs -/

namespace Segment

variable {lineChanges : String → String → List ChangeTag} {codecs : Codecs Value} {info : EntryInfo}
variable {segment segment' : Segment Value}

def shown (segment : Segment Value) : Segment Value :=
  { segment with folded := segment.folded.map renderPart }

theorem shown_eq_iff : segment.shown = segment'.shown ↔ segment.messages = segment'.messages ∧
    segment.writer = segment'.writer ∧
      segment.folded.map renderPart = segment'.folded.map renderPart := by
  simp [shown]

theorem folds_render {steps steps' : List (Step Value)}
    (h : List.Forall₂ (StepsAgree lineChanges) steps steps') :
    (folds lineChanges steps).map renderPart = (folds lineChanges steps').map renderPart := by
  unfold folds
  refine List.rel_foldl (P := fun parts parts' : List (MessagePart Value) => parts.map renderPart = parts'.map renderPart)
    ?_ rfl h
  intro parts parts' hparts step step' hstep
  cases hstep with
  | event hevent => exact hevent.render_eq hparts
  | commit | push entry => exact hparts

variable [DecidableEq Value]

omit [DecidableEq Value] in
theorem opened_shown (info : EntryInfo) (h : segment.shown = segment'.shown) :
    segment.folded.isEmpty = segment'.folded.isEmpty ∧ segment.opened info = segment'.opened info := by
  obtain ⟨hmessages, hwriter, hfolded⟩ := shown_eq_iff.mp h
  constructor
  · rw [← List.isEmpty_map (f := renderPart), hfolded, List.isEmpty_map]
  · unfold opened
    rw [hmessages, hwriter]

theorem syncSegment_shown (h : segment.shown = segment'.shown) :
    (segment.syncSegment codecs info).map shown = (segment'.syncSegment codecs info).map shown := by
  obtain ⟨-, -, hfolded⟩ := shown_eq_iff.mp h
  obtain ⟨hempty, hopened⟩ := opened_shown info h
  unfold syncSegment
  rw [hempty, hopened, hfolded]
  split_ifs
  · exact congrArg Except.ok h
  · obtain ⟨messages, writer⟩ := segment'.opened info
    dsimp only
    cases writer.sync codecs messages (segment'.folded.map renderPart) with
    | error error => rfl
    | ok written => exact congrArg Except.ok (shown_eq_iff.mpr ⟨rfl, rfl, hfolded⟩)

theorem finishSegment_shown (h : segment.shown = segment'.shown) (status : MessageStatus) :
    (segment.finishSegment codecs info status).map shown =
      (segment'.finishSegment codecs info status).map shown := by
  obtain ⟨-, hwriter, hfolded⟩ := shown_eq_iff.mp h
  obtain ⟨hempty, hopened⟩ := opened_shown info h
  unfold finishSegment
  rw [hempty, hwriter, hopened, hfolded]
  split_ifs
  · exact congrArg Except.ok h
  · obtain ⟨messages, writer⟩ := segment'.opened info
    dsimp only
    cases writer.finish codecs messages (segment'.folded.map renderPart) status with
    | error error => rfl
    | ok written => exact congrArg Except.ok (shown_eq_iff.mpr ⟨rfl, rfl, hfolded⟩)

theorem close_shown (h : segment.shown = segment'.shown) (ending : Option MessageStatus) :
    (segment.close codecs info ending).map shown = (segment'.close codecs info ending).map shown := by
  cases ending with
  | none => exact syncSegment_shown h
  | some status => exact finishSegment_shown h status

theorem step_shown (h : segment.shown = segment'.shown) {step step' : Step Value}
    (hstep : StepsAgree lineChanges step step') :
    (segment.step codecs info lineChanges step).map shown =
      (segment'.step codecs info lineChanges step').map shown := by
  obtain ⟨hmessages, hwriter, hfolded⟩ := shown_eq_iff.mp h
  cases hstep with
  | event hevent =>
      exact congrArg Except.ok (shown_eq_iff.mpr ⟨hmessages, hwriter, hevent.render_eq hfolded⟩)
  | commit => exact syncSegment_shown h
  | push entry =>
      refine congrArg Except.ok (shown_eq_iff.mpr ⟨?_, hwriter, hfolded⟩)
      exact congrArg (· ++ [entry]) hmessages

theorem run_shown (h : segment.shown = segment'.shown) {steps steps' : List (Step Value)}
    (hsteps : List.Forall₂ (StepsAgree lineChanges) steps steps') :
    (segment.run codecs info lineChanges steps).map shown =
      (segment'.run codecs info lineChanges steps').map shown := by
  induction hsteps generalizing segment segment' with
  | nil => exact congrArg Except.ok h
  | @cons step step' steps steps' hstep _ ih =>
      have hnext := @step_shown _ lineChanges codecs info _ _ _ h _ _ hstep
      unfold run at ih ⊢
      rw [List.foldlM_cons, List.foldlM_cons]
      cases hleft : segment.step codecs info lineChanges step with
      | error error =>
          cases hright : segment'.step codecs info lineChanges step' with
          | error error' =>
              rw [hleft, hright] at hnext
              cases hnext
              rfl
          | ok next' =>
              rw [hleft, hright] at hnext
              cases hnext
      | ok next =>
          cases hright : segment'.step codecs info lineChanges step' with
          | error error' =>
              rw [hleft, hright] at hnext
              cases hnext
          | ok next' =>
              rw [hleft, hright] at hnext
              exact ih (Except.ok.inj hnext)

/-- **Privacy.** Two runs of a segment that differ only in tool outputs, in diff texts with equal
statistics and in the inputs that are private write the same entries, after any commits and whatever
ends the segment, and sidecar marks on the fold would show the same. -/
theorem private_data_stays (codecs : Codecs Value) (info : EntryInfo)
    (lineChanges : String → String → List ChangeTag) (messages : List (Entry (DocPart Value)))
    {steps steps' : List (Step Value)} (h : List.Forall₂ (StepsAgree lineChanges) steps steps') :
    (∃ entries, (run codecs info lineChanges ⟨messages, none, []⟩ steps).map Segment.messages =
        .ok entries ∧
      (run codecs info lineChanges ⟨messages, none, []⟩ steps').map Segment.messages = .ok entries) ∧
    (∀ ending, ∃ entries,
      ((run codecs info lineChanges ⟨messages, none, []⟩ steps).bind fun segment =>
        segment.close codecs info ending).map Segment.messages = .ok entries ∧
      ((run codecs info lineChanges ⟨messages, none, []⟩ steps').bind fun segment =>
        segment.close codecs info ending).map Segment.messages = .ok entries) ∧
    ∀ chatId, (applySidecarRefs chatId (folds lineChanges steps)).map renderPart =
      (applySidecarRefs chatId (folds lineChanges steps')).map renderPart := by
  obtain ⟨segment, hrun, -, hinv⟩ := run_inv codecs info lineChanges messages steps
  obtain ⟨segment', hrun', -, -⟩ := run_inv codecs info lineChanges messages steps'
  have hshown : segment.shown = segment'.shown := by
    have hboth := @run_shown _ lineChanges codecs info ⟨messages, none, []⟩ _ _ rfl _ _ h
    rw [hrun, hrun'] at hboth
    exact Except.ok.inj hboth
  rw [hrun, hrun']
  refine ⟨⟨segment.messages, rfl, ?_⟩, fun ending => ?_, fun chatId => ?_⟩
  · exact congrArg Except.ok (shown_eq_iff.mp hshown).1.symm
  · obtain ⟨closed, hclosed⟩ : ∃ closed, segment.close codecs info ending = .ok closed := by
      obtain ⟨-, -, hclose⟩ | ⟨-, closed, -, hclose, -⟩ := hinv.close ending
      · exact ⟨_, hclose⟩
      · exact ⟨_, hclose⟩
    have hclosings := @close_shown _ codecs info _ _ _ hshown ending
    simp only [Except.bind, hclosed] at hclosings ⊢
    refine ⟨closed.messages, rfl, ?_⟩
    cases hright : segment'.close codecs info ending with
    | error error =>
        rw [hright] at hclosings
        cases hclosings
    | ok closed' =>
        rw [hright] at hclosings
        exact congrArg Except.ok (shown_eq_iff.mp (Except.ok.inj hclosings)).1.symm
  · rw [applySidecarRefs_render, applySidecarRefs_render, folds_render h]

section Secret

/-- A file is written and a tool is called, with a commit in between. -/
def writesOf (content newText output : String) (input : Option Json) : List (Step Json) :=
  [.event ⟨.toolCall "t1" (.writeFile "a.txt" (some content)), nofun⟩,
   .commit,
   .event ⟨.toolResult "t1" false (some output) (some ⟨"a.txt", none, newText⟩), nofun⟩,
   .event ⟨.toolCall "t2" (.unknown "lookup" input), nofun⟩]

theorem private_data_stays_written :
    ((run jsonCodecs ⟨"m1", "d1", 0⟩ (fun _ _ => []) ⟨[], none, []⟩
        (writesOf "key" "key" "done" none)).bind
          fun segment => segment.close jsonCodecs ⟨"m1", "d1", 0⟩ (some .complete)).map
            Segment.messages =
      ((run jsonCodecs ⟨"m1", "d1", 0⟩ (fun _ _ => []) ⟨[], none, []⟩
        (writesOf "pin" "pin" "failed" (some (.questions [])))).bind
          fun segment => segment.close jsonCodecs ⟨"m1", "d1", 0⟩ (some .complete)).map
            Segment.messages := by
  have hsteps : List.Forall₂ (StepsAgree fun _ _ => []) (writesOf "key" "key" "done" none)
      (writesOf "pin" "pin" "failed" (some (.questions []))) :=
    .cons (.event (.toolCall "t1" (.writeFile "a.txt" _ _))) <| .cons .commit <|
      .cons (.event (.toolResult "t1" false _ _ (.some _ _ rfl))) <|
        .cons (.event (.toolCall "t2" (.unknown "lookup" _ _))) .nil
  obtain ⟨-, hclose, -⟩ :=
    private_data_stays jsonCodecs ⟨"m1", "d1", 0⟩ (fun _ _ => []) [] hsteps
  obtain ⟨entries, hleft, hright⟩ := hclose (some .complete)
  exact hleft.trans hright.symm

end Secret

end Segment

end Zeron.Doc
