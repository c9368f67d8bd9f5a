import Mathlib.Data.List.Forall2

/-!
# Message parts

The parts of a message and the fold of agent events into them, of `crates/doc/src/parts.rs`. Inside a
segment of a run the fold only adds parts and lets those that it has evolve.
-/

namespace Zeron.Doc

structure TodoItem where
  text : String
  done : Bool
deriving DecidableEq

/-- `Value` is a JSON value. -/
inductive ToolCall (Value : Type) where
  | exec (command : String)
  | readFile (path : String)
  | writeFile (path : String) (content : Option String)
  | editFile (path : String) (oldString newString : Option String)
  | applyPatch (path : Option String)
  | search (pattern : String) (path : Option String)
  | glob (pattern : String)
  | webFetch (url : String) (prompt : Option String)
  | webSearch (query : String)
  | todo (items : List TodoItem)
  | mcp (server tool : String) (input : Option Value)
  | unknown (name : String) (input : Option Value)
deriving DecidableEq

structure ToolDiff where
  path : String
  oldText : Option String
  newText : String
deriving DecidableEq

structure ToolDiffStat where
  path : String
  additions : Nat
  deletions : Nat
deriving DecidableEq

structure UserInputQuestion where
  id : String
  header : String
  question : String
  options : List String
  multiSelect : Bool
deriving DecidableEq

inductive NoticeLevel where
  | info
  | warning
deriving DecidableEq

structure ToolPart (Value : Type) where
  id : String
  call : ToolCall Value
  isError : Bool
  resolved : Bool
  output : Option String
  diff : Option ToolDiff
  outputRef : Option String
  outputBytes : Option Nat
  diffRef : Option String
  diffStats : Option (List ToolDiffStat)
deriving DecidableEq

inductive MessagePart (Value : Type) where
  | text (id text : String)
  | commentary (id text : String)
  | notice (id : String) (level : NoticeLevel) (message : String)
  | tool (part : ToolPart Value)
  | input (id requestId : String) (questions : List UserInputQuestion) (resolved : Bool)
  | error (id message : String)
deriving DecidableEq

/-- With the fields that the fold reads. -/
inductive AgentEvent (Value : Type) where
  | sessionStarted
  | textDelta (text : String)
  | commentaryDelta (text : String)
  | notice (level : NoticeLevel) (message : String)
  | reasoningDelta (text : String)
  | assistantMessageCompleted
  | toolCall (id : String) (call : ToolCall Value)
  | toolResult (id : String) (isError : Bool) (output : Option String) (diff : Option ToolDiff)
  | usage
  | availableCommands
  | error (message : String)
  | inputRequested (requestId : String) (questions : List UserInputQuestion)
  | inputResolved (requestId : String)
  | steered
  | done (error : Option String)
deriving DecidableEq

/-- How `similar` tags a line of two texts. -/
inductive ChangeTag where
  | equal
  | delete
  | insert
deriving DecidableEq

section Diffs

/-- The number of `str::lines`. -/
def lineCount (text : String) : Nat :=
  let breaks := text.toList.count '\n'
  if text.toList.getLast?.all (· = '\n') then breaks else breaks + 1

/-- `lineChanges` is the list of changes that `similar` finds from one text to another. -/
def diffStat (lineChanges : String → String → List ChangeTag) (diff : ToolDiff) : ToolDiffStat :=
  match diff.oldText with
  | none => { path := diff.path, additions := lineCount diff.newText, deletions := 0 }
  | some old =>
      let changes := lineChanges old diff.newText
      { path := diff.path, additions := changes.count .insert, deletions := changes.count .delete }

end Diffs

variable {Value : Type}

namespace MessagePart

def id : MessagePart Value → String
  | .text id _ | .commentary id _ | .notice id _ _ | .input id _ _ _ | .error id _ => id
  | .tool part => part.id

def diffStats : MessagePart Value → Option (List ToolDiffStat)
  | .tool part => part.diffStats
  | _ => none

/-- `ToolResult` on a part. -/
def settle (id : String) (isError : Bool) (stats : Option (List ToolDiffStat)) :
    MessagePart Value → MessagePart Value
  | .tool part =>
      if part.id = id then
        .tool { part with
          isError, resolved := true, output := none, outputBytes := none, diff := none
          diffStats := stats }
      else .tool part
  | part => part

/-- `InputResolved` on a part. -/
def resolveInput (requestId : String) : MessagePart Value → MessagePart Value
  | .input id rid questions resolved =>
      .input id rid questions (if rid = requestId then true else resolved)
  | part => part

/-- The end of a run leaves no question open. -/
def closeInput : MessagePart Value → MessagePart Value
  | .input id requestId questions _ => .input id requestId questions true
  | part => part

end MessagePart

section Fold

/-- The first tool part with the id gets the call; none if there is no such part. -/
def refreshCall (id : String) (call : ToolCall Value) :
    List (MessagePart Value) → Option (List (MessagePart Value))
  | [] => none
  | .tool part :: rest =>
      if part.id = id then some (.tool { part with call } :: rest)
      else (refreshCall id call rest).map (.tool part :: ·)
  | part :: rest => (refreshCall id call rest).map (part :: ·)

variable (lineChanges : String → String → List ChangeTag)

/-- `fold_event_into_parts` -/
def foldEvent (out : List (MessagePart Value)) : AgentEvent Value → List (MessagePart Value)
  | .sessionStarted | .steered => []
  | .textDelta text =>
      match out.getLast? with
      | some (.text id tail) => out.dropLast ++ [.text id (tail ++ text)]
      | _ => out ++ [.text ("t" ++ toString out.length) text]
  | .commentaryDelta text =>
      match out.getLast? with
      | some (.commentary id tail) => out.dropLast ++ [.commentary id (tail ++ text)]
      | _ => out ++ [.commentary ("c" ++ toString out.length) text]
  | .notice level message => out ++ [.notice ("n" ++ toString out.length) level message]
  | .toolCall id call =>
      (refreshCall id call out).getD (out ++ [.tool {
        id, call, isError := false, resolved := false, output := none, diff := none
        outputRef := none, outputBytes := none, diffRef := none, diffStats := none }])
  | .toolResult id isError _ diff =>
      out.map (.settle id isError (diff.map fun diff => [diffStat lineChanges diff]))
  | .inputRequested requestId questions =>
      let id := "in-" ++ requestId
      if out.any (·.id = id) then out else out ++ [.input id requestId questions false]
  | .inputResolved requestId => out.map (.resolveInput requestId)
  | .error message => out ++ [.error ("e" ++ toString out.length) message]
  | .done (some message) => out ++ [.error ("e" ++ toString out.length) message]
  | .done none | .reasoningDelta _ | .assistantMessageCompleted | .usage | .availableCommands => out

/-- Inside a segment: a second start does not wipe it, and its end closes the questions. -/
def foldSegment (folded : List (MessagePart Value)) : AgentEvent Value → List (MessagePart Value)
  | .sessionStarted => if folded.isEmpty then foldEvent lineChanges folded .sessionStarted else folded
  | .done error => (foldEvent lineChanges folded (.done error)).map .closeInput
  | event => foldEvent lineChanges folded event

end Fold

section Evolution

/-- The fields of older writers, which a fold leaves empty. -/
def ToolPart.Plain (part : ToolPart Value) : Prop :=
  part.output = none ∧ part.diff = none ∧ part.outputRef = none ∧ part.outputBytes = none ∧
    part.diffRef = none

/-- What a part may become inside a segment. -/
inductive Evolves : MessagePart Value → MessagePart Value → Prop where
  | text (id old new : String) : Evolves (.text id old) (.text id new)
  | commentary (id old new : String) : Evolves (.commentary id old) (.commentary id new)
  | notice (id : String) (level : NoticeLevel) (message : String) :
      Evolves (.notice id level message) (.notice id level message)
  | tool {part part' : ToolPart Value} (hid : part'.id = part.id) (hplain : part.Plain)
      (hplain' : part'.Plain) (hresolved : part.resolved = true → part'.resolved = true) :
      Evolves (.tool part) (.tool part')
  | input (id requestId : String) (questions : List UserInputQuestion) (resolved resolved' : Bool) :
      Evolves (.input id requestId questions resolved) (.input id requestId questions resolved')
  | error (id message : String) : Evolves (.error id message) (.error id message)

theorem Evolves.refl_right {part part' : MessagePart Value} (h : Evolves part part') :
    Evolves part' part' := by
  cases h with
  | text id old new => exact .text id new new
  | commentary id old new => exact .commentary id new new
  | notice id level message => exact .notice id level message
  | tool hid hplain hplain' hresolved => exact .tool rfl hplain' hplain' id
  | input id requestId questions resolved resolved' => exact .input id requestId questions _ _
  | error id message => exact .error id message

theorem Evolves.trans {part part' part'' : MessagePart Value} (h : Evolves part part')
    (h' : Evolves part' part'') : Evolves part part'' := by
  cases h with
  | text id old new =>
      cases h' with
      | text _ _ newer => exact .text id old newer
  | commentary id old new =>
      cases h' with
      | commentary _ _ newer => exact .commentary id old newer
  | notice id level message => exact h'
  | tool hid hplain hplain' hresolved =>
      cases h' with
      | tool hid' _ hplain'' hresolved' =>
          exact .tool (hid'.trans hid) hplain hplain'' fun h => hresolved' (hresolved h)
  | input id requestId questions resolved resolved' =>
      cases h' with
      | input _ _ _ _ resolved'' => exact .input id requestId questions resolved resolved''
  | error id message => exact h'

def Steady (parts : List (MessagePart Value)) : Prop := List.Forall₂ Evolves parts parts

def Grows (parts parts' : List (MessagePart Value)) : Prop :=
  ∃ kept added, parts' = kept ++ added ∧ List.Forall₂ Evolves parts kept ∧ Steady added

variable {parts parts' parts'' : List (MessagePart Value)}

theorem steady_iff : Steady parts ↔ ∀ part ∈ parts, Evolves part part :=
  List.forall₂_same

theorem steady_right {kept : List (MessagePart Value)} (h : List.Forall₂ Evolves parts kept) :
    Steady kept := by
  induction h with
  | nil => exact .nil
  | cons hpart _ ih => exact .cons hpart.refl_right ih

theorem Grows.steady (h : Grows parts parts') : Steady parts' := by
  obtain ⟨kept, added, rfl, hkept, hadded⟩ := h
  exact List.rel_append (steady_right hkept) hadded

theorem Steady.grows (h : Steady parts) : Grows parts parts :=
  ⟨parts, [], (List.append_nil parts).symm, h, .nil⟩

theorem Steady.push (h : Steady parts) {part : MessagePart Value} (hpart : Evolves part part) :
    Grows parts (parts ++ [part]) :=
  ⟨parts, [part], rfl, h, .cons hpart .nil⟩

theorem grows_of_forall₂ (h : List.Forall₂ Evolves parts parts') : Grows parts parts' :=
  ⟨parts', [], (List.append_nil parts').symm, h, .nil⟩

theorem forall₂_append_left {front back : List (MessagePart Value)}
    (h : List.Forall₂ Evolves (front ++ back) parts) : ∃ front' back', parts = front' ++ back' ∧
      List.Forall₂ Evolves front front' ∧ List.Forall₂ Evolves back back' := by
  induction front generalizing parts with
  | nil => exact ⟨[], parts, rfl, .nil, h⟩
  | cons part front ih =>
      cases h with
      | cons hpart hrest =>
          obtain ⟨front', back', rfl, hfront, hback⟩ := ih hrest
          exact ⟨_ :: front', back', rfl, .cons hpart hfront, hback⟩

theorem forall₂_trans (h : List.Forall₂ Evolves parts parts') (h' : List.Forall₂ Evolves parts' parts'') :
    List.Forall₂ Evolves parts parts'' := by
  induction h generalizing parts'' with
  | nil => exact h'
  | cons hpart _ ih =>
      cases h' with
      | cons hpart' hrest => exact .cons (hpart.trans hpart') (ih hrest)

theorem Grows.trans (h : Grows parts parts') (h' : Grows parts' parts'') : Grows parts parts'' := by
  obtain ⟨kept, added, rfl, hkept, hadded⟩ := h
  obtain ⟨kept', added', rfl, hkept', hadded'⟩ := h'
  obtain ⟨front, back, rfl, hfront, hback⟩ := forall₂_append_left hkept'
  exact ⟨front, back ++ added', List.append_assoc _ _ _, forall₂_trans hkept hfront,
    List.rel_append (steady_right hback) hadded'⟩

end Evolution

section Segments

variable (lineChanges : String → String → List ChangeTag) {parts parts' : List (MessagePart Value)}

theorem evolves_settle {part : MessagePart Value} (h : Evolves part part) (id : String) (isError : Bool)
    (stats : Option (List ToolDiffStat)) : Evolves part (part.settle id isError stats) := by
  cases h with
  | tool _ hplain _ _ =>
      unfold MessagePart.settle
      dsimp only
      split
      · exact .tool rfl hplain ⟨rfl, rfl, hplain.2.2.1, rfl, hplain.2.2.2.2⟩ fun _ => rfl
      · exact .tool rfl hplain hplain fun hresolved => hresolved
  | text id old _ => exact .text id old old
  | commentary id old _ => exact .commentary id old old
  | notice id level message => exact .notice id level message
  | input id requestId questions resolved _ => exact .input id requestId questions resolved resolved
  | error id message => exact .error id message

theorem evolves_resolveInput {part : MessagePart Value} (h : Evolves part part) (requestId : String) :
    Evolves part (part.resolveInput requestId) := by
  cases h with
  | input id rid questions resolved _ => exact .input id rid questions resolved _
  | text id old _ => exact .text id old old
  | commentary id old _ => exact .commentary id old old
  | notice id level message => exact .notice id level message
  | tool hid hplain hplain' hresolved => exact .tool hid hplain hplain' hresolved
  | error id message => exact .error id message

theorem evolves_closeInput {part : MessagePart Value} (h : Evolves part part) :
    Evolves part part.closeInput := by
  cases h with
  | input id rid questions resolved _ => exact .input id rid questions resolved true
  | text id old _ => exact .text id old old
  | commentary id old _ => exact .commentary id old old
  | notice id level message => exact .notice id level message
  | tool hid hplain hplain' hresolved => exact .tool hid hplain hplain' hresolved
  | error id message => exact .error id message

theorem Steady.map (h : Steady parts) {change : MessagePart Value → MessagePart Value}
    (hchange : ∀ part, Evolves part part → Evolves part (change part)) :
    Grows parts (parts.map change) := by
  apply grows_of_forall₂
  rw [List.forall₂_map_right_iff, List.forall₂_same]
  exact fun part hpart => hchange part (steady_iff.mp h part hpart)

theorem Steady.refreshCall (h : Steady parts) {id : String} {call : ToolCall Value}
    (hrefresh : refreshCall id call parts = some parts') : List.Forall₂ Evolves parts parts' := by
  induction parts generalizing parts' with
  | nil => cases hrefresh
  | cons part rest ih =>
      cases h with
      | cons hpart hrest =>
          have hlater : ∀ {parts'}, (Doc.refreshCall id call rest).map (part :: ·) = some parts' →
              List.Forall₂ Evolves (part :: rest) parts' := by
            intro parts' hmap
            obtain ⟨rest', hrest', rfl⟩ := Option.map_eq_some_iff.mp hmap
            exact .cons hpart (ih hrest hrest')
          cases hpart with
          | tool _ hplain _ _ =>
              rw [Doc.refreshCall] at hrefresh
              split at hrefresh
              · cases hrefresh
                exact .cons (.tool rfl hplain hplain fun hresolved => hresolved) hrest
              · exact hlater hrefresh
          | text _ _ _ | commentary _ _ _ | notice _ _ _ | input _ _ _ _ _ => exact hlater hrefresh
          | error _ _ => exact hlater hrefresh

theorem Steady.extend (h : Steady parts) {last last' : MessagePart Value}
    (hlast : parts.getLast? = some last) (hevolves : Evolves last last') :
    Grows parts (parts.dropLast ++ [last']) := by
  obtain ⟨front, rfl⟩ := List.getLast?_eq_some_iff.mp hlast
  rw [List.dropLast_concat]
  apply grows_of_forall₂
  have hfront : Steady front := steady_iff.mpr fun part hpart =>
    steady_iff.mp h part (List.mem_append_left _ hpart)
  exact List.rel_append hfront (.cons hevolves .nil)

/-- An event that does not reset grows the parts. -/
theorem Steady.foldEvent (h : Steady parts) {event : AgentEvent Value}
    (hstarted : event = .sessionStarted → parts = []) (hsteered : event ≠ .steered) :
    Grows parts (foldEvent lineChanges parts event) := by
  cases event with
  | sessionStarted =>
      rw [hstarted rfl]
      exact Steady.grows .nil
  | steered => exact absurd rfl hsteered
  | textDelta text =>
      rw [Doc.foldEvent]
      split
      · rename_i hlast
        exact h.extend hlast (.text _ _ _)
      · exact h.push (.text _ _ _)
  | commentaryDelta text =>
      rw [Doc.foldEvent]
      split
      · rename_i hlast
        exact h.extend hlast (.commentary _ _ _)
      · exact h.push (.commentary _ _ _)
  | notice level message => exact h.push (.notice _ _ _)
  | toolCall id call =>
      rw [Doc.foldEvent]
      cases hrefresh : Doc.refreshCall id call parts with
      | none => exact h.push (.tool rfl ⟨rfl, rfl, rfl, rfl, rfl⟩ ⟨rfl, rfl, rfl, rfl, rfl⟩ fun h => h)
      | some parts' => exact grows_of_forall₂ (h.refreshCall hrefresh)
  | toolResult id isError output diff => exact h.map fun _ hpart => evolves_settle hpart _ _ _
  | inputRequested requestId questions =>
      rw [Doc.foldEvent]
      split
      · exact h.grows
      · exact h.push (.input _ _ _ _ _)
  | inputResolved requestId => exact h.map fun _ hpart => evolves_resolveInput hpart _
  | error message => exact h.push (.error _ _)
  | done error =>
      cases error with
      | none => exact h.grows
      | some message => exact h.push (.error _ _)
  | reasoningDelta _ | assistantMessageCompleted | usage | availableCommands => exact h.grows

theorem Steady.foldSegment (h : Steady parts) {event : AgentEvent Value} (hsteered : event ≠ .steered) :
    Grows parts (foldSegment lineChanges parts event) := by
  unfold Doc.foldSegment
  split
  · split
    · rename_i hempty
      exact h.foldEvent lineChanges (fun _ => List.isEmpty_iff.mp hempty) hsteered
    · exact h.grows
  · have hgrows := h.foldEvent lineChanges (fun heq => by cases heq) hsteered
    exact hgrows.trans (hgrows.steady.map fun _ hpart => evolves_closeInput hpart)
  · rename_i hstarted _
    exact h.foldEvent lineChanges (fun heq => absurd heq hstarted) hsteered

end Segments

end Zeron.Doc
