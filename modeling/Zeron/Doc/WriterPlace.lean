import Mathlib.Data.List.Perm.Basic
import Zeron.Doc.Segment
import Zeron.Lib.Machine

/-!
# The place of a writer

`SegmentWriter` remembers its entry by the index that it had in `messages`, and an import may put
entries in front of it. Each entry is a container of the replicated list and keeps its identity where
its index changes.
-/

namespace Zeron.Doc

variable {Value : Type}

section Calls

variable [DecidableEq Value] (codecs : Codecs Value)

/-- The loop of `sync` with what it has written when it fails. -/
def syncLoop (index : Nat) : List (MessagePart Value) → List (DocPart Value) →
    List (MessagePart Value) → List (DocPart Value) × List (MessagePart Value) × Option DocError
  | [], maps, written => (maps, written, none)
  | part :: folded, maps, written =>
      match written[index]? with
      | none => syncLoop (index + 1) folded (maps ++ [toDocPart codecs part]) (written ++ [part])
      | some prev =>
          if prev = part then syncLoop (index + 1) folded maps written
          else
            match patchPart codecs maps index prev part with
            | .ok maps => syncLoop (index + 1) folded maps (written.set index part)
            | .error error => (maps, written, some error)

theorem syncParts_eq_syncLoop (index : Nat) (folded : List (MessagePart Value))
    (maps : List (DocPart Value)) (written : List (MessagePart Value)) :
    syncParts codecs index folded maps written =
      match syncLoop codecs index folded maps written with
      | (maps, written, none) => .ok (maps, written)
      | (_, _, some error) => .error error := by
  induction folded generalizing index maps written with
  | nil => rfl
  | cons part folded ih =>
      unfold syncParts syncLoop
      cases written[index]? with
      | none => exact ih ..
      | some prev =>
          dsimp only
          by_cases hsame : prev = part
          · rw [if_pos hsame, if_pos hsame]
            exact ih ..
          · rw [if_neg hsame, if_neg hsame]
            cases patchPart codecs maps index prev part with
            | ok maps => exact ih ..
            | error error => rfl

/-- The calls of a writer. -/
inductive Call (Value : Type) where
  | sync (folded : List (MessagePart Value))
  | finish (folded : List (MessagePart Value)) (status : MessageStatus)

def Call.folded : Call Value → List (MessagePart Value)
  | .sync folded | .finish folded _ => folded

namespace SegmentWriter

variable (writer : SegmentWriter Value) (messages : List (Entry (DocPart Value)))

/-- What a call leaves of the messages and of the writer, also where it fails. -/
def call (call : Call Value) :
    List (Entry (DocPart Value)) × SegmentWriter Value × Option DocError :=
  match messages[writer.entryIndex]? with
  | none => (messages, writer, some (.schema "streaming entry map missing"))
  | some entry =>
      let (maps, written, error) := syncLoop codecs 0 call.folded entry.parts writer.written
      let status :=
        match call, error with
        | .finish _ status, none => some status
        | _, _ => entry.status
      (messages.set writer.entryIndex { entry with parts := maps, status }, { writer with written },
        error)

theorem sync_eq_call (folded : List (MessagePart Value)) :
    writer.sync codecs messages folded =
      match writer.call codecs messages (.sync folded) with
      | (messages, writer, none) => .ok (messages, writer)
      | (_, _, some error) => .error error := by
  unfold sync entryMap call
  cases messages[writer.entryIndex]? with
  | none => rfl
  | some entry =>
      simp only [Except.bind, Call.folded, syncParts_eq_syncLoop]
      obtain ⟨maps, written, error⟩ := syncLoop codecs 0 folded entry.parts writer.written
      cases error with
      | none | some error => rfl

theorem finish_eq_call (folded : List (MessagePart Value)) (status : MessageStatus) :
    writer.finish codecs messages folded status =
      match writer.call codecs messages (.finish folded status) with
      | (messages, writer, none) => .ok (messages, writer)
      | (_, _, some error) => .error error := by
  unfold finish
  rw [sync_eq_call]
  unfold call
  cases hentry : messages[writer.entryIndex]? with
  | none => rfl
  | some entry =>
      dsimp only [Call.folded]
      obtain ⟨maps, written, error⟩ := syncLoop codecs 0 folded entry.parts writer.written
      cases error with
      | none =>
          obtain ⟨hlt, -⟩ := List.getElem?_eq_some_iff.mp hentry
          simp only [Except.bind, entryMap, List.getElem?_set_self hlt, Except.map, List.set_set]
      | some error => rfl

variable {writer messages}

@[simp] theorem entryIndex_call (call : Call Value) :
    (writer.call codecs messages call).2.1.entryIndex = writer.entryIndex := by
  unfold SegmentWriter.call
  cases messages[writer.entryIndex]? <;> rfl

@[simp] theorem length_call (call : Call Value) :
    (writer.call codecs messages call).1.length = messages.length := by
  unfold SegmentWriter.call
  cases messages[writer.entryIndex]? with
  | none => rfl
  | some entry => exact List.length_set

theorem getElem?_call (call : Call Value) {index : Nat} (hne : index ≠ writer.entryIndex) :
    (writer.call codecs messages call).1[index]? = messages[index]? := by
  unfold SegmentWriter.call
  cases messages[writer.entryIndex]? with
  | none => rfl
  | some entry => exact List.getElem?_set_ne hne.symm

end SegmentWriter

end Calls

open Zeron.Lib (Machine)

/-- A writer with, for the statements, the container of the entry it began and how many entries imports
have put in front of that one since. -/
structure LiveWriter (Value : Type) where
  writer : SegmentWriter Value
  container : Nat
  shifted : Nat

/-- The messages with the container of each. -/
structure StreamedDoc (Value : Type) where
  messages : List (Entry (DocPart Value))
  containers : List Nat
  fresh : Nat
  writers : List (LiveWriter Value)

namespace StreamedDoc

/-- An import of several entries is one action for each. -/
inductive Action (Value : Type) where
  | beginEntry (info : EntryInfo)
  | write (i : Nat) (call : Call Value)
  | pushMessage (entry : Entry (DocPart Value))
  | importEntry (place : Nat) (entry : Entry (DocPart Value))

section Steps

variable [DecidableEq Value] (codecs : Codecs Value) (doc : StreamedDoc Value)

/-- A document as it was loaded, with nothing streaming. -/
def loaded (messages : List (Entry (DocPart Value))) : StreamedDoc Value where
  messages := messages
  containers := List.range messages.length
  fresh := messages.length
  writers := []

/-- `finish` takes the writer. -/
def write (live : LiveWriter Value) (i : Nat) (call : Call Value) : StreamedDoc Value :=
  let (messages, writer, _) := live.writer.call codecs doc.messages call
  { doc with
    messages
    writers :=
      match call with
      | .sync _ => doc.writers.set i { live with writer }
      | .finish _ _ => doc.writers.eraseIdx i }

def importEntry (place : Nat) (entry : Entry (DocPart Value)) : StreamedDoc Value where
  messages := doc.messages.insertIdx place entry
  containers := doc.containers.insertIdx place doc.fresh
  fresh := doc.fresh + 1
  writers := doc.writers.map fun live =>
    if place ≤ doc.containers.idxOf live.container then { live with shifted := live.shifted + 1 }
    else live

def step : Action Value → Option (StreamedDoc Value)
  | .beginEntry info =>
      let (messages, writer) := SegmentWriter.beginEntry info doc.messages
      some {
        messages
        containers := doc.containers ++ [doc.fresh]
        fresh := doc.fresh + 1
        writers := doc.writers ++ [{ writer, container := doc.fresh, shifted := 0 }] }
  | .write i call => (doc.writers[i]?).map fun live => doc.write codecs live i call
  | .pushMessage entry =>
      some { doc with
        messages := doc.messages ++ [entry]
        containers := doc.containers ++ [doc.fresh]
        fresh := doc.fresh + 1 }
  | .importEntry place entry =>
      if place ≤ doc.messages.length then some (doc.importEntry place entry) else none

def machine : Machine (StreamedDoc Value) (Action Value) where
  init doc := ∃ messages, doc = loaded messages
  step := step codecs

end Steps

/-- No import puts an entry at the place of a writer's entry or in front of it. -/
def Behind (doc : StreamedDoc Value) : Action Value → Prop
  | .importEntry place _ => ∀ live ∈ doc.writers, doc.containers.idxOf live.container < place
  | _ => True

/-- The call of a writer goes to the entry that the writer began, and leaves every other as it was. -/
structure OwnEntry (doc doc' : StreamedDoc Value) (live : LiveWriter Value) : Prop where
  target : doc.containers[live.writer.entryIndex]? = some live.container
  others : ∀ index container : Nat, doc.containers[index]? = some container →
    container ≠ live.container →
      doc'.containers[index]? = some container ∧ doc'.messages[index]? = doc.messages[index]?

/-! ## Places -/

/-- The entry of a writer is where the writer looks for it, but for the entries in front. -/
structure Placed (doc : StreamedDoc Value) : Prop where
  length : doc.containers.length = doc.messages.length
  nodup : doc.containers.Nodup
  below : ∀ container ∈ doc.containers, container < doc.fresh
  place : ∀ live ∈ doc.writers,
    doc.containers[live.writer.entryIndex + live.shifted]? = some live.container

variable {doc doc' : StreamedDoc Value} {live : LiveWriter Value}

theorem placed_loaded (messages : List (Entry (DocPart Value))) : (loaded messages).Placed where
  length := List.length_range
  nodup := List.nodup_range
  below _ hmem := List.mem_range.mp hmem
  place := nofun

theorem Placed.push (h : doc.Placed) (entry : Entry (DocPart Value)) :
    (doc.containers ++ [doc.fresh]).length = (doc.messages ++ [entry]).length ∧
      (doc.containers ++ [doc.fresh]).Nodup ∧
        ∀ container ∈ doc.containers ++ [doc.fresh], container < doc.fresh + 1 := by
  have hnot : doc.fresh ∉ doc.containers := fun hmem => Nat.lt_irrefl _ (h.below _ hmem)
  refine ⟨by simp [h.length], ?_, ?_⟩
  · rw [List.nodup_append]
    refine ⟨h.nodup, List.pairwise_singleton _ _, ?_⟩
    rintro container hcontainer _ hfresh rfl
    exact hnot (List.mem_singleton.mp hfresh ▸ hcontainer)
  · intro container hcontainer
    obtain hmem | hfresh := List.mem_append.mp hcontainer
    · exact Nat.lt_succ_of_lt (h.below container hmem)
    · rw [List.mem_singleton.mp hfresh]
      exact Nat.lt_succ_self _

theorem getElem?_push {containers : List Nat} {index container fresh : Nat}
    (h : containers[index]? = some container) : (containers ++ [fresh])[index]? = some container := by
  obtain ⟨hlt, -⟩ := List.getElem?_eq_some_iff.mp h
  rw [List.getElem?_append_left hlt, h]

theorem Placed.idxOf (h : doc.Placed) {index container : Nat}
    (hindex : doc.containers[index]? = some container) : doc.containers.idxOf container = index := by
  obtain ⟨hlt, rfl⟩ := List.getElem?_eq_some_iff.mp hindex
  exact h.nodup.idxOf_getElem index hlt

theorem Placed.importEntry (h : doc.Placed) {place : Nat} (hplace : place ≤ doc.messages.length)
    (entry : Entry (DocPart Value)) : (doc.importEntry place entry).Placed where
  length := by
    simp [StreamedDoc.importEntry, List.length_insertIdx, h.length]
  nodup := by
    have hperm := List.perm_insertIdx doc.fresh doc.containers (h.length ▸ hplace)
    refine hperm.nodup_iff.mpr (List.nodup_cons.mpr ⟨fun hmem => ?_, h.nodup⟩)
    exact Nat.lt_irrefl _ (h.below _ hmem)
  below container hmem := by
    obtain rfl | hmem := (List.mem_insertIdx (h.length ▸ hplace)).mp hmem
    · exact Nat.lt_succ_self _
    · exact Nat.lt_succ_of_lt (h.below container hmem)
  place live hlive := by
    obtain ⟨old, hold, rfl⟩ := List.mem_map.mp hlive
    have hat := h.place old hold
    rw [h.idxOf hat]
    split_ifs with hle
    · change (doc.containers.insertIdx place doc.fresh)[_ + (old.shifted + 1)]? = _
      rw [← Nat.add_assoc, List.getElem?_insertIdx_of_gt (Nat.lt_succ_of_le hle)]
      exact hat
    · change (doc.containers.insertIdx place doc.fresh)[_]? = _
      rw [List.getElem?_insertIdx_of_lt (Nat.lt_of_not_le hle)]
      exact hat

variable [DecidableEq Value] {codecs : Codecs Value}

theorem Placed.write (h : doc.Placed) {i : Nat} (hlive : doc.writers[i]? = some live)
    (call : Call Value) : (doc.write codecs live i call).Placed where
  length := h.length.trans (live.writer.length_call codecs call).symm
  nodup := h.nodup
  below := h.below
  place other hother := by
    cases call with
    | sync folded =>
        obtain hmem | rfl := List.mem_or_eq_of_mem_set hother
        · exact h.place other hmem
        · have hplace := h.place live (List.mem_of_getElem? hlive)
          rw [← live.writer.entryIndex_call codecs (.sync folded)] at hplace
          exact hplace
    | finish folded status => exact h.place other (List.mem_of_mem_eraseIdx hother)

theorem placed_step (h : doc.Placed) {action : Action Value}
    (hstep : doc.step codecs action = some doc') : doc'.Placed := by
  cases action with
  | beginEntry info =>
      cases hstep
      obtain ⟨hlength, hnodup, hbelow⟩ := h.push (begun info [])
      refine ⟨hlength, hnodup, hbelow, fun live hlive => ?_⟩
      obtain hmem | hnew := List.mem_append.mp hlive
      · exact getElem?_push (h.place live hmem)
      · rw [List.mem_singleton.mp hnew]
        change (doc.containers ++ [doc.fresh])[doc.messages.length]? = _
        rw [← h.length, List.getElem?_concat_length]
  | write i call =>
      obtain ⟨live, hlive, rfl⟩ := Option.map_eq_some_iff.mp hstep
      exact h.write hlive call
  | pushMessage entry =>
      cases hstep
      obtain ⟨hlength, hnodup, hbelow⟩ := h.push entry
      exact ⟨hlength, hnodup, hbelow, fun live hlive => getElem?_push (h.place live hlive)⟩
  | importEntry place entry =>
      obtain ⟨hplace, hdoc⟩ := Option.ite_none_right_eq_some.mp hstep
      cases hdoc
      exact h.importEntry hplace entry

theorem placed_of_reachable (h : (machine codecs).Reachable doc) : doc.Placed := by
  apply h.invariant
  · rintro _ ⟨messages, rfl⟩
    exact placed_loaded messages
  · exact fun doc _ doc' hplaced _ hstep => placed_step hplaced hstep

theorem unshifted_of_reachable (h : (machine codecs).ReachableWhen Behind doc) :
    ∀ live ∈ doc.writers, live.shifted = 0 := by
  apply h.invariant
  · rintro _ ⟨messages, rfl⟩
    exact nofun
  · rintro doc action doc' hunshifted hbehind hstep live hlive
    cases action with
    | beginEntry info =>
        cases hstep
        obtain hmem | hnew := List.mem_append.mp hlive
        · exact hunshifted live hmem
        · rw [List.mem_singleton.mp hnew]
    | write i call =>
        obtain ⟨old, hold, rfl⟩ := Option.map_eq_some_iff.mp hstep
        cases call with
        | sync folded =>
            obtain hmem | rfl := List.mem_or_eq_of_mem_set hlive
            · exact hunshifted live hmem
            · exact hunshifted old (List.mem_of_getElem? hold)
        | finish folded status => exact hunshifted live (List.mem_of_mem_eraseIdx hlive)
    | pushMessage entry =>
        cases hstep
        exact hunshifted live hlive
    | importEntry place entry =>
        obtain ⟨-, hdoc⟩ := Option.ite_none_right_eq_some.mp hstep
        cases hdoc
        obtain ⟨old, hold, rfl⟩ := List.mem_map.mp hlive
        rw [if_neg (Nat.not_le.mpr (hbehind old hold))]
        exact hunshifted old hold

theorem Placed.own_iff (h : doc.Placed) {i : Nat} (hlive : doc.writers[i]? = some live)
    (call : Call Value) : doc.OwnEntry (doc.write codecs live i call) live ↔ live.shifted = 0 := by
  have hplace := h.place live (List.mem_of_getElem? hlive)
  constructor
  · intro hown
    have hsame := (h.idxOf hown.target).symm.trans (h.idxOf hplace)
    omega
  · intro hzero
    rw [hzero, Nat.add_zero] at hplace
    refine ⟨hplace, fun index container hindex hne => ⟨hindex, ?_⟩⟩
    apply live.writer.getElem?_call codecs call
    rintro rfl
    exact hne (Option.some.inj (hindex.symm.trans hplace))

theorem Placed.others_iff (h : doc.Placed) {i : Nat} (hlive : doc.writers[i]? = some live)
    (call : Call Value) (hwrites : (doc.write codecs live i call).messages ≠ doc.messages) :
    (∀ index container : Nat, doc.containers[index]? = some container →
      container ≠ live.container →
        (doc.write codecs live i call).messages[index]? = doc.messages[index]?) ↔
      live.shifted = 0 := by
  constructor
  · intro hothers
    by_contra hshifted
    refine hwrites (List.ext_getElem? fun index => ?_)
    by_cases hindex : index = live.writer.entryIndex
    · cases hcontainer : doc.containers[index]? with
      | none =>
          have hge : doc.messages.length ≤ index := h.length ▸ List.getElem?_eq_none_iff.mp hcontainer
          rw [List.getElem?_eq_none_iff.mpr hge, List.getElem?_eq_none_iff]
          exact (live.writer.length_call codecs call).symm ▸ hge
      | some container =>
          refine hothers index container hcontainer ?_
          rintro rfl
          have hplace := h.place live (List.mem_of_getElem? hlive)
          have hsame := (h.idxOf hcontainer).symm.trans (h.idxOf hplace)
          omega
    · exact live.writer.getElem?_call codecs call hindex
  · intro hzero index container hindex hne
    exact (((h.own_iff hlive call).mpr hzero).others index container hindex hne).2

/-- **Own entry.** A call of a writer goes to the entry that the writer began, and a call that writes
leaves the others as they were, exactly when no import has put an entry in front of that one since;
so it always does where every import puts its entries behind those that are being written. -/
theorem call_owns_entry_iff (codecs : Codecs Value) :
    (∀ doc, (machine codecs).Reachable doc → ∀ i live call, doc.writers[i]? = some live →
      (doc.OwnEntry (doc.write codecs live i call) live ↔ live.shifted = 0) ∧
      ((doc.write codecs live i call).messages ≠ doc.messages →
        ((∀ index container : Nat, doc.containers[index]? = some container →
          container ≠ live.container →
            (doc.write codecs live i call).messages[index]? = doc.messages[index]?) ↔
          live.shifted = 0))) ∧
    ∀ doc, (machine codecs).ReachableWhen Behind doc → ∀ i live call,
      doc.writers[i]? = some live → doc.OwnEntry (doc.write codecs live i call) live := by
  refine ⟨fun doc h i live call hlive => ?_, fun doc h i live call hlive => ?_⟩
  · have hplaced := placed_of_reachable h
    exact ⟨hplaced.own_iff hlive call, hplaced.others_iff hlive call⟩
  · have hplaced := placed_of_reachable (h.mono fun _ _ _ => trivial)
    exact (hplaced.own_iff hlive call).mpr
      (unshifted_of_reachable h live (List.mem_of_getElem? hlive))

def remoteEntry : Entry (DocPart Segment.Json) where
  id := "m-b"
  role := .user
  parts := [{ id := "t0", kind := "text", text := some "from b" }]
  createdAt := 0
  deviceId := "dev-b"
  status := some .complete
  continuationOf := none

/-- A writer begins the first entry, and the other device's message comes at the given place. -/
def streaming (place : Nat) : List (Action Segment.Json) :=
  [.beginEntry ⟨"a1", "dev-a", 5⟩, .importEntry place remoteEntry]

theorem call_owns_entry_behind :
    ∃ doc live, (machine Segment.jsonCodecs).ReachableWhen Behind doc ∧ doc.messages.length = 2 ∧
      doc.OwnEntry (doc.write Segment.jsonCodecs live 0 (.sync [.text "t0" "hi"])) live := by
  have hbegun : (machine Segment.jsonCodecs).step (loaded []) (.beginEntry ⟨"a1", "dev-a", 5⟩) =
      some ⟨[begun ⟨"a1", "dev-a", 5⟩ []], [0], 1, [⟨⟨0, []⟩, 0, 0⟩]⟩ := rfl
  have hbehind : Behind (⟨[begun ⟨"a1", "dev-a", 5⟩ []], [0], 1, [⟨⟨0, []⟩, 0, 0⟩]⟩ :
      StreamedDoc Segment.Json) (.importEntry 1 remoteEntry) := by
    intro live hlive
    rw [List.mem_singleton.mp hlive]
    decide
  have hreach := Machine.Steps.head (a := .beginEntry ⟨"a1", "dev-a", 5⟩) trivial hbegun
    (.head hbehind rfl (.refl _))
  exact ⟨_, _, ⟨loaded [], ⟨[], rfl⟩, hreach⟩, rfl,
    (call_owns_entry_iff Segment.jsonCodecs).2 _ ⟨loaded [], ⟨[], rfl⟩, hreach⟩ 0 _ _ rfl⟩

/-- With the message in front, what is streamed goes into it. -/
theorem streams_into_other_entry :
    ¬ ∀ doc, (machine Segment.jsonCodecs).Reachable doc → ∀ i live call,
      doc.writers[i]? = some live → ∀ index container : Nat,
        doc.containers[index]? = some container → container ≠ live.container →
          (doc.write Segment.jsonCodecs live i call).messages[index]? = doc.messages[index]? := by
  intro h
  obtain ⟨doc, hdoc⟩ : ∃ doc, (machine Segment.jsonCodecs).run (loaded []) (streaming 0) = some doc :=
    ⟨_, rfl⟩
  have hreach := @Machine.reachable_of_run _ _ (machine Segment.jsonCodecs) (loaded []) doc _
    ⟨[], rfl⟩ hdoc
  cases hdoc
  have hparts := h _ hreach 0 _ (.sync [.text "t0" "hi"]) rfl 0 1 rfl (by decide)
  have hlength := congrArg (Option.map fun entry => entry.parts.length) hparts
  exact absurd hlength (by decide)

end StreamedDoc

end Zeron.Doc
