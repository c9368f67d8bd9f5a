import Mathlib.Data.List.Basic
import Mathlib.Data.List.Nodup
import Mathlib.Data.List.Perm.Basic

/-!
# The commit graph

`layout_graph` of `crates/ui/src/history.rs`: the lanes beside a page of commits. A lane leads down to
the commit it targets. `none` is the panic of `lane_index`.
-/

namespace Zeron.Ui.History

inductive SegmentShape where
  | through
  | incoming
  | outgoing
deriving DecidableEq

structure GraphSegment where
  fromLane : Nat
  toLane : Nat
  colorId : Nat
  shape : SegmentShape

structure GraphRow where
  sha : String
  nodeLane : Nat
  nodeColorId : Nat
  segments : List GraphSegment
  isHead : Bool

structure GraphLayout where
  rows : List GraphRow
  maxLaneCount : Nat

structure GitHistoryCommit where
  sha : String
  parentShas : List String

structure ActiveLane where
  id : Nat
  colorId : Nat
  targetSha : String

def laneIndex (lanes : List ActiveLane) (id : Nat) : Option Nat := lanes.findIdx? (·.id = id)

/-- The lanes below a row while its parents are added. -/
structure Below where
  nextLanes : List ActiveLane
  outgoing : List (Nat × Nat)
  nextLaneId : Nat
  nextColorId : Nat
  parentOffset : Nat

/-- The first parent goes on in the lane of the commit, or in a new one. -/
def addFirstParent (nodeLane nodeColorId : Nat) (primaryLane : Option ActiveLane)
    (parentShas : List String) (below : Below) : Option Nat × Below :=
  match parentShas.head? with
  | none => (none, below)
  | some firstParent =>
      let id := (primaryLane.map (·.id)).getD below.nextLaneId
      let lane := { id, colorId := nodeColorId, targetSha := firstParent }
      (some id,
        { below with
          nextLanes := below.nextLanes.insertIdx (min nodeLane below.nextLanes.length) lane
          outgoing := below.outgoing ++ [(id, nodeColorId)]
          nextLaneId := if primaryLane.isSome then below.nextLaneId else below.nextLaneId + 1 })

def primaryIndex (nodeLane : Nat) (primaryOutgoingId : Option Nat) (nextLanes : List ActiveLane) :
    Option Nat :=
  match primaryOutgoingId with
  | some id => laneIndex nextLanes id
  | none => some (min nodeLane nextLanes.length)

/-- Another parent joins a lane that leads to it, or gets a new one. -/
def addParent (nodeLane : Nat) (primaryOutgoingId : Option Nat) (below : Below) (parentSha : String) :
    Option Below :=
  match below.nextLanes.find? (·.targetSha = parentSha) with
  | some existing =>
      some { below with outgoing := below.outgoing ++ [(existing.id, existing.colorId)] }
  | none =>
      let lane := { id := below.nextLaneId, colorId := below.nextColorId, targetSha := parentSha }
      (primaryIndex nodeLane primaryOutgoingId below.nextLanes).map fun primaryIndex =>
        { nextLanes := below.nextLanes.insertIdx
            (min (primaryIndex + below.parentOffset) below.nextLanes.length) lane
          outgoing := below.outgoing ++ [(lane.id, lane.colorId)]
          nextLaneId := below.nextLaneId + 1
          nextColorId := below.nextColorId + 1
          parentOffset := below.parentOffset + 1 }

structure LayoutState where
  activeLanes : List ActiveLane
  nextLaneId : Nat
  nextColorId : Nat
  layout : GraphLayout

def LayoutState.initial : LayoutState :=
  { activeLanes := [], nextLaneId := 0, nextColorId := 0, layout := { rows := [], maxLaneCount := 0 } }

def incomingLanes (before : List ActiveLane) (sha : String) : List Nat :=
  (before.zipIdx.filter fun (lane, _) => lane.targetSha = sha).map fun (_, index) => index

def primaryLane (before : List ActiveLane) (sha : String) : Option ActiveLane :=
  (incomingLanes before sha).head?.bind (before[·]?)

/-- The node stands in the first lane that leads to it, or in a new one. -/
def nodeLane (before : List ActiveLane) (sha : String) : Nat :=
  (incomingLanes before sha).head?.getD before.length

def nodeColorId (state : LayoutState) (sha : String) : Nat :=
  ((primaryLane state.activeLanes sha).map (·.colorId)).getD state.nextColorId

def resolvedIds (before : List ActiveLane) (sha : String) : List Nat :=
  (incomingLanes before sha).filterMap fun index => before[index]?.map (·.id)

/-- The lanes below a commit; the offsets of its other parents count from one. -/
def lanesBelow (state : LayoutState) (commit : GitHistoryCommit) : Option Below :=
  let before := state.activeLanes
  let primaryLane := primaryLane before commit.sha
  let (primaryOutgoingId, below) :=
    addFirstParent (nodeLane before commit.sha) (nodeColorId state commit.sha) primaryLane
      commit.parentShas
      { nextLanes := before.filter (·.id ∉ resolvedIds before commit.sha)
        outgoing := []
        nextLaneId := state.nextLaneId
        nextColorId := if primaryLane.isSome then state.nextColorId else state.nextColorId + 1
        parentOffset := 1 }
  (commit.parentShas.drop 1).foldlM (addParent (nodeLane before commit.sha) primaryOutgoingId) below

def throughSegment (nextLanes : List ActiveLane) (lane : ActiveLane) (fromLane : Nat) :
    Option GraphSegment :=
  (laneIndex nextLanes lane.id).map fun toLane =>
    { fromLane, toLane, colorId := lane.colorId, shape := .through }

def incomingSegment (before : List ActiveLane) (nodeLane fromLane : Nat) : Option GraphSegment :=
  before[fromLane]?.map fun lane =>
    { fromLane, toLane := nodeLane, colorId := lane.colorId, shape := .incoming }

def outgoingSegment (nextLanes : List ActiveLane) (nodeLane id colorId : Nat) :
    Option GraphSegment :=
  (laneIndex nextLanes id).map fun toLane =>
    { fromLane := nodeLane, toLane, colorId, shape := .outgoing }

def drawSegments (before : List ActiveLane) (sha : String) (below : Below) :
    Option (List GraphSegment) := do
  let through ← (before.zipIdx.filter fun (lane, _) => lane.id ∉ resolvedIds before sha).mapM
    fun (lane, fromLane) => throughSegment below.nextLanes lane fromLane
  let incoming ← (incomingLanes before sha).mapM (incomingSegment before (nodeLane before sha))
  let outgoing ← below.outgoing.mapM fun (id, colorId) =>
    outgoingSegment below.nextLanes (nodeLane before sha) id colorId
  some (through ++ incoming ++ outgoing)

def layoutRow (headSha : Option String) (state : LayoutState) (commit : GitHistoryCommit) :
    Option LayoutState := do
  let before := state.activeLanes
  let below ← lanesBelow state commit
  let segments ← drawSegments before commit.sha below
  some
    { activeLanes := below.nextLanes
      nextLaneId := below.nextLaneId
      nextColorId := below.nextColorId
      layout :=
        { rows := state.layout.rows ++
            [{ sha := commit.sha
               nodeLane := nodeLane before commit.sha
               nodeColorId := nodeColorId state commit.sha
               segments
               isHead := headSha = some commit.sha }]
          maxLaneCount := max (max (max state.layout.maxLaneCount before.length)
            below.nextLanes.length) (nodeLane before commit.sha + 1) } }

def layoutGraph (commits : List GitHistoryCommit) (headSha : Option String) : Option GraphLayout :=
  (commits.foldlM (layoutRow headSha) .initial).map (·.layout)

/-! ### The lanes of one row -/

/-- No two lanes have one id, and the next id is new. -/
structure Distinct (lanes : List ActiveLane) (nextLaneId : Nat) : Prop where
  nodup : (lanes.map (·.id)).Nodup
  fresh : ∀ lane ∈ lanes, lane.id < nextLaneId

variable {before : List ActiveLane} {lanes : List ActiveLane} {lane : ActiveLane}

theorem Distinct.eq_of_id_eq {nextLaneId : Nat} (h : Distinct lanes nextLaneId)
    {lane lane' : ActiveLane} (hlane : lane ∈ lanes)
    (hlane' : lane' ∈ lanes) (hid : lane.id = lane'.id) : lane = lane' :=
  List.inj_on_of_nodup_map h.nodup hlane hlane' hid

theorem Distinct.laneIndex {nextLaneId : Nat} (h : Distinct lanes nextLaneId)
    (hlane : lane ∈ lanes) :
    ∃ index, laneIndex lanes lane.id = some index ∧ lanes[index]? = some lane := by
  obtain ⟨index, hindex⟩ : ∃ index, History.laneIndex lanes lane.id = some index := by
    rw [← Option.isSome_iff_exists, History.laneIndex, List.findIdx?_isSome, List.any_eq_true]
    exact ⟨lane, hlane, by simp⟩
  refine ⟨index, hindex, ?_⟩
  obtain ⟨hlt, hid, -⟩ := List.findIdx?_eq_some_iff_getElem.mp hindex
  rw [List.getElem?_eq_getElem hlt, Option.some_inj]
  exact h.eq_of_id_eq (List.getElem_mem hlt) hlane (by simpa using hid)

theorem Distinct.insert {nextLaneId nextLaneId' index : Nat} (h : Distinct lanes nextLaneId)
    (hle : nextLaneId ≤ nextLaneId')
    (hnew : ∀ other ∈ lanes, other.id ≠ lane.id) (hlane : lane.id < nextLaneId') :
    Distinct (lanes.insertIdx (min index lanes.length) lane) nextLaneId' := by
  have hperm := List.perm_insertIdx lane lanes (Nat.min_le_right index lanes.length)
  constructor
  · rw [(hperm.map (·.id)).nodup_iff, List.map_cons, List.nodup_cons]
    refine ⟨fun hmem => ?_, h.nodup⟩
    obtain ⟨other, hother, heq⟩ := List.mem_map.mp hmem
    exact hnew other hother heq
  · intro other hother
    obtain rfl | hother := List.mem_cons.mp (hperm.mem_iff.mp hother)
    · exact hlane
    · exact Nat.lt_of_lt_of_le (h.fresh other hother) hle

theorem mem_insertIdx_min {index : Nat} {lane other : ActiveLane} :
    other ∈ lanes.insertIdx (min index lanes.length) lane ↔ other = lane ∨ other ∈ lanes := by
  rw [(List.perm_insertIdx lane lanes (Nat.min_le_right index lanes.length)).mem_iff, List.mem_cons]

/-- The lanes below a row: those kept, and for each of the parents so far one that leads to it. -/
structure Below.Sound (below : Below) (kept : List ActiveLane) (primary : Option Nat)
    (parents : List String) : Prop where
  distinct : Distinct below.nextLanes below.nextLaneId
  kept : ∀ lane ∈ kept, lane ∈ below.nextLanes
  primary : ∀ id, primary = some id → ∃ lane ∈ below.nextLanes, lane.id = id
  outgoing : ∀ link ∈ below.outgoing, ∃ lane ∈ below.nextLanes, link = (lane.id, lane.colorId)
  leads : ∀ parent ∈ parents, ∃ lane ∈ below.nextLanes, lane.targetSha = parent ∧
    (lane.id, lane.colorId) ∈ below.outgoing

theorem Below.Sound.insert {below below' : Below} {kept : List ActiveLane} {primary primary' : Option Nat}
    {parents : List String} (h : below.Sound kept primary parents) (lane : ActiveLane) {index : Nat}
    (hlanes : below'.nextLanes = below.nextLanes.insertIdx (min index below.nextLanes.length) lane)
    (hdistinct : Distinct below'.nextLanes below'.nextLaneId)
    (hprimary : ∀ id, primary' = some id → primary = some id ∨ lane.id = id)
    (houtgoing : below'.outgoing = below.outgoing ++ [(lane.id, lane.colorId)]) :
    below'.Sound kept primary' (parents ++ [lane.targetSha]) := by
  have hmem : ∀ {other}, other ∈ below'.nextLanes ↔ other = lane ∨ other ∈ below.nextLanes := by
    rw [hlanes]
    exact mem_insertIdx_min
  refine ⟨hdistinct, fun other hother => hmem.mpr (.inr (h.kept other hother)), fun id hid => ?_,
    fun link hlink => ?_, fun parent hparent => ?_⟩
  · obtain hid | hid := hprimary id hid
    · obtain ⟨other, hother, heq⟩ := h.primary id hid
      exact ⟨other, hmem.mpr (.inr hother), heq⟩
    · exact ⟨lane, hmem.mpr (.inl rfl), hid⟩
  · rw [houtgoing, List.mem_append, List.mem_singleton] at hlink
    obtain hlink | rfl := hlink
    · obtain ⟨other, hother, heq⟩ := h.outgoing link hlink
      exact ⟨other, hmem.mpr (.inr hother), heq⟩
    · exact ⟨lane, hmem.mpr (.inl rfl), rfl⟩
  · rw [houtgoing]
    obtain hparent | hparent := List.mem_append.mp hparent
    · obtain ⟨other, hother, htarget, hlink⟩ := h.leads parent hparent
      exact ⟨other, hmem.mpr (.inr hother), htarget, List.mem_append_left _ hlink⟩
    · exact ⟨lane, hmem.mpr (.inl rfl), (List.mem_singleton.mp hparent).symm, by simp⟩

theorem Below.Sound.addParent {below : Below} {kept : List ActiveLane} {primary : Option Nat}
    {parents : List String} (h : below.Sound kept primary parents) (nodeLane : Nat)
    (parentSha : String) :
    ∃ below', History.addParent nodeLane primary below parentSha = some below' ∧
      below'.Sound kept primary (parents ++ [parentSha]) := by
  rw [History.addParent]
  split
  · rename_i existing hfound
    have hexisting := List.mem_of_find?_eq_some hfound
    have htarget : existing.targetSha = parentSha := by simpa using List.find?_some hfound
    refine ⟨_, rfl, h.distinct, h.kept, h.primary, fun link hlink => ?_, fun parent hparent => ?_⟩
    · obtain hlink | hlink := List.mem_append.mp hlink
      · exact h.outgoing link hlink
      · exact ⟨existing, hexisting, List.mem_singleton.mp hlink⟩
    · obtain hparent | hparent := List.mem_append.mp hparent
      · obtain ⟨lane, hlane, hleads, hlink⟩ := h.leads parent hparent
        exact ⟨lane, hlane, hleads, List.mem_append_left _ hlink⟩
      · exact ⟨existing, hexisting, htarget.trans (List.mem_singleton.mp hparent).symm, by simp⟩
  · have hindex : ∃ index, primaryIndex nodeLane primary below.nextLanes = some index := by
      cases primary with
      | none => exact ⟨_, rfl⟩
      | some id =>
          obtain ⟨lane, hlane, rfl⟩ := h.primary id rfl
          obtain ⟨index, hindex, -⟩ := h.distinct.laneIndex hlane
          exact ⟨index, hindex⟩
    obtain ⟨index, hindex⟩ := hindex
    refine ⟨_, by rw [hindex]; rfl,
      h.insert ⟨below.nextLaneId, below.nextColorId, parentSha⟩ rfl ?_ (fun id hid => .inl hid) rfl⟩
    exact h.distinct.insert (Nat.le_succ _) (fun other hother => Nat.ne_of_lt (h.distinct.fresh other hother))
      (Nat.lt_succ_self _)

theorem Below.Sound.addParents {below : Below} {kept : List ActiveLane} {primary : Option Nat}
    {parents : List String} (h : below.Sound kept primary parents) (nodeLane : Nat)
    (parentShas : List String) :
    ∃ below', parentShas.foldlM (History.addParent nodeLane primary) below = some below' ∧
      below'.Sound kept primary (parents ++ parentShas) := by
  induction parentShas generalizing below parents with
  | nil => exact ⟨below, rfl, by rwa [List.append_nil]⟩
  | cons parentSha parentShas ih =>
      obtain ⟨next, hnext, hsound⟩ := h.addParent nodeLane parentSha
      obtain ⟨below', hrest, hsound⟩ := ih hsound
      refine ⟨below', ?_, by rwa [List.append_assoc] at hsound⟩
      rw [List.foldlM_cons, hnext]
      exact hrest

theorem Below.Sound.addFirstParent {below : Below} {kept : List ActiveLane}
    (h : below.Sound kept none []) (nodeLane nodeColorId : Nat) {primaryLane : Option ActiveLane}
    (hprimary : ∀ lane, primaryLane = some lane →
      lane.id < below.nextLaneId ∧ ∀ other ∈ below.nextLanes, other.id ≠ lane.id)
    (parentShas : List String) :
    ∃ primary below', History.addFirstParent nodeLane nodeColorId primaryLane parentShas below =
      (primary, below') ∧ below'.Sound kept primary (parentShas.take 1) := by
  cases parentShas with
  | nil => exact ⟨none, below, rfl, h⟩
  | cons firstParent parentShas =>
      cases primaryLane with
      | none =>
          refine ⟨_, _, rfl, h.insert ⟨below.nextLaneId, nodeColorId, firstParent⟩ rfl ?_
            (fun id hid => .inr (Option.some_inj.mp hid)) rfl⟩
          exact h.distinct.insert (Nat.le_succ _)
            (fun other hother => Nat.ne_of_lt (h.distinct.fresh other hother)) (Nat.lt_succ_self _)
      | some lane =>
          obtain ⟨hlt, hnew⟩ := hprimary lane rfl
          refine ⟨_, _, rfl, h.insert ⟨lane.id, nodeColorId, firstParent⟩ rfl ?_
            (fun id hid => .inr (Option.some_inj.mp hid)) rfl⟩
          exact h.distinct.insert (Nat.le_refl _) hnew hlt

/-! ### One row -/

def laneOf (lanes : List ActiveLane) (id : Nat) : Nat := (laneIndex lanes id).getD 0

/-- What a row draws between the lanes above and below it. -/
structure RowOf (before nextLanes : List ActiveLane) (commit : GitHistoryCommit) (row : GraphRow) :
    Prop where
  sha : row.sha = commit.sha
  kept : ∀ lane ∈ before, lane.targetSha ≠ commit.sha → lane ∈ nextLanes
  places : ∀ lane ∈ nextLanes, nextLanes[laneOf nextLanes lane.id]? = some lane
  drawn : ∃ outgoing : List (Nat × Nat),
    row.segments =
      ((before.zipIdx.filter fun (lane, _) => lane.targetSha ≠ commit.sha).map
        fun (lane, fromLane) =>
          GraphSegment.mk fromLane (laneOf nextLanes lane.id) lane.colorId .through) ++
      ((before.zipIdx.filter fun (lane, _) => lane.targetSha = commit.sha).map
        fun (lane, fromLane) => GraphSegment.mk fromLane row.nodeLane lane.colorId .incoming) ++
      (outgoing.map fun (id, colorId) =>
        GraphSegment.mk row.nodeLane (laneOf nextLanes id) colorId .outgoing) ∧
    (∀ link ∈ outgoing, ∃ lane ∈ nextLanes, link = (lane.id, lane.colorId)) ∧
    ∀ parent ∈ commit.parentShas, ∃ lane ∈ nextLanes, lane.targetSha = parent ∧
      (lane.id, lane.colorId) ∈ outgoing

theorem mapM_eq_some_map {α β : Type} {f : α → Option β} {g : α → β} {items : List α}
    (h : ∀ item ∈ items, f item = some (g item)) : items.mapM f = some (items.map g) := by
  induction items with
  | nil => rfl
  | cons item items ih =>
      obtain ⟨hitem, hitems⟩ := List.forall_mem_cons.mp h
      rw [List.mapM_cons, hitem, ih hitems]
      rfl

theorem mem_incomingLanes {sha : String} {index : Nat} :
    index ∈ incomingLanes before sha ↔ ∃ lane, before[index]? = some lane ∧ lane.targetSha = sha := by
  simp [incomingLanes, List.mem_zipIdx_iff_getElem?, and_comm]

theorem mem_resolvedIds {nextLaneId : Nat} (h : Distinct before nextLaneId) {sha : String}
    (hlane : lane ∈ before) :
    lane.id ∈ resolvedIds before sha ↔ lane.targetSha = sha := by
  rw [resolvedIds, List.mem_filterMap]
  constructor
  · rintro ⟨index, hindex, hid⟩
    obtain ⟨other, hother, htarget⟩ := mem_incomingLanes.mp hindex
    rw [hother, Option.map_some, Option.some_inj] at hid
    rw [← h.eq_of_id_eq (List.mem_of_getElem? hother) hlane hid, htarget]
  · intro htarget
    obtain ⟨index, hindex⟩ := List.mem_iff_getElem?.mp hlane
    exact ⟨index, mem_incomingLanes.mpr ⟨lane, hindex, htarget⟩, by rw [hindex]; rfl⟩

theorem primaryLane_eq_some {sha : String} (h : primaryLane before sha = some lane) :
    lane ∈ before ∧ lane.targetSha = sha := by
  obtain ⟨index, hindex, hlane⟩ := Option.bind_eq_some_iff.mp h
  obtain ⟨other, hother, htarget⟩ := mem_incomingLanes.mp (List.mem_of_head? hindex)
  obtain rfl : other = lane := Option.some_inj.mp (hother.symm.trans hlane)
  exact ⟨List.mem_of_getElem? hother, htarget⟩

/-- The lanes below a commit: those that lead elsewhere, and those to its parents. -/
theorem lanesBelow_spec {state : LayoutState} (h : Distinct state.activeLanes state.nextLaneId)
    (commit : GitHistoryCommit) :
    ∃ below primary, lanesBelow state commit = some below ∧
      below.Sound (state.activeLanes.filter (·.targetSha ≠ commit.sha)) primary
        commit.parentShas := by
  have hfilter : state.activeLanes.filter (·.id ∉ resolvedIds state.activeLanes commit.sha) =
      state.activeLanes.filter (·.targetSha ≠ commit.sha) :=
    List.filter_congr fun lane hlane => by simp [mem_resolvedIds h hlane]
  have hkept : Distinct (state.activeLanes.filter (·.targetSha ≠ commit.sha)) state.nextLaneId :=
    ⟨h.nodup.sublist (List.filter_sublist.map _),
      fun lane hlane => h.fresh lane (List.mem_of_mem_filter hlane)⟩
  have hprimary : ∀ lane, primaryLane state.activeLanes commit.sha = some lane →
      lane.id < state.nextLaneId ∧
        ∀ other ∈ state.activeLanes.filter (·.targetSha ≠ commit.sha), other.id ≠ lane.id := by
    intro lane hlane
    obtain ⟨hmem, htarget⟩ := primaryLane_eq_some hlane
    refine ⟨h.fresh lane hmem, fun other hother hid => ?_⟩
    obtain ⟨hother, hother'⟩ := List.mem_filter.mp hother
    rw [h.eq_of_id_eq hother hmem hid] at hother'
    simp [htarget] at hother'
  rw [lanesBelow, hfilter]
  have hstart : Below.Sound ⟨state.activeLanes.filter (·.targetSha ≠ commit.sha), [], state.nextLaneId,
      if (primaryLane state.activeLanes commit.sha).isSome then state.nextColorId
      else state.nextColorId + 1, 1⟩ (state.activeLanes.filter (·.targetSha ≠ commit.sha)) none [] :=
    ⟨hkept, fun lane hlane => hlane, by simp, by simp, by simp⟩
  obtain ⟨primary, below, hfirst, hsound⟩ := hstart.addFirstParent
    (nodeLane state.activeLanes commit.sha) (nodeColorId state commit.sha) hprimary commit.parentShas
  obtain ⟨below', hrest, hsound⟩ := hsound.addParents (nodeLane state.activeLanes commit.sha)
    (commit.parentShas.drop 1)
  rw [List.take_append_drop] at hsound
  exact ⟨below', primary, by simp only [hfirst, hrest], hsound⟩

theorem drawSegments_eq {nextLaneId : Nat} (h : Distinct before nextLaneId) {sha : String}
    {below : Below} {primary : Option Nat} {parents : List String}
    (hsound : below.Sound (before.filter (·.targetSha ≠ sha)) primary parents) :
    drawSegments before sha below = some
      (((before.zipIdx.filter fun (lane, _) => lane.targetSha ≠ sha).map fun (lane, fromLane) =>
          GraphSegment.mk fromLane (laneOf below.nextLanes lane.id) lane.colorId .through) ++
        ((before.zipIdx.filter fun (lane, _) => lane.targetSha = sha).map fun (lane, fromLane) =>
          GraphSegment.mk fromLane (nodeLane before sha) lane.colorId .incoming) ++
        (below.outgoing.map fun (id, colorId) =>
          GraphSegment.mk (nodeLane before sha) (laneOf below.nextLanes id) colorId .outgoing)) := by
  have hfilter : (before.zipIdx.filter fun (lane, _) => lane.id ∉ resolvedIds before sha) =
      before.zipIdx.filter fun (lane, _) => lane.targetSha ≠ sha := by
    refine List.filter_congr fun place hplace => ?_
    simp [mem_resolvedIds h (List.mem_of_getElem? (List.mem_zipIdx_iff_getElem?.mp hplace))]
  have hplace : ∀ lane ∈ below.nextLanes,
      laneIndex below.nextLanes lane.id = some (laneOf below.nextLanes lane.id) := by
    intro lane hlane
    obtain ⟨index, hindex, -⟩ := hsound.distinct.laneIndex hlane
    rw [laneOf, hindex]
    rfl
  have hthrough : ∀ place ∈ before.zipIdx.filter fun (lane, _) => lane.targetSha ≠ sha,
      throughSegment below.nextLanes place.1 place.2 =
        some ⟨place.2, laneOf below.nextLanes place.1.id, place.1.colorId, .through⟩ := by
    intro place hmem
    obtain ⟨hmem, htarget⟩ := List.mem_filter.mp hmem
    have hlane := List.mem_of_getElem? (List.mem_zipIdx_iff_getElem?.mp hmem)
    rw [throughSegment, hplace _ (hsound.kept _ (List.mem_filter.mpr ⟨hlane, htarget⟩))]
    rfl
  have hincoming : ∀ place ∈ before.zipIdx.filter fun (lane, _) => lane.targetSha = sha,
      incomingSegment before (nodeLane before sha) place.2 =
        some ⟨place.2, nodeLane before sha, place.1.colorId, .incoming⟩ := by
    intro place hmem
    rw [incomingSegment, List.mem_zipIdx_iff_getElem?.mp (List.mem_of_mem_filter hmem)]
    rfl
  have houtgoing : ∀ link ∈ below.outgoing,
      outgoingSegment below.nextLanes (nodeLane before sha) link.1 link.2 =
        some ⟨nodeLane before sha, laneOf below.nextLanes link.1, link.2, .outgoing⟩ := by
    intro link hmem
    obtain ⟨lane, hlane, rfl⟩ := hsound.outgoing link hmem
    rw [outgoingSegment, hplace lane hlane]
    rfl
  have hincomings := mapM_eq_some_map hincoming
  rw [drawSegments, hfilter, mapM_eq_some_map hthrough, incomingLanes, List.mapM_map,
    mapM_eq_some_map houtgoing]
  simp only [Function.comp_def, hincomings]
  rfl

theorem layoutRow_spec (headSha : Option String) {state : LayoutState}
    (h : Distinct state.activeLanes state.nextLaneId) (commit : GitHistoryCommit) :
    ∃ next row, layoutRow headSha state commit = some next ∧
      Distinct next.activeLanes next.nextLaneId ∧ RowOf state.activeLanes next.activeLanes commit row ∧
      next.layout.rows = state.layout.rows ++ [row] ∧
      next.layout.maxLaneCount = max (max (max state.layout.maxLaneCount state.activeLanes.length)
        next.activeLanes.length) (row.nodeLane + 1) := by
  obtain ⟨below, primary, hbelow, hsound⟩ := lanesBelow_spec h commit
  have hsegments := drawSegments_eq h hsound
  refine ⟨_, _, by rw [layoutRow, hbelow, Option.bind_eq_bind, Option.bind_some, hsegments]; rfl,
    hsound.distinct, ⟨rfl, fun lane hlane htarget => ?_, fun lane hlane => ?_,
      below.outgoing, rfl, hsound.outgoing, hsound.leads⟩, rfl, rfl⟩
  · exact hsound.kept lane (List.mem_filter.mpr ⟨hlane, by simpa using htarget⟩)
  · obtain ⟨index, hindex, hplace⟩ := hsound.distinct.laneIndex hlane
    rwa [laneOf, hindex]

theorem filter_zipIdx {α : Type} (items : List α) (start place : Nat) {item : α}
    (h : items[place]? = some item) :
    (items.zipIdx start).filter (fun entry => entry.2 = start + place) = [(item, start + place)] := by
  have hbehind : ∀ {items : List α} {start place : Nat}, place < start →
      (items.zipIdx start).filter (fun entry => entry.2 = place) = [] := by
    intro items start place hlt
    refine List.filter_eq_nil_iff.mpr fun entry hentry => ?_
    have := List.le_snd_of_mem_zipIdx hentry
    simp only [decide_eq_true_eq]
    omega
  induction items generalizing start place with
  | nil => cases h
  | cons first items ih =>
      rw [List.zipIdx_cons]
      cases place with
      | zero =>
          cases h
          rw [List.filter_cons_of_pos (by simp), Nat.add_zero, hbehind (Nat.lt_succ_self _)]
      | succ place =>
          rw [List.filter_cons_of_neg (by simp), ← Nat.succ_add_eq_add_succ]
          exact ih (start + 1) place h

theorem filter_drawn {fromLane : Nat} (hlane : before[fromLane]? = some lane)
    (P : ActiveLane → Prop) [DecidablePred P]
    (draw : ActiveLane × Nat → GraphSegment)
    (hdraw : ∀ place, (draw place).shape ≠ .outgoing ∧ (draw place).fromLane = place.2) :
    ((before.zipIdx.filter fun place => P place.1).map draw).filter
        (fun s => s.shape ≠ .outgoing ∧ s.fromLane = fromLane) =
      if P lane then [draw (lane, fromLane)] else [] := by
  have hplace := filter_zipIdx before 0 fromLane hlane
  rw [Nat.zero_add] at hplace
  have hstart : ((fun s : GraphSegment => decide (s.shape ≠ .outgoing ∧ s.fromLane = fromLane)) ∘
      draw) = fun place : ActiveLane × Nat => decide (place.2 = fromLane) := by
    funext place
    simp [hdraw place]
  rw [List.filter_map, hstart, List.filter_filter]
  simp only [Bool.and_comm]
  rw [← List.filter_filter, hplace]
  split_ifs with hP <;> simp [hP]

theorem RowOf.above {before nextLanes : List ActiveLane} {commit : GitHistoryCommit} {row : GraphRow}
    (h : RowOf before nextLanes commit row) {fromLane : Nat}
    (hlane : before[fromLane]? = some lane) :
    ∃ segment, row.segments.filter (fun s => s.shape ≠ .outgoing ∧ s.fromLane = fromLane) =
        [segment] ∧ segment.colorId = lane.colorId ∧
      if lane.targetSha = commit.sha then segment.shape = .incoming ∧ segment.toLane = row.nodeLane
      else segment.shape = .through ∧ nextLanes[segment.toLane]? = some lane := by
  obtain ⟨outgoing, hsegments, -, -⟩ := h.drawn
  have hthrough := filter_drawn hlane (fun lane => lane.targetSha ≠ commit.sha)
    (fun (lane, fromLane) => ⟨fromLane, laneOf nextLanes lane.id, lane.colorId, .through⟩)
    (fun place => ⟨by simp, rfl⟩)
  have hincoming := filter_drawn hlane (fun lane => lane.targetSha = commit.sha)
    (fun (lane, fromLane) => ⟨fromLane, row.nodeLane, lane.colorId, .incoming⟩)
    (fun place => ⟨by simp, rfl⟩)
  have houtgoing : (outgoing.map fun (id, colorId) =>
      GraphSegment.mk row.nodeLane (laneOf nextLanes id) colorId .outgoing).filter
        (fun s => s.shape ≠ .outgoing ∧ s.fromLane = fromLane) = [] := by
    refine List.filter_eq_nil_iff.mpr fun segment hsegment => ?_
    obtain ⟨link, -, rfl⟩ := List.mem_map.mp hsegment
    simp
  rw [hsegments, List.filter_append, List.filter_append, houtgoing]
  by_cases htarget : lane.targetSha = commit.sha
  · rw [if_neg (not_not.mpr htarget)] at hthrough
    rw [if_pos htarget] at hincoming
    exact ⟨_, by rw [hthrough, hincoming]; rfl, rfl, by rw [if_pos htarget]; exact ⟨rfl, rfl⟩⟩
  · rw [if_pos htarget] at hthrough
    rw [if_neg htarget] at hincoming
    have hplace := h.places lane (h.kept lane (List.mem_of_getElem? hlane) htarget)
    exact ⟨_, by rw [hthrough, hincoming]; rfl, rfl, by rw [if_neg htarget]; exact ⟨rfl, hplace⟩⟩

theorem RowOf.below {before nextLanes : List ActiveLane} {commit : GitHistoryCommit} {row : GraphRow}
    (h : RowOf before nextLanes commit row) {segment : GraphSegment} (hsegment : segment ∈ row.segments)
    (hshape : segment.shape ≠ .incoming) :
    ∃ lane, nextLanes[segment.toLane]? = some lane ∧ segment.colorId = lane.colorId := by
  obtain ⟨outgoing, hsegments, hlinks, -⟩ := h.drawn
  rw [hsegments] at hsegment
  obtain hsegment | hsegment := List.mem_append.mp hsegment
  · obtain hsegment | hsegment := List.mem_append.mp hsegment
    · obtain ⟨⟨lane, fromLane⟩, hmem, rfl⟩ := List.mem_map.mp hsegment
      obtain ⟨hmem, htarget⟩ := List.mem_filter.mp hmem
      have hlane := List.mem_of_getElem? (List.mem_zipIdx_iff_getElem?.mp hmem)
      exact ⟨lane, h.places lane (h.kept lane hlane (by simpa using htarget)), rfl⟩
    · obtain ⟨place, -, rfl⟩ := List.mem_map.mp hsegment
      exact absurd rfl hshape
  · obtain ⟨link, hlink, rfl⟩ := List.mem_map.mp hsegment
    obtain ⟨lane, hlane, rfl⟩ := hlinks link hlink
    exact ⟨lane, h.places lane hlane, rfl⟩

theorem RowOf.bounded {before nextLanes : List ActiveLane} {commit : GitHistoryCommit} {row : GraphRow}
    (h : RowOf before nextLanes commit row) {bound : Nat} (hbefore : before.length ≤ bound)
    (hnext : nextLanes.length ≤ bound) (hnode : row.nodeLane < bound) {segment : GraphSegment}
    (hsegment : segment ∈ row.segments) : segment.fromLane < bound ∧ segment.toLane < bound := by
  have hplace : ∀ lane ∈ nextLanes, laneOf nextLanes lane.id < bound := fun lane hlane =>
    Nat.lt_of_lt_of_le (List.getElem?_eq_some_iff.mp (h.places lane hlane)).1 hnext
  have habove : ∀ {place}, place ∈ before.zipIdx → place.2 < bound := fun hmem =>
    Nat.lt_of_lt_of_le (List.getElem?_eq_some_iff.mp (List.mem_zipIdx_iff_getElem?.mp hmem)).1 hbefore
  obtain ⟨outgoing, hsegments, hlinks, -⟩ := h.drawn
  rw [hsegments] at hsegment
  obtain hsegment | hsegment := List.mem_append.mp hsegment
  · obtain hsegment | hsegment := List.mem_append.mp hsegment
    · obtain ⟨⟨lane, fromLane⟩, hmem, rfl⟩ := List.mem_map.mp hsegment
      obtain ⟨hmem, htarget⟩ := List.mem_filter.mp hmem
      have hlane := List.mem_of_getElem? (List.mem_zipIdx_iff_getElem?.mp hmem)
      exact ⟨habove hmem, hplace lane (h.kept lane hlane (by simpa using htarget))⟩
    · obtain ⟨place, hmem, rfl⟩ := List.mem_map.mp hsegment
      exact ⟨habove (List.mem_of_mem_filter hmem), hnode⟩
  · obtain ⟨link, hlink, rfl⟩ := List.mem_map.mp hsegment
    obtain ⟨lane, hlane, rfl⟩ := hlinks link hlink
    exact ⟨hnode, hplace lane hlane⟩

/-! ### All rows -/

/-- The rows of commits that follow each other, from the lanes above them. -/
inductive Rows : List ActiveLane → List GitHistoryCommit → List GraphRow → Prop
  | nil (lanes : List ActiveLane) : Rows lanes [] []
  | cons {before nextLanes : List ActiveLane} {commit : GitHistoryCommit} {row : GraphRow}
      {commits : List GitHistoryCommit} {rows : List GraphRow} :
      RowOf before nextLanes commit row → Rows nextLanes commits rows →
        Rows before (commit :: commits) (row :: rows)

theorem foldlM_layoutRow (headSha : Option String) {state : LayoutState}
    (h : Distinct state.activeLanes state.nextLaneId) (commits : List GitHistoryCommit) :
    ∃ final rows, commits.foldlM (layoutRow headSha) state = some final ∧
      Distinct final.activeLanes final.nextLaneId ∧ Rows state.activeLanes commits rows ∧
      final.layout.rows = state.layout.rows ++ rows ∧
      state.layout.maxLaneCount ≤ final.layout.maxLaneCount ∧
      ∀ row ∈ rows, ∀ segment ∈ row.segments,
        segment.fromLane < final.layout.maxLaneCount ∧ segment.toLane < final.layout.maxLaneCount := by
  induction commits generalizing state with
  | nil =>
      exact ⟨state, [], rfl, h, .nil _, by rw [List.append_nil], Nat.le_refl _, by simp⟩
  | cons commit commits ih =>
      obtain ⟨next, row, hnext, hdistinct, hrow, hrows, hcount⟩ := layoutRow_spec headSha h commit
      obtain ⟨final, rows, hfinal, hdistinct, hrest, hall, hle, hbounds⟩ := ih hdistinct
      refine ⟨final, row :: rows, ?_, hdistinct, .cons hrow hrest, ?_, by omega,
        List.forall_mem_cons.mpr ⟨fun segment => hrow.bounded ?_ ?_ ?_, hbounds⟩⟩
      · rw [List.foldlM_cons, hnext]
        exact hfinal
      · rw [hall, hrows, List.append_assoc]
        rfl
      all_goals omega

variable {commits : List GitHistoryCommit} {rows : List GraphRow}

theorem Rows.drop (h : Rows lanes commits rows) (n : Nat) :
    ∃ lanes', Rows lanes' (commits.drop n) (rows.drop n) := by
  induction n generalizing lanes commits rows with
  | zero => exact ⟨lanes, h⟩
  | succ n ih =>
      cases h with
      | nil => exact ⟨lanes, .nil lanes⟩
      | cons _ hrest => exact ih hrest

theorem Rows.sha (h : Rows lanes commits rows) :
    rows.map (·.sha) = commits.map (·.sha) := by
  induction h with
  | nil => rfl
  | cons hrow _ ih => rw [List.map_cons, List.map_cons, hrow.sha, ih]

/-- Segments of rows that follow each other, each from where the one before ends. -/
def Follows : List GraphRow → Nat → List GraphSegment → Prop
  | _, _, [] => True
  | [], _, _ :: _ => False
  | row :: rows, lane, segment :: path =>
      segment ∈ row.segments ∧ segment.fromLane = lane ∧ Follows rows segment.toLane path

/-- A lane leads through the rows to the first commit it targets. -/
theorem Rows.follows (h : Rows before commits rows) {fromLane n : Nat}
    (hlane : before[fromLane]? = some lane) {target : GitHistoryCommit}
    (htarget : commits[n]? = some target) (hsha : lane.targetSha = target.sha)
    (hfirst : ∀ m < n, ∀ commit, commits[m]? = some commit → commit.sha ≠ target.sha) :
    ∃ throughs last row, rows[n]? = some row ∧ throughs.length = n ∧
      Follows rows fromLane (throughs ++ [last]) ∧
      (∀ segment ∈ throughs, segment.shape = SegmentShape.through) ∧
      last.shape = SegmentShape.incoming ∧ last.toLane = row.nodeLane := by
  induction n generalizing before commits rows fromLane with
  | zero =>
      cases h with
      | nil => cases htarget
      | cons hrow hrest =>
          cases htarget
          obtain ⟨segment, hdrawn, -, hends⟩ := hrow.above hlane
          rw [if_pos hsha] at hends
          have hmem := List.mem_filter.mp (hdrawn ▸ List.mem_singleton_self segment)
          exact ⟨[], segment, _, rfl, rfl, ⟨hmem.1, (of_decide_eq_true hmem.2).2, by simp [Follows]⟩,
            by simp, hends.1, hends.2⟩
  | succ n ih =>
      cases h with
      | nil => cases htarget
      | cons hrow hrest =>
          rename_i nextLanes commit row commits rows
          obtain ⟨segment, hdrawn, -, hends⟩ := hrow.above hlane
          rw [if_neg (by rw [hsha]; exact (hfirst 0 (Nat.succ_pos n) _ rfl).symm)] at hends
          have hmem := List.mem_filter.mp (hdrawn ▸ List.mem_singleton_self segment)
          obtain ⟨throughs, last, row', hrow', hlength, hfollows, hshapes, hlast⟩ := ih hrest hends.2
            htarget fun m hm commit hcommit => hfirst (m + 1) (Nat.succ_lt_succ hm) commit hcommit
          exact ⟨segment :: throughs, last, row', hrow', by rw [List.length_cons, hlength],
            ⟨hmem.1, (of_decide_eq_true hmem.2).2, hfollows⟩,
            List.forall_mem_cons.mpr ⟨hends.1, hshapes⟩, hlast⟩

/-- From the node of a commit a path leads to the node of each of its parents below. -/
theorem Rows.connected (h : Rows before commits rows)
    (hdistinct : (commits.map (·.sha)).Nodup)
    {i j : Nat} (hij : i < j) {commit parent : GitHistoryCommit} (hcommit : commits[i]? = some commit)
    (hparent : commits[j]? = some parent) (hmem : parent.sha ∈ commit.parentShas) :
    ∃ row row' first throughs last, rows[i]? = some row ∧ rows[j]? = some row' ∧
      Follows (rows.drop i) row.nodeLane (first :: (throughs ++ [last])) ∧
      i + 1 + throughs.length = j ∧ first.shape = .outgoing ∧
      (∀ segment ∈ throughs, segment.shape = SegmentShape.through) ∧
      last.shape = SegmentShape.incoming ∧
      last.toLane = row'.nodeLane := by
  obtain ⟨lanes, hrows⟩ := h.drop i
  obtain ⟨hi, rfl⟩ := List.getElem?_eq_some_iff.mp hcommit
  rw [List.drop_eq_getElem_cons hi] at hrows
  generalize hrowsDrop : rows.drop i = below at hrows
  cases hrows with
  | cons hrow hrest =>
      rename_i nextLanes row below
      obtain ⟨outgoing, hsegments, -, hleads⟩ := hrow.drawn
      obtain ⟨lane, hlane, htarget, hlink⟩ := hleads _ hmem
      obtain ⟨n, rfl⟩ : ∃ n, j = i + 1 + n := ⟨j - (i + 1), by omega⟩
      obtain ⟨throughs, last, row', hrow', hlength, hfollows, hshapes, hlast⟩ :=
        hrest.follows (hrow.places lane hlane) (by rw [List.getElem?_drop]; exact hparent) htarget
          fun m hm between hbetween hsame => by
            rw [List.getElem?_drop] at hbetween
            have hsha : (commits.map (·.sha))[i + 1 + m]? = (commits.map (·.sha))[i + 1 + n]? := by
              rw [List.getElem?_map, List.getElem?_map, hbetween, hparent]
              exact congrArg some hsame
            have hlt := (List.getElem?_eq_some_iff.mp hbetween).1
            have hplaces := (List.getElem?_inj (by rwa [List.length_map]) hdistinct).mp hsha
            omega
      have hbelow : rows[i]? = some row ∧ rows.drop (i + 1) = below := by
        rw [← Nat.add_zero i, ← List.getElem?_drop, ← List.tail_drop, hrowsDrop]
        exact ⟨rfl, rfl⟩
      refine ⟨row, row', ⟨row.nodeLane, laneOf nextLanes lane.id, lane.colorId, .outgoing⟩, throughs,
        last, hbelow.1, ?_, ⟨?_, rfl, hfollows⟩, by rw [hlength], rfl, hshapes, hlast⟩
      · rw [← hrow', ← hbelow.2, List.getElem?_drop]
      · rw [hsegments]
        exact List.mem_append_right _ (List.mem_map.mpr ⟨_, hlink, rfl⟩)

theorem Rows.continues (h : Rows before commits rows) {i : Nat} {row next : GraphRow}
    (hrow : rows[i]? = some row) (hnext : rows[i + 1]? = some next) {segment : GraphSegment}
    (hsegment : segment ∈ row.segments) (hshape : segment.shape ≠ .incoming) :
    ∃ continuing, next.segments.filter
        (fun s => s.shape ≠ .outgoing ∧ s.fromLane = segment.toLane) = [continuing] ∧
      continuing.colorId = segment.colorId := by
  induction h generalizing i with
  | nil => cases hrow
  | cons hfirst hrest ih =>
      cases i with
      | zero =>
          cases hrow
          cases hrest with
          | nil => cases hnext
          | cons hsecond _ =>
              cases hnext
              obtain ⟨lane, hlane, hcolor⟩ := hfirst.below hsegment hshape
              obtain ⟨continuing, hdrawn, hcolor', -⟩ := hsecond.above hlane
              exact ⟨continuing, hdrawn, hcolor'.trans hcolor.symm⟩
      | succ i => exact ih hrow hnext

theorem layout_row_distinct (headSha : Option String) (commits : List GitHistoryCommit) :
    ∃ state, commits.foldlM (layoutRow headSha) .initial = some state ∧
      (state.activeLanes.map (·.id)).Nodup := by
  obtain ⟨final, rows, hfinal, hdistinct, -⟩ :=
    @foldlM_layoutRow headSha .initial ⟨.nil, by simp [LayoutState.initial]⟩ commits
  exact ⟨final, hfinal, hdistinct.nodup⟩

/-- **The commit graph.** The layout of commits with distinct ids succeeds; after each of them the
active lanes have distinct ids; segments stay within the lanes that are reported; a segment that leads
down goes on as one segment of the next row; and a path leads from each commit to each of its parents
that is further down. -/
theorem graph_connects (commits : List GitHistoryCommit) (headSha : Option String)
    (hdistinct : (commits.map (·.sha)).Nodup) :
    ∃ layout, layoutGraph commits headSha = some layout ∧
      layout.rows.map (·.sha) = commits.map (·.sha) ∧
      (∀ n, ∃ state, (commits.take n).foldlM (layoutRow headSha) .initial = some state ∧
        (state.activeLanes.map (·.id)).Nodup) ∧
      (∀ row ∈ layout.rows, ∀ segment ∈ row.segments,
        segment.fromLane < layout.maxLaneCount ∧ segment.toLane < layout.maxLaneCount) ∧
      (∀ i row next, layout.rows[i]? = some row → layout.rows[i + 1]? = some next →
        ∀ segment ∈ row.segments, segment.shape ≠ .incoming → ∃ continuing,
          next.segments.filter (fun s => s.shape ≠ .outgoing ∧ s.fromLane = segment.toLane) =
              [continuing] ∧
            continuing.colorId = segment.colorId) ∧
      ∀ i j commit parent, i < j → commits[i]? = some commit → commits[j]? = some parent →
        parent.sha ∈ commit.parentShas →
          ∃ row row' first throughs last, layout.rows[i]? = some row ∧ layout.rows[j]? = some row' ∧
            Follows (layout.rows.drop i) row.nodeLane (first :: (throughs ++ [last])) ∧
            i + 1 + throughs.length = j ∧ first.shape = .outgoing ∧
            (∀ segment ∈ throughs, segment.shape = .through) ∧ last.shape = .incoming ∧
            last.toLane = row'.nodeLane := by
  obtain ⟨final, rows, hfinal, -, hrows, hall, -, hbounds⟩ :=
    @foldlM_layoutRow headSha .initial ⟨.nil, by simp [LayoutState.initial]⟩ commits
  obtain rfl : final.layout.rows = rows := hall
  refine ⟨final.layout, by rw [layoutGraph, hfinal]; rfl, hrows.sha,
    fun n => layout_row_distinct headSha _, hbounds, ?_, ?_⟩
  · intro i row next hrow hnext segment hsegment hshape
    exact hrows.continues hrow hnext hsegment hshape
  · intro i j commit parent hij hcommit hparent hmem
    exact hrows.connected hdistinct hij hcommit hparent hmem

theorem merge_is_connected :
    ∃ layout, layoutGraph [⟨"m", ["a", "b"]⟩, ⟨"b", ["r"]⟩, ⟨"a", ["r"]⟩, ⟨"r", []⟩] none = some layout ∧
      ∃ row first throughs last, layout.rows[0]? = some row ∧
        Follows layout.rows row.nodeLane (first :: (throughs ++ [last])) ∧
        1 + throughs.length = 2 := by
  obtain ⟨layout, hlayout, -, -, -, -, hpath⟩ := graph_connects
    [⟨"m", ["a", "b"]⟩, ⟨"b", ["r"]⟩, ⟨"a", ["r"]⟩, ⟨"r", []⟩] none (by decide)
  obtain ⟨row, -, first, throughs, last, hrow, -, hfollows, hlength, -⟩ :=
    hpath 0 2 _ _ (by decide) rfl rfl (by decide)
  exact ⟨layout, hlayout, row, first, throughs, last, hrow, hfollows, by omega⟩

end Zeron.Ui.History
