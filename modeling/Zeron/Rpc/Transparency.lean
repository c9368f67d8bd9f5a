import Mathlib.Algebra.Order.BigOperators.Group.Finset
import Zeron.Rpc.Connection

/-!
# What a caller sees of its request

An exchange is what one id has in the connection: the caller's side, the registration, the task, the
frames of this id in both channels. Every step of the connection is a step of one exchange and leaves
the others as they are.
-/

namespace Zeron.Rpc

open Zeron.Lib (Machine)
open Zeron.Registry (JsonValue)

variable {J : Type} [DecidableEq J]

/-! ## Exchanges -/

structure Exchange (J : Type) where
  request : Option (Request J)
  pending : Option Kind
  asks : List (ClientFrame J)
  task : Option (Task J)
  answers : List (ServerFrame J)
  history : History J

def Exchange.empty : Exchange J := ⟨none, none, [], none, [], .empty⟩

def Connection.exchange (s : Connection J) (id : Nat) : Exchange J where
  request := s.requests id
  pending := s.pending id
  asks := s.toServer.filter fun line => line.id = id
  task := s.tasks id
  answers := s.toClient.filter fun line => line.id = id
  history := s.history id

/-- What `route_frame` makes of a frame. -/
inductive Delivery (J : Type) where
  | nothing
  | settle (result : Except RpcError J)
  | item (item : J)

def ServerFrame.delivery (frame : ServerFrame J) : Delivery J :=
  match frame.err, frame.ok, frame.item with
  | some err, _, _ => .settle (.error (.failed err))
  | none, some value, _ => .settle (.ok value)
  | none, none, some item => .item item
  | none, none, none => if frame.done then .settle (.error .closed) else .nothing

def ServerFrame.arrives (lib : JsonLine J) (line : ServerFrame J) : Delivery J :=
  match line.readBack lib with
  | none => .nothing
  | some frame => frame.delivery

def Exchange.settle (e : Exchange J) (result : Except RpcError J) : Exchange J :=
  { e with
    pending := none
    request :=
      if e.pending = some .call then e.request.map fun r => { r with result := some result }
      else e.request }

def endFrame (id : Nat) : Ending J → ServerFrame J
  | .value value => okFrame id value
  | .failed err => errFrame id err.toString
  | .ended => doneFrame id

def Ending.answer : Ending J → Except RpcError J
  | .value v => .ok v
  | .failed err => .error (.failed err.toString)
  | .ended => .error .closed

/-! ## Values a caller can be given -/

section Legible

variable (lib : JsonLine J)

def Carried (value : J) : Prop := lib.reread value = some value ∧ value ≠ lib.null

instance (value : J) : Decidable (Carried lib value) :=
  inferInstanceAs (Decidable (_ ∧ _))

/-- The line is read, and its field is not taken for an absent one. -/
def Arrives (value : J) : Prop := ((lib.reread value).any fun v => v ≠ lib.null) = true

instance (value : J) : Decidable (Arrives lib value) :=
  inferInstanceAs (Decidable (_ = true))

/-- The caller of the request reads the value its handler returns. -/
def Request.ReadsValue (request : Request J) (value : J) : Prop :=
  request.held = true →
    match request.kind with
    | .call => Carried lib value
    | .stream => Arrives lib value

def Request.ReadsItem (request : Request J) (item : J) : Prop :=
  request.held = true → request.kind = .stream → Carried lib item

instance (request : Request J) (value : J) : Decidable (request.ReadsValue lib value) := by
  unfold Request.ReadsValue
  cases request.kind <;> exact inferInstance

instance (request : Request J) (item : J) : Decidable (request.ReadsItem lib item) :=
  inferInstanceAs (Decidable (_ → _ → _))

/-- The handler hands out only values that its caller can read back. -/
def Legible (s : Connection J) : Action J → Prop
  | .reply id (.ok (.value value)) =>
      ∀ request ∈ s.requests id, request.ReadsValue lib value
  | .next id (some item) => ∀ request ∈ s.requests id, request.ReadsItem lib item
  | _ => True

instance (s : Connection J) (a : Action J) : Decidable (Legible lib s a) := by
  unfold Legible
  split <;> exact inferInstance

end Legible

/-! ## The steps of one exchange -/

/-- The steps of an exchange in a connection whose handlers are legible; `true` marks those that hand
something on, as opposed to those of a handler or of a caller that gives up. -/
inductive Exchange.Next (lib : JsonLine J) (id : Nat) : Bool → Exchange J → Exchange J → Prop
  | submit {e : Exchange J} {r : Request J} (hrequest : e.request = some r)
      (hsent : r.sent = false) :
      Next lib id true e { e with
        request := some { r with sent := true }, asks := e.asks ++ [requestFrame id r] }
  | recv {e : Exchange J} {r : Request J} {item : J} {queue : List J}
      (hrequest : e.request = some r) (hqueue : r.queue = item :: queue) :
      Next lib id true e { e with request := some { r with queue := queue, taken := r.taken ++ [item] } }
  | drop {e : Exchange J} {r : Request J} (hrequest : e.request = some r) :
      Next lib id false e { e with request := some { r with held := false } }
  | skip {e : Exchange J} {line : ClientFrame J} {rest : List (ClientFrame J)}
      (hasks : e.asks = line :: rest) : Next lib id true e { e with asks := rest }
  | cancel {e : Exchange J} {line : ClientFrame J} {rest : List (ClientFrame J)} {task : Task J}
      (hasks : e.asks = line :: rest) (hcancel : line.cancel = true) (htask : e.task = some task) :
      Next lib id true e { e with asks := rest, task := some task.abort }
  | serve {e : Exchange J} {line : ClientFrame J} {rest : List (ClientFrame J)} (method : String)
      (params : J) (hasks : e.asks = line :: rest) (hcancel : line.cancel = false) :
      Next lib id true e { e with asks := rest, task := some (.handling method params) }
  | stream {e : Exchange J} {method : String} {params : J}
      (htask : e.task = some (.handling method params)) :
      Next lib id false e { e with task := some .streaming }
  | item {e : Exchange J} {item : J} (htask : e.task = some .streaming)
      (hreads : ∀ r, e.request = some r → r.ReadsItem lib item) :
      Next lib id false e { e with
        task := some (.sending (itemFrame id item) true)
        history := ⟨e.history.items ++ [item], e.history.ending⟩ }
  | finish {e : Exchange J} (ending : Ending J)
      (htask : (∃ method params, e.task = some (.handling method params)) ∨
        e.task = some .streaming)
      (hreads : ∀ value, ending = .value value → ∀ r, e.request = some r → r.ReadsValue lib value) :
      Next lib id false e { e with
        task := some (.sending (endFrame id ending) false)
        history := ⟨e.history.items, some ending⟩ }
  | send {e : Exchange J} {frame : ServerFrame J} {more : Bool}
      (htask : e.task = some (.sending frame more)) :
      Next lib id true e { e with
        task := some (if more then .streaming else .finished), answers := e.answers ++ [frame] }
  | nothing {e : Exchange J} {line : ServerFrame J} {rest : List (ServerFrame J)}
      (hanswers : e.answers = line :: rest) (harrives : line.arrives lib = .nothing) :
      Next lib id true e { e with answers := rest }
  | settle {e : Exchange J} {line : ServerFrame J} {rest : List (ServerFrame J)}
      {result : Except RpcError J} (hanswers : e.answers = line :: rest)
      (harrives : line.arrives lib = .settle result) :
      Next lib id true e (Exchange.settle { e with answers := rest } result)
  | push {e : Exchange J} {line : ServerFrame J} {rest : List (ServerFrame J)} {item : J}
      {r : Request J} (hanswers : e.answers = line :: rest)
      (harrives : line.arrives lib = .item item) (hpending : e.pending = some .stream)
      (hrequest : e.request = some r) :
      Next lib id true e { e with
        answers := rest, request := some { r with queue := r.queue ++ [item] } }
  | dead {e : Exchange J} {line : ServerFrame J} {rest : List (ServerFrame J)} {item : J}
      {r : Request J} (hanswers : e.answers = line :: rest)
      (harrives : line.arrives lib = .item item) (hpending : e.pending = some .stream)
      (hrequest : e.request = some r) (hheld : r.held = false) :
      Next lib id true e { e with
        answers := rest, pending := none, asks := e.asks ++ [cancelFrame lib id] }
  | ignore {e : Exchange J} {line : ServerFrame J} {rest : List (ServerFrame J)} {item : J}
      (hanswers : e.answers = line :: rest) (harrives : line.arrives lib = .item item)
      (hpending : e.pending ≠ some .stream ∨ e.request = none) :
      Next lib id true e { e with answers := rest }

/-! ## The invariant of an exchange -/

def History.frames (id : Nat) (history : History J) : List (ServerFrame J) :=
  history.items.map (itemFrame id) ++ (history.ending.map (endFrame id)).toList

def heldFrame : Option (Task J) → List (ServerFrame J)
  | some (.sending frame _) => [frame]
  | _ => []

def TaskAgrees : Option (Task J) → History J → Prop
  | none, history | some (.handling _ _), history => history = .empty
  | some .streaming, history | some (.sending _ true), history => history.ending = none
  | some .finished, history | some (.sending _ false), history => history.ending ≠ none
  | some .aborted, _ => True

/-- The requests of this exchange that are not yet at the server, and its task. -/
def Exchange.load (e : Exchange J) : Nat :=
  (e.asks.filter fun line => !line.cancel).length
    + (if e.request.any fun r => !r.sent then 1 else 0) + (if e.task.isSome then 1 else 0)

/-- What a caller that still holds its request has been given. -/
def Exchange.Given (id : Nat) (e : Exchange J) (r : Request J) : Prop :=
  match e.pending with
  | some kind =>
      kind = r.kind ∧ r.result = none ∧ ∃ seen,
        e.history.frames id = seen.map (itemFrame id) ++ (e.answers ++ heldFrame e.task) ∧
        (r.kind = .stream → r.taken ++ r.queue = seen)
  | none =>
      e.answers = [] ∧ heldFrame e.task = [] ∧ ∃ ending, e.history.ending = some ending ∧
        (r.kind = .call → r.result = some ending.answer) ∧
        (r.kind = .stream → r.taken ++ r.queue = e.history.items)

structure Exchange.Inv (lib : JsonLine J) (id : Nat) (e : Exchange J) : Prop where
  fresh : e.request = none → e = .empty
  once : e.load ≤ 1
  cancelled : ∀ line ∈ e.asks, line.cancel = true → ∀ r, e.request = some r → r.held = false
  aborted : e.task = some .aborted → ∀ r, e.request = some r → r.held = false
  agrees : TaskAgrees e.task e.history
  origin : ∀ frame ∈ e.answers ++ heldFrame e.task, frame ∈ e.history.frames id
  items : ∀ r, e.request = some r → ∀ item ∈ e.history.items, r.ReadsItem lib item
  value : ∀ r, e.request = some r → ∀ value, e.history.ending = some (.value value) →
    r.ReadsValue lib value
  given : ∀ r, e.request = some r → r.held = true → e.Given id r

theorem Exchange.Inv.empty (lib : JsonLine J) (id : Nat) :
    Exchange.Inv lib id (.empty : Exchange J) where
  fresh _ := rfl
  once := by simp [Exchange.load, Exchange.empty]
  cancelled := by simp [Exchange.empty]
  aborted := by simp [Exchange.empty]
  agrees := rfl
  origin := by simp [Exchange.empty, heldFrame]
  items := by simp [Exchange.empty]
  value := by simp [Exchange.empty]
  given := by simp [Exchange.empty]

theorem Exchange.Inv.opened (lib : JsonLine J) (id : Nat) (kind : Kind) (method : String)
    (params : J) :
    Exchange.Inv lib id { (.empty : Exchange J) with
      request := some ⟨kind, method, params, false, true, none, [], []⟩, pending := some kind } where
  fresh hnone := nomatch hnone
  once := by simp [Exchange.load, Exchange.empty]
  cancelled := by simp [Exchange.empty]
  aborted := by simp [Exchange.empty]
  agrees := rfl
  origin := by simp [Exchange.empty, heldFrame]
  items := by simp [Exchange.empty, History.empty]
  value := by simp [Exchange.empty, History.empty]
  given r hr _ := by
    cases hr
    exact ⟨rfl, rfl, [], rfl, fun _ => rfl⟩

/-! ### One step -/

variable {rest : List (ServerFrame J)} {r : Request J} {line : ServerFrame J}

section Step

variable {lib : JsonLine J} {id : Nat} {delivers : Bool} {e e' : Exchange J}

theorem Exchange.Inv.request_ne_none (hinv : e.Inv lib id) (h : Exchange.Next lib id delivers e e') :
    e'.request ≠ none := by
  have hsome : e ≠ .empty → e.request ≠ none := fun hne hnone => hne (hinv.fresh hnone)
  cases h with
  | submit _ _ | recv _ _ | drop _ | push _ _ _ _ => simp
  | dead hanswers harrives hpending hrequest hheld => simp [hrequest]
  | skip hasks | cancel hasks _ _ | serve _ _ hasks _ =>
      exact hsome fun he => by simp [he, Exchange.empty] at hasks
  | stream htask | item htask _ | send htask =>
      exact hsome fun he => by simp [he, Exchange.empty] at htask
  | finish _ htask _ => exact hsome fun he => by simp [he, Exchange.empty] at htask
  | nothing hanswers _ | ignore hanswers _ _ =>
      exact hsome fun he => by simp [he, Exchange.empty] at hanswers
  | settle hanswers _ =>
      have hne := hsome fun he => by simp [he, Exchange.empty] at hanswers
      unfold Exchange.settle
      split <;> simpa using hne

theorem Exchange.Inv.load_le (hinv : e.Inv lib id) (h : Exchange.Next lib id delivers e e') :
    e'.load ≤ 1 := by
  have honce := hinv.once
  unfold Exchange.load at honce ⊢
  cases h with
  | submit hrequest hsent =>
      simp only [hrequest, Option.any_some, hsent, List.filter_append, List.length_append] at honce ⊢
      simpa [requestFrame] using honce
  | recv hrequest hqueue | drop hrequest => simpa [hrequest] using honce
  | skip hasks =>
      simp only [hasks, List.filter_cons] at honce
      split at honce
      · simp only [List.length_cons] at honce
        dsimp only
        omega
      · exact honce
  | cancel hasks hcancel htask => simpa [hasks, hcancel, htask] using honce
  | serve method params hasks hcancel =>
      simp only [hasks, List.filter_cons, hcancel, Bool.not_false, if_true, List.length_cons,
        Option.isSome_some] at honce ⊢
      omega
  | stream htask | item htask _ | send htask => simpa [htask] using honce
  | finish _ htask _ =>
      obtain ⟨method, params, htask⟩ | htask := htask <;> simpa [htask] using honce
  | nothing _ _ | ignore _ _ _ => exact honce
  | settle hanswers _ =>
      unfold Exchange.settle
      cases hrequest : e.request with
      | none => simpa [hrequest] using honce
      | some r => by_cases hcall : e.pending = some .call <;> simpa [hcall, hrequest] using honce
  | push _ _ _ hrequest => simpa [hrequest] using honce
  | dead _ _ _ hrequest hheld =>
      simp only [List.filter_append, List.length_append]
      simpa [cancelFrame] using honce

theorem Exchange.Next.request_before (h : Exchange.Next lib id delivers e e') {r' : Request J}
    (hrequest' : e'.request = some r') :
    ∃ r, e.request = some r ∧ r'.kind = r.kind ∧ (r'.held = true → r.held = true) := by
  cases h with
  | submit hrequest _ | recv hrequest _ | drop hrequest | push _ _ _ hrequest =>
      cases hrequest'
      exact ⟨_, hrequest, rfl, by simp⟩
  | settle _ _ =>
      unfold Exchange.settle at hrequest'
      cases hrequest : e.request with
      | none => simp [hrequest] at hrequest'
      | some r =>
          by_cases hcall : e.pending = some .call
          · simp only [hcall, if_true, hrequest, Option.map_some, Option.some.injEq] at hrequest'
            exact ⟨r, rfl, by simp [← hrequest']⟩
          · simp only [hcall, if_false, hrequest, Option.some.injEq] at hrequest'
            exact ⟨r, rfl, by simp [hrequest']⟩
  | _ => exact ⟨r', hrequest', rfl, fun hheld => hheld⟩

theorem Exchange.Next.cancel_before (h : Exchange.Next lib id delivers e e') {line : ClientFrame J}
    (hline : line ∈ e'.asks) (hcancel : line.cancel = true) :
    line ∈ e.asks ∨ ∃ r, e.request = some r ∧ r.held = false := by
  cases h with
  | submit hrequest _ =>
      obtain hline | hline := List.mem_append.mp hline
      · exact .inl hline
      · simp only [List.mem_singleton] at hline
        simp [hline, requestFrame] at hcancel
  | skip hasks | cancel hasks _ _ | serve _ _ hasks _ =>
      exact .inl (hasks ▸ List.mem_cons_of_mem _ hline)
  | dead _ _ _ hrequest hheld => exact .inr ⟨_, hrequest, hheld⟩
  | settle _ _ | _ => exact .inl hline

theorem Exchange.Next.aborted_before (h : Exchange.Next lib id delivers e e')
    (htask' : e'.task = some .aborted) :
    e.task = some .aborted ∨ ∃ line ∈ e.asks, line.cancel = true := by
  cases h with
  | cancel hasks hcancel _ => exact .inr ⟨_, hasks ▸ List.mem_cons_self, hcancel⟩
  | serve _ _ _ _ | stream _ | item _ _ | finish _ _ _ => cases htask'
  | @send _ frame more _ => cases more <;> cases htask'
  | settle _ _ | _ => exact .inl htask'

theorem Exchange.Inv.task_none (hinv : e.Inv lib id) {line : ClientFrame J}
    {rest : List (ClientFrame J)} (hasks : e.asks = line :: rest) (hcancel : line.cancel = false) :
    e.task = none := by
  have honce := hinv.once
  simp only [Exchange.load, hasks, List.filter_cons, hcancel, Bool.not_false, if_true,
    List.length_cons] at honce
  cases htask : e.task with
  | none => rfl
  | some task =>
      simp only [htask, Option.isSome_some, if_true] at honce
      omega

theorem Exchange.Inv.agrees_next (hinv : e.Inv lib id) (h : Exchange.Next lib id delivers e e') :
    TaskAgrees e'.task e'.history := by
  have hagrees := hinv.agrees
  cases h with
  | @cancel _ line rest task hasks hcancel htask =>
      rw [htask] at hagrees
      cases task with
      | finished => exact hagrees
      | _ => trivial
  | serve method params hasks hcancel =>
      rw [hinv.task_none hasks hcancel] at hagrees
      exact hagrees
  | stream htask =>
      rw [htask] at hagrees
      simp only [TaskAgrees] at hagrees ⊢
      simp [hagrees, History.empty]
  | item htask _ =>
      rw [htask] at hagrees
      exact hagrees
  | finish _ htask _ => simp [TaskAgrees]
  | @send _ frame more htask =>
      rw [htask] at hagrees
      cases more <;> exact hagrees
  | settle _ _ | _ => exact hagrees

theorem Exchange.Inv.ending_none (hinv : e.Inv lib id)
    (htask : (∃ method params, e.task = some (.handling method params)) ∨
      e.task = some .streaming) : e.history.ending = none := by
  have hagrees := hinv.agrees
  obtain ⟨method, params, htask⟩ | htask := htask
  · rw [htask] at hagrees
    simp only [TaskAgrees] at hagrees
    simp [hagrees, History.empty]
  · rw [htask] at hagrees
    exact hagrees

omit [DecidableEq J] in
theorem heldFrame_abort (task : Task J) : heldFrame (some task.abort) = [] := by
  cases task <;> rfl

omit [DecidableEq J] in
theorem heldFrame_sending (frame : ServerFrame J) (more : Bool) :
    heldFrame (some (.sending frame more)) = [frame] := rfl

omit [DecidableEq J] in
theorem heldFrame_send (more : Bool) :
    heldFrame (some (if more then .streaming else .finished) : Option (Task J)) = [] := by
  cases more <;> rfl

omit [DecidableEq J] in
theorem History.frames_item (history : History J) (hending : history.ending = none) (item : J) :
    History.frames id ⟨history.items ++ [item], history.ending⟩
      = history.frames id ++ [itemFrame id item] := by
  simp [History.frames, hending]

omit [DecidableEq J] in
theorem History.frames_finish (history : History J) (hending : history.ending = none)
    (ending : Ending J) :
    History.frames id ⟨history.items, some ending⟩
      = history.frames id ++ [endFrame id ending] := by
  simp [History.frames, hending]

theorem Exchange.Inv.origin_next (hinv : e.Inv lib id) (h : Exchange.Next lib id delivers e e') :
    ∀ frame ∈ e'.answers ++ heldFrame e'.task, frame ∈ e'.history.frames id := by
  intro frame hframe
  have horigin := hinv.origin frame
  cases h with
  | cancel _ _ _ =>
      simp only [heldFrame_abort, List.append_nil] at hframe
      exact horigin (List.mem_append_left _ hframe)
  | serve _ _ _ _ | stream _ =>
      simp only [heldFrame, List.append_nil] at hframe
      exact horigin (List.mem_append_left _ hframe)
  | item htask _ =>
      simp only [heldFrame, List.mem_append, List.mem_singleton] at hframe
      rw [History.frames_item _ (hinv.ending_none (.inr htask))]
      obtain hframe | rfl := hframe
      · exact List.mem_append_left _ (horigin (List.mem_append_left _ hframe))
      · simp
  | finish _ htask _ =>
      simp only [heldFrame, List.mem_append, List.mem_singleton] at hframe
      rw [History.frames_finish _ (hinv.ending_none htask)]
      obtain hframe | rfl := hframe
      · exact List.mem_append_left _ (horigin (List.mem_append_left _ hframe))
      · simp
  | send htask =>
      simp only [heldFrame_send, List.append_nil] at hframe
      apply horigin
      rw [htask]
      exact hframe
  | nothing hanswers _ | settle hanswers _ | push hanswers _ _ _ | dead hanswers _ _ _ _
  | ignore hanswers _ _ =>
      apply horigin
      rw [hanswers]
      exact List.mem_cons_of_mem _ hframe
  | submit _ _ | _ => exact horigin hframe

omit [DecidableEq J] in
theorem Request.ReadsItem.of_before {r r' : Request J} {item : J} (h : r.ReadsItem lib item)
    (hkind : r'.kind = r.kind) (hheld : r'.held = true → r.held = true) :
    r'.ReadsItem lib item :=
  fun hheld' hstream => h (hheld hheld') (hkind ▸ hstream)

theorem Request.ReadsValue.of_before {r r' : Request J} {value : J} (h : r.ReadsValue lib value)
    (hkind : r'.kind = r.kind) (hheld : r'.held = true → r.held = true) :
    r'.ReadsValue lib value := by
  intro hheld'
  rw [hkind]
  exact h (hheld hheld')

theorem Exchange.Inv.items_next (hinv : e.Inv lib id) (h : Exchange.Next lib id delivers e e') :
    ∀ r', e'.request = some r' → ∀ item ∈ e'.history.items, r'.ReadsItem lib item := by
  intro r' hrequest' item hitem
  obtain ⟨r, hrequest, hkind, hheld⟩ := h.request_before hrequest'
  refine Request.ReadsItem.of_before ?_ hkind hheld
  have hitems := hinv.items r hrequest item
  cases h with
  | item _ hreads =>
      simp only [List.mem_append, List.mem_singleton] at hitem
      obtain hitem | rfl := hitem
      · exact hitems hitem
      · exact hreads r hrequest
  | submit _ _ | _ => exact hitems hitem

theorem Exchange.Inv.value_next (hinv : e.Inv lib id) (h : Exchange.Next lib id delivers e e') :
    ∀ r', e'.request = some r' → ∀ value, e'.history.ending = some (.value value) →
      r'.ReadsValue lib value := by
  intro r' hrequest' value hending
  obtain ⟨r, hrequest, hkind, hheld⟩ := h.request_before hrequest'
  refine Request.ReadsValue.of_before ?_ hkind hheld
  have hvalue := hinv.value r hrequest value
  cases h with
  | finish _ _ hreads =>
      cases hending
      exact hreads value rfl r hrequest
  | submit _ _ | _ => exact hvalue hending

/-! ### What the caller is given -/

omit [DecidableEq J] in
theorem itemFrame_ne_endFrame (item : J) (ending : Ending J) :
    itemFrame id item ≠ endFrame id ending := by
  cases ending <;> simp [endFrame, itemFrame, okFrame, errFrame, doneFrame]

omit [DecidableEq J] in
theorem History.frames_split {history : History J} {seen : List J}
    (h : history.frames id = seen.map (itemFrame id) ++ rest) :
    ∃ more, history.items = seen ++ more ∧
      rest = more.map (itemFrame id) ++ (history.ending.map (endFrame id)).toList := by
  obtain ⟨items, ending⟩ := history
  simp only [History.frames] at h ⊢
  induction seen generalizing items with
  | nil => exact ⟨items, rfl, h.symm⟩
  | cons first seen ih =>
      cases items with
      | nil =>
          cases ending with
          | none => simp at h
          | some ending =>
              simp only [List.map_nil, List.nil_append, Option.map_some, Option.toList_some,
                List.map_cons, List.cons_append, List.cons.injEq] at h
              exact absurd h.1.symm (itemFrame_ne_endFrame first ending)
      | cons item items =>
          simp only [List.map_cons, List.cons_append, List.cons.injEq] at h
          have heq : item = first := by simpa [itemFrame] using h.1
          obtain ⟨more, hitems, hrest⟩ := ih items h.2
          exact ⟨more, by rw [heq, hitems, List.cons_append], hrest⟩

omit [DecidableEq J] in
theorem History.next_frame {history : History J} {seen : List J} {frame : ServerFrame J}
    (h : history.frames id = seen.map (itemFrame id) ++ frame :: rest) :
    (∃ item ∈ history.items, frame = itemFrame id item) ∨
      (history.items = seen ∧ rest = [] ∧
        ∃ ending, history.ending = some ending ∧ frame = endFrame id ending) := by
  obtain ⟨more, hitems, hrest⟩ := History.frames_split h
  cases more with
  | cons item more =>
      simp only [List.map_cons, List.cons_append, List.cons.injEq] at hrest
      exact .inl ⟨item, by simp [hitems], hrest.1⟩
  | nil =>
      cases hending : history.ending with
      | none => simp [hending] at hrest
      | some ending =>
          simp only [hending, List.map_nil, List.nil_append, Option.map_some, Option.toList_some,
            List.cons.injEq] at hrest
          exact .inr ⟨by simpa using hitems, hrest.2, ending, rfl, hrest.1⟩

theorem arrives_itemFrame {item : J} (hcarried : Carried lib item) :
    (itemFrame id item).arrives lib = .item item := by
  simp [ServerFrame.arrives, ServerFrame.readBack, itemFrame, readField, hcarried.1, hcarried.2,
    ServerFrame.delivery]

theorem arrives_itemFrame_ne_settle (item : J) (result : Except RpcError J) :
    (itemFrame id item).arrives lib ≠ .settle result := by
  intro harrives
  simp only [ServerFrame.arrives, ServerFrame.readBack, itemFrame, readField,
    Option.bind_some] at harrives
  cases hread : lib.reread item with
  | none => simp [hread] at harrives
  | some v => by_cases hnull : v = lib.null <;> simp [hread, hnull, ServerFrame.delivery] at harrives

theorem arrives_endFrame (hheld : r.held = true) {ending : Ending J}
    (hreads : ∀ value, ending = .value value → r.ReadsValue lib value) :
    ∃ result, (endFrame id ending).arrives lib = .settle result ∧
      (r.kind = .call → result = ending.answer) := by
  cases ending with
  | failed err =>
      refine ⟨.error (.failed err.toString), ?_, fun _ => rfl⟩
      simp [ServerFrame.arrives, ServerFrame.readBack, endFrame, errFrame, readField,
        ServerFrame.delivery]
  | ended =>
      refine ⟨.error .closed, ?_, fun _ => rfl⟩
      simp [ServerFrame.arrives, ServerFrame.readBack, endFrame, doneFrame, readField,
        ServerFrame.delivery]
  | value value =>
      have hvalue := hreads value rfl hheld
      cases hkind : r.kind with
      | call =>
          rw [hkind] at hvalue
          refine ⟨.ok value, ?_, fun _ => rfl⟩
          simp [ServerFrame.arrives, ServerFrame.readBack, endFrame, okFrame, readField,
            hvalue.1, hvalue.2, ServerFrame.delivery]
      | stream =>
          rw [hkind] at hvalue
          cases hread : lib.reread value with
          | none => simp [Arrives, hread] at hvalue
          | some v =>
              have hne : v ≠ lib.null := by simpa [Arrives, hread] using hvalue
              refine ⟨.ok v, ?_, fun hcall => nomatch hcall⟩
              simp [ServerFrame.arrives, ServerFrame.readBack, endFrame, okFrame, readField,
                hread, hne, ServerFrame.delivery]

omit [DecidableEq J] in
theorem Exchange.Given.congr {r r' : Request J} (h : e.Given id r) (hpending : e'.pending = e.pending)
    (hhistory : e'.history = e.history)
    (hframes : e'.answers ++ heldFrame e'.task = e.answers ++ heldFrame e.task)
    (hkind : r'.kind = r.kind) (hresult : r'.result = r.result)
    (hread : r'.taken ++ r'.queue = r.taken ++ r.queue) : e'.Given id r' := by
  unfold Exchange.Given at h ⊢
  rw [hpending, hhistory, hframes, hkind, hresult, hread]
  cases hp : e.pending with
  | some kind => simpa only [hp] using h
  | none =>
      simp only [hp] at h ⊢
      obtain ⟨hanswers, htask, hend⟩ := h
      rw [hanswers, htask, List.append_nil, List.append_eq_nil_iff] at hframes
      exact ⟨hframes.1, hframes.2, hend⟩

omit [DecidableEq J] in
theorem Exchange.Given.produce (h : e.Given id r) (hending : e.history.ending = none)
    (hheld : heldFrame e.task = []) {task : Task J} {history : History J} {frame : ServerFrame J}
    (htask : heldFrame (some task) = [frame])
    (hframes : history.frames id = e.history.frames id ++ [frame]) :
    Exchange.Given id { e with task := some task, history := history } r := by
  unfold Exchange.Given at h ⊢
  cases hp : e.pending with
  | none =>
      simp only [hp] at h
      obtain ⟨-, -, ending, hsome, -⟩ := h
      rw [hending] at hsome
      cases hsome
  | some kind =>
      simp only [hp] at h ⊢
      obtain ⟨hkind, hresult, seen, hseen, hread⟩ := h
      refine ⟨hkind, hresult, seen, ?_, hread⟩
      rw [hframes, hseen, hheld, htask, List.append_nil, List.append_assoc]

omit [DecidableEq J] in
theorem Exchange.Given.pending_of_answers (h : e.Given id r) (hanswers : e.answers ≠ []) :
    e.pending = some r.kind := by
  unfold Exchange.Given at h
  cases hp : e.pending with
  | none =>
      simp only [hp] at h
      exact absurd h.1 hanswers
  | some kind =>
      simp only [hp] at h
      rw [h.1]

def Request.Sees (r r' : Request J) (item : J) : Prop :=
  r'.kind = r.kind ∧ r'.result = r.result ∧
    (r.kind = .stream → r'.taken ++ r'.queue = r.taken ++ r.queue ++ [item])

omit [DecidableEq J] in
theorem Exchange.Given.see {r r' : Request J} {item : J} (h : e.Given id r)
    (hanswers : e.answers = itemFrame id item :: rest) (hsees : r.Sees r' item)
    (request : Option (Request J)) :
    Exchange.Given id { e with answers := rest, request := request } r' := by
  have hpending := h.pending_of_answers (by simp [hanswers])
  unfold Exchange.Given at h ⊢
  simp only [hpending] at h ⊢
  obtain ⟨-, hresult, seen, hseen, hread⟩ := h
  obtain ⟨hkind, hsame, htaken⟩ := hsees
  refine ⟨hkind.symm, by rw [hsame, hresult], seen ++ [item], ?_, fun hstream => ?_⟩
  · rw [hseen, hanswers]
    simp
  · rw [htaken (hkind ▸ hstream), hread (hkind ▸ hstream)]

omit [DecidableEq J] in
theorem Exchange.Given.next_frame (h : e.Given id r) (hanswers : e.answers = line :: rest) :
    (∃ item ∈ e.history.items, line = itemFrame id item) ∨
      (rest = [] ∧ heldFrame e.task = [] ∧
        ∃ ending, e.history.ending = some ending ∧ line = endFrame id ending ∧
          (r.kind = .stream → r.taken ++ r.queue = e.history.items)) := by
  have hpending := h.pending_of_answers (by simp [hanswers])
  unfold Exchange.Given at h
  simp only [hpending] at h
  obtain ⟨-, -, seen, hseen, hread⟩ := h
  rw [hanswers, List.cons_append] at hseen
  obtain hitem | ⟨hitems, hrest, ending, hending, hline⟩ := History.next_frame hseen
  · exact .inl hitem
  · obtain ⟨hnil, htask⟩ := List.append_eq_nil_iff.mp hrest
    exact .inr ⟨hnil, htask, ending, hending, hline, fun hstream => by rw [hread hstream, hitems]⟩

theorem Exchange.Inv.given_route (hinv : e.Inv lib id) (hrequest : e.request = some r)
    (hheld : r.held = true)
    (hanswers : e.answers = line :: rest) :
    (∃ item, line = itemFrame id item ∧ r.ReadsItem lib item) ∨
      (rest = [] ∧ heldFrame e.task = [] ∧
        ∃ ending result, e.history.ending = some ending ∧ line.arrives lib = .settle result ∧
          (r.kind = .call → result = ending.answer) ∧
          (r.kind = .stream → r.taken ++ r.queue = e.history.items)) := by
  obtain ⟨item, hmem, hline⟩ | ⟨hrest, htask, ending, hending, hline, hread⟩ :=
    (hinv.given r hrequest hheld).next_frame hanswers
  · exact .inl ⟨item, hline, hinv.items r hrequest item hmem⟩
  · obtain ⟨result, harrives, hresult⟩ : ∃ result, (endFrame id ending).arrives lib = .settle result ∧
        (r.kind = .call → result = ending.answer) :=
      arrives_endFrame hheld fun value hvalue => hinv.value r hrequest value (hvalue ▸ hending)
    exact .inr ⟨hrest, htask, ending, result, hending, hline ▸ harrives, hresult, hread⟩

theorem Exchange.Inv.given_next (hinv : e.Inv lib id) (h : Exchange.Next lib id delivers e e') :
    ∀ r', e'.request = some r' → r'.held = true → e'.Given id r' := by
  intro r' hrequest' hheld'
  cases h with
  | submit hrequest hsent =>
      cases hrequest'
      exact (hinv.given _ hrequest hheld').congr rfl rfl rfl rfl rfl rfl
  | recv hrequest hqueue =>
      cases hrequest'
      exact (hinv.given _ hrequest hheld').congr rfl rfl rfl rfl rfl (by simp [hqueue])
  | drop hrequest =>
      cases hrequest'
      cases hheld'
  | skip hasks => exact (hinv.given _ hrequest' hheld').congr rfl rfl rfl rfl rfl rfl
  | cancel hasks hcancel htask =>
      have hdead := hinv.cancelled _ (hasks ▸ List.mem_cons_self) hcancel r' hrequest'
      exact absurd hheld' (by simp [hdead])
  | serve method params hasks hcancel =>
      have htask := hinv.task_none hasks hcancel
      exact (hinv.given _ hrequest' hheld').congr rfl rfl (by simp [htask, heldFrame]) rfl rfl rfl
  | stream htask =>
      exact (hinv.given _ hrequest' hheld').congr rfl rfl (by simp [htask, heldFrame]) rfl rfl rfl
  | item htask _ =>
      have hending := hinv.ending_none (.inr htask)
      exact (hinv.given _ hrequest' hheld').produce hending (by rw [htask]; rfl) rfl
        (History.frames_item _ hending _)
  | finish _ htask _ =>
      have hending := hinv.ending_none htask
      refine (hinv.given _ hrequest' hheld').produce hending ?_ rfl
        (History.frames_finish _ hending _)
      obtain ⟨method, params, htask⟩ | htask := htask <;> rw [htask] <;> rfl
  | send htask =>
      refine (hinv.given _ hrequest' hheld').congr rfl rfl ?_ rfl rfl rfl
      simp only [heldFrame_send, htask, List.append_nil]
      rfl
  | nothing hanswers harrives =>
      have hgiven := hinv.given _ hrequest' hheld'
      obtain ⟨item, rfl, hreads⟩ | ⟨-, -, ending, result, -, hsettle, -⟩ :=
        hinv.given_route hrequest' hheld' hanswers
      · refine hgiven.see hanswers ⟨rfl, rfl, fun hstream => ?_⟩ _
        rw [arrives_itemFrame (hreads hheld' hstream)] at harrives
        cases harrives
      · rw [hsettle] at harrives
        cases harrives
  | @push _ line rest item r hanswers harrives hpending hrequest =>
      cases hrequest'
      have hgiven := hinv.given r hrequest hheld'
      have hkind : r.kind = .stream := by
        have hsome := hgiven.pending_of_answers (by simp [hanswers])
        rw [hpending] at hsome
        exact (Option.some.inj hsome).symm
      obtain ⟨sent, rfl, hreads⟩ | ⟨-, -, ending, result, -, hsettle, -⟩ :=
        hinv.given_route hrequest hheld' hanswers
      · rw [arrives_itemFrame (hreads hheld' hkind)] at harrives
        cases harrives
        have hsees : r.Sees { r with queue := r.queue ++ [item] } item := ⟨rfl, rfl, by simp⟩
        exact hgiven.see hanswers hsees _
      · rw [hsettle] at harrives
        cases harrives
  | dead hanswers harrives hpending hrequest hheld =>
      rw [hrequest] at hrequest'
      cases hrequest'
      exact absurd hheld' (by simp [hheld])
  | ignore hanswers harrives hpending =>
      have hgiven := hinv.given _ hrequest' hheld'
      obtain ⟨item, rfl, hreads⟩ | ⟨-, -, ending, result, -, hsettle, -⟩ :=
        hinv.given_route hrequest' hheld' hanswers
      · refine hgiven.see hanswers ⟨rfl, rfl, fun hstream => ?_⟩ _
        have hsome := hgiven.pending_of_answers (by simp [hanswers])
        rw [hstream] at hsome
        obtain hpending | hpending := hpending
        · exact absurd hsome hpending
        · simp [hpending] at hrequest'
      · rw [hsettle] at harrives
        cases harrives
  | @settle _ line rest result hanswers harrives =>
      unfold Exchange.settle at hrequest' ⊢
      cases hrequest : e.request with
      | none => simp [hrequest] at hrequest'
      | some r =>
          have hsame : r'.kind = r.kind ∧ r'.held = r.held ∧ r'.taken = r.taken ∧
              r'.queue = r.queue ∧ (e.pending = some .call → r'.result = some result) := by
            by_cases hcall : e.pending = some .call
            · simp only [hcall, if_true, hrequest, Option.map_some, Option.some.injEq] at hrequest'
              simp [← hrequest']
            · simp only [hcall, if_false, hrequest, Option.some.injEq] at hrequest'
              simp [hrequest', hcall]
          obtain ⟨hkind, hheld, htaken, hqueue, hresult⟩ := hsame
          rw [hheld] at hheld'
          have hpending := (hinv.given r hrequest hheld').pending_of_answers (by simp [hanswers])
          obtain ⟨item, rfl, -⟩ | ⟨hrest, htask, ending, got, hending, hsettle, hgot, hread⟩ :=
            hinv.given_route hrequest hheld' hanswers
          · exact absurd harrives (arrives_itemFrame_ne_settle item result)
          · rw [hsettle] at harrives
            cases harrives
            refine ⟨hrest, htask, ending, hending, fun hcall => ?_, fun hstream => ?_⟩
            · rw [hkind] at hcall
              rw [hresult (hcall ▸ hpending), hgot hcall]
            · rw [htaken, hqueue]
              exact hread (hkind ▸ hstream)

theorem Exchange.Inv.next (hinv : e.Inv lib id) (h : Exchange.Next lib id delivers e e') :
    e'.Inv lib id where
  fresh hnone := absurd hnone (hinv.request_ne_none h)
  once := hinv.load_le h
  cancelled line hline hcancel r' hrequest' := by
    obtain ⟨r, hrequest, -, hheld⟩ := h.request_before hrequest'
    have hdead : r.held = false := by
      obtain hbefore | ⟨r₀, hr₀, hdead⟩ := h.cancel_before hline hcancel
      · exact hinv.cancelled line hbefore hcancel r hrequest
      · rw [hrequest] at hr₀
        cases hr₀
        exact hdead
    exact Bool.eq_false_iff.mpr fun hheld' => by simp [hheld hheld'] at hdead
  aborted htask' r' hrequest' := by
    obtain ⟨r, hrequest, -, hheld⟩ := h.request_before hrequest'
    have hdead : r.held = false := by
      obtain htask | ⟨line, hline, hcancel⟩ := h.aborted_before htask'
      · exact hinv.aborted htask r hrequest
      · exact hinv.cancelled line hline hcancel r hrequest
    exact Bool.eq_false_iff.mpr fun hheld' => by simp [hheld hheld'] at hdead
  agrees := hinv.agrees_next h
  origin := hinv.origin_next h
  items := hinv.items_next h
  value := hinv.value_next h
  given := hinv.given_next h

end Step

/-! ## Steps of the connection -/

namespace Connection

variable {lib : JsonLine J} {s s' : Connection J}

def settle (s : Connection J) (id : Nat) (result : Except RpcError J) : Connection J :=
  match s.pending id with
  | some .call => (s.forget id).resolve id result
  | _ => s.forget id

def pushItem (lib : JsonLine J) (s : Connection J) (id : Nat) (item : J) :
    Option (Connection J) :=
  match s.pending id, s.requests id with
  | some .stream, some request =>
      if request.held then
        if request.queue.length < streamQueueCap then
          some (s.setRequest id { request with queue := request.queue ++ [item] })
        else none
      else if s.toServer.length < channelCap then
        some { s.forget id with toServer := s.toServer ++ [cancelFrame lib id] }
      else none
  | _, _ => some s

omit [DecidableEq J] in
theorem routeFrame_eq (s : Connection J) (frame : ServerFrame J) :
    s.routeFrame lib frame =
      match frame.delivery with
      | .nothing => some s
      | .settle result => some (s.settle frame.id result)
      | .item item => s.pushItem lib frame.id item := by
  obtain ⟨id, ok, err, item, done⟩ := frame
  have hremove (result : Except RpcError J) :
      (match s.pending id with
        | some .call => some ((s.forget id).resolve id result)
        | _ => some (s.forget id)) = some (s.settle id result) := by
    unfold settle
    split <;> rfl
  cases err with
  | some err => exact hremove _
  | none =>
      cases ok with
      | some value => exact hremove _
      | none =>
          cases item with
          | some item => rfl
          | none =>
              cases done with
              | false => rfl
              | true => exact hremove _

theorem readBack_id {line frame : ServerFrame J} (h : line.readBack lib = some frame) :
    frame.id = line.id := by
  simp only [ServerFrame.readBack, Option.bind_eq_some_iff, Option.map_eq_some_iff] at h
  obtain ⟨ok, -, item, -, rfl⟩ := h
  rfl

theorem route_eq (s : Connection J) (line : ServerFrame J) :
    s.route lib line =
      match line.arrives lib with
      | .nothing => some s
      | .settle result => some (s.settle line.id result)
      | .item item => s.pushItem lib line.id item := by
  unfold route ServerFrame.arrives
  cases hread : line.readBack lib with
  | none => rfl
  | some frame => simp only [routeFrame_eq, readBack_id hread]

theorem readBack_ask {line frame : ClientFrame J} (h : line.readBack lib = some frame) :
    frame.id = line.id ∧ frame.cancel = line.cancel := by
  unfold ClientFrame.readBack at h
  split at h
  · cases h
    exact ⟨rfl, rfl⟩
  · obtain ⟨params, -, rfl⟩ := Option.map_eq_some_iff.mp h
    exact ⟨rfl, rfl⟩

/-! ### The exchanges after a change -/

omit [DecidableEq J] in
theorem exchange_setRequest (id : Nat) (r : Request J) :
    (s.setRequest id r).exchange id = { s.exchange id with request := some r } := by
  simp [exchange, setRequest]

omit [DecidableEq J] in
theorem exchange_setRequest_ne (r : Request J) {id j : Nat} (h : j ≠ id) :
    (s.setRequest id r).exchange j = s.exchange j := by
  simp [exchange, setRequest, Function.update_of_ne h]

omit [DecidableEq J] in
theorem exchange_setTask (id : Nat) (task : Task J) :
    (s.setTask id task).exchange id = { s.exchange id with task := some task } := by
  simp [exchange, setTask]

omit [DecidableEq J] in
theorem exchange_setTask_ne (task : Task J) {id j : Nat} (h : j ≠ id) :
    (s.setTask id task).exchange j = s.exchange j := by
  simp [exchange, setTask, Function.update_of_ne h]

omit [DecidableEq J] in
theorem exchange_record (id : Nat) (history : History J) :
    (s.record id history).exchange id = { s.exchange id with history := history } := by
  simp [exchange, record]

omit [DecidableEq J] in
theorem exchange_record_ne (history : History J) {id j : Nat} (h : j ≠ id) :
    (s.record id history).exchange j = s.exchange j := by
  simp [exchange, record, Function.update_of_ne h]

omit [DecidableEq J] in
theorem exchange_forget_ne {id j : Nat} (h : j ≠ id) :
    (s.forget id).exchange j = s.exchange j := by
  simp [exchange, forget, Function.update_of_ne h]

omit [DecidableEq J] in
theorem exchange_settle (id : Nat) (result : Except RpcError J) :
    (s.settle id result).exchange id = (s.exchange id).settle result := by
  unfold settle Exchange.settle
  cases hpending : s.pending id with
  | none => simp [exchange, forget, hpending]
  | some kind =>
      cases kind with
      | stream => simp [exchange, forget, hpending]
      | call =>
          cases hrequest : s.requests id <;>
            simp [exchange, forget, resolve, setRequest, hpending, hrequest]

omit [DecidableEq J] in
theorem exchange_settle_ne (result : Except RpcError J) {id j : Nat} (h : j ≠ id) :
    (s.settle id result).exchange j = s.exchange j := by
  unfold settle
  split
  · unfold resolve
    split
    · exact exchange_forget_ne h
    · rw [exchange_setRequest_ne _ h, exchange_forget_ne h]
  · exact exchange_forget_ne h

omit [DecidableEq J] in
theorem exchange_submit (id : Nat) (r r' : Request J) :
    Connection.exchange { s.setRequest id r' with toServer := s.toServer ++ [requestFrame id r] } id
      = { s.exchange id with
          request := some r', asks := (s.exchange id).asks ++ [requestFrame id r] } := by
  simp [exchange, setRequest, requestFrame]

omit [DecidableEq J] in
theorem exchange_submit_ne (r r' : Request J) {id j : Nat} (h : j ≠ id) :
    Connection.exchange { s.setRequest id r' with toServer := s.toServer ++ [requestFrame id r] } j
      = s.exchange j := by
  simp [exchange, setRequest, requestFrame, Function.update_of_ne h, h.symm]

omit [DecidableEq J] in
theorem exchange_cancel (lib : JsonLine J) (id : Nat) :
    Connection.exchange { s.forget id with toServer := s.toServer ++ [cancelFrame lib id] } id
      = { s.exchange id with
          pending := none, asks := (s.exchange id).asks ++ [cancelFrame lib id] } := by
  simp [exchange, forget, cancelFrame]

omit [DecidableEq J] in
theorem exchange_cancel_ne (lib : JsonLine J) {id j : Nat} (h : j ≠ id) :
    Connection.exchange { s.forget id with toServer := s.toServer ++ [cancelFrame lib id] } j
      = s.exchange j := by
  simp [exchange, forget, cancelFrame, Function.update_of_ne h, h.symm]

omit [DecidableEq J] in
theorem exchange_send (task : Task J) (frame : ServerFrame J) :
    Connection.exchange { s.setTask frame.id task with toClient := s.toClient ++ [frame] } frame.id
      = { s.exchange frame.id with
          task := some task, answers := (s.exchange frame.id).answers ++ [frame] } := by
  simp [exchange, setTask]

omit [DecidableEq J] in
theorem exchange_send_ne (task : Task J) (frame : ServerFrame J) {j : Nat} (h : j ≠ frame.id) :
    Connection.exchange { s.setTask frame.id task with toClient := s.toClient ++ [frame] } j
      = s.exchange j := by
  simp [exchange, setTask, Function.update_of_ne h, h.symm]

omit [DecidableEq J] in
theorem asks_cons {line : ClientFrame J} {rest : List (ClientFrame J)}
    (h : s.toServer = line :: rest) :
    (s.exchange line.id).asks = line :: (rest.filter fun l => l.id = line.id) := by
  simp [exchange, h]

omit [DecidableEq J] in
theorem exchange_served {line : ClientFrame J} {rest : List (ClientFrame J)}
    (h : s.toServer = line :: rest) {j : Nat} (hj : j ≠ line.id) :
    Connection.exchange { s with toServer := rest } j = s.exchange j := by
  simp [exchange, h, hj.symm]

omit [DecidableEq J] in
theorem answers_cons (h : s.toClient = line :: rest) :
    (s.exchange line.id).answers = line :: (rest.filter fun l => l.id = line.id) := by
  simp [exchange, h]

omit [DecidableEq J] in
theorem exchange_routed (h : s.toClient = line :: rest) {j : Nat} (hj : j ≠ line.id) :
    Connection.exchange { s with toClient := rest } j = s.exchange j := by
  simp [exchange, h, hj.symm]

/-! ### The step lemma -/

end Connection

/-- The steps that hand something on: not a new request, not a caller that gives up, not a handler. -/
def Action.delivers : Action J → Bool
  | .submit _ | .recv _ | .serve | .send _ | .route => true
  | .request _ _ _ | .drop _ | .reply _ _ | .next _ _ => false

namespace Connection

variable {lib : JsonLine J} {s s' : Connection J}

/-- One exchange takes a step, and the others stay as they are. -/
def Moves (lib : JsonLine J) (delivers : Bool) (s s' : Connection J) : Prop :=
  ∃ id, Exchange.Next lib id delivers (s.exchange id) (s'.exchange id) ∧
    ∀ j, j ≠ id → s'.exchange j = s.exchange j

theorem moves_serve {line : ClientFrame J} {rest : List (ClientFrame J)}
    (hserver : s.toServer = line :: rest) :
    Moves lib true s (serve lib { s with toServer := rest } line) := by
  have hasks := asks_cons hserver
  have hothers (j : Nat) (hj : j ≠ line.id) := exchange_served hserver hj
  have hskip : Moves lib true s { s with toServer := rest } := ⟨line.id, .skip hasks, hothers⟩
  unfold serve
  cases hread : line.readBack lib with
  | none => exact hskip
  | some frame =>
      obtain ⟨hid, hcancel⟩ := readBack_ask hread
      simp only [hid, hcancel]
      cases hline : line.cancel with
      | true =>
          simp only [if_true]
          cases htask : s.tasks line.id with
          | none => exact hskip
          | some task =>
              refine ⟨line.id, ?_, fun j hj => ?_⟩
              · rw [exchange_setTask]
                exact .cancel hasks hline htask
              · rw [exchange_setTask_ne _ hj, hothers j hj]
      | false =>
          simp only [Bool.false_eq_true, if_false]
          cases frame.method with
          | none => exact hskip
          | some method =>
              refine ⟨line.id, ?_, fun j hj => ?_⟩
              · rw [exchange_setTask]
                exact .serve method frame.params hasks hline
              · rw [exchange_setTask_ne _ hj, hothers j hj]

theorem moves_route (hclient : s.toClient = line :: rest)
    (hstep : route lib { s with toClient := rest } line = some s') : Moves lib true s s' := by
  have hanswers := answers_cons hclient
  have hothers (j : Nat) (hj : j ≠ line.id) := exchange_routed hclient hj
  rw [route_eq] at hstep
  cases harrives : line.arrives lib with
  | nothing =>
      simp only [harrives, Option.some.injEq] at hstep
      subst hstep
      exact ⟨line.id, .nothing hanswers harrives, hothers⟩
  | settle result =>
      simp only [harrives, Option.some.injEq] at hstep
      subst hstep
      refine ⟨line.id, ?_, fun j hj => ?_⟩
      · rw [exchange_settle]
        exact .settle hanswers harrives
      · rw [exchange_settle_ne _ hj, hothers j hj]
  | item item =>
      simp only [harrives, pushItem] at hstep
      split at hstep
      · rename_i request hpending hrequest
        by_cases hheld : request.held = true
        · rw [if_pos hheld] at hstep
          split at hstep
          · cases hstep
            refine ⟨line.id, ?_, fun j hj => ?_⟩
            · rw [exchange_setRequest]
              exact .push hanswers harrives hpending hrequest
            · rw [exchange_setRequest_ne _ hj, hothers j hj]
          · cases hstep
        · rw [if_neg hheld] at hstep
          split at hstep
          · cases hstep
            refine ⟨line.id, ?_, fun j hj => ?_⟩
            · have hdead := exchange_cancel (s := { s with toClient := rest }) lib line.id
              rw [hdead]
              exact .dead hanswers harrives hpending hrequest (Bool.eq_false_iff.mpr hheld)
            · have hsame := exchange_cancel_ne (s := { s with toClient := rest }) lib hj
              rw [hsame, hothers j hj]
          · cases hstep
      · rename_i hnone
        simp only [Option.some.injEq] at hstep
        subst hstep
        refine ⟨line.id, .ignore hanswers harrives ?_, hothers⟩
        cases hrequest : s.requests line.id with
        | none => exact .inr hrequest
        | some request => exact .inl fun hpending => hnone request hpending hrequest

structure Inv (lib : JsonLine J) (s : Connection J) : Prop where
  fresh : ∀ id, s.nextId ≤ id → s.requests id = none
  each : ∀ id, (s.exchange id).Inv lib id

theorem Inv.frame_id (hinv : s.Inv lib) {id : Nat} {frame : ServerFrame J} {more : Bool}
    (htask : s.tasks id = some (.sending frame more)) : frame.id = id := by
  have hheld : heldFrame (s.exchange id).task = [frame] := by
    change heldFrame (s.tasks id) = _
    rw [htask]
    rfl
  have hframe := (hinv.each id).origin frame (by simp [hheld])
  simp only [History.frames, List.mem_append, List.mem_map, Option.mem_toList,
    Option.map_eq_some_iff] at hframe
  obtain ⟨item, -, rfl⟩ | ⟨ending, -, rfl⟩ := hframe
  · rfl
  · cases ending <;> rfl

/-- Every step but a new request is a step of one exchange. -/
theorem Inv.moves (hinv : s.Inv lib) {a : Action J} (hguard : Legible lib s a)
    (hstep : s.step lib a = some s') :
    (∃ kind method params, s' = s.request kind method params) ∨
      Moves lib a.delivers s s' := by
  cases a with
  | request kind method params =>
      cases hstep
      exact .inl ⟨kind, method, params, rfl⟩
  | submit id =>
      right
      simp only [step] at hstep
      split at hstep
      · cases hstep
      · rename_i request hrequest
        split at hstep
        · rename_i hsubmit
          cases hstep
          refine ⟨id, ?_, fun j hj => exchange_submit_ne _ _ hj⟩
          rw [exchange_submit]
          exact .submit hrequest hsubmit.2.1
        · cases hstep
  | recv id =>
      right
      simp only [step] at hstep
      split at hstep
      · cases hstep
      · rename_i request hrequest
        split at hstep
        · rename_i item queue hheld hqueue
          cases hstep
          refine ⟨id, ?_, fun j hj => exchange_setRequest_ne _ hj⟩
          rw [exchange_setRequest]
          exact .recv hrequest hqueue
        · cases hstep
  | drop id =>
      right
      simp only [step] at hstep
      split at hstep
      · cases hstep
      · rename_i request hrequest
        split at hstep
        · cases hstep
          refine ⟨id, ?_, fun j hj => exchange_setRequest_ne _ hj⟩
          rw [exchange_setRequest]
          exact .drop hrequest
        · cases hstep
  | serve =>
      right
      simp only [step] at hstep
      split at hstep
      · cases hstep
      · rename_i line rest hserver
        cases hstep
        exact moves_serve hserver
  | reply id reply =>
      right
      simp only [step] at hstep
      split at hstep
      · rename_i method params htask
        cases hstep
        cases reply with
        | error err =>
            refine ⟨id, ?_, fun j hj => ?_⟩
            · simp only [Connection.reply, exchange_record, exchange_setTask]
              exact .finish (.failed err) (.inl ⟨method, params, htask⟩)
                fun value hvalue => nomatch hvalue
            · simp only [Connection.reply, exchange_record_ne _ hj, exchange_setTask_ne _ hj]
        | ok reply =>
            cases reply with
            | stream =>
                refine ⟨id, ?_, fun j hj => exchange_setTask_ne _ hj⟩
                simp only [Connection.reply, exchange_setTask]
                exact .stream htask
            | value value =>
                refine ⟨id, ?_, fun j hj => ?_⟩
                · simp only [Connection.reply, exchange_record, exchange_setTask]
                  refine .finish (.value value) (.inl ⟨method, params, htask⟩) ?_
                  intro v hv
                  cases hv
                  exact hguard
                · simp only [Connection.reply, exchange_record_ne _ hj, exchange_setTask_ne _ hj]
      · cases hstep
  | next id item =>
      right
      simp only [step] at hstep
      split at hstep
      · rename_i htask
        cases hstep
        cases item with
        | none =>
            refine ⟨id, ?_, fun j hj => ?_⟩
            · simp only [Connection.next, exchange_record, exchange_setTask]
              exact .finish .ended (.inr htask) fun value hvalue => nomatch hvalue
            · simp only [Connection.next, exchange_record_ne _ hj, exchange_setTask_ne _ hj]
        | some item =>
            refine ⟨id, ?_, fun j hj => ?_⟩
            · simp only [Connection.next, exchange_record, exchange_setTask]
              exact .item htask hguard
            · simp only [Connection.next, exchange_record_ne _ hj, exchange_setTask_ne _ hj]
      · cases hstep
  | send id =>
      right
      simp only [step] at hstep
      split at hstep
      · rename_i frame more htask
        split at hstep
        · cases hstep
          obtain rfl := hinv.frame_id htask
          refine ⟨frame.id, ?_, fun j hj => exchange_send_ne _ _ hj⟩
          rw [exchange_send]
          exact .send htask
        · cases hstep
      · cases hstep
  | route =>
      right
      simp only [step] at hstep
      split at hstep
      · cases hstep
      · rename_i line rest hclient
        exact moves_route hclient hstep

omit [DecidableEq J] in
theorem nextId_settle (id : Nat) (result : Except RpcError J) :
    (s.settle id result).nextId = s.nextId := by
  unfold settle resolve
  split
  · split <;> rfl
  · rfl

theorem nextId_step {a : Action J} (hstep : s.step lib a = some s') :
    s'.nextId = s.nextId ∨ (a.delivers = false ∧ s'.nextId = s.nextId + 1) := by
  cases a with
  | request kind method params =>
      cases hstep
      exact .inr ⟨rfl, rfl⟩
  | submit id | recv id | drop id =>
      simp only [step] at hstep
      split at hstep
      · cases hstep
      · split at hstep <;> cases hstep
        exact .inl rfl
  | serve =>
      simp only [step] at hstep
      split at hstep <;> cases hstep
      unfold serve
      split
      · exact .inl rfl
      · split <;> split <;> exact .inl rfl
  | reply id reply =>
      simp only [step] at hstep
      split at hstep <;> cases hstep
      cases reply with
      | error err => exact .inl rfl
      | ok reply => cases reply <;> exact .inl rfl
  | next id item =>
      simp only [step] at hstep
      split at hstep <;> cases hstep
      cases item <;> exact .inl rfl
  | send id =>
      simp only [step] at hstep
      split at hstep
      · split at hstep <;> cases hstep
        exact .inl rfl
      · cases hstep
  | route =>
      simp only [step] at hstep
      split at hstep
      · cases hstep
      · simp only [route_eq] at hstep
        split at hstep
        · cases hstep
          exact .inl rfl
        · cases hstep
          exact .inl (nextId_settle _ _)
        · unfold pushItem at hstep
          split at hstep
          · split at hstep <;> split at hstep <;> cases hstep <;> exact .inl rfl
          · cases hstep
            exact .inl rfl

theorem Inv.init : (Connection.new : Connection J).Inv lib where
  fresh _ _ := rfl
  each id := Exchange.Inv.empty lib id

theorem Inv.exchange_fresh (hinv : s.Inv lib) {id : Nat} (hid : s.nextId ≤ id) :
    s.exchange id = .empty :=
  (hinv.each id).fresh (hinv.fresh id hid)

omit [DecidableEq J] in
theorem exchange_request (kind : Kind) (method : String) (params : J) :
    (s.request kind method params).exchange s.nextId
      = { s.exchange s.nextId with
          request := some ⟨kind, method, params, false, true, none, [], []⟩
          pending := some kind } := by
  simp [exchange, request]

omit [DecidableEq J] in
theorem exchange_request_ne (kind : Kind) (method : String) (params : J) {j : Nat}
    (h : j ≠ s.nextId) : (s.request kind method params).exchange j = s.exchange j := by
  simp [exchange, request, Function.update_of_ne h]

theorem Inv.step (hinv : s.Inv lib) {a : Action J} (hguard : Legible lib s a)
    (hstep : s.step lib a = some s') : s'.Inv lib := by
  obtain ⟨kind, method, params, rfl⟩ | ⟨id, hnext, hother⟩ := hinv.moves hguard hstep
  · refine ⟨fun j hj => ?_, fun j => ?_⟩
    · have hne : j ≠ s.nextId := Nat.ne_of_gt hj
      have hsame := exchange_request_ne kind method params hne
      exact (congrArg Exchange.request hsame).trans (hinv.fresh j (Nat.le_of_succ_le hj))
    · by_cases hj : j = s.nextId
      · subst hj
        rw [exchange_request, hinv.exchange_fresh le_rfl]
        exact .opened lib _ kind method params
      · rw [exchange_request_ne kind method params hj]
        exact hinv.each j
  · refine ⟨fun j hj => ?_, fun j => ?_⟩
    · have hle : s.nextId ≤ s'.nextId := by
        obtain heq | ⟨-, heq⟩ := nextId_step hstep <;> omega
      have hnone := hinv.fresh j (hle.trans hj)
      have hne : j ≠ id := by
        rintro rfl
        cases hrequest : s'.requests j with
        | none => exact (hinv.each j).request_ne_none hnext hrequest
        | some r =>
            obtain ⟨r₀, hr₀, -⟩ := hnext.request_before hrequest
            exact absurd (hr₀.symm.trans hnone) (by simp)
      exact (congrArg Exchange.request (hother j hne)).trans hnone
    · by_cases hj : j = id
      · subst hj
        exact (hinv.each j).next hnext
      · rw [hother j hj]
        exact hinv.each j

theorem Inv.of_reachable (h : (machine lib).ReachableWhen (Legible lib) s) : s.Inv lib :=
  h.invariant (I := Connection.Inv lib) (by rintro _ rfl; exact Inv.init)
    fun _ _ _ hinv hguard hstep => hinv.step hguard hstep

end Connection

/-! ## Delivery ends -/

/-- What is still to be handed on, weighed by the steps it takes. -/
def Exchange.work (e : Exchange J) : Nat :=
  e.asks.length + 3 * e.answers.length + 4 * (heldFrame e.task).length
    + match e.request with
      | none => 0
      | some r => r.queue.length + if r.sent then 0 else 2

theorem Exchange.Next.work_lt {lib : JsonLine J} {id : Nat} {e e' : Exchange J}
    (hinv : e.Inv lib id) (h : Exchange.Next lib id true e e') : e'.work < e.work := by
  cases h with
  | submit hrequest hsent =>
      simp only [Exchange.work, hrequest, hsent, List.length_append, List.length_singleton,
        Bool.false_eq_true, if_false, if_true]
      omega
  | recv hrequest hqueue =>
      simp only [Exchange.work, hrequest, hqueue, List.length_cons]
      omega
  | skip hasks =>
      simp only [Exchange.work, hasks, List.length_cons]
      omega
  | cancel hasks hcancel htask =>
      simp only [Exchange.work, hasks, heldFrame_abort, List.length_cons, List.length_nil]
      omega
  | serve method params hasks hcancel =>
      simp only [Exchange.work, hasks, hinv.task_none hasks hcancel, heldFrame, List.length_cons,
        List.length_nil]
      omega
  | send htask =>
      simp only [Exchange.work, htask, heldFrame_send, heldFrame_sending, List.length_append,
        List.length_cons, List.length_nil]
      omega
  | nothing hanswers _ | ignore hanswers _ _ =>
      simp only [Exchange.work, hanswers, List.length_cons]
      omega
  | settle hanswers _ =>
      unfold Exchange.settle Exchange.work
      rw [hanswers]
      cases e.request with
      | none | some _ => by_cases hcall : e.pending = some .call <;> simp [hcall]
  | push hanswers _ _ hrequest =>
      simp only [Exchange.work, hanswers, hrequest, List.length_cons, List.length_append,
        List.length_nil]
      omega
  | dead hanswers _ _ _ _ =>
      simp only [Exchange.work, hanswers, List.length_cons, List.length_append, List.length_nil]
      omega

def Connection.work (s : Connection J) : Nat :=
  ∑ id ∈ Finset.range s.nextId, (s.exchange id).work

namespace Connection

variable {lib : JsonLine J} {s s' : Connection J}

theorem Inv.requests_lt (hinv : s.Inv lib) {id : Nat} (h : s.requests id ≠ none) :
    id < s.nextId := by
  by_contra hid
  exact h (hinv.fresh id (Nat.le_of_not_lt hid))

theorem legible_of_delivers {a : Action J} (h : a.delivers = true) : Legible lib s a := by
  cases a with
  | reply _ _ | next _ _ => cases h
  | request _ _ _ | _ => trivial

theorem Inv.work_lt (hinv : s.Inv lib) {a : Action J} (hdelivers : a.delivers = true)
    (hstep : s.step lib a = some s') : s'.work < s.work := by
  have hnext : s'.nextId = s.nextId := by
    obtain heq | ⟨hfalse, -⟩ := nextId_step hstep
    · exact heq
    · rw [hdelivers] at hfalse
      cases hfalse
  obtain ⟨kind, method, params, rfl⟩ | ⟨id, hmove, hother⟩ := hinv.moves (legible_of_delivers hdelivers) hstep
  · exact absurd hnext (Nat.succ_ne_self _)
  · rw [hdelivers] at hmove
    have hlt : id < s.nextId := by
      apply hinv.requests_lt
      cases hrequest : s'.requests id with
      | none => exact absurd hrequest ((hinv.each id).request_ne_none hmove)
      | some r =>
          obtain ⟨r₀, hr₀, -⟩ := hmove.request_before hrequest
          exact Option.ne_none_iff_exists'.mpr ⟨r₀, hr₀⟩
    unfold work
    rw [hnext]
    apply Finset.sum_lt_sum
    · intro j _
      by_cases hj : j = id
      · subst hj
        exact (hmove.work_lt (hinv.each j)).le
      · rw [hother j hj]
    · exact ⟨id, Finset.mem_range.mpr hlt, hmove.work_lt (hinv.each id)⟩

/-! ## Transparency -/

/-- What the callers have been given is what the handlers of their own requests produced. -/
def Faithful (s : Connection J) : Prop :=
  ∀ id r, s.requests id = some r → r.held = true →
    match r.kind with
    | .call => ∀ result, r.result = some result →
        ∃ ending, (s.history id).ending = some ending ∧ result = ending.answer
    | .stream => r.taken ++ r.queue <+: (s.history id).items ∧
        (s.pending id = none →
          (s.history id).ending ≠ none ∧ r.taken ++ r.queue = (s.history id).items)

/-- Every step concerns one request, and every frame on its way was produced for its id. -/
def Isolated (lib : JsonLine J) (s : Connection J) : Prop :=
  (∀ frame ∈ s.toClient, frame ∈ (s.history frame.id).frames frame.id) ∧
    ∀ a s', Legible lib s a → s.step lib a = some s' →
      ∃ id, ∀ j, j ≠ id → s'.exchange j = s.exchange j

/-- Nothing is left to hand on, but for what callers may take from their queues. -/
def Quiet (lib : JsonLine J) (s : Connection J) : Prop :=
  ∀ a, a.delivers = true → (∀ id, a ≠ .recv id) → s.step lib a = none

/-- Who subscribes takes items: no queue is full. -/
def Received (s : Connection J) : Prop :=
  ∀ id r, s.requests id = some r → r.held = true → r.queue.length < streamQueueCap

/-- Every call whose handler has returned is resolved, and every stream has all its items, taken or in
its queue, and is closed where its handler has ended. -/
def Completed (s : Connection J) : Prop :=
  ∀ id r, s.requests id = some r → r.held = true →
    match r.kind with
    | .call => ∀ ending, (s.history id).ending = some ending → r.result = some ending.answer
    | .stream => r.taken ++ r.queue = (s.history id).items ∧
        ((s.history id).ending ≠ none → s.pending id = none)

theorem Inv.given (hinv : s.Inv lib) {id : Nat} (hrequest : s.requests id = some r)
    (hheld : r.held = true) : (s.exchange id).Given id r :=
  (hinv.each id).given r hrequest hheld

omit [DecidableEq J] in
theorem given_open {id : Nat} (h : (s.exchange id).Given id r) {kind : Kind}
    (hpending : s.pending id = some kind) :
    r.result = none ∧ ∃ seen more, (s.history id).items = seen ++ more ∧
      (s.exchange id).answers ++ heldFrame (s.tasks id)
        = more.map (itemFrame id) ++ ((s.history id).ending.map (endFrame id)).toList ∧
      (r.kind = .stream → r.taken ++ r.queue = seen) := by
  unfold Exchange.Given at h
  simp only [show (s.exchange id).pending = some kind from hpending] at h
  obtain ⟨-, hresult, seen, hseen, hread⟩ := h
  obtain ⟨more, hitems, hrest⟩ := History.frames_split hseen
  exact ⟨hresult, seen, more, hitems, hrest, hread⟩

omit [DecidableEq J] in
theorem given_closed {id : Nat} (h : (s.exchange id).Given id r) (hpending : s.pending id = none) :
    ∃ ending, (s.history id).ending = some ending ∧
      (r.kind = .call → r.result = some ending.answer) ∧
      (r.kind = .stream → r.taken ++ r.queue = (s.history id).items) := by
  unfold Exchange.Given at h
  simp only [show (s.exchange id).pending = none from hpending] at h
  exact h.2.2

theorem Inv.faithful (hinv : s.Inv lib) : s.Faithful := by
  intro id r hrequest hheld
  have hgiven := hinv.given hrequest hheld
  cases hpending : s.pending id with
  | none =>
      obtain ⟨ending, hending, hcall, hstream⟩ := given_closed hgiven hpending
      cases hkind : r.kind with
      | call =>
          intro result hresult
          rw [hcall hkind, Option.some.injEq] at hresult
          exact ⟨ending, hending, hresult.symm⟩
      | stream =>
          have hitems := hstream hkind
          exact ⟨by rw [hitems], fun _ => ⟨by simp [hending], hitems⟩⟩
  | some kind =>
      obtain ⟨hnone, seen, more, hitems, -, hread⟩ := given_open hgiven hpending
      cases hkind : r.kind with
      | call =>
          intro result hresult
          rw [hnone] at hresult
          cases hresult
      | stream => exact ⟨⟨more, by rw [hread hkind, hitems]⟩, fun hclosed => nomatch hclosed⟩

theorem Inv.isolated (hinv : s.Inv lib) : s.Isolated lib := by
  refine ⟨fun frame hframe => ?_, fun a s' hguard hstep => ?_⟩
  · apply (hinv.each frame.id).origin
    apply List.mem_append_left
    simp [exchange, hframe]
  · obtain ⟨kind, method, params, rfl⟩ | ⟨id, -, hother⟩ := hinv.moves hguard hstep
    · exact ⟨s.nextId, fun j hj => exchange_request_ne kind method params hj⟩
    · exact ⟨id, hother⟩

/-! ### What is left when nothing moves -/

theorem Quiet.toServer (h : s.Quiet lib) : s.toServer = [] := by
  cases hserver : s.toServer with
  | nil => rfl
  | cons line rest =>
      have hserve := h .serve rfl nofun
      simp [step, hserver] at hserve

theorem Quiet.toClient (h : s.Quiet lib) (hreceived : s.Received) : s.toClient = [] := by
  cases hclient : s.toClient with
  | nil => rfl
  | cons line rest =>
      exfalso
      have hroute := h .route rfl nofun
      simp only [step, hclient, route_eq] at hroute
      split at hroute
      · cases hroute
      · cases hroute
      · unfold pushItem at hroute
        split at hroute
        · rename_i r _ hrequest
          by_cases hheld : r.held = true
          · rw [if_pos hheld, if_pos (hreceived _ _ hrequest hheld)] at hroute
            cases hroute
          · rw [if_neg hheld] at hroute
            simp [h.toServer, channelCap] at hroute
        · cases hroute

theorem Quiet.heldFrame (h : s.Quiet lib) (hreceived : s.Received) (id : Nat) :
    heldFrame (s.tasks id) = [] := by
  unfold Rpc.heldFrame
  split
  · rename_i frame more htask
    have hsend := h (.send id) rfl nofun
    simp [step, htask, h.toClient hreceived, channelCap] at hsend
  · rfl

theorem Inv.completed (hinv : s.Inv lib) (hquiet : s.Quiet lib) (hreceived : s.Received) :
    s.Completed := by
  intro id r hrequest hheld
  have hgiven := hinv.given hrequest hheld
  cases hpending : s.pending id with
  | none =>
      obtain ⟨ending, hending, hcall, hstream⟩ := given_closed hgiven hpending
      cases hkind : r.kind with
      | call =>
          intro e he
          rw [hending, Option.some.injEq] at he
          rw [hcall hkind, he]
      | stream => exact ⟨hstream hkind, fun _ => rfl⟩
  | some kind =>
      obtain ⟨hnone, seen, more, hitems, hrest, hread⟩ := given_open hgiven hpending
      have hempty : (s.exchange id).answers ++ Rpc.heldFrame (s.tasks id) = [] := by
        simp [exchange, hquiet.toClient hreceived, hquiet.heldFrame hreceived]
      rw [hempty] at hrest
      obtain ⟨hmore, hending⟩ := List.append_eq_nil_iff.mp hrest.symm
      rw [List.map_eq_nil_iff] at hmore
      have hending : (s.history id).ending = none := by
        cases he : (s.history id).ending with
        | none => rfl
        | some ending => simp [he] at hending
      cases hkind : r.kind with
      | call =>
          intro e he
          rw [hending] at he
          cases he
      | stream =>
          exact ⟨by rw [hread hkind, hitems, hmore, List.append_nil], fun hne => absurd hending hne⟩

theorem Inv.length_le_work (hinv : s.Inv lib) {actions : List (Action J)}
    (hdelivers : ∀ a ∈ actions, a.delivers = true)
    (hrun : (machine lib).run s actions = some s') : actions.length ≤ s.work := by
  have hstep (s : Connection J) (a : Action J) (s' : Connection J) (hinv : s.Inv lib)
      (hdelivers : a.delivers = true) (hnext : (machine lib).step s a = some s') :
      s'.Inv lib ∧ s'.work < s.work :=
    ⟨hinv.step (legible_of_delivers hdelivers) hnext, hinv.work_lt hdelivers hnext⟩
  have hle := Machine.length_add_le_of_run hstep hinv hdelivers hrun
  omega

end Connection

/-- **Transparency.** While handlers hand out only values that their callers read back, every caller
is given what the handler of its own request produced, deliveries end, and when nothing is left to
deliver and no queue is full every request whose handler is done is settled. -/
theorem transparent_of_legible (lib : JsonLine J) {s : Connection J}
    (h : (machine lib).ReachableWhen (Legible lib) s) :
    s.Faithful ∧ s.Isolated lib ∧
      (∀ actions s', (∀ a ∈ actions, a.delivers = true) →
        (machine lib).run s actions = some s' → actions.length ≤ s.work) ∧
      (s.Quiet lib → s.Received → s.Completed) := by
  have hinv := Connection.Inv.of_reachable h
  exact ⟨hinv.faithful, hinv.isolated, fun _ _ hdelivers hrun => hinv.length_le_work hdelivers hrun,
    hinv.completed⟩

/-! ## The text of `serde_json` -/

mutual

def depth : JsonValue → Nat
  | .array items => depthItems items + 1
  | .object entries => depthEntries entries + 1
  | _ => 0

def depthItems : List JsonValue → Nat
  | [] => 0
  | item :: items => max (depth item) (depthItems items)

def depthEntries : List (String × JsonValue) → Nat
  | [] => 0
  | (_, value) :: entries => max (depth value) (depthEntries entries)

end

/-- The recursion limit admits 127 levels, of which the frame is one. -/
def serdeJson : JsonLine JsonValue where
  null := .null
  reread value := if depth value ≤ 126 then some value else none
  reread_null := rfl

/-- A call and a subscription at once, each given its own. -/
theorem echo_and_count_transparent :
    ∃ s : Connection JsonValue, s.Faithful ∧ (s.Quiet serdeJson → s.Received → s.Completed) ∧
      s.toClient = [] ∧ (s.history 1).ending.isSome = true := by
  obtain ⟨s, hsteps, hs⟩ := Machine.exists_steps_of_runWhen (machine serdeJson) (Legible serdeJson)
    (s := .new)
    [.request .call "Echo" (.object [("x", .int 1)]), .request .stream "Count" .null, .submit 2,
      .submit 1, .serve, .serve, .reply 2 (.ok .stream), .next 2 (some (.int 0)),
      .reply 1 (.ok (.value (.object [("x", .int 1)]))), .send 2, .send 1, .next 2 none, .send 2,
      .route, .route, .route, .recv 2]
    (p := fun s => s.toClient.isEmpty && (s.history 1).ending.isSome) (by decide)
  have h := transparent_of_legible serdeJson ⟨.new, rfl, hsteps⟩
  simp only [Bool.and_eq_true, List.isEmpty_iff] at hs
  exact ⟨s, h.1, h.2.2.2, hs.1, hs.2⟩

/-- A handler that returns `null` leaves its call pending for good. -/
theorem null_call_hangs :
    ∃ s : Connection JsonValue, (machine serdeJson).Reachable s ∧ s.Quiet serdeJson ∧ s.Received ∧
      ¬ s.Completed := by
  have hrun : ∃ s, (machine serdeJson).run .new [.request .call "Echo" .null, .submit 1, .serve,
      .reply 1 (.ok (.value .null)), .send 1, .route] = some s ∧ s.Quiet serdeJson ∧ s.Received ∧
      ¬ s.Completed := by
    refine ⟨_, rfl, fun a ha hrecv => ?_, fun id r hrequest _ => ?_, fun hcompleted => ?_⟩
    · cases a with
      | submit id | send id => obtain _ | _ | id := id <;> rfl
      | recv id => exact absurd rfl (hrecv id)
      | serve | route => rfl
      | request _ _ _ | _ => cases ha
    · obtain _ | _ | id := id <;> cases hrequest
      decide
    · cases hcompleted 1 _ rfl rfl (.value .null) rfl
  obtain ⟨s, hrun, hmissed⟩ := hrun
  exact ⟨s, Machine.reachable_of_run rfl hrun, hmissed⟩

end Zeron.Rpc
