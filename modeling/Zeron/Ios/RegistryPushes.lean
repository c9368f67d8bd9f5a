import Zeron.Ios.Redials
import Zeron.Lib.Keyed

/-!
# The phone's registry batches between awaits

The queue of `RegistryDoc` is the main actor's, the socket is `RegistryClient`'s, and a push pass goes
from one to the other: `takePushable` marks what is not in flight, and the client sends it batch by
batch to whatever socket it has. The connection is that of the phone's rooms.
-/

namespace Zeron.Ios.RegistryPushes

open Zeron.Lib (Machine)
open Redials (Point)
open Zeron.Lib.Keyed (mem_eraseIdx_of_ne)

structure RegistryPendingBatch where
  batch : Nat
  inFlight : Bool
deriving DecidableEq

/-- Where a suspended push goes on. -/
inductive Push where
  /-- The main actor has yet to apply a state frame, whose handler pushes afterwards. -/
  | applying
  /-- The main actor has yet to run `takePushable`. -/
  | taking
  /-- In the loop of `pushPending`, with those batches left. -/
  | sending (left : List Nat)
deriving DecidableEq

/-- For the statements: the batches that were handed to each socket. -/
structure RegistryClient where
  link : Redials.RoomClient
  pending : List RegistryPendingBatch
  nextBatch : Nat
  pushes : List Push
  sent : List (Nat × Nat)

inductive Action where
  /-- What the phone's rooms have in common, once the client is started. -/
  | link (action : Redials.Action)
  /-- A local write; its nudge is a task of its own. -/
  | enqueue
  | nudge
  /-- The main actor handles the ack of a batch. -/
  | acked (batch : Nat)
  /-- The `i`-th suspended push goes on; `reseeds` batches come with a state frame. -/
  | goOn (i reseeds : Nat)
deriving DecidableEq

namespace RegistryClient

variable (client : RegistryClient)

def started (batches : Nat) : RegistryClient where
  link := Redials.RoomClient.new.start
  pending := (List.range batches).map fun batch => ⟨batch, false⟩
  nextBatch := batches
  pushes := []
  sent := []

/-- `enqueue`, some times. -/
def enqueue : Nat → RegistryClient → RegistryClient
  | 0, client => client
  | n + 1, client =>
      enqueue n { client with
        pending := client.pending ++ [⟨client.nextBatch, false⟩]
        nextBatch := client.nextBatch + 1 }

def markDisconnected : RegistryClient :=
  { client with pending := client.pending.map fun batch => { batch with inFlight := false } }

def pushable : List Nat :=
  (client.pending.filter fun batch => !batch.inFlight).map RegistryPendingBatch.batch

/-- `takePushable`, up to what it marks. -/
def markAll : RegistryClient :=
  { client with pending := client.pending.map fun batch => { batch with inFlight := true } }

def push (suspended : Push) : RegistryClient :=
  { client with pushes := client.pushes ++ [suspended] }

/-- `pushPending` -/
def nudge : RegistryClient := if client.link.joined then client.push .taking else client

/-- `send` of a batch: without a socket it returns at once. -/
def send (batch : Nat) : RegistryClient :=
  { client with
    sent := client.link.socket.elim client.sent fun socket => client.sent ++ [(socket, batch)] }

def proceed (reseeds : Nat) : Push → RegistryClient
  | .applying => (client.enqueue reseeds).push .taking
  | .taking => client.markAll.push (.sending client.pushable)
  | .sending [] => client
  | .sending (batch :: left) => (client.send batch).push (.sending left)

/-- What a step of the connection means for the queue and for the pushes. -/
def follow (action : Redials.Action) (link : Redials.RoomClient) : RegistryClient :=
  match action with
  | .receive gen .state =>
      if gen = client.link.generation then { client with link }.push .applying
      else { client with link }
  | .resume i _ =>
      match client.link.suspended[i]? with
      | some (.leaving _) => { client with link }.markDisconnected
      | _ => { client with link }
  | _ => { client with link }

def step : Action → Option RegistryClient
  | .link action =>
      if action = .start ∨ action = .stop then none
      else (client.link.step .registry action).map (client.follow action)
  | .enqueue => some (client.enqueue 1)
  | .nudge => some client.nudge
  | .acked batch =>
      some { client with pending := client.pending.filter fun other => other.batch ≠ batch }
  | .goOn i reseeds =>
      (client.pushes[i]?).map fun suspended =>
        { client with pushes := client.pushes.eraseIdx i }.proceed reseeds suspended

end RegistryClient

def machine : Machine RegistryClient Action where
  init client := ∃ batches, client = .started batches
  step := RegistryClient.step

/-! ## The connection -/

section Link

variable (link : Redials.RoomClient)

/-- The socket of the current generation stands, with no error of it being handled. -/
def Intact : Prop :=
  link.socket = some link.generation ∧ .leaving link.generation ∉ link.suspended ∧
    .left link.generation ∉ link.suspended

instance : Decidable (Intact link) := inferInstanceAs (Decidable (_ ∧ _ ∧ _))

/-- A session is joined over the socket it was dialed for, and a timer does not dial over it. -/
def linkTurn : Redials.Action → Bool
  | .start | .stop => false
  | .receive gen .state => gen ≠ link.generation || Intact link
  | .redial => !link.joined
  | _ => true

structure LinkSound (link : Redials.RoomClient) : Prop where
  sockets : ∀ gen, link.socket = some gen → gen ≤ link.generation
  dials : ∀ gen ∈ link.dialing, gen ≤ link.generation
  dialing : link.generation ∈ link.dialing → link.socket ≠ some link.generation
  errors : ∀ gen, .leaving gen ∈ link.suspended ∨ .left gen ∈ link.suspended →
    gen ≤ link.generation
  joined : link.joined = true → Intact link

/-- An error that the main actor has yet to hear of. -/
def Leaving : Prop := ∃ gen, .leaving gen ∈ link.suspended

/-- What a step leaves of a session: it goes on, or an error of it is on its way. -/
structure GoesOn (link link' : Redials.RoomClient) : Prop where
  leaving : Leaving link → Leaving link'
  joined : link.joined = true →
    (link'.joined = true ∧ link'.generation = link.generation) ∨ Leaving link'

variable {link} {link' : Redials.RoomClient}

theorem LinkSound.congr (h : LinkSound link) (hgeneration : link'.generation = link.generation)
    (hsocket : link'.socket = link.socket) (hdialing : link'.dialing ⊆ link.dialing)
    (hsuspended : ∀ gen, .leaving gen ∈ link'.suspended ∨ .left gen ∈ link'.suspended →
      .leaving gen ∈ link.suspended ∨ .left gen ∈ link.suspended)
    (hjoined : link'.joined = true → Intact link') : LinkSound link' where
  sockets := by
    rw [hgeneration, hsocket]
    exact h.sockets
  dials := by
    rw [hgeneration]
    exact fun gen hgen => h.dials gen (hdialing hgen)
  dialing := by
    rw [hgeneration, hsocket]
    exact fun hgen => h.dialing (hdialing hgen)
  errors := by
    rw [hgeneration]
    exact fun gen hgen => h.errors gen (hsuspended gen hgen)
  joined := hjoined

theorem sound_onSocketError (h : LinkSound link) (gen : Nat) :
    LinkSound (link.onSocketError gen) := by
  unfold Redials.RoomClient.onSocketError
  split_ifs with hgen
  · refine ⟨h.sockets, h.dials, h.dialing, fun other hother => ?_, nofun⟩
    rw [Redials.RoomClient.suspend, List.mem_append, List.mem_append, List.mem_singleton,
      List.mem_singleton] at hother
    obtain (hold | hnew) | (hold | hnew) := hother
    · exact h.errors other (.inl hold)
    · cases hnew
      exact Nat.le_of_eq hgen.1
    · exact h.errors other (.inr hold)
    · cases hnew
  · exact h

theorem goesOn_onSocketError (gen : Nat) : GoesOn link (link.onSocketError gen) := by
  unfold Redials.RoomClient.onSocketError
  split_ifs
  · refine ⟨?_, fun _ => .inr ⟨gen, List.mem_append_right _ (List.mem_singleton_self _)⟩⟩
    rintro ⟨other, hother⟩
    exact ⟨other, List.mem_append_left _ hother⟩
  · exact ⟨id, fun hjoined => .inl ⟨hjoined, rfl⟩⟩

theorem GoesOn.of_flags (hsuspended : link'.suspended = link.suspended)
    (hjoined : link.joined = true → link'.joined = true)
    (hgeneration : link'.generation = link.generation) : GoesOn link link' where
  leaving := by
    unfold Leaving
    rw [hsuspended]
    exact id
  joined := fun h => .inl ⟨hjoined h, hgeneration⟩

theorem sound_connect (h : LinkSound link) : LinkSound link.connect := by
  unfold Redials.RoomClient.connect
  split_ifs
  · exact h
  · refine ⟨fun gen hgen => Nat.le_succ_of_le (h.sockets gen hgen), fun gen hgen => ?_,
      fun _ hsocket => ?_, fun gen hgen => Nat.le_succ_of_le (h.errors gen hgen), nofun⟩
    · obtain rfl | hgen := Finset.mem_insert.mp hgen
      · exact Nat.le_refl _
      · exact Nat.le_succ_of_le (h.dials gen hgen)
    · exact absurd (h.sockets _ hsocket) (Nat.not_succ_le_self _)

theorem goesOn_connect (hjoined : link.joined = false) : GoesOn link link.connect := by
  refine ⟨?_, fun h => absurd (hjoined.symm.trans h) Bool.false_ne_true⟩
  unfold Redials.RoomClient.connect
  split_ifs <;> exact id

theorem unjoined_of_dialing (h : LinkSound link) (hgen : link.generation ∈ link.dialing) :
    link.joined = false := by
  rw [Bool.eq_false_iff]
  exact fun hjoined => h.dialing hgen (h.joined hjoined).1

theorem sound_scheduleReconnect (h : LinkSound link) {gen : Nat}
    (hgen : gen = link.generation → link.joined = false) :
    LinkSound (link.scheduleReconnect gen) := by
  unfold Redials.RoomClient.scheduleReconnect
  split_ifs with hcurrent
  · refine ⟨nofun, h.dials, fun _ => nofun, h.errors, fun hjoined => ?_⟩
    change link.joined = true at hjoined
    rw [hgen hcurrent.1] at hjoined
    cases hjoined
  · exact h

theorem goesOn_scheduleReconnect {gen : Nat} : GoesOn link (link.scheduleReconnect gen) := by
  unfold Redials.RoomClient.scheduleReconnect
  split_ifs <;> exact ⟨id, fun hjoined => .inl ⟨hjoined, rfl⟩⟩

theorem sound_openSocket (h : LinkSound link) {gen : Nat} (hgen : gen ∈ link.dialing) :
    LinkSound (Redials.RoomClient.openSocket
      { link with dialing := link.dialing.erase gen } gen) := by
  unfold Redials.RoomClient.openSocket
  split_ifs with hcurrent
  · obtain ⟨heq, -⟩ := hcurrent
    change gen = link.generation at heq
    subst heq
    refine ⟨?_, fun other hother => h.dials other (Finset.mem_of_mem_erase hother),
      fun hmem => absurd hmem (Finset.notMem_erase _ _), h.errors, fun hjoined => ?_⟩
    · rintro other ⟨⟩
      exact Nat.le_refl _
    · change link.joined = true at hjoined
      rw [unjoined_of_dialing h hgen] at hjoined
      cases hjoined
  · exact h.congr rfl rfl (Finset.erase_subset _ _) (fun _ => id) h.joined

theorem goesOn_openSocket (gen : Nat) (dialing : Finset Nat) :
    GoesOn link (Redials.RoomClient.openSocket { link with dialing } gen) := by
  unfold Redials.RoomClient.openSocket
  split_ifs <;> exact .of_flags rfl id rfl

theorem LinkSound.flags (h : LinkSound link) (helloSent backfilling probing : Bool) :
    LinkSound { link with helloSent, backfilling, probing } :=
  h.congr rfl rfl subset_rfl (fun _ => id) h.joined

theorem GoesOn.refl (link : Redials.RoomClient) : GoesOn link link := .of_flags rfl id rfl

theorem kick_step (h : LinkSound link) :
    LinkSound (link.kick .registry) ∧ GoesOn link (link.kick .registry) := by
  unfold Redials.RoomClient.kick
  split_ifs with hclosed hdials
  · exact ⟨h, .refl link⟩
  · refine ⟨sound_connect h, goesOn_connect ?_⟩
    cases hjoined : link.joined with
    | false => rfl
    | true =>
        have hsocket := (h.joined hjoined).1
        simp [Redials.RoomClient.kickDials, hsocket, hjoined] at hdials
  · exact ⟨h.flags _ _ true, .of_flags rfl id rfl⟩
  · exact ⟨h, .refl link⟩

theorem tick_step (h : LinkSound link) (gen : Nat) (late : Bool) :
    LinkSound (link.livenessTick .registry gen late) ∧
      GoesOn link (link.livenessTick .registry gen late) := by
  unfold Redials.RoomClient.livenessTick
  split_ifs
  · exact ⟨sound_onSocketError h gen, goesOn_onSocketError gen⟩
  · exact ⟨h, .refl link⟩
  · exact ⟨h.flags _ _ true, .of_flags rfl id rfl⟩
  · exact ⟨h, .refl link⟩
  · exact ⟨h, .refl link⟩

theorem receive_step (h : LinkSound link) {gen : Nat} {frame : Redials.Frame}
    (hturn : linkTurn link (.receive gen frame) = true) :
    LinkSound (link.handleInbound .registry gen frame) ∧
      GoesOn link (link.handleInbound .registry gen frame) := by
  unfold Redials.RoomClient.handleInbound
  by_cases hgen : gen = link.generation
  · rw [if_pos hgen]
    cases frame with
    | unparseable => exact ⟨sound_onSocketError h gen, goesOn_onSocketError gen⟩
    | state =>
        have hintact : Intact link := by
          simpa [linkTurn, hgen] using hturn
        exact ⟨h.congr rfl rfl subset_rfl (fun _ => id) fun _ => hintact,
          .of_flags rfl (fun _ => rfl) rfl⟩
    | rowsDone | desynced | other => exact ⟨h.flags _ _ false, .of_flags rfl id rfl⟩
  · rw [if_neg hgen]
    exact ⟨h, .refl link⟩

/-- Every step keeps what holds of the connection. A session goes on or an error of it is on its way,
unless the main actor hears of an error. -/
theorem link_step {action : Redials.Action} (h : LinkSound link)
    (hturn : linkTurn link action = true) (hstep : link.step .registry action = some link') :
    LinkSound link' ∧
      ((∀ i ok gen, action = .resume i ok → link.suspended[i]? ≠ some (.leaving gen)) →
        GoesOn link link') := by
  cases action with
  | start | stop => cases hturn
  | kick =>
      cases hstep
      exact ⟨(kick_step h).1, fun _ => (kick_step h).2⟩
  | dialed gen url =>
      simp only [Redials.RoomClient.step] at hstep
      split_ifs at hstep with hmem
      · cases hstep
        exact ⟨sound_openSocket h hmem, fun _ => goesOn_openSocket gen _⟩
      · cases hstep
        have hdialing : LinkSound { link with dialing := link.dialing.erase gen } :=
          h.congr rfl rfl (Finset.erase_subset _ _) (fun _ => id) h.joined
        refine ⟨sound_scheduleReconnect hdialing ?_, fun _ => ?_⟩
        · intro hgen
          change gen = link.generation at hgen
          rw [hgen] at hmem
          exact @unjoined_of_dialing link h hmem
        · obtain ⟨hleaving, hjoined⟩ := @goesOn_scheduleReconnect
            { link with dialing := link.dialing.erase gen } gen
          exact ⟨hleaving, hjoined⟩
  | fails gen =>
      cases hstep
      exact ⟨h.congr rfl rfl subset_rfl (fun _ => id) h.joined, fun _ => .of_flags rfl id rfl⟩
  | lost gen =>
      simp only [Redials.RoomClient.step] at hstep
      split_ifs at hstep
      cases hstep
      exact ⟨sound_onSocketError h gen, fun _ => goesOn_onSocketError gen⟩
  | receive gen frame =>
      simp only [Redials.RoomClient.step] at hstep
      split_ifs at hstep
      cases hstep
      exact ⟨(receive_step h hturn).1, fun _ => (receive_step h hturn).2⟩
  | pingTick gen =>
      simp only [Redials.RoomClient.step] at hstep
      split_ifs at hstep
      cases hstep
      unfold Redials.RoomClient.pingTick
      split_ifs
      · exact ⟨sound_onSocketError h gen, fun _ => goesOn_onSocketError gen⟩
      · exact ⟨h, fun _ => .refl link⟩
  | livenessTick gen late =>
      simp only [Redials.RoomClient.step] at hstep
      split_ifs at hstep
      cases hstep
      exact ⟨(tick_step h gen late).1, fun _ => (tick_step h gen late).2⟩
  | resume i ok =>
      obtain ⟨point, hpoint, rfl⟩ := Option.map_eq_some_iff.mp hstep
      have herased : ∀ other, other ∈ link.suspended.eraseIdx i → other ∈ link.suspended :=
        fun other => List.mem_of_mem_eraseIdx
      have hlink : LinkSound { link with suspended := link.suspended.eraseIdx i } := by
        refine h.congr rfl rfl subset_rfl
          (fun gen hgen => hgen.imp (herased _) (herased _)) fun hjoined => ?_
        obtain ⟨hsocket, hleaving, hleft⟩ := h.joined hjoined
        exact ⟨hsocket, fun hmem => hleaving (herased _ hmem), fun hmem => hleft (herased _ hmem)⟩
      have hkept (hne : ∀ gen, point ≠ .leaving gen) :
          GoesOn link { link with suspended := link.suspended.eraseIdx i } := by
        refine ⟨?_, fun hjoined => .inl ⟨hjoined, rfl⟩⟩
        rintro ⟨gen, hgen⟩
        exact ⟨gen, mem_eraseIdx_of_ne hpoint hgen (hne gen).symm⟩
      have htrans {after : Redials.RoomClient}
          (h₁ : GoesOn link { link with suspended := link.suspended.eraseIdx i })
          (h₂ : GoesOn { link with suspended := link.suspended.eraseIdx i } after) :
          GoesOn link after :=
        ⟨fun hleaving => h₂.leaving (h₁.leaving hleaving), fun hjoined => h₂.joined hjoined⟩
      cases point with
      | leaving gen =>
          have hold : .leaving gen ∈ link.suspended := List.mem_of_getElem? hpoint
          refine ⟨h.congr rfl rfl subset_rfl ?_ ?_, fun hne => absurd hpoint (hne i ok gen rfl)⟩
          · rintro other (hother | hother)
            · obtain hmem | hnew := List.mem_append.mp hother
              · exact .inl (herased _ hmem)
              · cases List.mem_singleton.mp hnew
            · obtain hmem | hnew := List.mem_append.mp hother
              · exact .inr (herased _ hmem)
              · cases List.mem_singleton.mp hnew
                exact .inl hold
          · intro hjoined
            obtain ⟨hsocket, hleaving, hleft⟩ := h.joined hjoined
            refine ⟨hsocket, fun hmem => ?_, fun hmem => ?_⟩
            · obtain hmem | hnew := List.mem_append.mp hmem
              · exact hleaving (herased _ hmem)
              · cases List.mem_singleton.mp hnew
            · obtain hmem | hnew := List.mem_append.mp hmem
              · exact hleft (herased _ hmem)
              · have hgen : link.generation = gen := Point.left.inj (List.mem_singleton.mp hnew)
                exact hleaving (hgen ▸ hold)
      | left gen =>
          refine ⟨sound_scheduleReconnect hlink ?_, fun _ =>
            htrans (hkept fun _ => Point.noConfusion) goesOn_scheduleReconnect⟩
          rintro rfl
          rw [Bool.eq_false_iff]
          exact fun hjoined => (h.joined hjoined).2.2 (List.mem_of_getElem? hpoint)
      | planning gen =>
          cases ok with
          | true => exact ⟨hlink, fun _ => hkept fun _ => Point.noConfusion⟩
          | false =>
              exact ⟨sound_onSocketError hlink gen, fun _ =>
                htrans (hkept fun _ => Point.noConfusion) (goesOn_onSocketError gen)⟩
  | redial =>
      simp only [Redials.RoomClient.step] at hstep
      split_ifs at hstep
      cases hstep
      have htimers : LinkSound { link with timers := link.timers - 1 } :=
        h.congr rfl rfl subset_rfl (fun _ => id) h.joined
      have hunjoined : link.joined = false := by simpa [linkTurn] using hturn
      refine ⟨sound_connect htimers, fun _ => ?_⟩
      obtain ⟨hleaving, hjoined⟩ :=
        @goesOn_connect { link with timers := link.timers - 1 } hunjoined
      exact ⟨hleaving, hjoined⟩

end Link

/-! ## The queue -/

namespace RegistryClient

variable (client : RegistryClient)

/-- `takePushable` runs only for a client that is joined; and what holds of the connection. -/
def inTurn : Action → Bool
  | .link action => linkTurn client.link action
  | .goOn i _ => client.pushes[i]? ≠ some .taking || client.link.joined
  | _ => true

def InTurn (client : RegistryClient) (action : Action) : Prop := client.inTurn action = true

instance (client : RegistryClient) (action : Action) : Decidable (client.InTurn action) :=
  inferInstanceAs (Decidable (_ = true))

/-- The batch went to the socket of the current generation. -/
def Handed (batch : Nat) : Prop := (client.link.generation, batch) ∈ client.sent

/-- What is marked was handed over, or a pass has it, unless the marks are about to be cleared. -/
def Marked : Prop :=
  Leaving client.link ∨ ∀ batch ∈ client.pending, batch.inFlight = true →
    client.link.joined = true ∧
      (client.Handed batch.batch ∨ ∃ left, .sending left ∈ client.pushes ∧ batch.batch ∈ left)

variable {client} {client' : RegistryClient}

theorem Marked.congr (h : client.Marked) (hlink : client'.link = client.link)
    (hpending : ∀ batch ∈ client'.pending, batch.inFlight = true → batch ∈ client.pending)
    (hsent : ∀ entry ∈ client.sent, entry ∈ client'.sent)
    (hpushes : ∀ left, .sending left ∈ client.pushes → ∀ batch ∈ left, client'.Handed batch ∨
      ∃ left', .sending left' ∈ client'.pushes ∧ batch ∈ left') : client'.Marked := by
  obtain hleaving | hmarks := h
  · exact .inl (hlink ▸ hleaving)
  · refine .inr fun batch hbatch hmark => ?_
    obtain ⟨hjoined, hhanded | ⟨left, hleft, hmem⟩⟩ := hmarks batch (hpending batch hbatch hmark) hmark
    · refine ⟨hlink ▸ hjoined, .inl ?_⟩
      unfold Handed
      rw [hlink]
      exact hsent _ hhanded
    · exact ⟨hlink ▸ hjoined, hpushes left hleft _ hmem⟩

theorem enqueue_eq (n : Nat) (client : RegistryClient) :
    ∃ fresh next, (∀ batch ∈ fresh, batch.inFlight = false) ∧ client.enqueue n =
      { client with pending := client.pending ++ fresh, nextBatch := next } := by
  induction n generalizing client with
  | zero => exact ⟨[], client.nextBatch, nofun, by rw [List.append_nil]; rfl⟩
  | succ n ih =>
      obtain ⟨fresh, next, hfresh, heq⟩ := ih { client with
        pending := client.pending ++ [⟨client.nextBatch, false⟩]
        nextBatch := client.nextBatch + 1 }
      refine ⟨⟨client.nextBatch, false⟩ :: fresh, next, ?_, ?_⟩
      · exact List.forall_mem_cons.mpr ⟨rfl, hfresh⟩
      · rw [RegistryClient.enqueue, heq]
        simp

theorem Marked.enqueue (h : client.Marked) (n : Nat) (pushes : List Push)
    (hpushes : ∀ left, .sending left ∈ client.pushes → .sending left ∈ pushes) :
    Marked { client.enqueue n with pushes } := by
  obtain ⟨fresh, next, hfresh, heq⟩ := enqueue_eq n client
  rw [heq]
  refine h.congr rfl (fun batch hbatch hmark => ?_) (fun _ => id)
    fun left hleft batch hmem => .inr ⟨left, hpushes left hleft, hmem⟩
  obtain hold | hnew := List.mem_append.mp hbatch
  · exact hold
  · rw [hfresh batch hnew] at hmark
    cases hmark

theorem marked_markDisconnected (link : Redials.RoomClient) :
    Marked { client with link }.markDisconnected := by
  refine .inr fun batch hbatch hmark => ?_
  obtain ⟨other, -, rfl⟩ := List.mem_map.mp hbatch
  cases hmark

theorem Marked.follow (h : client.Marked) {link : Redials.RoomClient}
    (hgoes : GoesOn client.link link) (pushes : List Push)
    (hpushes : ∀ left, .sending left ∈ client.pushes → .sending left ∈ pushes) :
    Marked { client with link, pushes } := by
  obtain hleaving | hmarks := h
  · exact .inl (hgoes.leaving hleaving)
  · by_cases hafter : Leaving link
    · exact .inl hafter
    · refine .inr fun batch hbatch hmark => ?_
      obtain ⟨hjoined, hplace⟩ := hmarks batch hbatch hmark
      obtain ⟨hjoined', hgeneration⟩ := (hgoes.joined hjoined).resolve_right hafter
      refine ⟨hjoined', hplace.imp (fun hhanded => ?_) ?_⟩
      · change (link.generation, batch.batch) ∈ client.sent
        rw [hgeneration]
        exact hhanded
      · rintro ⟨left, hleft, hmem⟩
        exact ⟨left, hpushes left hleft, hmem⟩

theorem marked_link (hsound : LinkSound client.link) (h : client.Marked) {action : Redials.Action}
    (hturn : linkTurn client.link action = true) {link : Redials.RoomClient}
    (hstep : client.link.step .registry action = some link) :
    (client.follow action link).Marked := by
  obtain ⟨-, hgoes⟩ := link_step hsound hturn hstep
  by_cases hleaving : ∃ i ok gen, action = .resume i ok ∧
      client.link.suspended[i]? = some (.leaving gen)
  · obtain ⟨i, ok, gen, rfl, hpoint⟩ := hleaving
    simp only [RegistryClient.follow, hpoint]
    exact marked_markDisconnected link
  · have hgoes' := hgoes fun i ok gen haction hpoint => hleaving ⟨i, ok, gen, haction, hpoint⟩
    have hsame : Marked { client with link } := h.follow hgoes' client.pushes fun _ => id
    unfold RegistryClient.follow
    split
    · split_ifs
      · exact h.follow hgoes' _ fun left hleft => List.mem_append_left _ hleft
      · exact hsame
    · split
      · rename_i i ok _ gen hpoint
        exact absurd ⟨i, ok, gen, rfl, hpoint⟩ hleaving
      · exact hsame
    · exact hsame

theorem Marked.take (h : client.Marked) (hjoined : client.link.joined = true) (pushes : List Push)
    (hpushes : ∀ left, .sending left ∈ client.pushes → .sending left ∈ pushes) :
    Marked ({ client with pushes }.markAll.push (.sending client.pushable)) := by
  obtain hleaving | hmarks := h
  · exact .inl hleaving
  · refine .inr fun batch hbatch _ => ⟨hjoined, ?_⟩
    obtain ⟨other, hother, rfl⟩ := List.mem_map.mp hbatch
    by_cases hmark : other.inFlight = true
    · refine (hmarks other hother hmark).2.imp id ?_
      rintro ⟨left, hleft, hmem⟩
      exact ⟨left, List.mem_append_left _ (hpushes left hleft), hmem⟩
    · refine .inr ⟨client.pushable, List.mem_append_right _ (List.mem_singleton_self _), ?_⟩
      exact List.mem_map.mpr ⟨other, List.mem_filter.mpr ⟨hother, by simpa using hmark⟩, rfl⟩

theorem Marked.send (hsound : LinkSound client.link) (h : client.Marked) {batch : Nat}
    {left : List Nat} {pushes : List Push}
    (hpushes : ∀ other, .sending other ∈ client.pushes → other = batch :: left ∨
      .sending other ∈ pushes) :
    Marked (({ client with pushes }.send batch).push (.sending left)) := by
  obtain hleaving | hmarks := h
  · exact .inl hleaving
  · refine .inr fun other hother hmark => ?_
    obtain ⟨hjoined, hplace⟩ := hmarks other hother hmark
    have hsocket := (hsound.joined hjoined).1
    have hsent : ({ client with pushes }.send batch).sent =
        client.sent ++ [(client.link.generation, batch)] := by
      simp [RegistryClient.send, hsocket]
    refine ⟨hjoined, ?_⟩
    change (client.link.generation, other.batch) ∈ ({ client with pushes }.send batch).sent ∨ _
    rw [hsent]
    obtain hhanded | ⟨rest, hrest, hmem⟩ := hplace
    · exact .inl (List.mem_append_left _ hhanded)
    · obtain rfl | hkept := hpushes rest hrest
      · obtain heq | hmem := List.mem_cons.mp hmem
        · exact .inl (heq ▸ List.mem_append_right _ (List.mem_singleton_self _))
        · exact .inr ⟨left, List.mem_append_right _ (List.mem_singleton_self _), hmem⟩
      · exact .inr ⟨rest, List.mem_append_left _ hkept, hmem⟩

theorem sound_step (hsound : LinkSound client.link) (h : client.Marked) {action : Action}
    (hguard : client.InTurn action) (hstep : client.step action = some client') :
    LinkSound client'.link ∧ client'.Marked := by
  cases action with
  | link action =>
      simp only [step] at hstep
      split_ifs at hstep
      obtain ⟨link, hlink, rfl⟩ := Option.map_eq_some_iff.mp hstep
      refine ⟨?_, marked_link hsound h hguard hlink⟩
      have hsame : (client.follow action link).link = link := by
        unfold RegistryClient.follow
        split
        · split_ifs <;> rfl
        · split <;> rfl
        · rfl
      rw [hsame]
      exact (link_step hsound hguard hlink).1
  | enqueue =>
      cases hstep
      exact ⟨hsound, h.enqueue 1 client.pushes fun _ => id⟩
  | nudge =>
      cases hstep
      unfold nudge
      split_ifs
      · exact ⟨hsound, h.congr rfl (fun _ hbatch _ => hbatch) (fun _ => id)
          fun left hleft _ hmem => .inr ⟨left, List.mem_append_left _ hleft, hmem⟩⟩
      · exact ⟨hsound, h⟩
  | acked batch =>
      cases hstep
      exact ⟨hsound, h.congr rfl (fun _ hbatch _ => List.mem_of_mem_filter hbatch) (fun _ => id)
        fun left hleft _ hmem => .inr ⟨left, hleft, hmem⟩⟩
  | goOn i reseeds =>
      obtain ⟨suspended, hpush, rfl⟩ := Option.map_eq_some_iff.mp hstep
      have hkept {left : List Nat} (hleft : .sending left ∈ client.pushes)
          (hne : .sending left ≠ suspended) : .sending left ∈ client.pushes.eraseIdx i :=
        mem_eraseIdx_of_ne hpush hleft hne
      cases suspended with
      | applying =>
          obtain ⟨fresh, next, hfresh, heq⟩ :=
            enqueue_eq reseeds { client with pushes := client.pushes.eraseIdx i }
          rw [proceed, heq]
          refine ⟨hsound, h.congr rfl (fun batch hbatch hmark => ?_) (fun _ => id)
            fun left hleft _ hmem =>
              .inr ⟨left, List.mem_append_left _ (hkept hleft nofun), hmem⟩⟩
          obtain hold | hnew := List.mem_append.mp hbatch
          · exact hold
          · rw [hfresh batch hnew] at hmark
            cases hmark
      | taking =>
          have hjoined : client.link.joined = true := by
            simpa [InTurn, inTurn, hpush] using hguard
          exact ⟨hsound, h.take hjoined _ fun left hleft => hkept hleft nofun⟩
      | sending left =>
          cases left with
          | nil =>
              refine ⟨hsound, h.congr rfl (fun _ hbatch _ => hbatch) (fun _ => id)
                fun left hleft batch hmem => .inr ⟨left, hkept hleft ?_, hmem⟩⟩
              rintro heq
              cases heq
              cases hmem
          | cons batch left =>
              refine ⟨hsound, h.send hsound fun other hother => ?_⟩
              by_cases heq : other = batch :: left
              · exact .inl heq
              · exact .inr (hkept hother fun hsame => heq (Push.sending.inj hsame))

theorem sound_of_reachable (h : machine.ReachableWhen InTurn client) :
    LinkSound client.link ∧ client.Marked := by
  apply h.invariant
  · rintro _ ⟨batches, rfl⟩
    have hfresh : ∀ batch ∈ (started batches).pending, batch.inFlight = false := by
      intro batch hbatch
      obtain ⟨number, -, rfl⟩ := List.mem_map.mp hbatch
      rfl
    have hnew : LinkSound Redials.RoomClient.new :=
      ⟨nofun, nofun, nofun, by simp [Redials.RoomClient.new], nofun⟩
    refine ⟨@sound_connect Redials.RoomClient.new hnew, .inr fun batch hbatch hmark => ?_⟩
    rw [hfresh batch hbatch] at hmark
    cases hmark
  · rintro client action client' ⟨hsound, hmarked⟩ hguard hstep
    exact sound_step hsound hmarked hguard hstep

/-- **Nothing is stuck in flight.** In a run in which `takePushable` runs only for a joined client, a
state frame joins a session only while its socket stands without an error, and a timer does not dial
over a session: when the client is joined and nothing is suspended, a batch that is marked was handed
to the socket of the connection. The others are what the next pass takes. -/
theorem no_batch_is_stuck (h : machine.ReachableWhen InTurn client)
    (hjoined : client.link.joined = true) (hlink : client.link.suspended = [])
    (hpushes : client.pushes = []) :
    ∀ batch ∈ client.pending,
      (∃ socket, client.link.socket = some socket ∧ (socket, batch.batch) ∈ client.sent) ∨
        (batch.inFlight = false ∧ batch.batch ∈ client.pushable) := by
  obtain ⟨hsound, hmarked⟩ := sound_of_reachable h
  have hmarks := hmarked.resolve_left (by simp [Leaving, hlink])
  intro batch hbatch
  cases hmark : batch.inFlight with
  | true =>
      obtain hhanded | ⟨left, hleft, -⟩ := (hmarks batch hbatch hmark).2
      · exact .inl ⟨_, (hsound.joined hjoined).1, hhanded⟩
      · rw [hpushes] at hleft
        cases hleft
  | false =>
      exact .inr ⟨rfl, List.mem_map.mpr
        ⟨batch, List.mem_filter.mpr ⟨hbatch, by simp [hmark]⟩, rfl⟩⟩

/-- Joined with a batch from before, which is pushed, and a later write that is not yet. -/
def pushed : List Action :=
  [.link (.dialed 1 true), .link (.receive 1 .state), .goOn 0 0, .goOn 0 0, .goOn 0 0, .goOn 0 0,
    .enqueue]

theorem no_batch_is_stuck_pushed :
    ∃ client : RegistryClient, client.pending = [⟨0, true⟩, ⟨1, false⟩] ∧
      ∀ batch ∈ client.pending,
        (∃ socket, client.link.socket = some socket ∧ (socket, batch.batch) ∈ client.sent) ∨
          (batch.inFlight = false ∧ batch.batch ∈ client.pushable) := by
  obtain ⟨client, hsteps, hclient⟩ := Machine.exists_steps_of_runWhen machine InTurn
    (s := started 1) pushed
    (p := fun client => decide (client.link.joined = true ∧ client.link.suspended = [] ∧
      client.pushes = [] ∧ client.pending = [⟨0, true⟩, ⟨1, false⟩])) (by decide +kernel)
  obtain ⟨hjoined, hlink, hpushes, hpending⟩ := of_decide_eq_true hclient
  exact ⟨client, hpending,
    no_batch_is_stuck ⟨_, ⟨1, rfl⟩, hsteps⟩ hjoined hlink hpushes⟩

/-- The session fails while the main actor applies its state frame; the pass that follows marks the
batch all the same and has no socket for it, and the next session does not take it. -/
def marked : List Action :=
  [.link (.dialed 1 true), .link (.receive 1 .state), .link (.pingTick 1), .link (.resume 0 true),
    .link (.resume 0 true), .goOn 0 0, .goOn 0 0, .goOn 0 0, .goOn 0 0, .link .redial,
    .link (.dialed 2 true), .link (.receive 2 .state), .goOn 0 0, .goOn 0 0, .goOn 0 0]

theorem marked_batch_is_stuck :
    ¬∀ client, machine.Reachable client → client.link.joined = true →
      client.link.suspended = [] → client.pushes = [] → ∀ batch ∈ client.pending,
        (∃ socket, client.link.socket = some socket ∧ (socket, batch.batch) ∈ client.sent) ∨
          batch.inFlight = false := by
  intro h
  obtain ⟨client, hsteps, hclient⟩ := Machine.exists_steps_of_runWhen machine Machine.anyStep
    (s := started 1) marked
    (p := fun client => decide (client.link.joined = true ∧ client.link.suspended = [] ∧
      client.pushes = [] ∧ client.pending = [⟨0, true⟩] ∧ client.sent = [])) (by decide +kernel)
  obtain ⟨hjoined, hlink, hpushes, hpending, hsent⟩ := of_decide_eq_true hclient
  obtain ⟨socket, -, hmem⟩ | hmark := h client ⟨_, ⟨1, rfl⟩, hsteps⟩ hjoined hlink hpushes
    ⟨0, true⟩ (hpending ▸ List.mem_cons_self)
  · rw [hsent] at hmem
    cases hmem
  · cases hmark

end RegistryClient

end Zeron.Ios.RegistryPushes
