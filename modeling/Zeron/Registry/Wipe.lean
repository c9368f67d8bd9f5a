import Zeron.Registry.Convergence

/-!
# A wiped storage

The operator's reset empties the room, and the clients are to bring the rows back. The room tells a
client that it is behind by the client's cursor alone. Once the other clients have pushed enough, a
cursor from before the wipe passes for one of the present storage: the answer is a delta, the client
seeds nothing, and its rows and the room's stay apart.
-/

namespace Zeron.Registry

open Zeron.Lib (Machine)

variable {ι : Type} [DecidableEq ι]

/-- The room has the row still, or a tombstone no older than the row's newest clock. -/
def RegistryRow.Survives (row : RegistryRow) (now : Option RegistryRow) : Prop :=
  ∃ row' ∈ now, row'.deleted = true → ∀ c ∈ row.maxClock, ∃ d ∈ row'.delHlc, c ≤ d

/-- All clients agree with the room, and every row that was live with a client before is there
unless a later write deleted it. -/
def Net.Recovered (before after : Net ι) : Prop :=
  (∀ i, after.Agrees i) ∧
    ∀ i (key : RowKey) (row : RegistryRow), (before.peers i).doc.authoritative[key]? = some row →
      row.deleted = false → row.Survives after.room.rows[key]?

def Net.Uncollected (_ : Net ι) : Action ι → Prop
  | .collect _ => False
  | _ => True

instance (net : Net ι) : (action : Action ι) → Decidable (net.Uncollected action)
  | .collect _ => isFalse id
  | .write _ _ _ _ | .connect _ | .roomRecv _ | .peerRecv _ _ _ | .push _ | .disconnect _
  | .close _ | .wipe => isTrue trivial

section Recovery

variable {device : ι → String} {refuses : List RowOp → Option (String × String)}

omit [DecidableEq ι] in
theorem NetInv.memorize {memory : ι → RowKey → Option Hlc → Prop} {histories : Nat → History}
    {net : Net ι} (h : NetInv memory histories net) :
    NetInv (fun i key clock => ∃ row, (net.peers i).doc.authoritative[key]? = some row ∧
      row.deleted = false ∧ row.maxClock = clock) histories net := by
  refine { h with peers := fun i => { h.peers i with remembers := ?_ } }
  rintro key clock ⟨row, hrow, hlive, rfl⟩
  refine (h.peers i).follows.remembers hrow fun c hc => ⟨c, ?_, le_refl _⟩
  rw [RegistryRow.newest, hlive]
  exact hc

theorem recovers_steps {memory : ι → RowKey → Option Hlc → Prop} {before after : Net ι}
    (h : ∃ histories, NetInv memory histories before)
    (hsteps : (Net.machine device refuses).Steps Net.Recovers before after) :
    ∃ histories, NetInv memory histories after := by
  refine hsteps.invariant (I := fun net => ∃ histories, NetInv memory histories net) ?_ h
  rintro net action net' ⟨histories, hinv⟩ hrecovers hstep
  exact hinv.step refuses hrecovers hstep

/-- **Recovery.** In every run in which each wipe shows to the clients that say hello after it and
every seed carries its row's newest clock, the clients agree with the room once all of them are
back and nothing is pending, and the room has every row that was live with a client. -/
theorem registry_recovers {before after : Net ι}
    (hbefore : (Net.machine device refuses).ReachableWhen Net.Recovers before)
    (hsteps : (Net.machine device refuses).Steps Net.Recovers before after)
    (hquiet : after.Quiescent) (hconnected : ∀ i, after.Connected i) :
    before.Recovered after := by
  obtain ⟨net, rfl, hinit⟩ := hbefore
  obtain ⟨histories, hstart⟩ := recovers_steps ⟨_, netInv_init device⟩ hinit
  obtain ⟨histories', hinv⟩ := recovers_steps ⟨_, hstart.memorize⟩ hsteps
  refine ⟨fun i => hinv.agrees hquiet (hconnected i), fun i key row hrow hlive => ?_⟩
  obtain ⟨hera, hseq⟩ := hinv.at_head hquiet (hconnected i)
  have hremembers := (hinv.peers i).remembers key row.maxClock ⟨row, hrow, hlive, rfl⟩
  obtain ⟨row', hrow', hclock⟩ | ⟨b, hb, -⟩ := hremembers
  · rw [hera, hseq, hinv.tracks] at hrow'
    refine ⟨row', hrow', fun hdeleted c hc => ?_⟩
    obtain ⟨d, hd, hle⟩ := hclock c hc
    rw [RegistryRow.newest, if_pos hdeleted] at hd
    exact ⟨d, hd, hle⟩
  · rw [hquiet.1 i] at hb
    cases hb

end Recovery

section TwoDevices

/-- The desk creates a chat and gets it back from the room. -/
def deskChat : List (Action Bool) :=
  [.connect true, .roomRecv 0, .peerRecv true .byKey fun _ => 1,
    .write true [5] (fun _ => 5) [createsChat true "c1" 5], .push true, .roomRecv 0,
    .peerRecv true .byKey fun _ => 1, .peerRecv true .byKey fun _ => 1]

/-- The storage is wiped; the desk is back first. -/
def deskFirst : List (Action Bool) :=
  [.wipe, .disconnect true, .connect true, .roomRecv 1, .peerRecv true .byKey fun _ => 9,
    .push true, .roomRecv 1, .peerRecv true .byKey fun _ => 9, .peerRecv true .byKey fun _ => 9,
    .connect false, .roomRecv 2, .peerRecv false .byKey fun _ => 9]

/-- The storage is wiped; the phone joins and creates a chat before the desk is back. -/
def phoneFirst : List (Action Bool) :=
  [.wipe, .connect false, .roomRecv 1, .peerRecv false .byKey fun _ => 9,
    .write false [7] (fun _ => 7) [createsChat false "c2" 7], .push false, .roomRecv 1,
    .peerRecv false .byKey fun _ => 9, .peerRecv false .byKey fun _ => 9,
    .disconnect true, .connect true, .roomRecv 2, .peerRecv true .byKey fun _ => 9]

theorem deskFirst_recovers :
    ∃ before after : Net Bool, twoDevices.ReachableWhen Net.Recovers before ∧
      twoDevices.Steps Net.Recovers before after ∧ after.wipes = 1 ∧
      before.room.rows.size = 1 ∧ before.Recovered after := by
  obtain ⟨before, hbefore, hrest⟩ := Machine.exists_steps_of_runWhen twoDevices Net.Recovers deskChat
    (s := Net.init deviceName)
    (p := fun before => before.room.rows.size = 1 ∧
      (twoDevices.runWhen Net.Recovers before deskFirst).any
        fun after => after.Quiescent ∧ (∀ i, after.Connected i) ∧ after.wipes = 1) (by decide)
  obtain ⟨hsize, hrun⟩ := of_decide_eq_true hrest
  obtain ⟨after, hafter, hnet⟩ := Machine.exists_steps_of_runWhen _ _ _ hrun
  obtain ⟨hquiet, hconnected, hwipes⟩ := of_decide_eq_true hnet
  have hreach : twoDevices.ReachableWhen Net.Recovers before := ⟨_, rfl, hbefore⟩
  exact ⟨before, after, hreach, hafter, hwipes, hsize,
    registry_recovers hreach hafter hquiet hconnected⟩

/-- The desk's cursor is 1 and so is the room's seq: the wipe does not show. -/
theorem phoneFirst_stays_apart :
    ¬ ∀ before after : Net Bool, twoDevices.ReachableWhen Net.Uncollected before →
      twoDevices.Steps Net.Uncollected before after → after.Quiescent →
      (∀ i, after.Connected i) → before.Recovered after := by
  intro hall
  obtain ⟨before, hbefore, hrest⟩ := Machine.exists_steps_of_runWhen twoDevices Net.Uncollected deskChat
    (s := Net.init deviceName)
    (p := fun before =>
      ((before.peers true).doc.authoritative[({ kind := "chats", id := "c1" } : RowKey)]?).any
        (! ·.deleted) ∧
      (twoDevices.runWhen Net.Uncollected before phoneFirst).any fun after =>
        after.Quiescent ∧ (∀ i, after.Connected i) ∧
          after.room.rows[({ kind := "chats", id := "c1" } : RowKey)]? = none) (by decide)
  obtain ⟨hrow, hrun⟩ := of_decide_eq_true hrest
  obtain ⟨after, hafter, hnet⟩ := Machine.exists_steps_of_runWhen _ _ _ hrun
  obtain ⟨hquiet, hconnected, hgone⟩ := of_decide_eq_true hnet
  cases hauth : (before.peers true).doc.authoritative[({ kind := "chats", id := "c1" } : RowKey)]?
    with
  | none => simp [hauth] at hrow
  | some row =>
      have hlive : row.deleted = false := by simpa [hauth] using hrow
      obtain ⟨row', hrow', -⟩ := (hall before after ⟨_, rfl, hbefore⟩ hafter hquiet hconnected).2
        true _ row hauth hlive
      rw [hgone] at hrow'
      cases hrow'

end TwoDevices

end Zeron.Registry
