import Zeron.Registry.SyncSteps
import Zeron.Registry.Validate

/-!
# Convergence

At quiescence the feed of every connected client is empty, so its cursor is the room's version and
it follows that version; with nothing pending it holds no row besides. In runs without a wipe this
needs no condition. After a wipe it takes two: that the wipe shows to each client that says hello
again, and that the seeds it then sends can carry what the rows remember.
-/

namespace Zeron.Registry

open Zeron.Lib (Machine Versions)
open Net (linkSocket)

variable {ι : Type} [DecidableEq ι] {memory : ι → RowKey → Option Hlc → Prop}
  {histories : Nat → History} {net : Net ι}

section Quiescence

omit [DecidableEq ι] in
theorem Net.Connected.link {i : ι} (h : net.Connected i) :
    ∃ sid socket, (net.peers i).link = .joined sid ∧ net.sockets sid = some socket ∧
      socket.opened = true := by
  obtain ⟨sid, hsid, socket, hsocket, hopened⟩ := h
  cases hlink : (net.peers i).link with
  | joined sid' =>
      rw [hlink] at hsid
      cases hsid
      exact ⟨sid, socket, rfl, hsocket, hopened⟩
  | offline | awaiting sid' =>
      rw [hlink] at hsid
      cases hsid

omit [DecidableEq ι] in
theorem NetInv.at_head (h : NetInv memory histories net) (hquiet : net.Quiescent) {i : ι}
    (hconnected : net.Connected i) :
    (net.peers i).era = net.wipes ∧ (net.peers i).doc.serverSeq = net.room.seq := by
  obtain ⟨sid, socket, hlink, hsocket, hopened⟩ := hconnected.link
  obtain ⟨socket₀, hsocket₀, hholds, hjoins⟩ := (h.peers i).socket sid (by rw [hlink]; rfl)
  rw [hsocket, Option.some.injEq] at hsocket₀
  subst hsocket₀
  rw [hlink] at hjoins
  obtain ⟨m, hfeed, hhead⟩ := hjoins.feed
  rw [(hquiet.2 sid (h.sid_lt hsocket) socket hsocket).2] at hfeed
  exact ⟨hjoins.era.trans (hholds.opened hopened), hfeed.trans (hhead.2 hopened)⟩

omit [DecidableEq ι] in
theorem NetInv.agrees (h : NetInv memory histories net) (hquiet : net.Quiescent) {i : ι}
    (hconnected : net.Connected i) : net.Agrees i := by
  obtain ⟨hera, hseq⟩ := h.at_head hquiet hconnected
  have hfollows := (h.peers i).follows
  have htable : ∀ k : RowKey, (histories (net.peers i).era).table
      (net.peers i).doc.serverSeq k = net.room.rows[k]? := by
    intro k
    rw [hera, hseq, h.tracks]
  have hrows : (net.peers i).doc.authoritative = net.room.rows := by
    refine Std.ExtTreeMap.ext_getElem? fun k => ?_
    cases hrow : net.room.rows[k]? with
    | some row => exact hfollows.covers k row ((htable k).trans hrow)
    | none =>
        -- A row the room does not have would be owed, and nothing is pending.
        cases hauth : (net.peers i).doc.authoritative[k]? with
        | none => rfl
        | some row =>
            obtain ⟨⟨b, hb, -⟩, -⟩ := hfollows.owed k row hauth ((htable k).trans hrow)
            rw [hquiet.1 i] at hb
            cases hb
  refine ⟨hrows, fun key => ?_⟩
  rw [RegistryDoc.overlayRow_of_pending_nil (hquiet.1 i), hrows]

end Quiescence

section Ordinary

omit [DecidableEq ι] in
/-- Without a wipe every cursor is of the present storage. -/
theorem NetInv.recovers_of_ordinary (h : NetInv memory histories net) (hwipes : net.wipes = 0)
    {action : Action ι} (hordinary : net.Ordinary action) : net.Recovers action := by
  have hera : ∀ i, (net.peers i).era = net.wipes := by
    intro i
    have hle := (h.peers i).era
    omega
  cases action with
  | roomRecv sid =>
      intro socket _ _ frame _
      match frame with
      | .hello (some cursor) device => exact Or.inl (hera _)
      | .hello none device => trivial
      | .push batch ops => trivial
  | peerRecv i order wall =>
      intro sid hsid socket hsocket frame hframe
      match frame with
      | .state seq true gcFloor rows =>
          intro hbehind
          obtain ⟨socket₀, hsocket₀, hholds, hlink⟩ := (h.peers i).socket sid hsid
          cases hsocket₀.symm.trans hsocket
          obtain ⟨rest, hrest⟩ := List.head?_eq_some_iff.mp hframe
          cases hcase : (net.peers i).link with
          | offline =>
              rw [hcase] at hsid
              cases hsid
          | awaiting sid' =>
              rw [hcase] at hlink
              obtain hasks | hanswered := hlink
              · rw [hasks.toPeer] at hrest
                cases hrest
              · obtain ⟨_, _, _, _, _, _, htoPeer, -, hless, -⟩ := hanswered.toPeer
                rw [hrest] at htoPeer
                cases htoPeer
                have hlt := hless rfl hbehind
                have hle := hholds.era
                omega
          | joined sid' =>
              rw [hcase] at hlink
              obtain ⟨m, hfeed, -⟩ := hlink.feed
              rw [hrest] at hfeed
              exact hfeed.elim
      | .state seq false gcFloor rows => trivial
      | .rows seq rows => trivial
      | .ack batch seq applied => trivial
      | .error code message => trivial
  | write | connect | push | disconnect | close => trivial
  | wipe | collect => exact hordinary.elim

theorem ordinary_inv {device : ι → String} {refuses : List RowOp → Option (String × String)}
    (h : (Net.machine device refuses).ReachableWhen Net.Ordinary net) :
    (∃ histories, NetInv (fun _ _ _ => False) histories net) ∧ net.wipes = 0 := by
  refine h.invariant
    (I := fun net => (∃ histories, NetInv (fun _ _ _ => False) histories net) ∧ net.wipes = 0)
    ?_ ?_
  · rintro net rfl
    exact ⟨⟨_, netInv_init device⟩, rfl⟩
  · rintro net action net' ⟨⟨histories, hinv⟩, hwipes⟩ hordinary hstep
    refine ⟨hinv.step refuses (hinv.recovers_of_ordinary hwipes hordinary) hstep, ?_⟩
    exact (Net.wipes_of_ordinary hordinary hstep).trans hwipes

/-- **The answer to a hello**: everything, or exactly the rows stamped above the cursor. -/
theorem Room.Tracks.handleHello {room : Room} {history : History} (h : room.Tracks history)
    (cursor : Option Nat) :
    ∃ full rows, room.handleHello cursor = .state room.seq full room.gcFloor rows ∧
      (full = true ↔ ∀ c ∈ cursor, c < room.gcFloor ∨ room.seq < c) ∧
      ∀ row, row ∈ rows ↔
        room.rows[row.key]? = some row ∧ (full = true ∨ ∀ c ∈ cursor, c < row.seq) := by
  refine ⟨_, _, rfl, ?_, fun row => ?_⟩
  · cases cursor <;> simp [Room.helloIsFull]
  · rw [Room.mem_rowsSince h.keyed]
    refine and_congr_right fun hrow => ?_
    rw [← congrFun h row.key] at hrow
    have hpos := history.stamp_pos hrow
    cases cursor with
    | none => simp [Room.helloIsFull, hpos]
    | some c =>
        split
        · rename_i hfull
          simp [hfull, hpos]
        · rename_i hfull
          simp [hfull]

/-- **Convergence.** In every state an ordinary run reaches, the room answers hellos by its table;
and where nothing is pending or in flight, every connected client agrees with it. -/
theorem registry_converges (device : ι → String)
    (refuses : List RowOp → Option (String × String)) {net : Net ι}
    (h : (Net.machine device refuses).ReachableWhen Net.Ordinary net) :
    (∀ cursor : Option Nat, ∃ full rows,
      net.room.handleHello cursor = .state net.room.seq full net.room.gcFloor rows ∧
      (full = true ↔ ∀ c ∈ cursor, c < net.room.gcFloor ∨ net.room.seq < c) ∧
      ∀ row, row ∈ rows ↔
        net.room.rows[row.key]? = some row ∧ (full = true ∨ ∀ c ∈ cursor, c < row.seq)) ∧
    (net.Quiescent → ∀ i, net.Connected i → net.Agrees i) := by
  obtain ⟨⟨histories, hinv⟩, -⟩ := ordinary_inv h
  exact ⟨hinv.tracks.handleHello, fun hquiet i hconnected => hinv.agrees hquiet hconnected⟩

/-- **No gaps below a cursor.** Throughout an ordinary run, connected or not, with frames in flight,
a client holds the room's own version of every row stamped up to its cursor. -/
theorem cursor_has_no_gaps (device : ι → String)
    (refuses : List RowOp → Option (String × String)) {net : Net ι}
    (h : (Net.machine device refuses).ReachableWhen Net.Ordinary net) (i : ι) :
    (net.peers i).doc.serverSeq ≤ net.room.seq ∧
    ∀ (key : RowKey) (row : RegistryRow), net.room.rows[key]? = some row →
      row.seq ≤ (net.peers i).doc.serverSeq →
      (net.peers i).doc.authoritative[key]? = some row := by
  obtain ⟨⟨histories, hinv⟩, hwipes⟩ := ordinary_inv h
  have hpeer := hinv.peers i
  have hera : (net.peers i).era = net.wipes := by
    have hle := hpeer.era
    omega
  have hbound := hpeer.bound hera
  refine ⟨hbound, fun key row hrow hstamp => hpeer.follows.covers key row ?_⟩
  have htable : (histories net.wipes).table net.room.seq key = some row :=
    (congrFun hinv.tracks key).trans hrow
  rw [hera]
  exact Versions.table_of_stamp_le _ hbound htable hstamp

end Ordinary

section TwoDevices

def deviceName (i : Bool) : String := if i then "desk" else "phone"

/-- What a device writes when it creates a chat at `ms`. -/
def createsChat (i : Bool) (id : String) (ms : Int) : RowOp :=
  { kind := "chats", id, op := .upsert, set := some (fields [("id", .string id)])
    hlc := encodeHlc ms 0 (deviceName i), clocks := none }

/-- Both devices create a chat; the desk's ack is lost with its connection, and it pushes again. -/
def lostAck : List (Action Bool) :=
  [.connect true, .roomRecv 0, .peerRecv true .byKey fun _ => 1,
    .connect false, .roomRecv 1, .peerRecv false .byKey fun _ => 1,
    .write true [5] (fun _ => 5) [createsChat true "c1" 5], .push true,
    .write false [7] (fun _ => 7) [createsChat false "c2" 7], .push false,
    .roomRecv 0, .disconnect true, .roomRecv 1,
    .connect true, .roomRecv 2, .peerRecv true .byKey fun _ => 1, .push true, .roomRecv 2,
    .peerRecv true .byKey fun _ => 1,
    .peerRecv false .byKey fun _ => 1, .peerRecv false .byKey fun _ => 1,
    .peerRecv false .byKey fun _ => 1]

/-- The machine of the two devices and the room as deployed. -/
def twoDevices : Machine (Net Bool) (Action Bool) := Net.machine deviceName refuses

theorem lostAck_converges :
    ∃ net : Net Bool, twoDevices.ReachableWhen Net.Ordinary net ∧ net.room.seq = 2 ∧
      ∀ i, net.Agrees i := by
  obtain ⟨net, hsteps, hnet⟩ := Machine.exists_steps_of_runWhen twoDevices Net.Ordinary lostAck
    (s := Net.init deviceName)
    (p := fun net => net.Quiescent ∧ (∀ i, net.Connected i) ∧ net.room.seq = 2) (by decide)
  obtain ⟨hquiet, hconnected, hseq⟩ := of_decide_eq_true hnet
  have hreach : twoDevices.ReachableWhen Net.Ordinary net := ⟨_, rfl, hsteps⟩
  exact ⟨net, hreach, hseq, fun i =>
    (registry_converges deviceName refuses hreach).2 hquiet i (hconnected i)⟩

/-- With a frame still on its way the phone's cursor is behind the room's. -/
theorem lostAck_has_no_gaps :
    ∃ net : Net Bool, (net.peers false).doc.serverSeq = 1 ∧ net.room.seq = 2 ∧
      ∀ i (key : RowKey) (row : RegistryRow), net.room.rows[key]? = some row →
        row.seq ≤ (net.peers i).doc.serverSeq →
        (net.peers i).doc.authoritative[key]? = some row := by
  obtain ⟨net, hsteps, hnet⟩ := Machine.exists_steps_of_runWhen twoDevices Net.Ordinary
    (lostAck.take 20) (s := Net.init deviceName)
    (p := fun net => (net.peers false).doc.serverSeq = 1 ∧ net.room.seq = 2) (by decide)
  obtain ⟨hcursor, hseq⟩ := of_decide_eq_true hnet
  exact ⟨net, hcursor, hseq, fun i =>
    (cursor_has_no_gaps deviceName refuses ⟨_, rfl, hsteps⟩ i).2⟩

end TwoDevices

end Zeron.Registry
