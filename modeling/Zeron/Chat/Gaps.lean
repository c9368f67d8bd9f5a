import Zeron.Chat.Cursor

/-!
# A cursor with no gaps

The room's steps keep what a cursor says, and with them whole runs do, as long as nothing comes
between hello and the request for rows that the client lacks something before.
-/

namespace Zeron.Chat

open Zeron.Lib
open Zeron.Lib.Item (carried)

namespace Session

variable {U : Type*} {me : String} {s : Session U} {frames : List (RoomFrame U)}

/-! ## A row is added -/

section Added

variable {row : LogRow U} {frame : RoomFrame U} {rest : List (RoomFrame U)} {after : Nat}

theorem Reads.addRow {log : ChatLog U} {doc : List U} {cursor covered : Nat}
    (h : Reads log doc cursor covered) (hseq : row.seq = log.headSeq + 1) :
    Reads (log.addRow row) doc cursor covered := by
  have hcursor := h.cursor
  refine ⟨fun other hother hle => ?_, by simp only [ChatLog.addRow]; omega, h.covered⟩
  obtain hother | hother := List.mem_append.mp hother
  · exact h.held other hother hle
  · rw [List.mem_singleton.mp hother] at hle
    omega

theorem carried_snoc {other : LogRow U} (h : other ∈ carried (frames.map RoomFrame.item)) :
    other ∈ carried ((frames ++ [frame]).map RoomFrame.item) := by
  rw [List.map_append, Item.carried_append]
  exact List.mem_append_left _ h

theorem extend_safe {held : LogRow U → Prop}
    (h : Gapless LogRow.seq s.log.history held (frames.map RoomFrame.item))
    (hmarks : ∀ item ∈ frames.map RoomFrame.item, ∀ n, item.mark = some n → n ≤ s.log.headSeq)
    (hseq : row.seq = s.log.headSeq + 1)
    (hall : ∀ other ∈ s.log.history,
      held other ∨ other ∈ carried (frames.map RoomFrame.item))
    (hframe : held row ∨ frame.item.entry = some row) :
    Gapless LogRow.seq (s.log.addRow row).history held
      ((frames ++ [frame]).map RoomFrame.item) := by
  rw [List.map_append]
  apply h.extend _ hall hframe
  intro item hitem n hmark
  have hle := hmarks item hitem n hmark
  omega

theorem extend_synced {covered : Nat}
    (hall : ∀ other ∈ s.log.history,
      Holds s.doc covered other ∨ other ∈ carried (frames.map RoomFrame.item))
    (hframe : Holds s.doc covered row ∨ frame.item.entry = some row) (other : LogRow U)
    (hother : other ∈ (s.log.addRow row).history) :
    Holds s.doc covered other ∨ other ∈ carried ((frames ++ [frame]).map RoomFrame.item) := by
  obtain hother | hother := List.mem_append.mp hother
  · exact (hall other hother).imp_right carried_snoc
  · rw [List.mem_singleton.mp hother]
    refine hframe.imp_right fun hentry => ?_
    rw [List.map_append, Item.carried_append, List.map_singleton, Item.carried_cons, hentry]
    exact List.mem_append_right _ (by simp)

theorem AtFetch.relay (h : s.AtFetch after)
    (hmarks : ∀ item ∈ s.items, ∀ n, item.mark = some n → n ≤ s.log.headSeq)
    (hseq : row.seq = s.log.headSeq + 1)
    (hall : ∀ other ∈ s.log.history,
      Holds s.doc s.log.seqFloor other ∨ other ∈ carried s.items) :
    AtFetch { s with log := s.log.addRow row, toClient := s.toClient ++ [.row row] } after :=
  ⟨h.room, h.ready, h.unserved, h.after_le, extend_safe h.safe hmarks hseq hall (.inr rfl)⟩

theorem Asks.relay (h : s.Asks after)
    (hmarks : ∀ item ∈ s.items, ∀ n, item.mark = some n → n ≤ s.log.headSeq)
    (hseq : row.seq = s.log.headSeq + 1)
    (hall : ∀ other ∈ s.log.history, Holds s.doc s.covered other ∨ other ∈ carried s.items) :
    Asks { s with log := s.log.addRow row, toClient := s.toClient ++ [.row row] } after := by
  have hafter := h.after_le
  refine ⟨h.room, h.ready, h.unserved, h.epoch, by simp only [ChatLog.addRow]; omega,
    extend_safe h.safe hmarks hseq hall (.inr rfl), fun other hother hle => ?_,
    fun other hother _ => extend_synced hall (.inr rfl) other hother⟩
  obtain hother | hother := List.mem_append.mp hother
  · exact h.before other hother hle
  · rw [List.mem_singleton.mp hother] at hle
    omega

theorem Fills.relay (h : s.Fills me)
    (hmarks : ∀ item ∈ s.items, ∀ n, item.mark = some n → n ≤ s.log.headSeq)
    (hseq : row.seq = s.log.headSeq + 1) (hdevice : row.device ≠ me) :
    Fills me { s with log := s.log.addRow row, toClient := s.toClient ++ [.row row] } := by
  refine ⟨h.room, h.ready, h.served, h.epoch, extend_safe h.safe hmarks hseq h.synced (.inr rfl),
    extend_synced h.synced (.inr rfl), fun before head contents behind hsplit other hother => ?_⟩
  dsimp only at hsplit
  obtain rfl | ⟨init, last, rfl⟩ := List.eq_nil_or_concat behind
  · cases hother
  · rw [List.concat_eq_append, ← List.cons_append, ← List.append_assoc] at hsplit
    obtain ⟨hsplit, hlast⟩ := List.append_inj' hsplit rfl
    rw [List.concat_eq_append, ← hlast] at hother
    obtain hother | hother := List.mem_append.mp hother
    · exact h.others before head contents init hsplit other hother
    · cases List.mem_singleton.mp hother
      exact hdevice

theorem AtSteady.announce (h : s.AtSteady)
    (hmarks : ∀ item ∈ s.items, ∀ n, item.mark = some n → n ≤ s.log.headSeq)
    (hseq : row.seq = s.log.headSeq + 1) {toRoom : List (ClientFrame U)}
    (hroom : ∀ frame ∈ toRoom, frame ∈ s.toRoom)
    (hframe : Holds s.doc s.covered row ∨ frame.item.entry = some row) :
    AtSteady { s with
      log := s.log.addRow row, toRoom, toClient := s.toClient ++ [frame] } :=
  ⟨fun frame hmem => h.room frame (hroom frame hmem), h.ready, h.served, h.epoch,
    extend_safe h.safe hmarks hseq h.synced hframe, extend_synced h.synced hframe⟩

theorem reached_of_kept {held : LogRow U → Prop}
    (hkept : ∀ other ∈ s.log.history, other ∈ s.log.rows ∨ other.seq ≤ s.log.seqFloor)
    (hreaches : ∀ other ∈ s.log.rows, held other ∨ .row other ∈ frames)
    (hgone : ∀ other ∈ s.log.history, other.seq ≤ s.log.seqFloor →
      held other ∨ other ∈ carried (frames.map RoomFrame.item)) (other : LogRow U)
    (hother : other ∈ s.log.history) :
    held other ∨ other ∈ carried (frames.map RoomFrame.item) := by
  obtain hrow | hle := hkept other hother
  · exact (hreaches other hrow).imp_right mem_carried_items.mpr
  · exact hgone other hother hle

variable [DecidableEq U]

theorem Greeted.relay {header : StateHeader U} (h : s.Greeted header rest)
    (hmarks : ∀ item ∈ rest.map RoomFrame.item, ∀ n, item.mark = some n → n ≤ s.log.headSeq)
    (hseq : row.seq = s.log.headSeq + 1) (hfloor : s.log.seqFloor ≤ s.log.headSeq)
    (hkept : ∀ other ∈ s.log.history, other ∈ s.log.rows ∨ other.seq ≤ s.log.seqFloor)
    (hreaches : ∀ other ∈ s.log.rows, other.update ∈ s.doc ∨ .row other ∈ rest) :
    Greeted { s with log := s.log.addRow row, toClient := s.toClient ++ [.row row] } header
      (rest ++ [RoomFrame.row row]) := by
  have hhead := h.head
  refine ⟨h.checkpoint, by simp only [ChatLog.addRow]; omega, h.bare,
    extend_safe h.safe hmarks hseq (fun other hother => ?_) (.inr rfl), fun other hother hle => ?_⟩
  · obtain hrow | hle := hkept other hother
    · apply (hreaches other hrow).imp
      · exact fun hdoc => .inl (.inl hdoc)
      · exact mem_carried_items.mpr
    · obtain hheld | hcarried | hlack := h.gone other hother hle
      · exact .inl (.inl hheld)
      · exact .inr hcarried
      · exact .inl (.inr ⟨hlack, hle⟩)
  · obtain hother | hother := List.mem_append.mp hother
    · exact (h.gone other hother hle).imp_right fun hmore => hmore.imp_left carried_snoc
    · rw [List.mem_singleton.mp hother] at hle
      simp only [ChatLog.addRow] at hle
      omega

theorem AtPhase.relay {phase : Phase} (h : s.AtPhase me phase) (hlog : s.log.WellFormed)
    (hmarks : ∀ item ∈ s.items, ∀ n, item.mark = some n → n ≤ s.log.headSeq)
    (hready : s.ready = true) (hseq : row.seq = s.log.headSeq + 1) (hdevice : row.device ≠ me)
    (hreaches : s.served = false →
      ∀ other ∈ s.log.rows, other.update ∈ s.doc ∨ .row other ∈ s.toClient) :
    AtPhase me { s with log := s.log.addRow row, toClient := s.toClient ++ [.row row] } phase := by
  cases phase with
  | offline => exact h
  | hello =>
      obtain ⟨hunready, -⟩ | ⟨-, hserved, hroom, header, rest, hqueue, hgreeted⟩ := h
      · rw [hready] at hunready
        cases hunready
      · refine .inr ⟨hready, hserved, hroom, header, rest ++ [RoomFrame.row row], ?_, ?_⟩
        · dsimp only
          rw [hqueue, List.cons_append]
        · apply hgreeted.relay _ hseq hlog.floor hlog.kept
          · intro other hother
            refine (hreaches hserved other hother).imp_right fun hmem => ?_
            rw [hqueue] at hmem
            exact (List.mem_cons.mp hmem).resolve_left nofun
          · intro item hitem
            apply hmarks item
            rw [items, hqueue]
            exact List.mem_cons_of_mem _ hitem
  | fetching after =>
      apply AtFetch.relay h hmarks hseq
      apply reached_of_kept hlog.kept
      · exact fun other hother => (hreaches h.unserved other hother).imp_left .inl
      · exact fun _ _ hle => .inl (.inr hle)
  | backfill after =>
      obtain hasks | hfills := h
      · refine .inl (hasks.relay hmarks hseq (reached_of_kept hlog.kept ?_ hasks.gone))
        exact fun other hother => (hreaches hasks.unserved other hother).imp_left .inl
      · exact .inr (hfills.relay hmarks hseq hdevice)
  | steady => exact AtSteady.announce h hmarks hseq (fun _ => id) (.inr rfl)

theorem Connected.relay (h : s.Connected me) (hlog : s.log.WellFormed) (hready : s.ready = true)
    (hseq : row.seq = s.log.headSeq + 1) (hdevice : row.device ≠ me)
    (hreaches : s.served = false →
      ∀ other ∈ s.log.rows, other.update ∈ s.doc ∨ .row other ∈ s.toClient) :
    Connected me { s with log := s.log.addRow row, toClient := s.toClient ++ [.row row] } := by
  refine ⟨h.dialed, fun item hitem n hmark => ?_, fun hserved head contents hmem => ?_,
    h.phase.relay hlog h.marks hready hseq hdevice hreaches⟩
  · rw [items, List.map_append] at hitem
    simp only [ChatLog.addRow]
    obtain hitem | hitem := List.mem_append.mp hitem
    · have hle := h.marks item hitem n hmark
      omega
    · rw [List.mem_singleton.mp hitem] at hmark
      cases hmark
      exact Nat.le_refl _
  · obtain hmem | hmem := List.mem_append.mp hmem
    · exact h.unfinished hserved head contents hmem
    · cases List.mem_singleton.mp hmem

theorem AtPhase.unready {phase : Phase} (h : s.AtPhase me phase) (hready : s.ready = false) :
    phase = .hello ∧ s.served = false ∧ s.toClient = [] ∧
      ∃ cursor, s.toRoom = [.hello cursor] := by
  have habsurd : s.ready ≠ true := by
    rw [hready]
    nofun
  cases phase with
  | offline => exact h.elim
  | hello =>
      obtain ⟨-, hserved, hqueue, hroom⟩ | ⟨hother, -⟩ := h
      · exact ⟨rfl, hserved, hqueue, hroom⟩
      · exact absurd hother habsurd
  | fetching after => exact absurd h.ready habsurd
  | backfill after =>
      obtain hasks | hfills := h
      · exact absurd hasks.ready habsurd
      · exact absurd hfills.ready habsurd
  | steady => exact absurd h.ready habsurd

theorem AtPhase.fresh {phase : Phase} (hphase : phase = .hello) (hready : s.ready = false)
    (hserved : s.served = false) (hqueue : s.toClient = [])
    (hroom : ∃ cursor, s.toRoom = [.hello cursor]) : s.AtPhase me phase := by
  subst hphase
  exact .inl ⟨hready, hserved, hqueue, hroom⟩

theorem Inv.addRow (h : s.Inv me) (hseq : row.seq = s.log.headSeq + 1)
    (hown : row.device = me → row.update ∈ s.doc ∧ s.listed = true)
    {toRoom : List (ClientFrame U)} {toClient : List (RoomFrame U)}
    (hroom : ∀ frame ∈ toRoom, frame ∈ s.toRoom)
    (hconnected : s.listed = true → s.Connected me →
      Connected me { s with log := s.log.addRow row, toRoom, toClient }) :
    Inv me { s with log := s.log.addRow row, toRoom, toClient } where
  log := h.log.addRow hseq
  savedDoc := h.savedDoc
  saved := fun hepoch => (h.saved hepoch).addRow hseq
  reads := fun hepoch => (h.reads hepoch).addRow hseq
  epochs := h.epochs
  pending := h.pending
  pushed := fun batch hbatch => h.pushed batch (hroom _ hbatch)
  own := fun hresumed other hother hdevice => by
    obtain hother | hother := List.mem_append.mp hother
    · exact h.own hresumed other hother hdevice
    · rw [List.mem_singleton.mp hother] at hdevice ⊢
      exact .inl (hown hdevice).1
  offline := h.offline
  lost := fun hphase hlisted => by
    obtain ⟨hdialed, hepoch, hothers⟩ := h.lost hphase hlisted
    refine ⟨hdialed, hepoch, fun other hother hdevice => ?_⟩
    obtain hother | hother := List.mem_append.mp hother
    · exact hothers other hother hdevice
    · rw [List.mem_singleton.mp hother] at hdevice
      have hlisted : s.listed = false := hlisted
      rw [(hown hdevice).2] at hlisted
      cases hlisted
  connected := fun hlisted => hconnected hlisted (h.connected hlisted)

theorem Inv.otherPush (h : s.Inv me) {device : String} {number : Nat} {update : U}
    (hdevice : device ≠ me) (hsound : s.sound (.otherPush device number update) = true) :
    Inv me (s.otherPush device ⟨device, number⟩ update) := by
  unfold Session.otherPush
  obtain ⟨row, -, -, hdup⟩ | ⟨hnew, hadded⟩ :=
    s.log.appendRow_cases device ⟨device, number⟩ update
  · rw [hdup]
    exact h
  · rw [hadded]
    dsimp only
    have hnone : s.log.rows.any (·.batchId == ⟨device, number⟩) = false := by
      simpa using hnew
    unfold relay
    split
    · rename_i hrelay
      have hready : s.ready = true := (Bool.and_eq_true_iff.mp hrelay).2
      apply h.addRow rfl (fun hown => absurd hown hdevice) fun _ => id
      intro hlisted hconnected
      apply hconnected.relay h.log hready rfl hdevice
      intro hserved
      simp only [sound, inWindow, hlisted, hready, hserved, hnone, Bool.and_self,
        Bool.not_false, Bool.not_true, Bool.false_or] at hsound
      exact s.reaches_iff.mp hsound
    · rename_i hrelay
      apply h.addRow rfl (fun hown => absurd hown hdevice) fun _ => id
      intro hlisted hconnected
      have hready : s.ready = false := by
        simpa [hlisted] using hrelay
      obtain ⟨hphase, hserved, hqueue, hroom⟩ := hconnected.phase.unready hready
      refine ⟨hconnected.dialed, fun item hitem => ?_, hconnected.unfinished,
        .fresh hphase hready hserved hqueue hroom⟩
      simp only [items, hqueue] at hitem
      cases hitem

end Added

/-! ## A checkpoint is committed -/

section Committed

variable {log : ChatLog U} {seqCovered : Nat} {snapshot : List U}

theorem Reads.commit {doc : List U} {cursor covered : Nat} (h : Reads s.log doc cursor covered)
    (hlog : s.log.WellFormed) (hcommit : s.log.commitCheckpoint seqCovered snapshot = some log) :
    Reads log doc cursor covered := by
  obtain ⟨-, hfloor, -, rfl⟩ := hlog.commit hcommit
  exact ⟨h.held, h.cursor, Nat.le_trans h.covered hfloor⟩

variable [DecidableEq U]

theorem reached_of_sound (hlisted : s.listed = true) (hready : s.ready = true)
    (hserved : s.served = false) (hsound : s.soundCheckpoint seqCovered = true)
    (hfetch : s.willFetch = false) (row : LogRow U) (hrow : row ∈ s.log.rows)
    (hle : row.seq ≤ seqCovered) : row.update ∈ s.doc ∨ .row row ∈ s.toClient := by
  simp only [soundCheckpoint, inWindow, hlisted, hready, hserved, hfetch, Bool.and_self,
    Bool.not_false, Bool.not_true, Bool.false_or] at hsound
  exact s.reaches_iff.mp hsound row (List.mem_filter.mpr ⟨hrow, decide_eq_true hle⟩)

theorem AtPhase.commit {phase : Phase} (hphase : s.phase = phase) (h : s.AtPhase me phase)
    (hlog : s.log.WellFormed) (hlisted : s.listed = true)
    (hsound : s.soundCheckpoint seqCovered = true)
    (hcommit : s.log.commitCheckpoint seqCovered snapshot = some log) :
    AtPhase me { s with log } phase := by
  obtain ⟨-, hfloor, hhead, rfl⟩ := hlog.commit hcommit
  cases phase with
  | offline => exact h
  | hello =>
      obtain hfresh | ⟨hready, hserved, hroom, header, rest, hqueue, hgreeted⟩ := h
      · exact .inl hfresh
      · have hcheckpoint := hgreeted.checkpoint
        refine .inr ⟨hready, hserved, hroom, header, rest, hqueue,
          Nat.le_trans hcheckpoint hfloor, hgreeted.head, hgreeted.bare,
          hgreeted.safe.mono fun row _ hrow => ?_, fun row hrow hle => ?_⟩
        · exact hrow.imp_right fun hlack => ⟨hlack.1, Nat.le_trans hlack.2 hfloor⟩
        · by_cases hfetch : s.contains header.frontier = true
          · obtain hkept | hgone := hlog.kept row hrow
            · have hreached := reached_of_sound hlisted hready hserved hsound
                (by simp [willFetch, hphase, hqueue, hfetch]) row hkept hle
              rw [hqueue] at hreached
              apply hreached.imp .inl
              intro hmem
              exact .inl (mem_carried_items.mpr (by simpa using hmem))
            · exact hgreeted.gone row hrow hgone
          · exact .inr (.inr (Bool.eq_false_iff.mpr hfetch))
  | fetching after =>
      refine ⟨h.room, h.ready, h.unserved, Nat.le_trans h.after_le hfloor, ?_⟩
      exact h.safe.mono fun row _ hheld => hheld.mono (fun _ => id) hfloor
  | backfill after =>
      obtain hasks | hfills := h
      · refine .inl ⟨hasks.room, hasks.ready, hasks.unserved, hasks.epoch, hasks.after_le,
          hasks.safe, hasks.before, fun row hrow hle => ?_⟩
        obtain hkept | hgone := hlog.kept row hrow
        · apply (reached_of_sound hlisted hasks.ready hasks.unserved hsound
            (by simp [willFetch, hphase]) row hkept hle).imp .inl
          exact mem_carried_items.mpr
        · exact hasks.gone row hrow hgone
      · exact .inr ⟨hfills.room, hfills.ready, hfills.served, hfills.epoch, hfills.safe,
          hfills.synced, hfills.others⟩
  | steady => exact ⟨h.room, h.ready, h.served, h.epoch, h.safe, h.synced⟩

theorem Inv.postCheckpoint (h : s.Inv me) (hsound : s.soundCheckpoint seqCovered = true) :
    Inv me (s.postCheckpoint seqCovered snapshot) := by
  unfold Session.postCheckpoint
  split
  · rename_i log hcommit
    obtain ⟨hlog, hfloor, hhead, heq⟩ := h.log.commit hcommit
    have hhistory : log.history = s.log.history ∧ log.headSeq = s.log.headSeq ∧
        log.seqFloor = seqCovered ∧ log.epoch = s.log.epoch := by
      rw [heq]
      exact ⟨rfl, rfl, rfl, rfl⟩
    obtain ⟨hhistory, hheadSeq, hseqFloor, hepoch⟩ := hhistory
    refine ⟨hlog, h.savedDoc, fun hsaved => ?_, fun hread => ?_, ?_, h.pending, h.pushed,
      fun hresumed row hrow hdevice => ?_, h.offline, fun hphase hlisted => ?_, fun hlisted => ?_⟩
    · exact (h.saved (hsaved.trans hepoch)).commit h.log hcommit
    · exact (h.reads (hread.trans hepoch)).commit h.log hcommit
    · dsimp only
      rw [hepoch]
      exact h.epochs
    · dsimp only at hrow ⊢
      rw [hhistory] at hrow
      rw [hseqFloor]
      exact (h.own hresumed row hrow hdevice).imp_right fun hle => Nat.le_trans hle hfloor
    · dsimp only
      rw [hepoch, hhistory]
      exact h.lost hphase hlisted
    · have hconnected := h.connected hlisted
      refine ⟨hconnected.dialed.trans hepoch.symm, ?_, hconnected.unfinished,
        hconnected.phase.commit rfl h.log hlisted hsound hcommit⟩
      dsimp only
      rw [hheadSeq]
      exact hconnected.marks
  · exact h

end Committed

/-! ## The room takes a frame -/

section Taken

variable [DecidableEq U] {rest : List (ClientFrame U)} {phase : Phase}

theorem AtPhase.of_hello {cursor : Nat} (h : s.AtPhase me phase)
    (hroom : s.toRoom = .hello cursor :: rest) :
    phase = .hello ∧ s.served = false ∧ s.toClient = [] ∧ rest = [] := by
  cases phase with
  | offline => exact h.elim
  | hello =>
      obtain ⟨-, hserved, hqueue, other, heq⟩ | ⟨-, -, heq, -⟩ := h <;> rw [hroom] at heq <;> cases heq
      exact ⟨rfl, hserved, hqueue, rfl⟩
  | fetching after => cases hroom.symm.trans h.room
  | backfill after =>
      obtain hasks | hfills := h
      · cases hroom.symm.trans hasks.room
      · cases hroom.symm.trans hfills.room
  | steady =>
      obtain ⟨batch, hbatch⟩ := h.room _ (hroom ▸ List.mem_cons_self)
      cases hbatch

theorem AtPhase.of_rowsReq {after : Nat} {excludeOwn : Bool} (h : s.AtPhase me phase)
    (hroom : s.toRoom = .rowsReq after excludeOwn :: rest) :
    phase = .backfill after ∧ excludeOwn = s.resumed ∧ rest = [] ∧ s.Asks after := by
  cases phase with
  | offline => exact h.elim
  | hello =>
      obtain ⟨-, -, -, other, heq⟩ | ⟨-, -, heq, -⟩ := h <;> rw [hroom] at heq <;> cases heq
  | fetching asked => cases hroom.symm.trans h.room
  | backfill asked =>
      obtain hasks | hfills := h
      · cases hroom.symm.trans hasks.room
        exact ⟨rfl, rfl, rfl, hasks⟩
      · cases hroom.symm.trans hfills.room
  | steady =>
      obtain ⟨batch, hbatch⟩ := h.room _ (hroom ▸ List.mem_cons_self)
      cases hbatch

theorem AtPhase.of_push {batch : PendingPush U} (h : s.AtPhase me phase)
    (hroom : s.toRoom = .push batch :: rest) : phase = .steady ∧ s.AtSteady := by
  cases phase with
  | offline => exact h.elim
  | hello =>
      obtain ⟨-, -, -, other, heq⟩ | ⟨-, -, heq, -⟩ := h <;> rw [hroom] at heq <;> cases heq
  | fetching after => cases hroom.symm.trans h.room
  | backfill after =>
      obtain hasks | hfills := h
      · cases hroom.symm.trans hasks.room
      · cases hroom.symm.trans hfills.room
  | steady => exact ⟨rfl, h⟩

theorem AtPhase.of_steady (hphase : s.phase = .steady) (h : s.AtSteady) :
    s.AtPhase me s.phase := by
  rw [hphase]
  exact h

theorem Inv.taken {frame : ClientFrame U} {ready served : Bool} {toClient : List (RoomFrame U)}
    (h : s.Inv me) (hroom : s.toRoom = frame :: rest) (hlisted : s.listed = true)
    (hconnected : s.Connected me →
      Connected me { s with toRoom := rest, ready, served, toClient }) :
    Inv me { s with toRoom := rest, ready, served, toClient } where
  log := h.log
  savedDoc := h.savedDoc
  saved := h.saved
  reads := h.reads
  epochs := h.epochs
  pending := h.pending
  pushed := fun batch hbatch => h.pushed batch (hroom ▸ List.mem_cons_of_mem frame hbatch)
  own := h.own
  offline := h.offline
  lost := h.lost
  connected := fun _ => hconnected (h.connected hlisted)

theorem Inv.handleHello {cursor : Nat} (h : s.Inv me) (hroom : s.toRoom = .hello cursor :: rest)
    (hlisted : s.listed = true) : Inv me (handleHello { s with toRoom := rest }) := by
  apply h.taken hroom hlisted
  intro hconnected
  obtain ⟨hphase, hserved, hqueue, rfl⟩ := hconnected.phase.of_hello hroom
  have hcheckpoint := h.log.checkpoint
  rw [hqueue, List.nil_append]
  refine ⟨hconnected.dialed, fun item hitem n hmark => ?_, fun _ head contents hmem => ?_, ?_⟩
  · rw [List.mem_singleton.mp hitem] at hmark
    cases hmark
  · exact nomatch List.mem_singleton.mp hmem
  · have hgreeted : Greeted { s with
        toRoom := [], ready := true, toClient := [.state s.log.state] } s.log.state [] := by
      refine ⟨Nat.le_of_eq hcheckpoint.1, Nat.le_refl _, fun hnone => ?_, Gapless.nil _ _,
        fun row _ hle => .inl (.inr (Nat.le_trans hle (Nat.le_of_eq hcheckpoint.1.symm)))⟩
      exact hcheckpoint.1.trans (hcheckpoint.2 hnone)
    dsimp only
    generalize s.phase = phase at hphase hgreeted ⊢
    subst hphase
    exact .inr ⟨rfl, hserved, rfl, _, _, rfl, hgreeted⟩

omit [DecidableEq U] in
theorem items_rowsReq {rows : List (LogRow U)} {head : Nat} {contents : List U} :
    (frames ++ rows.map RoomFrame.row ++ [RoomFrame.rowsDone head contents]).map RoomFrame.item =
      frames.map RoomFrame.item ++ rows.map (Gapless.item LogRow.seq) ++ [⟨none, none⟩] := by
  rw [List.map_append, List.map_append, List.map_map]
  rfl

omit [DecidableEq U] in
theorem Asks.answered {after : Nat} (h : s.Asks after) (hlog : s.log.WellFormed)
    (hown : s.resumed = true → ∀ row ∈ s.log.history, row.device = me →
      row.update ∈ s.doc ∨ row.seq ≤ s.log.seqFloor) (row : LogRow U) (hrow : row ∈ s.log.history) :
    Holds s.doc s.covered row ∨ row ∈ carried s.items ∨
      row ∈ s.log.rowsAfter after (if s.resumed then some me else none) := by
  obtain hkept | hgone := hlog.kept row hrow
  · by_cases hafter : row.seq ≤ after
    · exact .inl (h.before row hrow hafter)
    · by_cases hexcluded : s.resumed = true ∧ row.device = me
      · obtain hheld | hle := hown hexcluded.1 row hrow hexcluded.2
        · exact .inl (.inl hheld)
        · exact absurd (hlog.above row hkept) (Nat.not_lt.mpr hle)
      · refine .inr (.inr (List.mem_filter.mpr ⟨hkept, ?_⟩))
        cases hresumed : s.resumed with
        | false => simpa using hafter
        | true =>
            have hdevice : row.device ≠ me := fun heq => hexcluded ⟨hresumed, heq⟩
            simpa [hdevice] using hafter
  · exact (h.gone row hrow hgone).imp_right .inl

theorem Inv.handleRowsReq {after : Nat} {excludeOwn : Bool} (h : s.Inv me)
    (hroom : s.toRoom = .rowsReq after excludeOwn :: rest) (hlisted : s.listed = true) :
    Inv me (handleRowsReq me { s with toRoom := rest } after excludeOwn) := by
  apply h.taken hroom hlisted
  intro hconnected
  obtain ⟨hphase, rfl, rfl, hasks⟩ := hconnected.phase.of_rowsReq hroom
  have hanswered := hasks.answered h.log h.own
  let rows := s.log.rowsAfter after (if s.resumed then some me else none)
  have hrows : ∀ row ∈ rows, row ∈ s.log.rows := fun row hrow => (List.mem_filter.mp hrow).1
  have hall : ∀ row ∈ s.log.history, Holds s.doc s.covered row ∨ row ∈ carried s.items ∨
      row ∈ rows ∨ ∀ other ∈ rows, other.seq < row.seq := fun row hrow =>
    (hanswered row hrow).imp_right fun hmore => hmore.imp_right .inl
  have hfills : Fills me { s with
      toRoom := [], served := true, toClient := s.toClient ++ rows.map .row ++
        [.rowsDone s.log.headSeq s.contents] } := by
    refine ⟨rfl, hasks.ready, rfl, hasks.epoch, ?_, fun row hrow => ?_,
      fun before head contents behind hsplit row hrow => ?_⟩
    · rw [Safe, items, items_rowsReq]
      apply (hasks.safe.append_sorted (h.log.sorted.filter _) hall).concat
      intro n hmark
      cases hmark
    · refine (hanswered row hrow).imp_right fun hmore => ?_
      rw [items, items_rowsReq]
      simp only [Item.carried_append, List.mem_append, Gapless.carried_map_item]
      exact .inl hmore
    · have hlast : behind = [] := by
        dsimp only at hsplit
        obtain rfl | ⟨init, last, rfl⟩ := List.eq_nil_or_concat behind
        · rfl
        · rw [List.concat_eq_append, ← List.cons_append, ← List.append_assoc] at hsplit
          obtain ⟨hsplit, -⟩ := List.append_inj' hsplit rfl
          have hmem : .rowsDone head contents ∈ s.toClient ++ rows.map RoomFrame.row := by
            rw [hsplit]
            simp
          obtain hmem | hmem := List.mem_append.mp hmem
          · exact absurd hmem (hconnected.unfinished hasks.unserved head contents)
          · obtain ⟨row, -, heq⟩ := List.mem_map.mp hmem
            cases heq
      rw [hlast] at hrow
      cases hrow
  refine ⟨hconnected.dialed, fun item hitem n hmark => ?_,
    fun hserved => absurd hserved Bool.true_eq_false.mp, ?_⟩
  · rw [items, items_rowsReq] at hitem
    simp only [List.mem_append, List.mem_map, List.mem_singleton] at hitem
    obtain (hitem | ⟨row, hrow, rfl⟩) | rfl := hitem
    · exact hconnected.marks item (List.mem_map.mpr hitem) n hmark
    · cases hmark
      exact (h.log.numbered row (h.log.listed row (hrows row hrow))).2
    · cases hmark
  · dsimp only
    generalize s.phase = phase at hphase hfills ⊢
    subst hphase
    exact .inr hfills

omit [DecidableEq U] in
theorem marks_snoc {frame : RoomFrame U} {head : Nat}
    (h : ∀ item ∈ frames.map RoomFrame.item, ∀ n, item.mark = some n → n ≤ head)
    (hframe : ∀ n, frame.item.mark = some n → n ≤ head) (item : Item (LogRow U))
    (hitem : item ∈ (frames ++ [frame]).map RoomFrame.item) (n : Nat)
    (hmark : item.mark = some n) : n ≤ head := by
  rw [List.map_append] at hitem
  obtain hitem | hitem := List.mem_append.mp hitem
  · exact h item hitem n hmark
  · rw [List.mem_singleton.mp hitem] at hmark
    exact hframe n hmark

/-- The room takes a push of the client's own. -/
theorem Inv.handlePush {batch : PendingPush U} (h : s.Inv me)
    (hroom : s.toRoom = .push batch :: rest) (hlisted : s.listed = true) :
    Inv me (handlePush me { s with toRoom := rest } batch) := by
  have hpushed := h.pushed batch (hroom ▸ List.mem_cons_self)
  have hrest : ∀ frame ∈ rest, frame ∈ s.toRoom := fun frame hframe =>
    hroom ▸ List.mem_cons_of_mem _ hframe
  unfold Session.handlePush
  obtain ⟨row, hrow, -, hdup⟩ | ⟨-, hadded⟩ :=
    s.log.appendRow_cases me batch.batchId batch.update
  · rw [hdup]
    apply h.taken hroom hlisted
    intro hconnected
    obtain ⟨hphase, hsteady⟩ := hconnected.phase.of_push hroom
    have hsteady' : AtSteady { s with
        toRoom := rest, toClient := s.toClient ++ [.ack batch.batchId row.seq true] } := by
      refine ⟨fun frame hframe => hsteady.room frame (hrest frame hframe), hsteady.ready,
        hsteady.served, hsteady.epoch, ?_, fun other hother =>
          (hsteady.synced other hother).imp_right carried_snoc⟩
      rw [Safe, items, List.map_append]
      refine hsteady.safe.concat fun n _ other hother _ => ?_
      refine (hsteady.synced other hother).imp_right fun hcarried => ?_
      rw [Item.carried_append]
      exact List.mem_append_left _ hcarried
    refine ⟨hconnected.dialed, marks_snoc hconnected.marks fun n hmark => ?_, fun hserved => ?_,
      .of_steady hphase hsteady'⟩
    · cases hmark
      exact (h.log.numbered row (h.log.listed row hrow)).2
    · rw [hsteady.served] at hserved
      cases hserved
  · rw [hadded]
    apply h.addRow rfl (fun _ => ⟨hpushed, hlisted⟩) hrest
    intro _ hconnected
    obtain ⟨hphase, hsteady⟩ := hconnected.phase.of_push hroom
    have hsteady' : AtSteady { s with
        log := s.log.addRow ⟨s.log.headSeq + 1, me, batch.batchId, batch.update⟩
        toRoom := rest
        toClient := s.toClient ++ [.ack batch.batchId (s.log.headSeq + 1) false] } :=
      hsteady.announce hconnected.marks rfl hrest (.inl (.inl hpushed))
    refine ⟨hconnected.dialed, marks_snoc (fun item hitem n hmark => ?_) fun n hmark => ?_,
      fun hserved => ?_, .of_steady hphase hsteady'⟩
    · exact Nat.le_succ_of_le (hconnected.marks item hitem n hmark)
    · cases hmark
      exact Nat.le_refl _
    · rw [hsteady.served] at hserved
      cases hserved

theorem Inv.roomReceives {s' : Session U} (h : s.Inv me) (hstep : s.roomReceives me = some s') :
    Inv me s' := by
  unfold Session.roomReceives at hstep
  split at hstep
  · rename_i cursor rest hlisted hroom
    cases hstep
    exact h.handleHello hroom hlisted
  · rename_i after excludeOwn rest hlisted hroom
    cases hstep
    exact h.handleRowsReq hroom hlisted
  · rename_i batch rest hlisted hroom
    cases hstep
    exact h.handlePush hroom hlisted
  · cases hstep

end Taken

/-! ## Whole runs -/

section Runs

variable [DecidableEq U]

theorem Inv.pushPending (h : s.Inv me) (hphase : s.phase = .steady) : Inv me s.pushPending := by
  refine ⟨h.log, h.savedDoc, h.saved, h.reads, h.epochs, h.pending, fun batch hbatch => ?_,
    h.own, h.offline, h.lost, fun hlisted => ?_⟩
  · obtain hbatch | hbatch := List.mem_append.mp hbatch
    · exact h.pushed batch hbatch
    · obtain ⟨other, hother, heq⟩ := List.mem_map.mp hbatch
      cases heq
      exact h.pending batch hother
  · have hconnected := h.connected hlisted
    have hsteady := hconnected.phase
    rw [hphase] at hsteady
    refine ⟨hconnected.dialed, hconnected.marks, hconnected.unfinished, .of_steady hphase ?_⟩
    refine ⟨fun frame hframe => ?_, hsteady.ready, hsteady.served, hsteady.epoch, hsteady.safe,
      hsteady.synced⟩
    obtain hframe | hframe := List.mem_append.mp hframe
    · exact hsteady.room frame hframe
    · obtain ⟨batch, -, rfl⟩ := List.mem_map.mp hframe
      exact ⟨batch, rfl⟩

theorem Inv.step {s' : Session U} {a : Action U} (h : s.Inv me) (hsound : Sound s a)
    (hstep : s.step me a = some s') : Inv me s' := by
  cases a with
  | localCommit update fits =>
      simp only [Session.step] at hstep
      split at hstep <;> cases hstep
      rename_i hnew
      have hdoc : ∀ batch ∈ s.pending, batch.update ∈ s.doc ++ [update] := fun batch hbatch =>
        List.mem_append_left _ (h.pending batch hbatch)
      split
      · refine h.localCommit hnew fun batch hbatch => ?_
        obtain hbatch | hbatch := List.mem_append.mp hbatch
        · exact hdoc batch hbatch
        · rw [List.mem_singleton.mp hbatch]
          exact List.mem_append_right _ List.mem_cons_self
      · exact h.localCommit hnew hdoc
  | nudge =>
      simp only [Session.step] at hstep
      split at hstep <;> cases hstep
      rename_i hphase
      exact h.pushPending hphase
  | save =>
      cases hstep
      exact h.save
  | dial =>
      simp only [Session.step] at hstep
      split at hstep <;> cases hstep
      exact h.dial
  | disconnect =>
      cases hstep
      exact h.disconnect
  | restart =>
      cases hstep
      exact h.restart
  | receive imports => exact h.receive hsound hstep
  | fetched =>
      simp only [Session.step] at hstep
      split at hstep
      · rename_i after hphase
        split at hstep <;> cases hstep
        · exact h.applyCheckpoint hphase _
        · exact h.disconnect
      · cases hstep
  | roomReceives => exact h.roomReceives hstep
  | otherPush device number update =>
      simp only [Session.step] at hstep
      split at hstep <;> cases hstep
      rename_i hdevice
      exact h.otherPush hdevice hsound
  | otherCheckpoint seqCovered snapshot =>
      cases hstep
      exact h.postCheckpoint hsound
  | capture | losePost _ =>
      cases hstep
      exact h.posts _
  | post i =>
      simp only [Session.step] at hstep
      split at hstep <;> cases hstep
      rename_i seqCovered snapshot hpost
      apply (h.posts _).postCheckpoint
      simp only [Sound, sound, hpost, Option.all_some] at hsound
      exact hsound
  | reset =>
      cases hstep
      exact h.reset

def NoReset (_ : Session U) (a : Action U) : Prop := a ≠ .reset

instance (s : Session U) (a : Action U) : Decidable (NoReset s a) :=
  inferInstanceAs (Decidable (a ≠ .reset))

def SoundInEpoch (s : Session U) (a : Action U) : Prop := Sound s a ∧ NoReset s a

instance (s : Session U) (a : Action U) : Decidable (SoundInEpoch s a) :=
  inferInstanceAs (Decidable (_ ∧ _))

theorem log_receive {s' : Session U} {imports : Bool} (hstep : s.receive imports = some s') :
    s'.log = s.log := by
  cases receive_cases hstep with
  | state =>
      unfold handleState
      split <;> rfl
  | early | finish | row | ack | skip => rfl

def Posts (s : Session U) (a : Action U) (seqCovered : Nat) (snapshot : List U) : Prop :=
  a = .otherCheckpoint seqCovered snapshot ∨ ∃ i, a = .post i ∧ s.posts[i]? = some (seqCovered, snapshot)

omit [DecidableEq U] in
theorem exists_postCheckpoint (s : Session U) (seqCovered : Nat) (snapshot : List U) :
    ∃ log, s.postCheckpoint seqCovered snapshot = { s with log } ∧
      (log = s.log ∨ s.log.commitCheckpoint seqCovered snapshot = some log) := by
  unfold postCheckpoint
  split
  · rename_i log hcommit
    exact ⟨log, rfl, .inr hcommit⟩
  · exact ⟨s.log, rfl, .inl rfl⟩

omit [DecidableEq U] in
theorem exists_otherPush (s : Session U) (device : String) (batchId : BatchId) (update : U) :
    ∃ log frames, s.otherPush device batchId update =
        { s with log, toClient := s.toClient ++ frames } ∧
      (log = s.log ∨ ∃ row, row.seq = s.log.headSeq + 1 ∧ log = s.log.addRow row) ∧
      ∀ header, .state header ∉ frames := by
  unfold otherPush relay
  obtain ⟨row, -, -, hdup⟩ | ⟨-, hadded⟩ := s.log.appendRow_cases device batchId update
  · rw [hdup]
    exact ⟨s.log, [], by rw [List.append_nil], .inl rfl, nofun⟩
  · rw [hadded]
    dsimp only
    split
    · exact ⟨_, [_], rfl, .inr ⟨_, rfl, rfl⟩, fun _ => nofun⟩
    · exact ⟨_, [], by rw [List.append_nil], .inr ⟨_, rfl, rfl⟩, nofun⟩

/-- But for a reset, a step leaves the log, appends a row to it or commits a checkpoint. -/
theorem log_step {s' : Session U} {a : Action U} (hreset : a ≠ .reset)
    (hstep : s.step me a = some s') :
    s'.log = s.log ∨ (∃ row, row.seq = s.log.headSeq + 1 ∧ s'.log = s.log.addRow row) ∨
      ∃ seqCovered snapshot, s.Posts a seqCovered snapshot ∧
        s.log.commitCheckpoint seqCovered snapshot = some s'.log := by
  cases a with
  | localCommit update fits =>
      simp only [Session.step] at hstep
      split at hstep <;> cases hstep
      split <;> exact .inl rfl
  | nudge | dial =>
      simp only [Session.step] at hstep
      split at hstep <;> cases hstep
      exact .inl rfl
  | save | disconnect | restart | capture | losePost _ =>
      cases hstep
      exact .inl rfl
  | receive imports => exact .inl (log_receive hstep)
  | fetched =>
      simp only [Session.step] at hstep
      split at hstep
      · split at hstep <;> cases hstep <;> exact .inl rfl
      · cases hstep
  | roomReceives =>
      simp only [Session.step, Session.roomReceives] at hstep
      split at hstep <;> cases hstep
      · exact .inl rfl
      · exact .inl rfl
      · rename_i batch rest _ _
        unfold handlePush
        obtain ⟨row, -, -, hdup⟩ | ⟨-, hadded⟩ := s.log.appendRow_cases me batch.batchId batch.update
        · exact .inl (by rw [hdup])
        · exact .inr (.inl ⟨⟨_, me, batch.batchId, batch.update⟩, rfl, by rw [hadded]⟩)
  | otherPush device number update =>
      simp only [Session.step] at hstep
      split at hstep <;> cases hstep
      obtain ⟨log, frames, heq, hlog, -⟩ := s.exists_otherPush device ⟨device, number⟩ update
      rw [heq]
      exact hlog.imp_right .inl
  | otherCheckpoint seqCovered snapshot =>
      cases hstep
      obtain ⟨log, heq, hlog⟩ := s.exists_postCheckpoint seqCovered snapshot
      rw [heq]
      exact hlog.imp_right fun hcommit => .inr ⟨_, _, .inl rfl, hcommit⟩
  | post i =>
      simp only [Session.step] at hstep
      split at hstep <;> cases hstep
      rename_i seqCovered snapshot hpost
      obtain ⟨log, heq, hlog⟩ :=
        { s with posts := s.posts.eraseIdx i }.exists_postCheckpoint seqCovered snapshot
      rw [heq]
      exact hlog.imp_right fun hcommit => .inr ⟨_, _, .inr ⟨i, rfl, hpost⟩, hcommit⟩
  | reset => exact absurd rfl hreset

/-- Only a reset begins a new epoch. -/
theorem epoch_step {s' : Session U} {a : Action U} (hreset : a ≠ .reset)
    (hstep : s.step me a = some s') : s'.log.epoch = s.log.epoch := by
  obtain hlog | ⟨row, -, hlog⟩ | ⟨seqCovered, snapshot, -, hcommit⟩ := log_step hreset hstep
  · rw [hlog]
  · rw [hlog]
    rfl
  · rw [(ChatLog.commitCheckpoint_eq hcommit).2.2]

theorem Inv.of_reachable (h : (machine me).ReachableWhen Sound s) : s.Inv me := by
  apply h.invariant
  · rintro s rfl
    exact Inv.start
  · exact fun s a s' hinv hsound hstep => hinv.step hsound hstep

end Runs

end Session

end Zeron.Chat
