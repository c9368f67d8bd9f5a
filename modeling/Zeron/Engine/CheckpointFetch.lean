import Zeron.Edge.Checkpoint
import Zeron.Lib.Machine

/-!
# The download of a checkpoint

`EdgeCheckpointFetcher::fetch` against the room that answers it. Between the attempts the room may take
any calls; what is left of the link is how each attempt goes.
-/

namespace Zeron.Engine.CheckpointFetch

open Zeron.Edge Zeron.Lib

inductive SyncError where
  | auth (message : String)
  | protocol (message : String)
deriving DecidableEq

inductive Link where
  | signedOut
  | sendFails
  /-- An answer that is not the room's, such as the worker's refusal. -/
  | refused (status : Nat)
  /-- The room answers; as much of the body arrives before a drop, or all of it and its end. -/
  | answered (arrived : Option Nat)
deriving DecidableEq

/-- The fetch in one of its attempts, with the room. `full` is for the statements: the last byte of a
body has arrived. -/
structure Fetch where
  room : ChatRoom
  got : Bytes
  full : Bool
  seenSeq : Option Nat
  attempts : Nat
  result : Option (Except SyncError Bytes)

inductive Action where
  | room (op : Op)
  | attempt (link : Link)

def maxAttempts : Nat := 4

/-- A checkpoint too large for the room's route, which never becomes a call. -/
def overCap : Op → Bool
  | .commitCheckpoint _ _ bytes _ => maxCheckpointBytes < bytes.length
  | _ => false

namespace Fetch

section Steps

variable (fetch : Fetch)

def start : Fetch :=
  { room := .empty, got := [], full := false, seenSeq := none, attempts := 0, result := none }

def fail (error : SyncError) : Fetch := { fetch with result := some (.error error) }

def range : Option String :=
  if fetch.got = [] then none else some ("bytes=" ++ toString fetch.got.length ++ "-")

def read (body : Bytes) : Option Nat → Fetch
  | none =>
      { fetch with got := fetch.got ++ body, full := true, result := some (.ok (fetch.got ++ body)) }
  | some arrived =>
      { fetch with got := fetch.got ++ body.take arrived, full := body.length ≤ arrived }

def receive (response : Response) (arrived : Option Nat) : Fetch :=
  -- The number validates a resume: under another one the download starts again.
  if response.checkpointSeq.isSome ∧ fetch.seenSeq.isSome ∧ response.checkpointSeq ≠ fetch.seenSeq then
    { fetch with got := [], full := false, seenSeq := response.checkpointSeq }
  else
    let fetch :=
      if response.checkpointSeq.isSome then { fetch with seenSeq := response.checkpointSeq } else fetch
    if response.status = 200 then { fetch with got := [] }.read response.body arrived
    else if response.status = 206 then fetch.read response.body arrived
    else if response.status = 416 then fetch.fail (.protocol "checkpoint range beyond end")
    else if response.status = 404 then fetch.fail (.protocol "no checkpoint")
    else fetch.fail (.protocol ("checkpoint HTTP " ++ toString response.status))

def attempt : Link → Fetch
  | .signedOut => fetch.fail (.auth "signed out")
  | .sendFails => fetch
  | .refused status => fetch.receive { status, checkpointSeq := none, body := [] } none
  | .answered arrived => fetch.receive (fetch.room.db.getCheckpoint fetch.range) arrived

/-- After an attempt; the last one that does not return ends the loop. -/
def next : Fetch :=
  let fetch := { fetch with attempts := fetch.attempts + 1 }
  if fetch.result.isNone ∧ fetch.attempts = maxAttempts then
    fetch.fail (.protocol "checkpoint fetch exhausted resume attempts")
  else fetch

def step (fetch : Fetch) : Action → Option Fetch
  | .room op =>
      if overCap op then some fetch
      else (fetch.room.call op).map fun (room, _) => { fetch with room }
  | .attempt link =>
      if fetch.result.isSome ∨ link = .refused 200 ∨ link = .refused 206 then none
      else some (fetch.attempt link).next

def machine : Machine Fetch Action := { init := fun fetch => fetch = start, step }

end Steps

section Statements

variable (fetch fetch' : Fetch)

/-- What is returned is the checkpoint that the room had stored, under the number seen. -/
def Exact : Prop :=
  ∀ bytes, fetch.result = none → fetch'.result = some (.ok bytes) →
    ∃ number, fetch.room.db.checkpoint = some (number, bytes) ∧ fetch'.seenSeq = some number

/-- The next attempt that the room answers when a whole body has arrived returns, whatever the room
has stored by then. -/
def Resumes (action : Action) : Prop :=
  ∀ arrived, action = .attempt (.answered arrived) → fetch.full = true →
    ∃ bytes, fetch'.result = some (.ok bytes)

/-- A step of a fetch that does what it should; the loop ends with a result. -/
structure Right (action : Action) : Prop where
  exact : fetch.Exact fetch'
  resumes : fetch.Resumes fetch' action
  ends : fetch'.attempts = maxAttempts → fetch'.result.isSome

/-- No whole body has arrived, unless the room has a longer checkpoint under its number now and the
answer comes to its end; and what has arrived under the number of such a checkpoint begins it. -/
def Sound : Action → Prop
  | .attempt (.answered arrived) =>
      (fetch.full = true → arrived = none ∧ ∃ number bytes,
        fetch.room.db.checkpoint = some (number, bytes) ∧ fetch.seenSeq = some number ∧
          fetch.got.length < bytes.length) ∧
      ∀ number bytes, fetch.room.db.checkpoint = some (number, bytes) →
        fetch.seenSeq = some number → arrived = none → fetch.got.length < bytes.length →
          fetch.got <+: bytes
  | _ => True

end Statements

section Answers

variable {fetch fetch' : Fetch}

/-- The room is one that calls lead to, and no more has arrived than a checkpoint may have. -/
structure Inv (fetch : Fetch) : Prop where
  structured : fetch.room.db.Structured
  stored : ∀ number bytes, fetch.room.db.checkpoint = some (number, bytes) →
    bytes ≠ [] ∧ bytes.length ≤ maxCheckpointBytes
  short : fetch.got.length ≤ maxCheckpointBytes
  seen : fetch.got ≠ [] → fetch.seenSeq.isSome
  full : fetch.full = true → fetch.got ≠ []
  pending : fetch.result = none → fetch.attempts < maxAttempts

theorem inv_start : Inv start := by
  refine ⟨ChatDb.structured_empty, ?_, Nat.zero_le _, fun h => absurd rfl h,
    fun h => absurd h Bool.false_ne_true, fun _ => by decide⟩
  intro number bytes hcheckpoint
  cases hcheckpoint

theorem Inv.parseRangeStart (h : Inv fetch) :
    parseRangeStart fetch.range = if fetch.got = [] then none else some fetch.got.length := by
  unfold range
  split
  · rfl
  · rename_i hgot
    refine parseRangeStart_bytes (List.length_pos_iff.mpr hgot) (h.short.trans ?_)
    decide

/-- A numbered answer restarts the download or is read on. -/
theorem receive_numbered (fetch : Fetch) (number : Nat) (body : Bytes) (arrived : Option Nat)
    {status : Nat} (hstatus : status = 206 ∨ status = 200 ∧ fetch.got = []) :
    ((∃ seen, fetch.seenSeq = some seen ∧ seen ≠ number) ∧
      fetch.receive ⟨status, some number, body⟩ arrived =
        { fetch with got := [], full := false, seenSeq := some number }) ∨
    ((∀ seen, fetch.seenSeq = some seen → seen = number) ∧
      fetch.receive ⟨status, some number, body⟩ arrived =
        { fetch with seenSeq := some number }.read body arrived) := by
  have hread : (∀ seen, fetch.seenSeq = some seen → seen = number) →
      fetch.receive ⟨status, some number, body⟩ arrived =
        { fetch with seenSeq := some number }.read body arrived := by
    intro hsame
    have hstay : ¬ ((some number).isSome ∧ fetch.seenSeq.isSome ∧ some number ≠ fetch.seenSeq) := by
      rintro ⟨-, hsome, hne⟩
      obtain ⟨seen, hseen⟩ := Option.isSome_iff_exists.mp hsome
      exact hne (by rw [hseen, hsame seen hseen])
    unfold receive
    rw [if_neg hstay]
    obtain rfl | ⟨rfl, hgot⟩ := hstatus
    · rfl
    · change { fetch with got := [], seenSeq := some number }.read body arrived = _
      rw [← hgot]
  cases hseen : fetch.seenSeq with
  | none => exact .inr ⟨fun seen h => (by cases h), hread fun seen h => (by rw [hseen] at h; cases h)⟩
  | some seen =>
      by_cases hne : seen = number
      · have hsame : ∀ other, fetch.seenSeq = some other → other = number := by
          intro other hother
          rw [hseen] at hother
          exact (Option.some.inj hother).symm.trans hne
        exact .inr ⟨by rwa [hseen] at hsame, hread hsame⟩
      · refine .inl ⟨⟨seen, rfl, hne⟩, ?_⟩
        unfold receive
        rw [if_pos ⟨rfl, by rw [hseen]; rfl, by rw [hseen]; simpa using Ne.symm hne⟩]

/-- An answer: there is no checkpoint, or it ends where the request starts, or it has another number
than what has arrived, or it is read on. -/
theorem Inv.answered_cases (h : Inv fetch) (arrived : Option Nat) :
    (fetch.room.db.checkpoint = none ∧
      fetch.attempt (.answered arrived) = fetch.fail (.protocol "no checkpoint")) ∨
    ∃ number bytes, fetch.room.db.checkpoint = some (number, bytes) ∧
      ((fetch.got ≠ [] ∧ bytes.length ≤ fetch.got.length ∧
        fetch.attempt (.answered arrived) =
          fetch.fail (.protocol "checkpoint range beyond end")) ∨
      (fetch.got.length < bytes.length ∧ (∃ seen, fetch.seenSeq = some seen ∧ seen ≠ number) ∧
        fetch.attempt (.answered arrived) =
          { fetch with got := [], full := false, seenSeq := some number }) ∨
      (fetch.got.length < bytes.length ∧ (∀ seen, fetch.seenSeq = some seen → seen = number) ∧
        fetch.attempt (.answered arrived) =
          { fetch with seenSeq := some number }.read (bytes.drop fetch.got.length) arrived)) := by
  unfold attempt ChatDb.getCheckpoint
  rw [h.parseRangeStart]
  have hstored := h.stored
  unfold ChatDb.checkpoint at hstored ⊢
  cases hblob : BlobStore.get fetch.room.db.blobs checkpointBlob with
  | none => exact .inl ⟨rfl, rfl⟩
  | some bytes =>
      rw [hblob] at hstored
      obtain ⟨hbytes, -⟩ := hstored _ bytes rfl
      refine .inr ⟨_, bytes, rfl, ?_⟩
      by_cases hgot : fetch.got = []
      · have hlt : fetch.got.length < bytes.length := by
          rw [hgot]
          exact List.length_pos_iff.mpr hbytes
        rw [if_pos hgot, hgot, List.length_nil, List.drop_zero]
        rw [hgot] at hlt
        obtain ⟨hrestarts, hreceive⟩ | ⟨hsame, hreceive⟩ := receive_numbered fetch
          (fetch.room.db.getMeta "checkpointSeq") bytes arrived (.inr ⟨rfl, hgot⟩)
        · exact .inr (.inl ⟨hlt, hrestarts, hreceive⟩)
        · refine .inr (.inr ⟨hlt, hsame, ?_⟩)
          rw [← hgot]
          exact hreceive
      · rw [if_neg hgot]
        by_cases hend : bytes.length ≤ fetch.got.length
        · refine .inl ⟨hgot, hend, ?_⟩
          dsimp only
          rw [if_pos hend]
          rfl
        · have hlt : fetch.got.length < bytes.length := not_le.mp hend
          dsimp only
          rw [if_neg hend]
          obtain ⟨hrestarts, hreceive⟩ | ⟨hsame, hreceive⟩ := receive_numbered fetch
            (fetch.room.db.getMeta "checkpointSeq") (bytes.drop fetch.got.length) arrived (.inl rfl)
          · exact .inr (.inl ⟨hlt, hrestarts, hreceive⟩)
          · exact .inr (.inr ⟨hlt, hsame, hreceive⟩)

end Answers

section Next

variable (fetch : Fetch)

theorem next_room : fetch.next.room = fetch.room := by
  unfold next
  dsimp only
  split <;> rfl

theorem next_got : fetch.next.got = fetch.got := by
  unfold next
  dsimp only
  split <;> rfl

theorem next_full : fetch.next.full = fetch.full := by
  unfold next
  dsimp only
  split <;> rfl

theorem next_seenSeq : fetch.next.seenSeq = fetch.seenSeq := by
  unfold next
  dsimp only
  split <;> rfl

theorem next_ok {bytes : Bytes} :
    fetch.next.result = some (.ok bytes) ↔ fetch.result = some (.ok bytes) := by
  unfold next
  dsimp only
  split
  · rename_i hlast
    rw [Option.isNone_iff_eq_none.mp hlast.1]
    simp [fail]
  · rfl

theorem next_ends (hattempts : fetch.attempts < maxAttempts) :
    (fetch.next.result = none → fetch.next.attempts < maxAttempts) ∧
      (fetch.next.attempts = maxAttempts → fetch.next.result.isSome) := by
  unfold next
  dsimp only
  split
  · exact ⟨fun h => (by cases h), fun _ => rfl⟩
  · rename_i hlast
    rw [not_and, Option.isNone_iff_eq_none] at hlast
    refine ⟨fun hnone => lt_of_le_of_ne hattempts (hlast hnone), fun hlimit => ?_⟩
    rw [Option.isSome_iff_ne_none]
    exact fun hnone => hlast hnone hlimit

end Next

section Invariant

variable {fetch fetch' : Fetch} {action : Action}

theorem Inv.room (h : Inv fetch) {op : Op} {room : ChatRoom} {answer : Answer}
    (hcap : overCap op = false) (hcall : fetch.room.call op = some (room, answer)) :
    Inv { fetch with room } := by
  obtain ⟨room', answer', hcall', hroom, -⟩ := ChatRoom.call_spec h.structured op
  rw [hcall] at hcall'
  cases hcall'
  refine ⟨hroom, fun number bytes hcheckpoint => ?_, h.short, h.seen, h.full, h.pending⟩
  obtain ⟨hsame, -⟩ | ⟨seqCovered, frontier, stored, committedAt, rfl, hbytes, -, hstored, -⟩ :=
    ChatRoom.call_checkpoint h.structured hcall
  · exact h.stored number bytes (hsame.symm.trans hcheckpoint)
  · change room.db.checkpoint = _ at hcheckpoint
    rw [hstored] at hcheckpoint
    cases hcheckpoint
    exact ⟨hbytes, not_lt.mp (of_decide_eq_false hcap)⟩

/-- How many attempts were made is for the loop; an attempt is right in the rest. -/
structure Attempted (fetch fetch' : Fetch) : Prop where
  room : fetch'.room = fetch.room
  attempts : fetch'.attempts = fetch.attempts
  short : fetch'.got.length ≤ maxCheckpointBytes
  seen : fetch'.got ≠ [] → fetch'.seenSeq.isSome
  full : fetch'.full = true → fetch'.got ≠ []

theorem Inv.fail (h : Inv fetch) (error : SyncError) : Attempted fetch (fetch.fail error) :=
  ⟨rfl, rfl, h.short, h.seen, h.full⟩

theorem receive_refused (fetch : Fetch) {status : Nat} (hok : status ≠ 200) (hrange : status ≠ 206) :
    ∃ error, fetch.receive ⟨status, none, []⟩ none = fetch.fail error := by
  unfold receive
  dsimp only
  rw [if_neg (by simp), if_neg hok, if_neg hrange]
  by_cases hend : status = 416
  · rw [if_pos hend]
    exact ⟨_, rfl⟩
  · rw [if_neg hend]
    by_cases hfound : status = 404
    · rw [if_pos hfound]
      exact ⟨_, rfl⟩
    · rw [if_neg hfound]
      exact ⟨_, rfl⟩

theorem attempted_read {number : Nat} {bytes : Bytes} (hlt : fetch.got.length < bytes.length)
    (hcap : bytes.length ≤ maxCheckpointBytes) (arrived : Option Nat) :
    Attempted fetch
      ({ fetch with seenSeq := some number }.read (bytes.drop fetch.got.length) arrived) := by
  have hlength : fetch.got.length + (bytes.length - fetch.got.length) = bytes.length := by omega
  have hrest : bytes.drop fetch.got.length ≠ [] := by
    rw [Ne, List.drop_eq_nil_iff]
    omega
  cases arrived with
  | none =>
      refine ⟨rfl, rfl, ?_, fun _ => rfl, fun _ => List.append_ne_nil_of_right_ne_nil _ hrest⟩
      change (fetch.got ++ bytes.drop fetch.got.length).length ≤ _
      rw [List.length_append, List.length_drop, hlength]
      exact hcap
  | some arrived =>
      refine ⟨rfl, rfl, ?_, fun _ => rfl, fun hfull => ?_⟩
      · change (fetch.got ++ (bytes.drop fetch.got.length).take arrived).length ≤ _
        rw [List.length_append, List.length_take, List.length_drop]
        omega
      · apply List.append_ne_nil_of_right_ne_nil
        rwa [List.take_of_length_le (of_decide_eq_true hfull)]

theorem Inv.attempt (h : Inv fetch) {link : Link} (hok : link ≠ .refused 200)
    (hrange : link ≠ .refused 206) : Attempted fetch (fetch.attempt link) := by
  cases link with
  | signedOut => exact h.fail _
  | sendFails => exact ⟨rfl, rfl, h.short, h.seen, h.full⟩
  | refused status =>
      obtain ⟨error, herror⟩ := receive_refused fetch (fun heq => hok (congrArg Link.refused heq))
        (fun heq => hrange (congrArg Link.refused heq))
      rw [Fetch.attempt, herror]
      exact h.fail error
  | answered arrived =>
      obtain ⟨-, hattempt⟩ | ⟨number, bytes, hcheckpoint, ⟨-, -, hattempt⟩ | ⟨-, -, hattempt⟩ |
        ⟨hlt, -, hattempt⟩⟩ := h.answered_cases arrived
      · rw [hattempt]
        exact h.fail _
      · rw [hattempt]
        exact h.fail _
      · rw [hattempt]
        exact ⟨rfl, rfl, Nat.zero_le _, fun hgot => absurd rfl hgot,
          fun hfull => absurd hfull Bool.false_ne_true⟩
      · rw [hattempt]
        exact attempted_read hlt (h.stored number bytes hcheckpoint).2 arrived

theorem Attempted.inv (hattempted : Attempted fetch fetch') (h : Inv fetch)
    (hresult : fetch.result = none) : Inv fetch'.next := by
  have hattempts : fetch'.attempts < maxAttempts := hattempted.attempts ▸ h.pending hresult
  refine ⟨?_, ?_, ?_, ?_, ?_, (next_ends fetch' hattempts).1⟩
  · rw [next_room, hattempted.room]
    exact h.structured
  · rw [next_room, hattempted.room]
    exact h.stored
  · rw [next_got]
    exact hattempted.short
  · rw [next_got, next_seenSeq]
    exact hattempted.seen
  · rw [next_got, next_full]
    exact hattempted.full

theorem step_attempt {link : Link} (hstep : fetch.step (.attempt link) = some fetch') :
    fetch.result = none ∧ link ≠ .refused 200 ∧ link ≠ .refused 206 ∧
      fetch' = (fetch.attempt link).next := by
  obtain ⟨hguard, hstep⟩ := Option.ite_none_left_eq_some.mp hstep
  rw [not_or, not_or, Bool.not_eq_true, Option.isSome_eq_false_iff, Option.isNone_iff_eq_none] at hguard
  exact ⟨hguard.1, hguard.2.1, hguard.2.2, (Option.some.inj hstep).symm⟩

theorem Inv.step (h : Inv fetch) (hstep : fetch.step action = some fetch') : Inv fetch' := by
  cases action with
  | room op =>
      cases hcap : overCap op with
      | true =>
          rw [Fetch.step, if_pos hcap] at hstep
          cases hstep
          exact h
      | false =>
          rw [Fetch.step, if_neg (by simp [hcap])] at hstep
          obtain ⟨⟨room, answer⟩, hcall, rfl⟩ := Option.map_eq_some_iff.mp hstep
          exact h.room hcap hcall
  | attempt link =>
      obtain ⟨hresult, hok, hrange, rfl⟩ := step_attempt hstep
      exact (h.attempt hok hrange).inv h hresult

end Invariant

section Exactness

variable {fetch fetch' : Fetch} {action : Action}

theorem append_drop_eq_iff {got bytes : Bytes} :
    got ++ bytes.drop got.length = bytes ↔ got <+: bytes := by
  constructor
  · intro h
    exact ⟨_, h⟩
  · rintro ⟨rest, rfl⟩
    rw [List.drop_left]

/-- **An answered attempt** is right exactly when it is sound. -/
theorem Inv.answered_right_iff (h : Inv fetch) (hresult : fetch.result = none)
    (arrived : Option Nat) :
    fetch.Right (fetch.attempt (.answered arrived)).next (.attempt (.answered arrived)) ↔
      fetch.Sound (.attempt (.answered arrived)) := by
  have hends : (fetch.attempt (.answered arrived)).next.attempts = maxAttempts →
      (fetch.attempt (.answered arrived)).next.result.isSome := by
    have hattempted : Attempted fetch (fetch.attempt (.answered arrived)) :=
      h.attempt (by simp) (by simp)
    exact (next_ends _ (hattempted.attempts ▸ h.pending hresult)).2
  -- An attempt that returns nothing is right where no whole body has arrived.
  have hfails (hresults : ∀ bytes, (fetch.attempt (.answered arrived)).result ≠ some (.ok bytes)) :
      fetch.Right (fetch.attempt (.answered arrived)).next (.attempt (.answered arrived)) ↔
        fetch.full = false := by
    constructor
    · intro hright
      refine Bool.eq_false_iff.mpr fun hfull => ?_
      obtain ⟨bytes, hok⟩ := hright.resumes arrived rfl hfull
      exact hresults bytes (next_ok _ |>.mp hok)
    · intro hfull
      refine ⟨fun bytes _ hok => absurd (next_ok _ |>.mp hok) (hresults bytes), fun _ _ htrue => ?_,
        hends⟩
      rw [hfull] at htrue
      cases htrue
  obtain ⟨hnone, hattempt⟩ | ⟨number, bytes, hcheckpoint, ⟨hgot, hend, hattempt⟩ |
    ⟨hlt, ⟨seen, hseen, hne⟩, hattempt⟩ | ⟨hlt, hsame, hattempt⟩⟩ := h.answered_cases arrived
  · rw [hfails (by simp [hattempt, Fetch.fail]), Sound, hnone]
    simp
  · rw [hfails (by simp [hattempt, Fetch.fail]), Sound, hcheckpoint]
    simp [not_lt.mpr hend]
  · rw [hfails (by simp [hattempt, hresult]), Sound, hcheckpoint, hseen]
    simp [hne]
  · cases arrived with
    | some arrived =>
        rw [hfails (by simp [hattempt, read, hresult]), Sound]
        simp
    | none =>
        have hseen (hgot : fetch.got ≠ []) : fetch.seenSeq = some number := by
          obtain ⟨seen, hseen⟩ := Option.isSome_iff_exists.mp (h.seen hgot)
          rw [hseen, hsame seen hseen]
        have hok : (fetch.attempt (.answered none)).next.result =
            some (.ok (fetch.got ++ bytes.drop fetch.got.length)) := by
          rw [next_ok, hattempt]
          rfl
        constructor
        · intro hright
          refine ⟨fun hfull => ⟨rfl, number, bytes, hcheckpoint, hseen (h.full hfull), hlt⟩, ?_⟩
          rintro number' bytes' hcheckpoint' - - -
          obtain ⟨number'', hstored, -⟩ := hright.exact _ hresult hok
          rw [hcheckpoint'] at hstored
          rw [hcheckpoint] at hcheckpoint'
          cases hcheckpoint'
          exact append_drop_eq_iff.mp (congrArg Prod.snd (Option.some.inj hstored)).symm
        · intro hsound
          refine ⟨fun returned _ hreturned => ?_, fun _ _ _ => ⟨_, hok⟩, hends⟩
          have hbegins : fetch.got <+: bytes := by
            by_cases hgot : fetch.got = []
            · rw [hgot]
              exact List.nil_prefix
            · exact hsound.2 number bytes hcheckpoint (hseen hgot) rfl hlt
          rw [hok, append_drop_eq_iff.mpr hbegins] at hreturned
          cases hreturned
          refine ⟨number, hcheckpoint, ?_⟩
          rw [next_seenSeq, hattempt]
          rfl

end Exactness

section Runs

variable {fetch fetch' : Fetch} {action : Action}

theorem Inv.right_iff_sound (h : Inv fetch) (hstep : fetch.step action = some fetch') :
    fetch.Right fetch' action ↔ fetch.Sound action := by
  cases action with
  | room op =>
      refine ⟨fun _ => trivial, fun _ => ?_⟩
      have hsame : fetch'.result = fetch.result ∧ fetch'.attempts = fetch.attempts := by
        cases hcap : overCap op with
        | true =>
            rw [Fetch.step, if_pos hcap] at hstep
            cases hstep
            exact ⟨rfl, rfl⟩
        | false =>
            rw [Fetch.step, if_neg (by simp [hcap])] at hstep
            obtain ⟨⟨room, answer⟩, -, rfl⟩ := Option.map_eq_some_iff.mp hstep
            exact ⟨rfl, rfl⟩
      refine ⟨fun bytes hnone hok => ?_, fun _ haction => (by cases haction), fun hlimit => ?_⟩
      · rw [hsame.1, hnone] at hok
        cases hok
      · rw [hsame.1, Option.isSome_iff_ne_none]
        intro hnone
        have hlt := h.pending hnone
        rw [← hsame.2, hlimit] at hlt
        exact absurd hlt (lt_irrefl _)
  | attempt link =>
      obtain ⟨hresult, hok, hrange, rfl⟩ := step_attempt hstep
      have hattempted := h.attempt hok hrange
      have hends := (next_ends (fetch.attempt link) (hattempted.attempts ▸ h.pending hresult)).2
      have hfails : (∀ bytes, (fetch.attempt link).result ≠ some (.ok bytes)) →
          (∀ arrived, link ≠ .answered arrived) → fetch.Right (fetch.attempt link).next
            (.attempt link) := by
        intro hresults hlink
        refine ⟨fun bytes _ hok => ?_, fun arrived haction => ?_, hends⟩
        · exact absurd (next_ok _ |>.mp hok) (hresults bytes)
        · cases haction
          exact absurd rfl (hlink arrived)
      cases link with
      | signedOut => exact ⟨fun _ => trivial, fun _ => hfails (by simp [Fetch.attempt, Fetch.fail]) (by simp)⟩
      | sendFails => exact ⟨fun _ => trivial, fun _ => hfails (by simp [Fetch.attempt, hresult]) (by simp)⟩
      | refused status =>
          obtain ⟨error, herror⟩ := receive_refused fetch (fun heq => hok (congrArg Link.refused heq))
            (fun heq => hrange (congrArg Link.refused heq))
          exact ⟨fun _ => trivial, fun _ => hfails (by simp [Fetch.attempt, herror, Fetch.fail]) (by simp)⟩
      | answered arrived => exact h.answered_right_iff hresult arrived

theorem inv_of_run {actions : List Action} (hrun : machine.run start actions = some fetch) :
    Inv fetch := by
  induction actions using List.reverseRecOn generalizing fetch with
  | nil =>
      cases hrun
      exact inv_start
  | append_singleton actions action ih =>
      rw [Machine.run_concat] at hrun
      obtain ⟨before, hbefore, hstep⟩ := Option.bind_eq_some_iff.mp hrun
      exact (ih hbefore).step hstep

/-- **Resumed downloads.** Every step of a run is right exactly when every step is sound. -/
theorem fetch_exact_iff (actions : List Action) :
    (∀ before action after fetch fetch', actions = before ++ action :: after →
      machine.run start before = some fetch → fetch.step action = some fetch' →
        fetch.Right fetch' action) ↔
    ∀ before action after fetch fetch', actions = before ++ action :: after →
      machine.run start before = some fetch → fetch.step action = some fetch' →
        fetch.Sound action := by
  have hiff : ∀ {before : List Action} {action fetch fetch'}, machine.run start before = some fetch →
      fetch.step action = some fetch' → (fetch.Right fetch' action ↔ fetch.Sound action) :=
    fun hrun hstep => (inv_of_run hrun).right_iff_sound hstep
  constructor
  · intro h before action after fetch fetch' heq hrun hstep
    exact (hiff hrun hstep).mp (h before action after fetch fetch' heq hrun hstep)
  · intro h before action after fetch fetch' heq hrun hstep
    exact (hiff hrun hstep).mpr (h before action after fetch fetch' heq hrun hstep)

/-- A drop after one byte, and a checkpoint under the same number before the next attempt. -/
def spliced : List Action :=
  [.room (.appendRow "phone" "b1" [1] 0), .room (.commitCheckpoint 1 [] [1, 2] 1),
    .attempt (.answered (some 1)), .room (.commitCheckpoint 1 [] [3, 4] 2),
    .attempt (.answered none)]

def droppedWhole : List Action :=
  [.room (.appendRow "phone" "b1" [1] 0), .room (.appendRow "phone" "b2" [2] 0),
    .room (.commitCheckpoint 1 [] [1, 2] 1), .attempt (.answered (some 2))]

/-- Bytes of two checkpoints are returned as one; and a checkpoint that has arrived is an error in the
next attempt, whether the room still has it, or another of its length under a new number. -/
theorem resumes_wrongly :
    (machine.run start spliced).map (·.result) = some (some (.ok [1, 4])) ∧
    (machine.run start droppedWhole).map (fun fetch => (fetch.got, fetch.full)) =
      some ([1, 2], true) ∧
    ∀ replaced ∈ [[], [.room (.commitCheckpoint 2 [] [3, 4] 2)]],
      (machine.run start (droppedWhole ++ replaced ++ [.attempt (.answered none)])).map (·.result) =
        some (some (.error (.protocol "checkpoint range beyond end"))) := by
  refine ⟨rfl, rfl, fun replaced hreplaced => ?_⟩
  simp only [List.mem_cons, List.not_mem_nil, or_false] at hreplaced
  obtain rfl | rfl := hreplaced <;> rfl

end Runs

section Numbers

variable {fetch fetch' : Fetch} {action : Action}

/-- No checkpoint is posted under the number that bytes have arrived of. -/
def NewNumber (fetch : Fetch) : Action → Prop
  | .room (.commitCheckpoint seqCovered _ _ _) => fetch.got ≠ [] → fetch.seenSeq ≠ some seqCovered
  | _ => True

/-- The stored checkpoint has the floor's number, which no number that was seen exceeds. -/
structure Whole (fetch : Fetch) : Prop where
  inv : Inv fetch
  floor : ∀ number bytes, fetch.room.db.checkpoint = some (number, bytes) →
    number = fetch.room.db.seqFloor
  past : ∀ seen, fetch.seenSeq = some seen → seen ≤ fetch.room.db.seqFloor
  begins : ∀ number bytes, fetch.room.db.checkpoint = some (number, bytes) →
    fetch.seenSeq = some number → fetch.got <+: bytes

theorem whole_start : Whole start := by
  refine ⟨inv_start, ?_, ?_, ?_⟩
  · intro number bytes hcheckpoint
    cases hcheckpoint
  · intro seen hseen
    cases hseen
  · intro number bytes _ _
    exact List.nil_prefix

theorem Whole.room (h : Whole fetch) {op : Op} {room : ChatRoom} {answer : Answer}
    (hcap : overCap op = false) (hcall : fetch.room.call op = some (room, answer))
    (hnew : fetch.NewNumber (.room op)) : Whole { fetch with room } := by
  refine ⟨h.inv.room hcap hcall, ?_, ?_, ?_⟩
  all_goals
    obtain ⟨hcheckpoint, hfloor⟩ | ⟨seqCovered, frontier, stored, committedAt, rfl, -, hle, hcheckpoint,
      hfloor⟩ := ChatRoom.call_checkpoint h.inv.structured hcall
  · intro number bytes hstored
    change room.db.checkpoint = _ at hstored
    rw [hcheckpoint] at hstored
    exact (h.floor number bytes hstored).trans hfloor.symm
  · intro number bytes hstored
    change room.db.checkpoint = _ at hstored
    rw [hcheckpoint] at hstored
    cases hstored
    exact hfloor.symm
  · intro seen hseen
    exact (h.past seen hseen).trans hfloor.ge
  · intro seen hseen
    exact (h.past seen hseen).trans (hle.trans hfloor.ge)
  · intro number bytes hstored
    change room.db.checkpoint = _ at hstored
    rw [hcheckpoint] at hstored
    exact h.begins number bytes hstored
  · intro number bytes hstored hseen
    change room.db.checkpoint = _ at hstored
    rw [hcheckpoint] at hstored
    cases hstored
    by_cases hgot : fetch.got = []
    · change fetch.got <+: _
      rw [hgot]
      exact List.nil_prefix
    · exact absurd hseen (hnew hgot)

theorem attempt_got (fetch : Fetch) {link : Link} (hlink : ∀ arrived, link ≠ .answered arrived)
    (hok : link ≠ .refused 200) (hrange : link ≠ .refused 206) :
    (fetch.attempt link).got = fetch.got ∧ (fetch.attempt link).seenSeq = fetch.seenSeq := by
  cases link with
  | signedOut | sendFails => exact ⟨rfl, rfl⟩
  | refused status =>
      obtain ⟨error, herror⟩ := receive_refused fetch (fun heq => hok (congrArg Link.refused heq))
        (fun heq => hrange (congrArg Link.refused heq))
      rw [Fetch.attempt, herror]
      exact ⟨rfl, rfl⟩
  | answered arrived => exact absurd rfl (hlink arrived)

/-- What an attempt leaves arrived begins the checkpoint whose number it leaves seen. -/
theorem Whole.attempt (h : Whole fetch) {link : Link} (hok : link ≠ .refused 200)
    (hrange : link ≠ .refused 206) :
    (∀ seen, (fetch.attempt link).seenSeq = some seen → seen ≤ fetch.room.db.seqFloor) ∧
    ∀ number bytes, fetch.room.db.checkpoint = some (number, bytes) →
      (fetch.attempt link).seenSeq = some number → (fetch.attempt link).got <+: bytes := by
  cases link with
  | answered arrived =>
      obtain ⟨-, hattempt⟩ | ⟨number, bytes, hcheckpoint, ⟨-, -, hattempt⟩ | ⟨-, -, hattempt⟩ |
        ⟨-, hsame, hattempt⟩⟩ := h.inv.answered_cases arrived
      · rw [hattempt]
        exact ⟨h.past, h.begins⟩
      · rw [hattempt]
        exact ⟨h.past, h.begins⟩
      · rw [hattempt]
        refine ⟨fun seen hseen => ?_, fun _ _ _ _ => List.nil_prefix⟩
        cases hseen
        exact (h.floor number bytes hcheckpoint).le
      · have hbegins : fetch.got <+: bytes := by
          by_cases hgot : fetch.got = []
          · rw [hgot]
            exact List.nil_prefix
          · obtain ⟨seen, hseen⟩ := Option.isSome_iff_exists.mp (h.inv.seen hgot)
            rw [hsame seen hseen] at hseen
            exact h.begins number bytes hcheckpoint hseen
        have hwhole := append_drop_eq_iff.mpr hbegins
        rw [hattempt]
        refine ⟨fun seen hseen => ?_, fun number' bytes' hcheckpoint' _ => ?_⟩
        · have hfloor := (h.floor number bytes hcheckpoint).le
          cases arrived with
          | none | some _ =>
              cases hseen
              exact hfloor
        · rw [hcheckpoint] at hcheckpoint'
          cases hcheckpoint'
          cases arrived with
          | none => exact ⟨[], by rw [List.append_nil]; exact hwhole⟩
          | some arrived =>
              have htaken := (List.prefix_append_right_inj fetch.got).mpr
                (List.take_prefix arrived (bytes.drop fetch.got.length))
              rwa [hwhole] at htaken
  | _ =>
      obtain ⟨hgot, hseen⟩ := attempt_got fetch (by simp) hok hrange
      rw [hgot, hseen]
      exact ⟨h.past, h.begins⟩

theorem Whole.step (h : Whole fetch) (hnew : fetch.NewNumber action)
    (hstep : fetch.step action = some fetch') : Whole fetch' := by
  cases action with
  | room op =>
      cases hcap : overCap op with
      | true =>
          rw [Fetch.step, if_pos hcap] at hstep
          cases hstep
          exact h
      | false =>
          rw [Fetch.step, if_neg (by simp [hcap])] at hstep
          obtain ⟨⟨room, answer⟩, hcall, rfl⟩ := Option.map_eq_some_iff.mp hstep
          exact h.room hcap hcall hnew
  | attempt link =>
      obtain ⟨hresult, hok, hrange, rfl⟩ := step_attempt hstep
      have hattempted := h.inv.attempt hok hrange
      obtain ⟨hpast, hbegins⟩ := h.attempt hok hrange
      refine ⟨hattempted.inv h.inv hresult, ?_, ?_, ?_⟩
      · rw [next_room, hattempted.room]
        exact h.floor
      · rw [next_room, next_seenSeq, hattempted.room]
        exact hpast
      · rw [next_room, next_seenSeq, next_got, hattempted.room]
        exact hbegins

/-- **The validator.** In a run that posts no checkpoint under the number of the bytes that have
arrived, these begin the stored checkpoint whenever it has their number. -/
theorem begins_of_new_numbers {actions : List Action} (hrun : machine.run start actions = some fetch)
    (hnew : ∀ before action after fetch, actions = before ++ action :: after →
      machine.run start before = some fetch → fetch.NewNumber action) : Whole fetch := by
  induction actions using List.reverseRecOn generalizing fetch with
  | nil =>
      cases hrun
      exact whole_start
  | append_singleton actions action ih =>
      rw [Machine.run_concat] at hrun
      obtain ⟨before, hbefore, hstep⟩ := Option.bind_eq_some_iff.mp hrun
      refine (ih hbefore fun before' action' after fetch heq => ?_).step
        (hnew actions action [] before rfl hbefore) hstep
      exact hnew before' action' (after ++ [action]) fetch (by rw [heq]; simp)

theorem begins_after_drop : ∃ fetch, machine.run start (spliced.take 3) = some fetch ∧
    fetch.got = [1] ∧ Whole fetch := by
  refine ⟨_, rfl, rfl, @begins_of_new_numbers _ (spliced.take 3) rfl ?_⟩
  intro before action after fetch heq hrun
  match before with
  | [] | [_, _] =>
      cases heq
      trivial
  | [_] =>
      cases heq
      cases hrun
      exact fun hgot => absurd rfl hgot
  | _ :: _ :: _ :: _ => simp [spliced] at heq

end Numbers

end Fetch

end Zeron.Engine.CheckpointFetch
