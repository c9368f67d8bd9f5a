import Mathlib.Data.List.Induction
import Mathlib.Logic.Function.Basic
import Zeron.Lib.Machine

/-!
# Diff sidecars

`reconcile`, `add_entry`, `entry_task` and `sync_entry` of `crates/engine/src/diff_sync.rs`: the
chats of the device are grouped by their checkout, and each checkout has a task that captures the
working tree and posts the capture to every chat of the group. A capture is known by its checksum.
The steps of `reconcile`, which takes the lock for each on its own, come in any order and with any
chats. The rows that are stamped with the checkout and the branch, and the local watch, are left out.
-/

namespace Zeron.Engine.DiffSync

open Zeron.Lib (Machine)

/-- A sidecar that the chat's slot has taken. -/
structure Delivery where
  chatId : String
  checkoutId : String
  checksum : String
deriving DecidableEq

inductive Task where
  | idle
  /-- In `capture_diff`. -/
  | capturing
  | posting (checksum : String) (left : List String)
deriving DecidableEq

/-- `CheckoutEntry`. `unsent` is kept for the statements: the chats that joined since the checksum
was recorded, or whose sidecar with it was not taken. -/
structure CheckoutEntry where
  checkoutId : String
  chats : List String
  checksum : Option String
  kicked : Bool
  task : Task
  unsent : List String

/-- What a post of a sidecar comes to. -/
inductive Outcome where
  | taken
  | rejected
  | failed
  | signedOut
deriving DecidableEq

/-- A pass that published nothing, with what was delivered before it. -/
structure Skip where
  checkoutId : String
  checksum : String
  chats : List String
  delivered : List Delivery

structure DiffSyncInner where
  /-- Every entry that was made. A task whose entry is removed still finishes its pass. -/
  made : List CheckoutEntry
  /-- The entries by checkout: the index in `made`. -/
  entries : List (String × Nat)
  delivered : List Delivery
  skips : List Skip
  cancelled : Bool

inductive Action where
  /-- `reconcile` removes the entry of a checkout without chats. -/
  | remove (checkoutId : String)
  /-- `reconcile` gives an entry its chats, or adds it. -/
  | regroup (checkoutId : String) (chats : List String)
  /-- A filesystem event, or the repair tick. -/
  | kick (index : Nat)
  | start (index : Nat)
  | captureFails (index : Nat)
  | captured (index : Nat) (checksum : String)
  | post (index : Nat) (outcome : Outcome)
  | shutdown
deriving DecidableEq

namespace DiffSyncInner

def new : DiffSyncInner :=
  { made := [], entries := [], delivered := [], skips := [], cancelled := false }

variable (s : DiffSyncInner)

def setEntry (index : Nat) (entry : CheckoutEntry) : DiffSyncInner :=
  { s with made := s.made.set index entry }

def addEntry (checkoutId : String) (chats : List String) : DiffSyncInner :=
  { s with
    made := s.made ++ [{ checkoutId, chats, checksum := none, kicked := true, task := .idle
                         unsent := [] }]
    entries := s.entries ++ [(checkoutId, s.made.length)] }

end DiffSyncInner

namespace CheckoutEntry

variable (entry : CheckoutEntry)

/-- The chats of a surviving entry; a new chat kicks its task. -/
def regroup (chats : List String) : CheckoutEntry :=
  let joined := chats.filter fun chat => !entry.chats.contains chat
  { entry with
    chats
    kicked := entry.kicked || !joined.isEmpty
    unsent := entry.unsent.filter (fun chat => chats.contains chat) ++ joined }

/-- `posting`, or the end of the pass. -/
def postTo (checksum : String) (left : List String) : CheckoutEntry :=
  { entry with task := if left = [] then .idle else .posting checksum left }

/-- `sync_entry` records the checksum before it posts anything. -/
def record (checksum : String) : CheckoutEntry :=
  { entry with checksum := some checksum, unsent := entry.chats }

end CheckoutEntry

namespace DiffSyncInner

variable (s : DiffSyncInner)

/-- `sync_entry` after the capture; `edge` tells whether an edge is configured. -/
def captured (edge : Bool) (index : Nat) (entry : CheckoutEntry) (checksum : String) : DiffSyncInner :=
  if entry.checksum = some checksum then
    { s.setEntry index { entry with task := .idle } with
      skips := ⟨entry.checkoutId, checksum, entry.chats, s.delivered⟩ :: s.skips }
  else
    let recorded := entry.record checksum
    -- Closed while computing.
    if (s.entries.lookup entry.checkoutId).isNone then
      s.setEntry index { recorded with task := .idle }
    else s.setEntry index (recorded.postTo checksum (if edge then entry.chats else []))

def step (edge : Bool) : Action → Option DiffSyncInner
  | .remove checkoutId =>
      some { s with entries := s.entries.filter fun (other, _) => other ≠ checkoutId }
  | .regroup checkoutId chats =>
      match s.entries.lookup checkoutId with
      | none => some (s.addEntry checkoutId chats)
      | some index => s.made[index]?.map fun entry => s.setEntry index (entry.regroup chats)
  | .kick index => s.made[index]?.map fun entry => s.setEntry index { entry with kicked := true }
  | .start index =>
      s.made[index]?.bind fun entry =>
        if entry.task = .idle ∧ entry.kicked = true ∧ s.cancelled = false ∧
            (entry.checkoutId, index) ∈ s.entries then
          some (s.setEntry index { entry with kicked := false, task := .capturing })
        else none
  | .captureFails index =>
      s.made[index]?.bind fun entry =>
        if entry.task = .capturing then some (s.setEntry index { entry with task := .idle })
        else none
  | .captured index checksum =>
      s.made[index]?.bind fun entry =>
        if entry.task = .capturing ∧ s.cancelled = false then
          some (s.captured edge index entry checksum)
        else none
  | .post index outcome =>
      s.made[index]?.bind fun entry =>
        match entry.task with
        | .posting checksum (chat :: left) =>
            if s.cancelled then none
            else if outcome = .taken then
              some { s.setEntry index ({ entry with
                  unsent := entry.unsent.filter (· ≠ chat) }.postTo checksum left) with
                delivered := ⟨chat, entry.checkoutId, checksum⟩ :: s.delivered }
            else some (s.setEntry index (entry.postTo checksum left))
        | _ => none
  | .shutdown => some { s with cancelled := true }

end DiffSyncInner

def diffSync (edge : Bool) : Machine DiffSyncInner Action where
  init := (· = .new)
  step := fun s a => s.step edge a

/-! ## Passes that publish nothing -/

/-- Every chat of the checkout has the sidecar already. -/
def Skip.Sound (skip : Skip) : Prop :=
  ∀ chat ∈ skip.chats, ⟨chat, skip.checkoutId, skip.checksum⟩ ∈ skip.delivered

/-- The recorded checksum is not captured again while a chat of the checkout is without it: one that
joined since it was recorded, or whose post was not taken. -/
def Timely (s : DiffSyncInner) : Action → Prop
  | .captured index checksum =>
      ∀ entry ∈ s.made[index]?, entry.checksum = some checksum → entry.unsent = []
  | _ => True

instance (s : DiffSyncInner) (action : Action) : Decidable (Timely s action) := by
  unfold Timely
  split <;> infer_instance

/-- A chat of an entry has the recorded checksum, or is unsent. -/
structure CheckoutEntry.Sound (delivered : List Delivery) (entry : CheckoutEntry) : Prop where
  served : ∀ checksum, entry.checksum = some checksum → ∀ chat ∈ entry.chats,
    chat ∈ entry.unsent ∨ ⟨chat, entry.checkoutId, checksum⟩ ∈ delivered
  grouped : ∀ chat ∈ entry.unsent, chat ∈ entry.chats
  posting : ∀ checksum left, entry.task = .posting checksum left → entry.checksum = some checksum

structure DiffSyncInner.Sound (s : DiffSyncInner) : Prop where
  entry : ∀ entry ∈ s.made, entry.Sound s.delivered
  skip : ∀ skip ∈ s.skips, skip.Sound

namespace CheckoutEntry.Sound

variable {delivered : List Delivery} {entry : CheckoutEntry}

theorem deliver (h : entry.Sound delivered) (delivery : Delivery) :
    entry.Sound (delivery :: delivered) where
  served := fun checksum hchecksum chat hchat =>
    (h.served checksum hchecksum chat hchat).imp_right (List.mem_cons_of_mem _)
  grouped := h.grouped
  posting := h.posting

theorem toTask (h : entry.Sound delivered) {task : Task} (kicked : Bool)
    (htask : ∀ checksum left, task ≠ .posting checksum left) :
    ({ entry with kicked := kicked, task := task }).Sound delivered where
  served := h.served
  grouped := h.grouped
  posting := fun checksum left heq => absurd heq (htask checksum left)

theorem kick (h : entry.Sound delivered) : ({ entry with kicked := true }).Sound delivered where
  served := h.served
  grouped := h.grouped
  posting := h.posting

theorem postTo (h : entry.Sound delivered) {checksum : String}
    (hchecksum : entry.checksum = some checksum) (left : List String) :
    (entry.postTo checksum left).Sound delivered where
  served := h.served
  grouped := h.grouped
  posting := by
    intro other rest htask
    unfold CheckoutEntry.postTo at htask
    split_ifs at htask
    cases htask
    exact hchecksum

theorem regroup (h : entry.Sound delivered) (chats : List String) :
    (entry.regroup chats).Sound delivered where
  served := by
    intro checksum hchecksum chat hchat
    have hmem : chat ∈ chats := hchat
    by_cases hheld : chat ∈ entry.chats
    · obtain hunsent | hdelivered := h.served checksum hchecksum chat hheld
      · left
        apply List.mem_append_left
        exact List.mem_filter.mpr ⟨hunsent, by simpa using hmem⟩
      · exact .inr hdelivered
    · left
      apply List.mem_append_right
      exact List.mem_filter.mpr ⟨hmem, by simpa using hheld⟩
  grouped := by
    intro chat hchat
    change chat ∈ chats
    obtain hmem | hmem := List.mem_append.mp hchat
    · simpa using (List.mem_filter.mp hmem).2
    · exact (List.mem_filter.mp hmem).1
  posting := h.posting

theorem record (entry : CheckoutEntry) (checksum : String)
    (htask : ∀ checksum left, entry.task ≠ .posting checksum left) :
    (entry.record checksum).Sound delivered where
  served := fun _ _ _ hchat => .inl hchat
  grouped := fun _ hchat => hchat
  posting := fun checksum left heq => absurd heq (htask checksum left)

theorem take (h : entry.Sound delivered) {checksum : String}
    (hchecksum : entry.checksum = some checksum) (chat : String) :
    ({ entry with unsent := entry.unsent.filter (· ≠ chat) }).Sound
      (⟨chat, entry.checkoutId, checksum⟩ :: delivered) where
  served := by
    intro other hother held hheld
    rw [hchecksum] at hother
    cases hother
    by_cases heq : held = chat
    · subst heq
      exact .inr List.mem_cons_self
    · refine (h.served checksum hchecksum held hheld).imp ?_ (List.mem_cons_of_mem _)
      intro hunsent
      exact List.mem_filter.mpr ⟨hunsent, by simpa using heq⟩
  grouped := fun other hother => h.grouped other (List.mem_filter.mp hother).1
  posting := h.posting

theorem served_iff (h : entry.Sound delivered) {checksum : String}
    (hchecksum : entry.checksum = some checksum) :
    (∀ chat ∈ entry.chats, (⟨chat, entry.checkoutId, checksum⟩ : Delivery) ∈ delivered) ↔
      ∀ chat ∈ entry.unsent, (⟨chat, entry.checkoutId, checksum⟩ : Delivery) ∈ delivered := by
  constructor
  · intro hall chat hchat
    exact hall chat (h.grouped chat hchat)
  · intro hunsent chat hchat
    obtain hmem | hdelivered := h.served checksum hchecksum chat hchat
    · exact hunsent chat hmem
    · exact hdelivered

end CheckoutEntry.Sound

namespace DiffSyncInner

variable {edge : Bool} {s s' : DiffSyncInner} {index : Nat} {entry : CheckoutEntry}

theorem Sound.setEntry (h : s.Sound) {entry' : CheckoutEntry} (hentry : entry'.Sound s.delivered) :
    (s.setEntry index entry').Sound where
  entry := by
    intro other hmem
    obtain hmem | rfl := List.mem_or_eq_of_mem_set hmem
    · exact h.entry other hmem
    · exact hentry
  skip := h.skip

theorem Sound.of_getElem (h : s.Sound) (hentry : s.made[index]? = some entry) :
    entry.Sound s.delivered :=
  h.entry entry (List.mem_of_getElem? hentry)

theorem Sound.addEntry (h : s.Sound) (checkoutId : String) (chats : List String) :
    (s.addEntry checkoutId chats).Sound where
  entry := by
    intro entry hmem
    obtain hmem | hmem := List.mem_append.mp hmem
    · exact h.entry entry hmem
    · rw [List.mem_singleton] at hmem
      subst hmem
      exact { served := by simp, grouped := by simp, posting := by simp }
  skip := h.skip

theorem Sound.captured (h : s.Sound) (hentry : s.made[index]? = some entry)
    (htask : entry.task = .capturing) {checksum : String}
    (htimely : Timely s (.captured index checksum)) :
    (s.captured edge index entry checksum).Sound := by
  have hsound := h.of_getElem hentry
  have hidle : ∀ checksum left, Task.idle ≠ .posting checksum left := by
    intro checksum left heq
    cases heq
  unfold DiffSyncInner.captured
  split_ifs with hsame hclosed
  · have hset : (s.setEntry index { entry with task := .idle }).Sound :=
      h.setEntry (hsound.toTask entry.kicked hidle)
    refine ⟨hset.entry, ?_⟩
    intro skip hskip
    obtain rfl | hskip := List.mem_cons.mp hskip
    · apply (hsound.served_iff hsame).mpr
      rw [htimely entry hentry hsame]
      simp
    · exact h.skip skip hskip
  all_goals
    have hrecord : (entry.record checksum).Sound s.delivered := by
      apply CheckoutEntry.Sound.record
      rw [htask]
      intro checksum left heq
      cases heq
  · exact h.setEntry (hrecord.toTask _ hidle)
  · exact h.setEntry (hrecord.postTo rfl _)
  · exact h.setEntry (hrecord.postTo rfl _)

theorem sound_step (h : s.Sound) {action : Action} (htimely : Timely s action)
    (hstep : s.step edge action = some s') : s'.Sound := by
  cases action with
  | remove checkoutId | shutdown =>
      cases hstep
      exact ⟨h.entry, h.skip⟩
  | regroup checkoutId chats =>
      simp only [step] at hstep
      split at hstep
      · cases hstep
        exact h.addEntry checkoutId chats
      · obtain ⟨entry, hentry, rfl⟩ := Option.map_eq_some_iff.mp hstep
        exact h.setEntry ((h.of_getElem hentry).regroup chats)
  | kick index =>
      obtain ⟨entry, hentry, rfl⟩ := Option.map_eq_some_iff.mp hstep
      exact h.setEntry (h.of_getElem hentry).kick
  | start _ | captureFails _ =>
      obtain ⟨entry, hentry, hstep⟩ := Option.bind_eq_some_iff.mp hstep
      split_ifs at hstep
      cases hstep
      exact h.setEntry ((h.of_getElem hentry).toTask _ (by simp))
  | captured index checksum =>
      obtain ⟨entry, hentry, hstep⟩ := Option.bind_eq_some_iff.mp hstep
      split_ifs at hstep with hcapturing
      cases hstep
      exact h.captured hentry hcapturing.1 htimely
  | post index outcome =>
      obtain ⟨entry, hentry, hstep⟩ := Option.bind_eq_some_iff.mp hstep
      have hsound := h.of_getElem hentry
      split at hstep
      · rename_i checksum chat left htask
        have hchecksum := hsound.posting checksum (chat :: left) htask
        split_ifs at hstep with hcancelled htaken
        · cases hstep
          have htake := (hsound.take hchecksum chat).postTo hchecksum left
          refine ⟨?_, h.skip⟩
          intro other hmem
          obtain hmem | rfl := List.mem_or_eq_of_mem_set hmem
          · exact (h.entry other hmem).deliver _
          · exact htake
        · cases hstep
          exact h.setEntry (hsound.postTo hchecksum left)
      · cases hstep

theorem sound_new : new.Sound where
  entry := by simp [new]
  skip := by simp [new]

end DiffSyncInner

/-- **Sidecars reach every chat.** Where the recorded checksum is not captured again while a chat of
the checkout is unsent, every pass that publishes nothing finds the sidecar with its checksum at
every chat of the checkout. A pass that does capture it again finds it exactly where every unsent
chat has it from an earlier recording. -/
theorem sidecars_reach_chats (edge : Bool) {s : DiffSyncInner}
    (h : (diffSync edge).ReachableWhen Timely s) :
    (∀ skip ∈ s.skips, skip.Sound) ∧
      ∀ index entry checksum, s.made[index]? = some entry → entry.task = .capturing →
        entry.checksum = some checksum →
          ∃ skip, (s.captured edge index entry checksum).skips = skip :: s.skips ∧
            (skip.Sound ↔ ∀ chat ∈ entry.unsent, ⟨chat, entry.checkoutId, checksum⟩ ∈ s.delivered) := by
  have hsound : s.Sound := by
    apply h.invariant
    · rintro _ rfl
      exact DiffSyncInner.sound_new
    · intro s action s' hsound htimely hstep
      exact DiffSyncInner.sound_step hsound htimely hstep
  refine ⟨hsound.skip, ?_⟩
  intro index entry checksum hentry _ hchecksum
  refine ⟨⟨entry.checkoutId, checksum, entry.chats, s.delivered⟩, ?_, ?_⟩
  · rw [DiffSyncInner.captured, if_pos hchecksum]
  · exact (hsound.of_getElem hentry).served_iff hchecksum

/-- A post is rejected, and a chat joins; both have the sidecar of the next capture. -/
def changedInBetween : List Action :=
  [.regroup "checkout" ["first"], .start 0, .captured 0 "before", .post 0 .rejected,
    .regroup "checkout" ["first", "second"], .start 0, .captured 0 "after", .post 0 .taken,
    .post 0 .taken, .kick 0, .start 0, .captured 0 "after"]

theorem changed_in_between :
    ∃ s : DiffSyncInner, (∀ skip ∈ s.skips, skip.Sound) ∧
      s.skips.map (fun skip => (skip.checksum, skip.chats)) = [("after", ["first", "second"])] := by
  obtain ⟨s, hsteps, hs⟩ := Machine.exists_steps_of_runWhen (diffSync true) Timely changedInBetween
    (s := .new) (p := fun s => decide (s.skips.map (fun skip => (skip.checksum, skip.chats)) =
      [("after", ["first", "second"])])) (by decide)
  exact ⟨s, (sidecars_reach_chats true ⟨.new, rfl, hsteps⟩).1, of_decide_eq_true hs⟩

def joinsUnchanged : List Action :=
  [.regroup "checkout" ["first"], .start 0, .captured 0 "tree", .post 0 .taken,
    .regroup "checkout" ["first", "second"], .start 0, .captured 0 "tree"]

/-- The new chat kicks a pass, and the pass publishes nothing. -/
theorem new_chat_without_sidecar :
    ¬ ∀ (edge : Bool) (s : DiffSyncInner), (diffSync edge).Reachable s →
      ∀ skip ∈ s.skips, skip.Sound := by
  intro hall
  obtain ⟨s, hsteps, hs⟩ := Machine.exists_steps_of_runWhen (diffSync true) Machine.anyStep
    joinsUnchanged (s := .new) (p := fun s => s.skips.any fun skip =>
      skip.chats.contains "second" && !skip.delivered.contains ⟨"second", skip.checkoutId,
        skip.checksum⟩) (by decide)
  obtain ⟨skip, hskip, hs⟩ := List.any_eq_true.mp hs
  simp only [Bool.and_eq_true, List.contains_eq_mem, decide_eq_true_eq, Bool.not_eq_true',
    decide_eq_false_iff_not] at hs
  exact hs.2 (hall true s ⟨.new, rfl, hsteps⟩ skip hskip "second" hs.1)

end Zeron.Engine.DiffSync
