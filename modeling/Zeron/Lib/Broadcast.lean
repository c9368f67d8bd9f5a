import Mathlib.Algebra.BigOperators.Group.List.Basic
import Mathlib.Algebra.Ring.Nat
import Mathlib.Data.List.Nodup

/-!
# Replay windows and fan-out

A window keeps the newest items of a log within a cap on their weight. A channel keeps what was sent
to it in order; fan-out sends one item to several channels and lets go of those without a receiver.
-/

namespace Zeron.Lib.Broadcast

variable {α : Type*}

section Window

variable (weight : α → Nat) (cap : Nat)

def total (items : List α) : Nat := (items.map weight).sum

/-- Items leave at the front while the weight is above the cap, except for the last one. -/
def evict : List α → Nat → List α × Nat
  | [], bytes => ([], bytes)
  | dropped :: rest, bytes =>
      if cap < bytes ∧ rest ≠ [] then evict rest (bytes - weight dropped)
      else (dropped :: rest, bytes)

theorem evict_suffix (items : List α) (bytes : Nat) :
    (evict weight cap items bytes).1 <:+ items := by
  induction items generalizing bytes with
  | nil => exact List.suffix_rfl
  | cons dropped rest ih =>
      rw [evict]
      split_ifs
      · exact (ih _).trans (List.suffix_cons dropped rest)
      · exact List.suffix_rfl

/-- The weight that is kept beside the items stays their weight; nothing is subtracted below zero. -/
theorem evict_total (items : List α) :
    (evict weight cap items (total weight items)).2 =
      total weight (evict weight cap items (total weight items)).1 := by
  induction items with
  | nil => rfl
  | cons dropped rest ih =>
      have hrest : total weight (dropped :: rest) - weight dropped = total weight rest := by
        simp [total]
      rw [evict]
      split_ifs
      · rw [hrest, ih]
      · rfl

theorem evict_le (items : List α) (bytes : Nat) :
    (evict weight cap items bytes).2 ≤ cap ∨ (evict weight cap items bytes).1.length ≤ 1 := by
  induction items generalizing bytes with
  | nil => exact .inr (Nat.zero_le 1)
  | cons dropped rest ih =>
      rw [evict]
      split_ifs with hdrop
      · exact ih _
      · rw [not_and_or, Nat.not_lt, not_not] at hdrop
        exact hdrop.imp id fun hrest => by simp [hrest]

end Window

/-- An unbounded channel: what was sent, and whether someone can still receive it. -/
structure Channel (α : Type*) where
  sent : List α := []
  receiver : Bool := true
deriving DecidableEq

def Channel.send (channel : Channel α) (item : α) : Option (Channel α) :=
  if channel.receiver then some { channel with sent := channel.sent ++ [item] } else none

/-- The channel behind an attempt to send. -/
def Channel.after (channel : Channel α) (item : α) : Channel α :=
  (channel.send item).getD channel

/-- Sends the item to each of the subscribers and keeps those that took it. -/
def fanOut (item : α) : List Nat → List (Channel α) → List Nat × List (Channel α)
  | [], channels => ([], channels)
  | tx :: txs, channels =>
      match channels[tx]?.bind (·.send item) with
      | some channel =>
          let later := fanOut item txs (channels.set tx channel)
          (tx :: later.1, later.2)
      | none => fanOut item txs channels

theorem fanOut_length (item : α) (txs : List Nat) (channels : List (Channel α)) :
    (fanOut item txs channels).2.length = channels.length := by
  induction txs generalizing channels with
  | nil => rfl
  | cons tx txs ih =>
      rw [fanOut]
      split
      · exact (ih _).trans List.length_set
      · exact ih _

/-- A channel that is not sent to stays as it is. -/
theorem fanOut_of_not_mem (item : α) {txs : List Nat} {id : Nat} (h : id ∉ txs)
    (channels : List (Channel α)) : (fanOut item txs channels).2[id]? = channels[id]? := by
  induction txs generalizing channels with
  | nil => rfl
  | cons tx txs ih =>
      rw [List.mem_cons, not_or] at h
      rw [fanOut]
      split
      · rw [ih h.2, List.getElem?_set_ne (Ne.symm h.1)]
      · exact ih h.2 _

/-- Each subscriber is sent the item once. -/
theorem fanOut_of_mem (item : α) {txs : List Nat} (hnodup : txs.Nodup) {id : Nat} (h : id ∈ txs)
    (channels : List (Channel α)) :
    (fanOut item txs channels).2[id]? = channels[id]?.map (·.after item) := by
  induction txs generalizing channels with
  | nil => exact absurd h List.not_mem_nil
  | cons tx txs ih =>
      rw [List.nodup_cons] at hnodup
      rw [fanOut]
      obtain rfl | htail := List.mem_cons.mp h
      · split
        · rename_i channel hsend
          obtain ⟨before, hbefore, hsend⟩ := Option.bind_eq_some_iff.mp hsend
          have hid := (List.getElem?_eq_some_iff.mp hbefore).1
          rw [fanOut_of_not_mem item hnodup.1, List.getElem?_set_self hid, hbefore]
          simp [Channel.after, hsend]
        · rename_i hsend
          rw [fanOut_of_not_mem item hnodup.1]
          cases hbefore : channels[id]? with
          | none => rfl
          | some before =>
              rw [hbefore, Option.bind_some] at hsend
              simp [Channel.after, hsend]
      · have hne : tx ≠ id := by
          rintro rfl
          exact hnodup.1 htail
        split
        · rw [ih hnodup.2 htail, List.getElem?_set_ne hne]
        · exact ih hnodup.2 htail _

/-- Someone can receive what is sent to the channel. -/
def Channel.received (channels : List (Channel α)) (id : Nat) : Bool :=
  channels[id]?.any (·.receiver)

theorem fanOut_kept (item : α) {txs : List Nat} (hnodup : txs.Nodup)
    (channels : List (Channel α)) :
    (fanOut item txs channels).1 = txs.filter (Channel.received channels) := by
  induction txs generalizing channels with
  | nil => rfl
  | cons tx txs ih =>
      rw [List.nodup_cons] at hnodup
      rw [fanOut]
      split
      · rename_i channel hsend
        obtain ⟨before, hbefore, hsend⟩ := Option.bind_eq_some_iff.mp hsend
        have hreceiver : before.receiver = true := by
          by_contra hnone
          simp [Channel.send, hnone] at hsend
        have hothers : txs.filter (Channel.received (channels.set tx channel)) =
            txs.filter (Channel.received channels) := by
          refine List.filter_congr fun id hid => ?_
          have hne : tx ≠ id := by
            rintro rfl
            exact hnodup.1 hid
          rw [Channel.received, Channel.received, List.getElem?_set_ne hne]
        have htx : Channel.received channels tx = true := by
          simp [Channel.received, hbefore, hreceiver]
        dsimp only
        rw [ih hnodup.2, hothers, List.filter_cons_of_pos htx]
      · rename_i hsend
        have htx : Channel.received channels tx ≠ true := by
          intro htx
          obtain ⟨before, hbefore, hreceiver⟩ := (Option.any_eq_true _ _).mp htx
          simp [hbefore, Channel.send, hreceiver] at hsend
        rw [ih hnodup.2, List.filter_cons_of_neg htx]

end Zeron.Lib.Broadcast
