import Mathlib.Data.List.Induction

/-!
# Numbered entries in a queue

A log of numbered entries, and a queue of items on their way to a reader of it. An item can carry an
entry and can mark a number, by which the reader takes everything up to it as read. The queue is
gapless if that is so whenever the reader comes to the mark.
-/

namespace Zeron.Lib

structure Item (E : Type*) where
  mark : Option Nat
  entry : Option E

namespace Item

variable {E : Type*}

def carried (queue : List (Item E)) : List E := queue.filterMap Item.entry

@[simp]
theorem carried_append (queue more : List (Item E)) :
    carried (queue ++ more) = carried queue ++ carried more := List.filterMap_append

theorem carried_cons (item : Item E) (queue : List (Item E)) :
    carried (item :: queue) = item.entry.toList ++ carried queue := by
  cases hentry : item.entry <;> simp [carried, hentry]

end Item

open Item (carried)

variable {E : Type*} (number : E → Nat)

/-- At every mark of the queue, the entries up to it are held or carried by then. -/
def Gapless (log : List E) (held : E → Prop) (queue : List (Item E)) : Prop :=
  ∀ before item rest, queue = before ++ item :: rest → ∀ n, item.mark = some n →
    ∀ entry ∈ log, number entry ≤ n → held entry ∨ entry ∈ carried (before ++ [item])

namespace Gapless

variable {number} {log : List E} {held held' : E → Prop} {queue : List (Item E)}

theorem nil (log : List E) (held : E → Prop) : Gapless number log held [] := by
  intro before item rest heq
  exact absurd heq.symm (by simp)

theorem mono (h : Gapless number log held queue)
    (hheld : ∀ entry ∈ log, held entry → held' entry) : Gapless number log held' queue := by
  intro before item rest heq n hmark entry hentry hle
  exact (h before item rest heq n hmark entry hentry hle).imp_left (hheld entry hentry)

/-- What the reader holds when it comes to the first mark. -/
theorem head {item : Item E} (h : Gapless number log held (item :: queue)) {n : Nat}
    (hmark : item.mark = some n) {entry : E} (hentry : entry ∈ log) (hle : number entry ≤ n) :
    held entry ∨ item.entry = some entry := by
  refine (h [] item queue rfl n hmark entry hentry hle).imp_right fun hmem => ?_
  rw [List.nil_append, Item.carried_cons] at hmem
  simpa [carried] using hmem

/-- The reader takes items, and holds the entries in them. -/
theorem drop {taken : List (Item E)} (h : Gapless number log held (taken ++ queue))
    (hheld : ∀ entry ∈ log, held entry → held' entry)
    (hcarried : ∀ entry ∈ log, entry ∈ carried taken → held' entry) :
    Gapless number log held' queue := by
  intro before item rest heq n hmark entry hentry hle
  obtain hold | hmem :=
    h (taken ++ before) item rest (by rw [heq, List.append_assoc]) n hmark entry hentry hle
  · exact .inl (hheld entry hentry hold)
  · rw [List.append_assoc, Item.carried_append, List.mem_append] at hmem
    obtain hmem | hmem := hmem
    · exact .inl (hcarried entry hentry hmem)
    · exact .inr hmem

/-- An item may join the queue if what it marks is held or carried by then. -/
theorem concat {item : Item E} (h : Gapless number log held queue)
    (hitem : ∀ n, item.mark = some n → ∀ entry ∈ log, number entry ≤ n →
      held entry ∨ entry ∈ carried (queue ++ [item])) :
    Gapless number log held (queue ++ [item]) := by
  intro before other rest heq n hmark entry hentry hle
  obtain rfl | ⟨init, last, rfl⟩ := List.eq_nil_or_concat rest
  · obtain ⟨rfl, hlast⟩ := List.append_inj' heq rfl
    cases hlast
    exact hitem n hmark entry hentry hle
  · rw [List.concat_eq_append, ← List.cons_append, ← List.append_assoc] at heq
    obtain ⟨rfl, -⟩ := List.append_inj' heq rfl
    exact h before other init rfl n hmark entry hentry hle

/-- A new entry, above every mark of the queue. -/
theorem grow (h : Gapless number log held queue) {entry : E}
    (habove : ∀ item ∈ queue, ∀ n, item.mark = some n → n < number entry) :
    Gapless number (log ++ [entry]) held queue := by
  intro before item rest heq n hmark other hother hle
  obtain hother | hother := List.mem_append.mp hother
  · exact h before item rest heq n hmark other hother hle
  · rw [List.mem_singleton.mp hother] at hle
    have hlt := habove item (heq ▸ by simp) n hmark
    omega

/-- A new entry, above every mark of the queue, and an item that marks it. -/
theorem extend {item : Item E} {entry : E} (h : Gapless number log held queue)
    (habove : ∀ item ∈ queue, ∀ n, item.mark = some n → n < number entry)
    (hall : ∀ other ∈ log, held other ∨ other ∈ carried queue)
    (hentry : held entry ∨ item.entry = some entry) :
    Gapless number (log ++ [entry]) held (queue ++ [item]) := by
  refine (h.grow habove).concat fun n _ other hother _ => ?_
  obtain hother | hother := List.mem_append.mp hother
  · refine (hall other hother).imp_right fun hmem => ?_
    rw [Item.carried_append]
    exact List.mem_append_left _ hmem
  · rw [List.mem_singleton.mp hother]
    refine hentry.imp_right fun hitem => ?_
    rw [Item.carried_append, List.mem_append, Item.carried_cons, hitem]
    exact .inr (by simp)

variable (number) in
/-- The item that carries an entry and marks its number. -/
def item (entry : E) : Item E := ⟨some (number entry), some entry⟩

@[simp]
theorem carried_map_item (entries : List E) : carried (entries.map (item number)) = entries := by
  induction entries with
  | nil => rfl
  | cons entry entries ih =>
      rw [List.map_cons, Item.carried_cons, ih]
      rfl

/-- The rest of a log, queued in its order, leaves no gap. -/
theorem append_sorted {entries : List E} (h : Gapless number log held queue)
    (hsorted : entries.Pairwise fun entry other => number entry < number other)
    (hall : ∀ entry ∈ log, held entry ∨ entry ∈ carried queue ∨ entry ∈ entries ∨
      ∀ other ∈ entries, number other < number entry) :
    Gapless number log held (queue ++ entries.map (item number)) := by
  induction entries using List.reverseRecOn with
  | nil => simpa using h
  | append_singleton init last ih =>
      rw [List.pairwise_append] at hsorted
      have hinit : Gapless number log held (queue ++ init.map (item number)) := by
        refine ih hsorted.1 fun entry hentry => ?_
        obtain hheld | hqueued | hmem | habove := hall entry hentry
        · exact .inl hheld
        · exact .inr (.inl hqueued)
        · obtain hmem | hmem := List.mem_append.mp hmem
          · exact .inr (.inr (.inl hmem))
          · exact .inr (.inr (.inr fun other hother => hsorted.2.2 other hother entry hmem))
        · exact .inr (.inr (.inr fun other hother => habove other (List.mem_append_left _ hother)))
      rw [List.map_append, ← List.append_assoc]
      refine hinit.concat fun n hmark entry hentry hle => ?_
      cases hmark
      simp only [Item.carried_append, carried_map_item, List.mem_append]
      obtain hheld | hqueued | hmem | habove := hall entry hentry
      · exact .inl hheld
      · exact .inr (.inl (.inl hqueued))
      · obtain hmem | hmem := List.mem_append.mp hmem
        · exact .inr (.inl (.inr hmem))
        · rw [List.mem_singleton.mp hmem]
          exact .inr (.inr (by simp [carried, item]))
      · exact absurd (habove last (by simp)) (Nat.not_lt.mpr hle)

end Gapless

end Zeron.Lib
