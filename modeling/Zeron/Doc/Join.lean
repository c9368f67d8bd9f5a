import Mathlib.Data.List.Induction
import Mathlib.Data.List.Perm.Lattice
import Mathlib.Logic.Function.Basic
import Zeron.Doc.Segment

/-!
# Continuations joined

`join_continuation_entries` of `crates/doc/src/schema.rs`: the entries of a message that was split
come back as one. Each entry belongs to a place of the list, its home, and the messages are the
entries that are at home, with the parts of all that belong there.
-/

namespace Zeron.Doc

variable {Part : Type}

/-- `rootIndex` has the place in `out` of the last root with an id. -/
structure Joining (Part : Type) where
  out : List (Entry Part)
  rootIndex : String → Option Nat

namespace Joining

def start : Joining Part := { out := [], rootIndex := fun _ => none }

def extend (entry : Entry Part) (target : Entry Part) : Entry Part :=
  { target with parts := target.parts ++ entry.parts }

def join (joining : Joining Part) (entry : Entry Part) : Joining Part :=
  match entry.continuationOf with
  | some rootId =>
      match joining.rootIndex rootId with
      | some place => { joining with out := joining.out.modify place (extend entry) }
      -- An orphan stays an entry of its own.
      | none => { joining with out := joining.out ++ [entry] }
  | none =>
      { out := joining.out ++ [entry]
        rootIndex := Function.update joining.rootIndex entry.id (some joining.out.length) }

end Joining

def joinContinuationEntries (entries : List (Entry Part)) : List (Entry Part) :=
  if entries.any fun entry => entry.continuationOf.isSome then
    (entries.foldl Joining.join Joining.start).out
  else entries

section Homes

variable (entries : List (Entry Part))

def isRootAt (rootId : String) (place : Nat) : Bool :=
  entries[place]?.any fun entry => entry.continuationOf.isNone && entry.id == rootId

def rootBefore (index : Nat) (rootId : String) : Option Nat :=
  ((List.range index).filter (isRootAt entries rootId)).getLast?

/-- The place of the root that an entry continues, or its own. -/
def home (index : Nat) : Nat :=
  ((entries[index]?.bind (·.continuationOf)).bind (rootBefore entries index)).getD index

def heads : List Nat :=
  (List.range entries.length).filter fun index => home entries index = index

def partsOf (index : Nat) : List Part :=
  (entries[index]?.map (·.parts)).getD []

/-- The parts of all entries at home at a place, in document order. -/
def partsAt (place : Nat) : List Part :=
  ((List.range entries.length).filter fun index => home entries index = place).flatMap
    (partsOf entries)

def message (place : Nat) : Option (Entry Part) :=
  entries[place]?.map fun entry => { entry with parts := partsAt entries place }

end Homes

variable {place index : Nat} {rootId : String}

section Steps

variable {entries : List (Entry Part)} {entry : Entry Part}

theorem isRootAt_concat (h : index < entries.length) (rootId : String) :
    isRootAt (entries ++ [entry]) rootId index = isRootAt entries rootId index := by
  unfold isRootAt
  rw [List.getElem?_append_left h]

theorem rootBefore_concat (h : index ≤ entries.length) (rootId : String) :
    rootBefore (entries ++ [entry]) index rootId = rootBefore entries index rootId := by
  unfold rootBefore
  congr 1
  apply List.filter_congr
  intro place hplace
  exact isRootAt_concat (Nat.lt_of_lt_of_le (List.mem_range.mp hplace) h) rootId

theorem rootBefore_succ (index : Nat) (rootId : String) :
    rootBefore entries (index + 1) rootId =
      if isRootAt entries rootId index then some index else rootBefore entries index rootId := by
  unfold rootBefore
  rw [List.range_succ, List.filter_append]
  split
  · rename_i hroot
    rw [List.filter_singleton, hroot]
    exact List.getLast?_concat
  · rename_i hroot
    rw [List.filter_singleton, Bool.eq_false_iff.mpr hroot]
    exact congrArg List.getLast? (List.append_nil _)

theorem rootBefore_spec {index place : Nat} (h : rootBefore entries index rootId = some place) :
    place < index ∧ isRootAt entries rootId place = true := by
  obtain ⟨hrange, hroot⟩ := List.mem_filter.mp (List.mem_of_getLast? h)
  exact ⟨List.mem_range.mp hrange, hroot⟩

theorem rootBefore_eq_none_iff :
    rootBefore entries index rootId = none ↔
      ∀ place < index, isRootAt entries rootId place = false := by
  unfold rootBefore
  rw [List.getLast?_eq_none_iff, List.filter_eq_nil_iff]
  simp

theorem home_le (entries : List (Entry Part)) (index : Nat) : home entries index ≤ index := by
  unfold home
  cases hroot : (entries[index]?.bind (·.continuationOf)).bind (rootBefore entries index) with
  | none => exact Nat.le_refl index
  | some place =>
      obtain ⟨rootId, -, hplace⟩ := Option.bind_eq_some_iff.mp hroot
      exact Nat.le_of_lt (rootBefore_spec hplace).1

theorem isRootAt_iff :
    isRootAt entries rootId place = true ↔ ∃ root, entries[place]? = some root ∧
      root.continuationOf = none ∧ root.id = rootId := by
  unfold isRootAt
  simp [Option.any_eq_true]

theorem home_root (h : isRootAt entries rootId place = true) :
    home entries place = place := by
  obtain ⟨root, hroot, hnone, -⟩ := isRootAt_iff.mp h
  unfold home
  rw [hroot, Option.bind_some, hnone]
  rfl

theorem home_concat (h : index < entries.length) :
    home (entries ++ [entry]) index = home entries index := by
  unfold home
  rw [List.getElem?_append_left h]
  congr 2
  exact funext fun rootId => rootBefore_concat (Nat.le_of_lt h) rootId

def newHome (entries : List (Entry Part)) (entry : Entry Part) : Nat :=
  (entry.continuationOf.bind (rootBefore entries entries.length)).getD entries.length

theorem home_last : home (entries ++ [entry]) entries.length = newHome entries entry := by
  unfold home newHome
  rw [List.getElem?_concat_length, Option.bind_some]
  congr 2
  exact funext fun rootId => rootBefore_concat (Nat.le_refl _) rootId

theorem partsOf_concat (h : index < entries.length) :
    partsOf (entries ++ [entry]) index = partsOf entries index := by
  unfold partsOf
  rw [List.getElem?_append_left h]

theorem heads_concat : heads (entries ++ [entry]) =
    heads entries ++ if newHome entries entry = entries.length then [entries.length] else [] := by
  unfold heads
  rw [List.length_append, List.length_singleton, List.range_succ, List.filter_append]
  congr 1
  · apply List.filter_congr
    intro index hindex
    rw [home_concat (List.mem_range.mp hindex)]
  · rw [List.filter_singleton, home_last]
    split <;> simp_all

theorem partsAt_concat (place : Nat) : partsAt (entries ++ [entry]) place =
    partsAt entries place ++ if newHome entries entry = place then entry.parts else [] := by
  unfold partsAt
  rw [List.length_append, List.length_singleton, List.range_succ, List.filter_append,
    List.flatMap_append]
  congr 1
  · rw [List.filter_congr fun index hindex => by rw [home_concat (List.mem_range.mp hindex)]]
    apply List.flatMap_congr
    intro index hindex
    exact partsOf_concat (List.mem_range.mp (List.mem_filter.mp hindex).1)
  · have hlast : partsOf (entries ++ [entry]) entries.length = entry.parts := by
      unfold partsOf
      rw [List.getElem?_concat_length]
      rfl
    rw [List.filter_singleton, home_last]
    split <;> simp_all

theorem mem_heads : place ∈ heads entries ↔
    place < entries.length ∧ home entries place = place := by
  unfold heads
  rw [List.mem_filter, List.mem_range, decide_eq_true_iff]

theorem partsAt_of_le (h : entries.length ≤ place) : partsAt entries place = [] := by
  unfold partsAt
  rw [List.filter_eq_nil_iff.mpr, List.flatMap_nil]
  intro index hindex hhome
  have hle := home_le entries index
  rw [of_decide_eq_true hhome] at hle
  exact Nat.not_lt.mpr h (Nat.lt_of_le_of_lt hle (List.mem_range.mp hindex))

theorem message_concat (h : place < entries.length) :
    message (entries ++ [entry]) place = (message entries place).map
      (if newHome entries entry = place then Joining.extend entry else id) := by
  unfold message
  rw [List.getElem?_append_left h, partsAt_concat, Option.map_map]
  congr 1
  funext target
  split
  · rfl
  · rw [List.append_nil]
    rfl

theorem message_last (h : newHome entries entry = entries.length) :
    message (entries ++ [entry]) entries.length = some entry := by
  unfold message
  rw [List.getElem?_concat_length, partsAt_concat, if_pos h, partsAt_of_le (Nat.le_refl _)]
  rfl

theorem isRootAt_last (rootId : String) :
    isRootAt (entries ++ [entry]) rootId entries.length =
      (entry.continuationOf.isNone && entry.id == rootId) := by
  unfold isRootAt
  rw [List.getElem?_concat_length]
  rfl

theorem rootBefore_last (rootId : String) :
    rootBefore (entries ++ [entry]) (entries ++ [entry]).length rootId =
      if entry.continuationOf.isNone && entry.id == rootId then some entries.length
      else rootBefore entries entries.length rootId := by
  rw [List.length_append, List.length_singleton, rootBefore_succ, isRootAt_last,
    rootBefore_concat (Nat.le_refl _)]

end Steps

section Fold

variable {entries : List (Entry Part)} {joining : Joining Part}

theorem heads_nodup (entries : List (Entry Part)) : (heads entries).Nodup :=
  List.nodup_range.filter _

theorem root_mem_heads {index place : Nat} (h : rootBefore entries index rootId = some place) :
    place ∈ heads entries := by
  obtain ⟨-, hroot⟩ := rootBefore_spec h
  obtain ⟨root, hfound, -⟩ := isRootAt_iff.mp hroot
  exact mem_heads.mpr ⟨(List.getElem?_eq_some_iff.mp hfound).1, home_root hroot⟩

/-- What the loop has joined of the entries so far. -/
structure Joining.Sound (joining : Joining Part) (entries : List (Entry Part)) : Prop where
  out : joining.out.map some = (heads entries).map (message entries)
  roots : ∀ rootId, joining.rootIndex rootId =
    (rootBefore entries entries.length rootId).map fun place => (heads entries).idxOf place

theorem Joining.Sound.length (h : joining.Sound entries) :
    joining.out.length = (heads entries).length := by
  simpa using congrArg List.length h.out

theorem Joining.Sound.append (h : joining.Sound entries) {entry : Entry Part}
    (hhome : newHome entries entry = entries.length) :
    (joining.out ++ [entry]).map some =
      (heads (entries ++ [entry])).map (message (entries ++ [entry])) := by
  rw [heads_concat, if_pos hhome, List.map_append, List.map_append, h.out]
  congr 1
  · apply List.map_congr_left
    intro place hplace
    have hlt := (mem_heads.mp hplace).1
    rw [message_concat hlt, if_neg (by omega), Option.map_id]
    rfl
  · rw [List.map_singleton, List.map_singleton, message_last hhome]

/-- A continuation goes to the message of its home. -/
theorem Joining.Sound.modify (h : joining.Sound entries) {entry : Entry Part}
    (hplace : place ∈ heads entries) (hhome : newHome entries entry = place) :
    (joining.out.modify ((heads entries).idxOf place) (Joining.extend entry)).map some =
      (heads (entries ++ [entry])).map (message (entries ++ [entry])) := by
  have hlt := (mem_heads.mp hplace).1
  rw [heads_concat, if_neg (by omega), List.append_nil]
  apply List.ext_getElem?
  intro at'
  have hout : (joining.out[at']?).map some = ((heads entries)[at']?).map (message entries) := by
    simpa using congrArg (·[at']?) h.out
  rw [List.getElem?_map, List.getElem?_map, List.getElem?_modify]
  cases hhead : (heads entries)[at']? with
  | none =>
      rw [hhead] at hout
      rw [Option.map_eq_none_iff.mp hout]
      rfl
  | some other =>
      obtain ⟨hat, hother⟩ := List.getElem?_eq_some_iff.mp hhead
      have hmem : other ∈ heads entries := hother ▸ List.getElem_mem hat
      have hsame : (heads entries).idxOf place = at' ↔ place = other := by
        constructor
        · rintro rfl
          rw [← hother, List.getElem_idxOf]
        · rintro rfl
          rw [← hother]
          exact (heads_nodup entries).idxOf_getElem at' hat
      rw [hhead, Option.map_some] at hout
      obtain ⟨target, htarget, hmessage⟩ := Option.map_eq_some_iff.mp hout
      rw [htarget, Option.map_some, message_concat (mem_heads.mp hmem).1, ← hmessage, hhome]
      by_cases heq : place = other
      · rw [if_pos heq]
        exact congrArg (fun target => some (some target)) (if_pos (hsame.mpr heq))
      · rw [if_neg heq]
        exact congrArg (fun target => some (some target)) (if_neg (mt hsame.mp heq))

theorem Joining.Sound.roots_append (h : joining.Sound entries) (added : List Nat)
    (rootId : String) : joining.rootIndex rootId =
      (rootBefore entries entries.length rootId).map fun place =>
        (heads entries ++ added).idxOf place := by
  rw [h.roots]
  cases hbefore : rootBefore entries entries.length rootId with
  | none => rfl
  | some place =>
      rw [Option.map_some, Option.map_some, List.idxOf_append_of_mem (root_mem_heads hbefore)]

theorem Joining.Sound.join (h : joining.Sound entries) (entry : Entry Part) :
    (joining.join entry).Sound (entries ++ [entry]) := by
  unfold Joining.join
  cases hcontinues : entry.continuationOf with
  | none =>
      have hhome : newHome entries entry = entries.length := by
        unfold newHome
        rw [hcontinues]
        rfl
      refine ⟨h.append hhome, fun rootId => ?_⟩
      dsimp only
      rw [rootBefore_last, heads_concat, if_pos hhome, hcontinues]
      by_cases hid : entry.id = rootId
      · subst hid
        have hlast : (heads entries ++ [entries.length]).idxOf entries.length =
            joining.out.length := by
          have hnot : entries.length ∉ heads entries := fun hmem => by
            have := (mem_heads.mp hmem).1
            omega
          rw [List.idxOf_append_of_notMem hnot, h.length]
          simp
        rw [Function.update_self, if_pos (by simp), Option.map_some, hlast]
      · rw [Function.update_of_ne (Ne.symm hid), if_neg (by simpa using hid)]
        exact h.roots_append _ rootId
  | some rootId =>
      have hroots : ∀ otherId, rootBefore (entries ++ [entry]) (entries ++ [entry]).length otherId =
          rootBefore entries entries.length otherId := by
        intro otherId
        rw [rootBefore_last, hcontinues]
        rfl
      dsimp only
      rw [h.roots]
      cases hbefore : rootBefore entries entries.length rootId with
      | none =>
          have hhome : newHome entries entry = entries.length := by
            unfold newHome
            rw [hcontinues, Option.bind_some, hbefore]
            rfl
          refine ⟨h.append hhome, fun otherId => ?_⟩
          rw [hroots, heads_concat, if_pos hhome]
          exact h.roots_append _ otherId
      | some place =>
          have hhome : newHome entries entry = place := by
            unfold newHome
            rw [hcontinues, Option.bind_some, hbefore]
            rfl
          have hmem := root_mem_heads hbefore
          refine ⟨h.modify hmem hhome, fun otherId => ?_⟩
          have hlt := (mem_heads.mp hmem).1
          rw [hroots, heads_concat, if_neg (by omega), List.append_nil]
          exact h.roots otherId

theorem Joining.Sound.join_home (h : joining.Sound entries) {entry : Entry Part}
    (hhome : newHome entries entry = entries.length) :
    (joining.join entry).out = joining.out ++ [entry] := by
  unfold Joining.join
  cases hcontinues : entry.continuationOf with
  | none => rfl
  | some rootId =>
      dsimp only
      rw [h.roots]
      cases hbefore : rootBefore entries entries.length rootId with
      | none => rfl
      | some place =>
          have hplace : newHome entries entry = place := by
            unfold newHome
            rw [hcontinues, Option.bind_some, hbefore]
            rfl
          have hlt := (rootBefore_spec hbefore).1
          omega

theorem foldl_sound (entries : List (Entry Part)) :
    (entries.foldl Joining.join Joining.start).Sound entries := by
  induction entries using List.reverseRecOn with
  | nil => exact ⟨rfl, fun _ => rfl⟩
  | append_singleton entries entry ih =>
      rw [List.foldl_concat]
      exact ih.join entry

theorem foldl_of_home {entries : List (Entry Part)}
    (h : ∀ index < entries.length, home entries index = index) :
    (entries.foldl Joining.join Joining.start).out = entries := by
  induction entries using List.reverseRecOn with
  | nil => rfl
  | append_singleton entries entry ih =>
      have hrest : ∀ index < entries.length, home entries index = index := by
        intro index hindex
        have hhome : home (entries ++ [entry]) index = home entries index := home_concat hindex
        rw [← hhome]
        exact h index (by simp; omega)
      have hlast : newHome entries entry = entries.length := by
        rw [← home_last]
        exact h entries.length (by simp)
      rw [List.foldl_concat, (foldl_sound entries).join_home hlast, ih hrest]

theorem join_of_home (h : ∀ index < entries.length, home entries index = index) :
    joinContinuationEntries entries = entries := by
  unfold joinContinuationEntries
  split
  · exact foldl_of_home h
  · rfl

theorem joined_eq (entries : List (Entry Part)) : (joinContinuationEntries entries).map some =
    (heads entries).map (message entries) := by
  rw [← (foldl_sound entries).out]
  unfold joinContinuationEntries
  split
  · rfl
  · rename_i hroots
    have hroots : ∀ entry ∈ entries, entry.continuationOf = none := by simpa using hroots
    rw [foldl_of_home fun index hindex => ?_]
    unfold home
    rw [List.getElem?_eq_getElem hindex, Option.bind_some, hroots _ (List.getElem_mem hindex)]
    rfl

end Fold

section Lossless

variable {entries : List (Entry Part)}

theorem home_home (entries : List (Entry Part)) (index : Nat) :
    home entries (home entries index) = home entries index := by
  cases hroot : (entries[index]?.bind (·.continuationOf)).bind (rootBefore entries index) with
  | none =>
      have hhome : home entries index = index := by
        unfold home
        rw [hroot]
        rfl
      rw [hhome, hhome]
  | some place =>
      have hhome : home entries index = place := by
        unfold home
        rw [hroot]
        rfl
      obtain ⟨rootId, -, hplace⟩ := Option.bind_eq_some_iff.mp hroot
      rw [hhome]
      exact home_root (rootBefore_spec hplace).2

theorem flatMap_homes_perm (entries : List (Entry Part)) :
    ((heads entries).flatMap fun place =>
      (List.range entries.length).filter fun index => home entries index = place).Perm
      (List.range entries.length) := by
  rw [List.perm_ext_iff_of_nodup _ List.nodup_range]
  · intro index
    simp only [List.mem_flatMap, mem_heads, List.mem_filter, List.mem_range, decide_eq_true_iff]
    constructor
    · rintro ⟨-, -, hindex, -⟩
      exact hindex
    · intro hindex
      exact ⟨home entries index, ⟨Nat.lt_of_le_of_lt (home_le entries index) hindex,
        home_home entries index⟩, hindex, rfl⟩
  · rw [List.nodup_flatMap]
    refine ⟨fun place _ => List.nodup_range.filter _, ?_⟩
    refine (heads_nodup entries).imp fun hne index hfirst hsecond => hne ?_
    exact (of_decide_eq_true (List.mem_filter.mp hfirst).2).symm.trans
      (of_decide_eq_true (List.mem_filter.mp hsecond).2)

theorem flatMap_partsOf (entries : List (Entry Part)) :
    (List.range entries.length).flatMap (partsOf entries) = entries.flatMap (·.parts) := by
  induction entries using List.reverseRecOn with
  | nil => rfl
  | append_singleton entries entry ih =>
      rw [List.length_append, List.length_singleton, List.range_succ, List.flatMap_append,
        List.flatMap_append, ← ih]
      congr 1
      · apply List.flatMap_congr
        intro index hindex
        exact partsOf_concat (List.mem_range.mp hindex)
      · unfold partsOf
        rw [List.flatMap_singleton, List.flatMap_singleton, List.getElem?_concat_length]
        rfl

theorem message_parts (h : place ∈ heads entries) :
    ((message entries place).map (·.parts)).getD [] = partsAt entries place := by
  unfold message
  rw [List.getElem?_eq_getElem (mem_heads.mp h).1]
  rfl

theorem joined_parts (entries : List (Entry Part)) :
    (joinContinuationEntries entries).flatMap (·.parts) =
      (heads entries).flatMap (partsAt entries) := by
  calc (joinContinuationEntries entries).flatMap (·.parts)
      = ((joinContinuationEntries entries).map some).flatMap
          fun joined => (joined.map (·.parts)).getD [] := by
        rw [List.flatMap_map]
        rfl
    _ = (heads entries).flatMap fun place => ((message entries place).map (·.parts)).getD [] := by
        rw [joined_eq, List.flatMap_map]
    _ = (heads entries).flatMap (partsAt entries) :=
        List.flatMap_congr fun place hplace => message_parts hplace

theorem joined_parts_perm (entries : List (Entry Part)) :
    ((joinContinuationEntries entries).flatMap (·.parts)).Perm (entries.flatMap (·.parts)) := by
  rw [joined_parts, ← flatMap_partsOf]
  unfold partsAt
  rw [← List.flatMap_assoc]
  exact (flatMap_homes_perm entries).flatMap_right _

theorem joined_spec {joined : Entry Part}
    (h : (joinContinuationEntries entries)[index]? = some joined) : ∃ place entry,
      (heads entries)[index]? = some place ∧ entries[place]? = some entry ∧
        joined = { entry with parts := partsAt entries place } := by
  have heq := congrArg (·[index]?) (joined_eq entries)
  simp only [List.getElem?_map, h, Option.map_some] at heq
  obtain ⟨place, hplace, hmessage⟩ := Option.map_eq_some_iff.mp heq.symm
  obtain ⟨entry, hentry, hjoined⟩ := Option.map_eq_some_iff.mp hmessage
  exact ⟨place, entry, hplace, hentry, hjoined.symm⟩

theorem heads_lt {first second place place' : Nat} (h : first < second)
    (hfirst : (heads entries)[first]? = some place)
    (hsecond : (heads entries)[second]? = some place') : place < place' := by
  have hsorted : (heads entries).Pairwise (· < ·) := List.pairwise_lt_range.filter _
  obtain ⟨hlt, rfl⟩ := List.getElem?_eq_some_iff.mp hfirst
  obtain ⟨hlt', rfl⟩ := List.getElem?_eq_some_iff.mp hsecond
  exact List.pairwise_iff_getElem.mp hsorted first second hlt hlt' h

/-- Nothing is left to join. -/
theorem home_joined (h : index < (joinContinuationEntries entries).length) :
    home (joinContinuationEntries entries) index = index := by
  obtain ⟨place, entry, hplace, hentry, hjoined⟩ := joined_spec (List.getElem?_eq_getElem h)
  unfold home
  rw [List.getElem?_eq_getElem h, Option.bind_some, hjoined]
  dsimp only
  cases hcontinues : entry.continuationOf with
  | none => rfl
  | some rootId =>
      have hnone : rootBefore entries place rootId = none := by
        cases hbefore : rootBefore entries place rootId with
        | none => rfl
        | some root =>
            have hhome := (mem_heads.mp (List.mem_of_getElem? hplace)).2
            unfold home at hhome
            rw [hentry, Option.bind_some, hcontinues, Option.bind_some, hbefore] at hhome
            have hroot : root = place := hhome
            have hlt := (rootBefore_spec hbefore).1
            omega
      rw [Option.bind_some, rootBefore_eq_none_iff.mpr]
      · rfl
      · intro earlier hearlier
        rw [Bool.eq_false_iff]
        intro hroot
        obtain ⟨root, hfound, hisRoot, hid⟩ := isRootAt_iff.mp hroot
        obtain ⟨place', entry', hplace', hentry', rfl⟩ := joined_spec hfound
        have hat : isRootAt entries rootId place' = true :=
          isRootAt_iff.mpr ⟨entry', hentry', hisRoot, hid⟩
        have hfalse := rootBefore_eq_none_iff.mp hnone place' (heads_lt hearlier hplace' hplace)
        rw [hat] at hfalse
        cases hfalse

/-- **Lossless.** The joined entries are the entries at home, in document order, each with the parts
of all entries that belong to it in document order; no part is lost or comes twice, and to join
again changes nothing. -/
theorem join_lossless (entries : List (Entry Part)) :
    (joinContinuationEntries entries).map some = (heads entries).map (message entries) ∧
    ((joinContinuationEntries entries).flatMap (·.parts)).Perm (entries.flatMap (·.parts)) ∧
    (∀ index entry, entries[index]? = some entry →
      (∀ rootId, entry.continuationOf = some rootId →
        ∀ place < index, isRootAt entries rootId place = false) →
      index ∈ heads entries) ∧
    joinContinuationEntries (joinContinuationEntries entries) =
      joinContinuationEntries entries := by
  refine ⟨joined_eq entries, joined_parts_perm entries, ?_,
    join_of_home fun index hindex => home_joined hindex⟩
  intro index entry hentry horphan
  refine mem_heads.mpr ⟨(List.getElem?_eq_some_iff.mp hentry).1, ?_⟩
  unfold home
  rw [hentry, Option.bind_some]
  cases hcontinues : entry.continuationOf with
  | none => rfl
  | some rootId =>
      rw [Option.bind_some, rootBefore_eq_none_iff.mpr (horphan rootId hcontinues)]
      rfl

end Lossless

end Zeron.Doc
