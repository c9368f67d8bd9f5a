import Zeron.Doc.Segment
import Zeron.Lib.Keyed

/-!
# Transcript deltas

`diff_transcript` and `apply_transcript_frame` of `crates/doc/src/transcript_delta.rs`. An entry that is
put anew comes behind its predecessor, and what is not put anew is where it has to be, because the
entries that stay keep their order.
-/

namespace Zeron.Doc

open Zeron.Lib

deriving instance DecidableEq for Entry

abbrev Transcript (Value : Type) : Type := List (Entry (MessagePart Value))

structure TranscriptUpsert (Value : Type) where
  after : Option String
  entry : Entry (MessagePart Value)

structure TextAppend where
  entry : String
  part : String
  text : String
  /-- The bytes of the text after the append. -/
  len : Nat

inductive TranscriptFrame (Value : Type) where
  | reset (reset : Transcript Value)
  | delta (upsert : List (TranscriptUpsert Value)) (append : List TextAppend)
      (remove : List String) (count : Nat)

structure TranscriptDesync where
  message : String
deriving DecidableEq

variable {Value : Type}

section Diff

/-- A text that two texts or two commentaries may have in common, of each with its id. -/
def textPair : MessagePart Value → MessagePart Value → Option ((String × String) × String × String)
  | .text pid pt, .text nid nt | .commentary pid pt, .commentary nid nt =>
      some ((pid, pt), nid, nt)
  | _, _ => none

variable [DecidableEq Value]

/-- The loop over the pairs of parts, with the append found so far. -/
def findAppend (entryId : String) : List (MessagePart Value × MessagePart Value) →
    Option TextAppend → Option TextAppend
  | [], found => found
  | (p, n) :: rest, found =>
      if p = n then findAppend entryId rest found
      else
        match textPair p n with
        | none => none
        | some ((pid, pt), nid, nt) =>
            if pid ≠ nid ∨ pt.toList.isPrefixOf nt.toList = false ∨ found.isSome then none
            else
              findAppend entryId rest (some {
                entry := entryId, part := nid
                text := String.ofList (nt.toList.drop pt.toList.length), len := nt.utf8ByteSize })

def sameHeader (prev next : Entry (MessagePart Value)) : Bool :=
  prev.id = next.id ∧ prev.role = next.role ∧ prev.createdAt = next.createdAt ∧
    prev.deviceId = next.deviceId ∧ prev.status = next.status ∧
      prev.continuationOf = next.continuationOf

def tryTextAppend (prev next : Entry (MessagePart Value)) : Option TextAppend :=
  if sameHeader prev next = false ∨ prev.parts.length ≠ next.parts.length then none
  else findAppend next.id (prev.parts.zip next.parts) none

/-- A later entry with the id replaces an earlier one. -/
def prevById (prev : Transcript Value) (id : String) : Option (Nat × Entry (MessagePart Value)) :=
  (prev.zipIdx.filter fun (entry, _) => entry.id = id).getLast?.map fun (entry, index) =>
    (index, entry)

def prevAfter (prev : Transcript Value) (index : Nat) : Option String :=
  if index = 0 then none else (prev[index - 1]?).map (·.id)

/-- The loop over the next entries, behind the id before them. -/
def diffEntries (prev : Transcript Value) : Option String → Transcript Value →
    List (TranscriptUpsert Value) × List TextAppend
  | _, [] => ([], [])
  | after, entry :: rest =>
      let (upsert, append) := diffEntries prev (some entry.id) rest
      match prevById prev entry.id with
      | some (prevIndex, prevEntry) =>
          if prevEntry = entry ∧ prevAfter prev prevIndex = after then (upsert, append)
          else if prevAfter prev prevIndex = after then
            match tryTextAppend prevEntry entry with
            | some textAppend => (upsert, textAppend :: append)
            | none => ({ after, entry } :: upsert, append)
          else ({ after, entry } :: upsert, append)
      | none => ({ after, entry } :: upsert, append)

def diffTranscript (prev next : Transcript Value) : TranscriptFrame Value :=
  let remove := (prev.filter fun entry => entry.id ∉ next.map (·.id)).map (·.id)
  let (upsert, append) := diffEntries prev none next
  -- A delta of most rows is no gain over a reset.
  if max 1 next.length ≤ upsert.length * 2 ∧ 4 < next.length then .reset next
  else .delta upsert append remove next.length

end Diff

section Apply

def putUpsert (current : Transcript Value) (upsert : TranscriptUpsert Value) :
    Except TranscriptDesync (Transcript Value) :=
  match Keyed.insertAfter Entry.id (Keyed.remove Entry.id current upsert.entry.id) upsert.after
      upsert.entry with
  | some current => .ok current
  | none => .error ⟨"missing anchor " ++ upsert.after.getD ""⟩

/-- The first text with the id is appended to; the text comes back with the parts. -/
def appendToPart (id text : String) :
    List (MessagePart Value) → Option (List (MessagePart Value) × String)
  | [] => none
  | .text pid tail :: rest =>
      if pid = id then some (.text pid (tail ++ text) :: rest, tail ++ text)
      else (appendToPart id text rest).map fun (rest, tail') => (.text pid tail :: rest, tail')
  | .commentary pid tail :: rest =>
      if pid = id then some (.commentary pid (tail ++ text) :: rest, tail ++ text)
      else
        (appendToPart id text rest).map fun (rest, tail') => (.commentary pid tail :: rest, tail')
  | part :: rest => (appendToPart id text rest).map fun (rest, tail') => (part :: rest, tail')

def growEntry (append : TextAppend) (target : Entry (MessagePart Value)) :
    Except TranscriptDesync (Entry (MessagePart Value)) :=
  match appendToPart append.part append.text target.parts with
  | none => .error ⟨"missing append part " ++ append.part⟩
  | some (parts, tail) =>
      if tail.utf8ByteSize = append.len then .ok { target with parts }
      else
        .error ⟨"append length mismatch on " ++ append.entry ++ "#" ++ append.part ++ ": have " ++
          toString tail.utf8ByteSize ++ ", expected " ++ toString append.len⟩

def putAppend (append : TextAppend) :
    Transcript Value → Except TranscriptDesync (Transcript Value)
  | [] => .error ⟨"missing append entry " ++ append.entry⟩
  | target :: rest =>
      if target.id = append.entry then (growEntry append target).map (· :: rest)
      else (putAppend append rest).map (target :: ·)

def applyTranscriptFrame (current : Transcript Value) :
    TranscriptFrame Value → Except TranscriptDesync (Transcript Value)
  | .reset reset => .ok reset
  | .delta upsert append remove count =>
      let current :=
        if remove.isEmpty then current else current.filter fun entry => entry.id ∉ remove
      (upsert.foldlM putUpsert current).bind fun current =>
        (append.foldlM (fun current append => putAppend append current) current).bind
          fun current =>
            if current.length = count then .ok current
            else
              .error ⟨"count mismatch: have " ++ toString current.length ++ ", expected " ++
                toString count⟩

end Apply

section Growth

def MessagePart.isTextOf (id : String) : MessagePart Value → Bool
  | .text pid _ | .commentary pid _ => pid = id
  | _ => false

/-- A text that has grown at its end. -/
inductive Appended : MessagePart Value → MessagePart Value → String → String → String → Prop where
  | text (id old delta : String) :
      Appended (.text id old) (.text id (old ++ delta)) id delta (old ++ delta)
  | commentary (id old delta : String) :
      Appended (.commentary id old) (.commentary id (old ++ delta)) id delta (old ++ delta)

variable {part part' : MessagePart Value} {front back : List (MessagePart Value)}
  {id delta tail : String}

theorem appended_of_isTextOf (h : part.isTextOf id = true) (delta : String) :
    ∃ part' tail, Appended part part' id delta tail := by
  cases part with
  | text pid old =>
      obtain rfl : pid = id := of_decide_eq_true h
      exact ⟨_, _, .text pid old delta⟩
  | commentary pid old =>
      obtain rfl : pid = id := of_decide_eq_true h
      exact ⟨_, _, .commentary pid old delta⟩
  | _ => cases h

theorem string_append_ne (old : String) (hdelta : delta ≠ "") : old ≠ old ++ delta := by
  intro heq
  have hlist := congrArg String.toList heq
  rw [String.toList_append, List.self_eq_append_right] at hlist
  exact hdelta (String.toList_inj.mp hlist)

theorem Appended.ne (h : Appended part part' id delta tail) (hdelta : delta ≠ "") :
    part ≠ part' := by
  cases h with
  | text id old delta => exact fun heq => string_append_ne old hdelta (MessagePart.text.inj heq).2
  | commentary id old delta =>
      exact fun heq => string_append_ne old hdelta (MessagePart.commentary.inj heq).2

theorem appendToPart_eq (hfront : ∀ other ∈ front, other.isTextOf id = false)
    (h : Appended part part' id delta tail) :
    appendToPart id delta (front ++ part :: back) = some (front ++ part' :: back, tail) := by
  induction front with
  | nil => cases h <;> exact if_pos rfl
  | cons other front ih =>
      have hother := hfront other List.mem_cons_self
      have ih := ih fun part hpart => hfront part (List.mem_cons_of_mem _ hpart)
      rw [List.cons_append]
      cases other with
      | text _ _ | commentary _ _ =>
          rw [appendToPart, if_neg (of_decide_eq_false hother), ih]
          rfl
      | notice _ _ _ | tool _ | input _ _ _ _ | error _ _ => exact congrArg (Option.map _) ih

/-- An append gives the grown entry exactly when no text before the one that grew has its id. -/
theorem growEntry_eq_iff {prev next : Entry (MessagePart Value)}
    (hprev : prev.parts = front ++ part :: back)
    (hnext : next = { prev with parts := front ++ part' :: back })
    (h : Appended part part' id delta tail) (hdelta : delta ≠ "") (entryId : String) :
    growEntry ⟨entryId, id, delta, tail.utf8ByteSize⟩ prev = .ok next ↔
      ∀ other ∈ front, other.isTextOf id = false := by
  constructor
  · intro hgrow
    by_contra hsome
    push Not at hsome
    obtain ⟨other, hother, hid⟩ := hsome
    have hfound : (front.find? fun other => other.isTextOf id).isSome :=
      List.find?_isSome.mpr ⟨other, hother, by simpa using hid⟩
    obtain ⟨first, hfirst⟩ := Option.isSome_iff_exists.mp hfound
    obtain ⟨hid', before, behind, rfl, hbefore⟩ := List.find?_eq_some_iff_append.mp hfirst
    obtain ⟨first', tail', happended⟩ := appended_of_isTextOf hid' delta
    have hparts : appendToPart id delta (before ++ first :: (behind ++ part :: back)) =
        some (before ++ first' :: (behind ++ part :: back), tail') :=
      appendToPart_eq (fun other hother => by simpa using hbefore other hother) happended
    unfold growEntry at hgrow
    dsimp only at hgrow
    rw [hprev, List.append_assoc, List.cons_append, hparts] at hgrow
    dsimp only at hgrow
    split at hgrow
    · have heq := Except.ok.inj hgrow
      rw [hnext] at heq
      have heq := congrArg Entry.parts heq
      dsimp only at heq
      rw [List.append_assoc, List.cons_append] at heq
      have hhead := (List.cons.inj (List.append_cancel_left heq)).1
      exact happended.ne hdelta hhead.symm
    · cases hgrow
  · intro hfront
    unfold growEntry
    dsimp only
    rw [hprev, appendToPart_eq hfront h]
    dsimp only
    rw [if_pos rfl, hnext]

end Growth

section Search

variable {entryId : String}
  {pairs : List (MessagePart Value × MessagePart Value)} {found append : TextAppend}

theorem textPair_spec {p n : MessagePart Value} {pid pt nid nt : String}
    (h : textPair p n = some ((pid, pt), nid, nt)) :
    (p = .text pid pt ∧ n = .text nid nt) ∨ (p = .commentary pid pt ∧ n = .commentary nid nt) := by
  unfold textPair at h
  split at h
  · cases h
    exact .inl ⟨rfl, rfl⟩
  · cases h
    exact .inr ⟨rfl, rfl⟩
  · cases h

theorem zip_eq {left right : List (MessagePart Value)} (hlength : left.length = right.length)
    (h : ∀ pair ∈ left.zip right, pair.1 = pair.2) : left = right := by
  induction left generalizing right with
  | nil => exact (List.eq_nil_of_length_eq_zero hlength.symm).symm
  | cons first left ih =>
      cases right with
      | nil => cases hlength
      | cons other right =>
          obtain rfl : first = other := h (first, other) List.mem_cons_self
          rw [ih (Nat.succ.inj hlength) fun pair hpair => h pair (List.mem_cons_of_mem _ hpair)]

variable [DecidableEq Value]

theorem findAppend_found (h : findAppend entryId pairs (some found) = some append) :
    append = found ∧ ∀ pair ∈ pairs, pair.1 = pair.2 := by
  induction pairs with
  | nil =>
      cases h
      exact ⟨rfl, fun pair hpair => (by cases hpair)⟩
  | cons pair rest ih =>
      obtain ⟨p, n⟩ := pair
      rw [findAppend] at h
      split at h
      · rename_i hsame
        obtain ⟨happend, hrest⟩ := ih h
        refine ⟨happend, fun pair hpair => ?_⟩
        obtain rfl | hpair := List.mem_cons.mp hpair
        · exact hsame
        · exact hrest pair hpair
      · split at h
        · cases h
        · rw [if_pos (.inr (.inr rfl))] at h
          cases h

/-- One text has grown, and all other parts are equal. -/
theorem findAppend_spec {left right : List (MessagePart Value)}
    (hlength : left.length = right.length)
    (h : findAppend entryId (left.zip right) none = some append) :
    ∃ front part part' back delta tail, left = front ++ part :: back ∧
      right = front ++ part' :: back ∧ delta ≠ "" ∧
        append = ⟨entryId, append.part, delta, tail.utf8ByteSize⟩ ∧
          Appended part part' append.part delta tail := by
  induction left generalizing right with
  | nil =>
      rw [List.zip_nil_left, findAppend] at h
      cases h
  | cons p left ih =>
      cases right with
      | nil => cases hlength
      | cons n right =>
          have hlength := Nat.succ.inj hlength
          rw [List.zip_cons_cons, findAppend] at h
          split at h
          · rename_i hsame
            obtain ⟨front, part, part', back, delta, tail, rfl, rfl, hrest⟩ := ih hlength h
            exact ⟨p :: front, part, part', back, delta, tail, rfl, by rw [hsame]; rfl, hrest⟩
          · rename_i hne
            split at h
            · cases h
            · rename_i pid pt nid nt hpair
              split at h
              · cases h
              · rename_i hgrown
                push Not at hgrown
                obtain ⟨rfl, hstarts, -⟩ := hgrown
                obtain ⟨happend, hequal⟩ := findAppend_found h
                have htext : nt = pt ++ String.ofList (nt.toList.drop pt.toList.length) :=
                  (append_growth (by simpa using hstarts)).symm
                have hback := zip_eq hlength hequal
                refine ⟨[], p, n, left, _, nt, rfl, by rw [hback]; rfl, ?_, by rw [happend], ?_⟩
                · intro hempty
                  rw [hempty, String.append_empty] at htext
                  obtain ⟨rfl, rfl⟩ | ⟨rfl, rfl⟩ := textPair_spec hpair
                  · exact hne (by rw [htext])
                  · exact hne (by rw [htext])
                · rw [happend]
                  dsimp only
                  obtain ⟨rfl, rfl⟩ | ⟨rfl, rfl⟩ := textPair_spec hpair
                  · have happended := @Appended.text Value pid pt
                      (String.ofList (nt.toList.drop pt.toList.length))
                    rwa [← htext] at happended
                  · have happended := @Appended.commentary Value pid pt
                      (String.ofList (nt.toList.drop pt.toList.length))
                    rwa [← htext] at happended

end Search

section First

def GrewFirst (prev next : Entry (MessagePart Value)) : Prop :=
  ∀ front part back part' back', prev.parts = front ++ part :: back →
    next.parts = front ++ part' :: back' → part ≠ part' →
      ∀ other ∈ front, other.isTextOf part.id = false

theorem front_unique {α : Type} {front back : List α} {a a' : α} (hne : a ≠ a')
    {front' tail tail' : List α} {b b' : α} (hne' : b ≠ b')
    (h : front ++ a :: back = front' ++ b :: tail)
    (h' : front ++ a' :: back = front' ++ b' :: tail') : front' = front ∧ b = a := by
  obtain ⟨rest, rfl, hrest⟩ | ⟨rest, rfl, hrest⟩ := List.append_eq_append_iff.mp h
  · cases rest with
    | nil => exact ⟨List.append_nil _, (List.cons.inj hrest).1.symm⟩
    | cons first rest =>
        obtain ⟨rfl, -⟩ := List.cons.inj hrest
        rw [List.append_assoc, List.cons_append] at h'
        exact absurd (List.cons.inj (List.append_cancel_left h')).1.symm hne
  · cases rest with
    | nil => exact ⟨(List.append_nil _).symm, (List.cons.inj hrest).1⟩
    | cons first rest =>
        obtain ⟨rfl, -⟩ := List.cons.inj hrest
        rw [List.append_assoc, List.cons_append] at h'
        exact absurd (List.cons.inj (List.append_cancel_left h')).1 hne'

theorem Appended.id_eq {part part' : MessagePart Value} {id delta tail : String}
    (h : Appended part part' id delta tail) : part.id = id := by
  cases h <;> rfl

variable [DecidableEq Value]

theorem growEntry_iff {prev next : Entry (MessagePart Value)} {append : TextAppend}
    (h : tryTextAppend prev next = some append) :
    append.entry = next.id ∧ prev.id = next.id ∧
      (growEntry append prev = .ok next ↔ GrewFirst prev next) := by
  unfold tryTextAppend at h
  split at h
  · cases h
  · rename_i hsame
    push Not at hsame
    obtain ⟨hheader, hlength⟩ := hsame
    have hheader : sameHeader prev next = true := by simpa using hheader
    obtain ⟨hid, hrole, hcreatedAt, hdeviceId, hstatus, hcontinuationOf⟩ :=
      of_decide_eq_true hheader
    obtain ⟨front, part, part', back, delta, tail, hprev, hparts, hdelta, happend, happended⟩ :=
      findAppend_spec hlength h
    have hnext : next = { prev with parts := front ++ part' :: back } := by
      rw [← hparts, hid, hrole, hcreatedAt, hdeviceId, hstatus, hcontinuationOf]
    have hne := happended.ne hdelta
    refine ⟨by rw [happend], hid, ?_⟩
    rw [happend, growEntry_eq_iff hprev hnext happended hdelta]
    constructor
    · intro hfront front' other back' other' back'' hprev' hnext' hne'
      rw [hprev] at hprev'
      rw [hparts] at hnext'
      obtain ⟨rfl, rfl⟩ := front_unique hne hne' hprev' hnext'
      rw [happended.id_eq]
      exact hfront
    · intro hfirst
      have hfront := hfirst front part back part' back hprev hparts hne
      rwa [happended.id_eq] at hfront

end First

section Places

def placedFrom (after : Option String) : Transcript Value →
    List (Option String × Entry (MessagePart Value))
  | [] => []
  | entry :: rest => (after, entry) :: placedFrom (some entry.id) rest

variable {prev : Transcript Value} {after : Option String} {entry p q : Entry (MessagePart Value)}

theorem mem_placedFrom {entries : Transcript Value} {before : Option String} :
    (after, p) ∈ placedFrom before entries ↔
    ∃ index, entries[index]? = some p ∧
      (if index = 0 then before else (entries[index - 1]?).map (·.id)) = after := by
  induction entries generalizing before with
  | nil => simp [placedFrom]
  | cons first rest ih =>
      rw [placedFrom, List.mem_cons, ih]
      constructor
      · rintro (heq | ⟨index, hp, hbefore⟩)
        · cases heq
          exact ⟨0, rfl, rfl⟩
        · refine ⟨index + 1, hp, ?_⟩
          rw [if_neg (Nat.succ_ne_zero _), Nat.add_sub_cancel]
          cases index with
          | zero | succ _ => exact hbefore
      · rintro ⟨index, hp, hbefore⟩
        cases index with
        | zero =>
            cases hp
            exact .inl (by rw [← hbefore]; rfl)
        | succ index =>
            refine .inr ⟨index, hp, ?_⟩
            rw [if_neg (Nat.succ_ne_zero _), Nat.add_sub_cancel] at hbefore
            cases index with
            | zero | succ index => exact hbefore

theorem placed_iff : (after, p) ∈ placedFrom none prev ↔
    ∃ index, prev[index]? = some p ∧ prevAfter prev index = after :=
  mem_placedFrom

theorem mem_of_placed (h : (after, p) ∈ placedFrom none prev) : p ∈ prev := by
  obtain ⟨index, hp, -⟩ := placed_iff.mp h
  exact List.mem_of_getElem? hp

theorem eq_of_id (hprev : (prev.map (·.id)).Nodup) (hp : p ∈ prev) (hq : q ∈ prev)
    (hid : p.id = q.id) : p = q :=
  List.inj_on_of_nodup_map hprev hp hq hid

theorem index_of_id (hprev : (prev.map (·.id)).Nodup) {index index' : Nat}
    (hp : prev[index]? = some p) (hq : prev[index']? = some q) (hid : p.id = q.id) :
    index = index' := by
  obtain ⟨hlt, rfl⟩ := List.getElem?_eq_some_iff.mp hp
  obtain ⟨hlt', rfl⟩ := List.getElem?_eq_some_iff.mp hq
  have hbound : index < (prev.map (·.id)).length := by simpa using hlt
  have hbound' : index' < (prev.map (·.id)).length := by simpa using hlt'
  have hsame : (prev.map (·.id))[index] = (prev.map (·.id))[index'] := by simpa using hid
  exact hprev.getElem_inj_iff.mp hsame

theorem prevById_iff (hprev : (prev.map (·.id)).Nodup) {id : String} {index : Nat} :
    prevById prev id = some (index, p) ↔ prev[index]? = some p ∧ p.id = id := by
  have hmem : ∀ {q index'}, (q, index') ∈ prev.zipIdx.filter (fun (entry, _) => entry.id = id) ↔
      prev[index']? = some q ∧ q.id = id := by
    intro q index'
    rw [List.mem_filter, List.mk_mem_zipIdx_iff_getElem?, decide_eq_true_iff]
  unfold prevById
  constructor
  · intro h
    obtain ⟨⟨q, index'⟩, hlast, heq⟩ := Option.map_eq_some_iff.mp h
    cases heq
    exact hmem.mp (List.mem_of_getLast? hlast)
  · intro h
    have hfound := hmem.mpr h
    cases hlast : (prev.zipIdx.filter fun (entry, _) => entry.id = id).getLast? with
    | none =>
        rw [List.getLast?_eq_none_iff.mp hlast] at hfound
        cases hfound
    | some last =>
        obtain ⟨q, index'⟩ := last
        obtain ⟨hq, hid⟩ := hmem.mp (List.mem_of_getLast? hlast)
        obtain rfl := index_of_id hprev h.1 hq (h.2.trans hid.symm)
        rw [h.1] at hq
        cases hq
        rfl

end Places

section Loop

variable [DecidableEq Value] {prev : Transcript Value} {after : Option String}
  {entry p : Entry (MessagePart Value)} {rest : Transcript Value}

theorem tryTextAppend_self (entry : Entry (MessagePart Value)) :
    tryTextAppend entry entry = none := by
  cases h : tryTextAppend entry entry with
  | none => rfl
  | some append =>
      unfold tryTextAppend at h
      split at h
      · cases h
      · obtain ⟨front, part, part', back, delta, tail, hparts, hparts', hdelta, -, happended⟩ :=
          findAppend_spec rfl h
        rw [hparts] at hparts'
        exact absurd (List.cons.inj (List.append_cancel_left hparts')).1 (happended.ne hdelta)

theorem tryTextAppend_id {append : TextAppend} (h : tryTextAppend p entry = some append) :
    p.id = entry.id :=
  (growEntry_iff h).2.1

/-- The next entry is not where it has to be after the removals and appends. -/
def putAnew (prev : Transcript Value) (placed : Option String × Entry (MessagePart Value)) : Bool :=
  !(placedFrom none prev).any fun (before, p) =>
    before = placed.1 ∧ p.id = placed.2.id ∧ (p = placed.2 ∨ (tryTextAppend p placed.2).isSome)

/-- What the loop makes of an entry: nothing, an append or an upsert. -/
theorem diffEntries_cons (hprev : (prev.map (·.id)).Nodup) (after : Option String)
    (entry : Entry (MessagePart Value)) (rest : Transcript Value) :
    let (upsert, append) := diffEntries prev (some entry.id) rest
    ((after, entry) ∈ placedFrom none prev ∧
      diffEntries prev after (entry :: rest) = (upsert, append)) ∨
    (∃ p textAppend, (after, p) ∈ placedFrom none prev ∧ tryTextAppend p entry = some textAppend ∧
      diffEntries prev after (entry :: rest) = (upsert, textAppend :: append)) ∨
    putAnew prev (after, entry) = true ∧
      diffEntries prev after (entry :: rest) = ({ after, entry } :: upsert, append) := by
  have hanew : (∀ p, (after, p) ∈ placedFrom none prev → p.id = entry.id →
      p ≠ entry ∧ tryTextAppend p entry = none) → putAnew prev (after, entry) = true := by
    intro h
    unfold putAnew
    rw [Bool.not_eq_true', List.any_eq_false]
    rintro ⟨before, p⟩ hp hfound
    obtain ⟨rfl, hid, hgrows⟩ := of_decide_eq_true hfound
    obtain ⟨hne, hnone⟩ := h p hp hid
    obtain heq | hsome := hgrows
    · exact hne heq
    · rw [hnone] at hsome
      cases hsome
  dsimp only
  rw [diffEntries]
  cases hfound : prevById prev entry.id with
  | none =>
      refine .inr (.inr ⟨hanew fun p hp hid => ?_, rfl⟩)
      obtain ⟨index, hindex, -⟩ := placed_iff.mp hp
      rw [(prevById_iff hprev).mpr ⟨hindex, hid⟩] at hfound
      cases hfound
  | some found =>
      obtain ⟨index, p⟩ := found
      obtain ⟨hp, hid⟩ := (prevById_iff hprev).mp hfound
      -- What is placed behind the same id with the id of the entry is what was looked up.
      have honly : ∀ q, (after, q) ∈ placedFrom none prev → q.id = entry.id →
          q = p ∧ prevAfter prev index = after := by
        intro q hq hqid
        obtain ⟨index', hq, hafter⟩ := placed_iff.mp hq
        obtain rfl := index_of_id hprev hp hq (hid.trans hqid.symm)
        rw [hp] at hq
        exact ⟨(Option.some.inj hq).symm, hafter⟩
      dsimp only
      split
      · rename_i hsame
        obtain ⟨rfl, hafter⟩ := hsame
        exact .inl ⟨placed_iff.mpr ⟨index, hp, hafter⟩, rfl⟩
      · rename_i hdiffers
        split
        · rename_i hafter
          cases hgrows : tryTextAppend p entry with
          | some textAppend =>
              exact .inr (.inl ⟨p, textAppend, placed_iff.mpr ⟨index, hp, hafter⟩, hgrows, rfl⟩)
          | none =>
              refine .inr (.inr ⟨hanew fun q hq hqid => ?_, rfl⟩)
              obtain ⟨rfl, -⟩ := honly q hq hqid
              exact ⟨fun heq => hdiffers ⟨heq, hafter⟩, hgrows⟩
        · rename_i hmoved
          refine .inr (.inr ⟨hanew fun q hq hqid => ?_, rfl⟩)
          exact absurd (honly q hq hqid).2 hmoved

/-- Between the upserts and the appends: each entry is the next one, or the one that is to grow. -/
inductive Settles (prev : Transcript Value) :
    Option String → Transcript Value → Transcript Value → List TextAppend → Prop where
  | nil (after : Option String) : Settles prev after [] [] []
  | keep {after : Option String} {entry : Entry (MessagePart Value)} {rest settled append}
      (hkeep : ∀ p, (after, p) ∈ placedFrom none prev → tryTextAppend p entry = none)
      (h : Settles prev (some entry.id) rest settled append) :
      Settles prev after (entry :: rest) (entry :: settled) append
  | grow {after : Option String} {entry p : Entry (MessagePart Value)} {textAppend : TextAppend}
      {rest settled append} (hp : (after, p) ∈ placedFrom none prev)
      (hgrows : tryTextAppend p entry = some textAppend)
      (h : Settles prev (some entry.id) rest settled append) :
      Settles prev after (entry :: rest) (p :: settled) (textAppend :: append)

theorem putAnew_none (h : putAnew prev (after, entry) = true) {p : Entry (MessagePart Value)}
    (hp : (after, p) ∈ placedFrom none prev) : p ≠ entry ∧ tryTextAppend p entry = none := by
  unfold putAnew at h
  rw [Bool.not_eq_true', List.any_eq_false] at h
  have hfound := h (after, p) hp
  constructor
  · rintro rfl
    exact hfound (decide_eq_true ⟨rfl, rfl, .inl rfl⟩)
  · cases hgrows : tryTextAppend p entry with
    | none => rfl
    | some append =>
        refine absurd (decide_eq_true ⟨rfl, tryTextAppend_id hgrows, .inr ?_⟩) hfound
        exact Option.isSome_of_eq_some hgrows

theorem length_upserts (hprev : (prev.map (·.id)).Nodup) (after : Option String)
    (next : Transcript Value) :
    (diffEntries prev after next).1.length = (placedFrom after next).countP (putAnew prev) := by
  induction next generalizing after with
  | nil => rfl
  | cons entry rest ih =>
      rw [placedFrom, List.countP_cons, ← ih]
      obtain ⟨hsame, heq⟩ | ⟨p, textAppend, hp, hgrows, heq⟩ | ⟨hanew, heq⟩ :=
        diffEntries_cons hprev after entry rest
      · rw [heq, if_neg fun hanew => (putAnew_none hanew hsame).1 rfl]
        rfl
      · rw [heq, if_neg fun hanew => ?_]
        · rfl
        · have hnone := (putAnew_none hanew hp).2
          rw [hgrows] at hnone
          cases hnone
      · rw [heq, if_pos hanew]
        rfl

end Loop

section Upserts

variable {prev done old rest : Transcript Value} {after : Option String}
  {entry : Entry (MessagePart Value)}

theorem putUpsert_eq (hdone : (done.map (·.id)).Nodup) (hafter : after = (done.map (·.id)).getLast?)
    {current : Transcript Value}
    (hremove : Keyed.remove Entry.id current entry.id = done ++ old) :
    putUpsert current { after, entry } = .ok (done ++ entry :: old) := by
  unfold putUpsert
  dsimp only
  rw [hremove, hafter, Keyed.insertAfter_last hdone]

variable [DecidableEq Value]

/-- The upserts put each entry in its place, before the old ones that are still to come. -/
theorem foldlM_putUpsert (hprev : (prev.map (·.id)).Nodup)
    (hnodup : ((done ++ rest).map (·.id)).Nodup) (hafter : after = (done.map (·.id)).getLast?)
    (hold : ∀ entry ∈ old, entry ∈ prev)
    (horder : old.map (·.id) = (rest.map (·.id)).filter (· ∈ prev.map (·.id))) :
    ∃ settled, (diffEntries prev after rest).1.foldlM putUpsert (done ++ old) =
      .ok (done ++ settled) ∧ Settles prev after rest settled (diffEntries prev after rest).2 := by
  induction rest generalizing done old after with
  | nil =>
      obtain rfl : old = [] := List.map_eq_nil_iff.mp horder
      exact ⟨[], rfl, .nil after⟩
  | cons entry rest ih =>
      have hdone : (done.map (·.id)).Nodup := by
        rw [List.map_append] at hnodup
        exact (List.nodup_append.mp hnodup).1
      have hnew : ∀ other ∈ done, other.id ≠ entry.id := by
        intro other hother
        rw [List.map_append] at hnodup
        exact (List.nodup_append.mp hnodup).2.2 _ (List.mem_map_of_mem hother) _
          (List.mem_map_of_mem List.mem_cons_self)
      -- The loop goes on with one more entry in its place.
      have hnext : ∀ (put : Entry (MessagePart Value)) {old : Transcript Value},
          put.id = entry.id → (∀ entry ∈ old, entry ∈ prev) →
          old.map (·.id) = (rest.map (·.id)).filter (· ∈ prev.map (·.id)) → ∃ settled,
            (diffEntries prev (some entry.id) rest).1.foldlM putUpsert (done ++ put :: old) =
              .ok (done ++ put :: settled) ∧
            Settles prev (some entry.id) rest settled
              (diffEntries prev (some entry.id) rest).2 := by
        intro put old hid hold horder
        obtain ⟨settled, hfold, hsettles⟩ : ∃ settled,
            (diffEntries prev (some entry.id) rest).1.foldlM putUpsert ((done ++ [put]) ++ old) =
              .ok ((done ++ [put]) ++ settled) ∧
            Settles prev (some entry.id) rest settled
              (diffEntries prev (some entry.id) rest).2 :=
          ih (by simpa [hid] using hnodup) (by simp [hid]) hold horder
        exact ⟨settled, by simpa using hfold, hsettles⟩
      rw [List.map_cons, List.filter_cons] at horder
      -- An entry that was there is the first of the old ones.
      have hfirst : ∀ p, (after, p) ∈ placedFrom none prev → p.id = entry.id →
          ∃ old', old = p :: old' ∧ (∀ entry ∈ old', entry ∈ prev) ∧
            old'.map (·.id) = (rest.map (·.id)).filter (· ∈ prev.map (·.id)) := by
        intro p hp hid
        have hmem := mem_of_placed hp
        rw [if_pos (decide_eq_true (hid ▸ List.mem_map_of_mem hmem))] at horder
        obtain ⟨q, old', rfl, hqid, horder⟩ := List.map_eq_cons_iff.mp horder
        obtain rfl := eq_of_id hprev (hold q List.mem_cons_self) hmem (hqid.trans hid.symm)
        exact ⟨old', rfl, fun entry hentry => hold entry (List.mem_cons_of_mem _ hentry), horder⟩
      obtain ⟨hsame, heq⟩ | ⟨p, textAppend, hp, hgrows, heq⟩ | ⟨hanew, heq⟩ :=
        diffEntries_cons hprev after entry rest
      · obtain ⟨old', rfl, hold', horder'⟩ := hfirst entry hsame rfl
        obtain ⟨settled, hfold, hsettles⟩ := hnext entry rfl hold' horder'
        rw [heq]
        refine ⟨entry :: settled, hfold, .keep (fun p hp => ?_) hsettles⟩
        cases hgrows : tryTextAppend p entry with
        | none => rfl
        | some append =>
            have hid := tryTextAppend_id hgrows
            obtain rfl := eq_of_id hprev (mem_of_placed hp) (mem_of_placed hsame) hid
            rw [tryTextAppend_self] at hgrows
            cases hgrows
      · obtain ⟨old', rfl, hold', horder'⟩ := hfirst p hp (tryTextAppend_id hgrows)
        obtain ⟨settled, hfold, hsettles⟩ := hnext p (tryTextAppend_id hgrows) hold' horder'
        rw [heq]
        exact ⟨p :: settled, hfold, .grow hp hgrows hsettles⟩
      · obtain ⟨old', hremove, hold', horder'⟩ : ∃ old',
            Keyed.remove Entry.id (done ++ old) entry.id = done ++ old' ∧
              (∀ entry ∈ old', entry ∈ prev) ∧
                old'.map (·.id) = (rest.map (·.id)).filter (· ∈ prev.map (·.id)) := by
          split at horder
          · obtain ⟨q, old', rfl, hqid, horder⟩ := List.map_eq_cons_iff.mp horder
            refine ⟨old', ?_, fun entry hentry => hold entry (List.mem_cons_of_mem _ hentry),
              horder⟩
            rw [← hqid]
            exact Keyed.remove_append_cons (hqid ▸ hnew)
          · rename_i habsent
            refine ⟨old, Keyed.remove_eq_self ?_, hold, horder⟩
            intro other hother
            obtain hother | hother := List.mem_append.mp hother
            · exact hnew other hother
            · intro hid
              exact habsent (decide_eq_true (hid ▸ List.mem_map_of_mem (hold other hother)))
        obtain ⟨settled, hfold, hsettles⟩ := hnext entry rfl hold' horder'
        rw [heq]
        refine ⟨entry :: settled, ?_, .keep (fun p hp => (putAnew_none hanew hp).2) hsettles⟩
        rw [List.foldlM_cons, putUpsert_eq hdone hafter hremove]
        exact hfold

end Upserts

section Appends

theorem foldlM_putAppend_cons {first : Entry (MessagePart Value)} {appends : List TextAppend}
    (h : ∀ append ∈ appends, first.id ≠ append.entry) (current : Transcript Value) :
    appends.foldlM (fun current append => putAppend append current) (first :: current) =
      (appends.foldlM (fun current append => putAppend append current) current).map
        (first :: ·) := by
  induction appends generalizing current with
  | nil => rfl
  | cons append appends ih =>
      have hframe : putAppend append (first :: current) =
          (putAppend append current).map (first :: ·) := by
        rw [putAppend, if_neg (h append List.mem_cons_self)]
      rw [List.foldlM_cons, List.foldlM_cons, hframe]
      cases hput : putAppend append current with
      | error error => rfl
      | ok next => exact ih (fun append happend => h append (List.mem_cons_of_mem _ happend)) next

end Appends

section RoundTrip

variable {prev next rest settled : Transcript Value} {after : Option String}
  {appends : List TextAppend}

theorem growEntry_id {append : TextAppend} {entry grown : Entry (MessagePart Value)}
    (h : growEntry append entry = .ok grown) : grown.id = entry.id := by
  unfold growEntry at h
  split at h
  · cases h
  · split at h
    · cases h
      rfl
    · cases h

theorem map_cons_eq_ok {α ε : Type} {first first' : α} {rest : List α}
    {result : Except ε (List α)} :
    result.map (first :: ·) = .ok (first' :: rest) ↔ first = first' ∧ result = .ok rest := by
  cases result with
  | error error => exact iff_of_false (fun h => by cases h) (fun h => by cases h.2)
  | ok found => simp [Except.map]

theorem retain_eq (prev : Transcript Value) (ids removed : List String)
    (h : removed = (prev.filter fun entry => entry.id ∉ ids).map (·.id)) :
    (if removed.isEmpty then prev else prev.filter fun entry => entry.id ∉ removed) =
      prev.filter fun entry => entry.id ∈ ids := by
  have hmem : ∀ entry ∈ prev, entry.id ∉ removed ↔ entry.id ∈ ids := by
    intro entry hentry
    rw [h, ← not_iff_not, not_not, List.mem_map]
    constructor
    · rintro ⟨other, hother, hid⟩
      rw [← hid]
      exact of_decide_eq_true (List.mem_filter.mp hother).2
    · intro habsent
      exact ⟨entry, List.mem_filter.mpr ⟨hentry, decide_eq_true habsent⟩, rfl⟩
  split
  · rename_i hempty
    rw [eq_comm, List.filter_eq_self]
    intro entry hentry
    apply decide_eq_true
    rw [← hmem entry hentry, List.isEmpty_iff.mp hempty]
    exact List.not_mem_nil
  · apply List.filter_congr
    intro entry hentry
    exact decide_eq_decide.mpr (hmem entry hentry)

variable [DecidableEq Value]

/-- Each entry that is sent as an append has no earlier text with the id of the one that grew. -/
def AppendsFirst (prev : Transcript Value)
    (placed : List (Option String × Entry (MessagePart Value))) : Prop :=
  ∀ before entry p, (before, entry) ∈ placed → (before, p) ∈ placedFrom none prev →
    (tryTextAppend p entry).isSome → GrewFirst p entry

def Resets (prev next : Transcript Value) : Prop :=
  4 < next.length ∧ next.length ≤ 2 * (placedFrom none next).countP (putAnew prev)

theorem Settles.entry_mem (h : Settles prev after rest settled appends) :
    ∀ append ∈ appends, append.entry ∈ rest.map (·.id) := by
  induction h with
  | nil after => exact fun append happend => by cases happend
  | keep hkeep _ ih => exact fun append happend => List.mem_cons_of_mem _ (ih append happend)
  | grow hp hgrows _ ih =>
      intro append happend
      obtain rfl | happend := List.mem_cons.mp happend
      · rw [(growEntry_iff hgrows).1]
        exact List.mem_cons_self
      · exact List.mem_cons_of_mem _ (ih append happend)

/-- The appends reproduce the next entries exactly when each finds the text that grew. -/
theorem Settles.appends_iff (hprev : (prev.map (·.id)).Nodup)
    (h : Settles prev after rest settled appends) (hnodup : (rest.map (·.id)).Nodup) :
    appends.foldlM (fun current append => putAppend append current) settled = .ok rest ↔
      AppendsFirst prev (placedFrom after rest) := by
  induction h with
  | nil after => exact iff_of_true rfl fun before entry p hentry => (by cases hentry)
  | @keep after entry rest settled appends hkeep h ih =>
      obtain ⟨hnew, hnodup⟩ := List.nodup_cons.mp hnodup
      have hnew : entry.id ∉ rest.map (·.id) := hnew
      rw [foldlM_putAppend_cons fun append happend heq => hnew (heq ▸ h.entry_mem append happend),
        map_cons_eq_ok, ih hnodup]
      constructor
      · rintro ⟨-, hrest⟩ before other p hother hp hgrows
        obtain heq | hother := List.mem_cons.mp hother
        · cases heq
          rw [hkeep p hp] at hgrows
          cases hgrows
        · exact hrest before other p hother hp hgrows
      · intro hall
        exact ⟨rfl, fun before other p hother =>
          hall before other p (List.mem_cons_of_mem _ hother)⟩
  | @grow after entry p append rest settled appends hp hgrows h ih =>
      obtain ⟨hnew, hnodup⟩ := List.nodup_cons.mp hnodup
      have hnew : entry.id ∉ rest.map (·.id) := hnew
      obtain ⟨hentry, hid, hgrow⟩ := growEntry_iff hgrows
      have hrest : AppendsFirst prev (placedFrom after (entry :: rest)) ↔
          GrewFirst p entry ∧ AppendsFirst prev (placedFrom (some entry.id) rest) := by
        constructor
        · intro hall
          exact ⟨hall after entry p List.mem_cons_self hp (Option.isSome_of_eq_some hgrows),
            fun before other q hother => hall before other q (List.mem_cons_of_mem _ hother)⟩
        · rintro ⟨hfirst, hrest⟩ before other q hother hq hgrows'
          obtain heq | hother := List.mem_cons.mp hother
          · cases heq
            obtain ⟨append', hgrows'⟩ := Option.isSome_iff_exists.mp hgrows'
            obtain rfl := eq_of_id hprev (mem_of_placed hq) (mem_of_placed hp)
              ((tryTextAppend_id hgrows').trans hid.symm)
            exact hfirst
          · exact hrest before other q hother hq hgrows'
      rw [hrest, ← hgrow, ← ih hnodup, List.foldlM_cons, putAppend, if_pos (hid.trans hentry.symm)]
      cases hgrown : growEntry append p with
      | error error => exact iff_of_false (fun h => by cases h) (fun h => by cases h.1)
      | ok grown =>
          change appends.foldlM (fun current append => putAppend append current)
            (grown :: settled) = _ ↔ _
          rw [foldlM_putAppend_cons fun append happend heq => hnew ?_, map_cons_eq_ok,
            Except.ok.injEq]
          rw [growEntry_id hgrown, hid] at heq
          exact heq ▸ h.entry_mem append happend

/-- **Round trip.** Between transcripts without repeated ids whose common entries keep their order, the
diff is applied to the next transcript exactly when it is a reset, or each append finds the text
that grew. -/
theorem apply_diff_iff {prev next : Transcript Value} (hprev : (prev.map (·.id)).Nodup)
    (hnext : (next.map (·.id)).Nodup)
    (horder : (prev.map (·.id)).filter (· ∈ next.map (·.id)) =
      (next.map (·.id)).filter (· ∈ prev.map (·.id))) :
    applyTranscriptFrame prev (diffTranscript prev next) = .ok next ↔
      Resets prev next ∨ AppendsFirst prev (placedFrom none next) := by
  unfold diffTranscript
  dsimp only
  have hresets : (max 1 next.length ≤ (diffEntries prev none next).1.length * 2 ∧
      4 < next.length) ↔ Resets prev next := by
    unfold Resets
    rw [length_upserts hprev]
    omega
  by_cases hreset : Resets prev next
  · rw [if_pos (hresets.mpr hreset)]
    exact iff_of_true rfl (.inl hreset)
  · rw [if_neg (mt hresets.mp hreset), or_iff_right hreset, applyTranscriptFrame]
    rw [retain_eq prev (next.map (·.id)) _ rfl]
    obtain ⟨settled, hfold, hsettles⟩ : ∃ settled,
        (diffEntries prev none next).1.foldlM putUpsert
          ([] ++ prev.filter fun entry => entry.id ∈ next.map (·.id)) = .ok ([] ++ settled) ∧
        Settles prev none next settled (diffEntries prev none next).2 := by
      refine foldlM_putUpsert hprev hnext rfl (fun entry hentry => (List.mem_filter.mp hentry).1) ?_
      rw [← horder, List.filter_map]
      rfl
    rw [List.nil_append, List.nil_append] at hfold
    rw [hfold, ← hsettles.appends_iff hprev hnext]
    dsimp only [Except.bind]
    cases (diffEntries prev none next).2.foldlM (fun current append => putAppend append current)
      settled with
    | error error => rfl
    | ok current =>
        dsimp only
        constructor
        · intro h
          split at h
          · exact h
          · cases h
        · intro h
          cases h
          exact if_pos rfl

def twoTexts (first second : String × String) : Entry (MessagePart Unit) :=
  { id := "m1", role := .assistant, parts := [.text first.1 first.2, .text second.1 second.2]
    createdAt := 0, deviceId := "d1", status := none, continuationOf := none }

theorem distinct_texts_append : AppendsFirst [twoTexts ("t0", "a") ("t1", "b")]
    (placedFrom none [twoTexts ("t0", "a") ("t1", "bc")]) :=
  ((apply_diff_iff (by decide) (by decide) (by decide)).mp (by decide +kernel)).resolve_left
    fun hresets => absurd hresets.1 (by decide)

/-- Of two texts with one id the second grows, and the first is appended to. -/
theorem repeated_id_diverges : ¬∀ prev next : Transcript Unit, (prev.map (·.id)).Nodup →
    (next.map (·.id)).Nodup →
    (prev.map (·.id)).filter (· ∈ next.map (·.id)) =
      (next.map (·.id)).filter (· ∈ prev.map (·.id)) →
    applyTranscriptFrame prev (diffTranscript prev next) = .ok next := by
  intro h
  have hdiff := h [twoTexts ("t0", "a") ("t0", "b")] [twoTexts ("t0", "a") ("t0", "bc")]
    (by decide) (by decide) (by decide)
  exact absurd hdiff (by decide +kernel)

end RoundTrip

end Zeron.Doc
