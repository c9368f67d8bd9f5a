import Zeron.Registry.Hlc
import Zeron.Registry.Json

/-!
# Rows, ops and the client's merge

The merge of `crates/doc/src/registry.rs`. A row is a bag of fields, each with the clock of its last
write; an op applies field by field where its clock is newer.
-/

namespace Zeron.Registry

/-- `BTreeMap<String, V>`. -/
abbrev FieldMap (V : Type) := Std.ExtTreeMap String V

def fields (entries : List (String × JsonValue)) : FieldMap JsonValue :=
  entries.foldl (fun set entry => set.insert entry.1 entry.2) ∅

theorem fields_of_mem {entries : List (String × JsonValue)} (hnodup : (entries.map (·.1)).Nodup)
    {name : String} {value : JsonValue} (h : (name, value) ∈ entries) :
    (fields entries)[name]? = some value := by
  have hfold : ∀ set : FieldMap JsonValue, (name, value) ∈ entries ∨
      name ∉ entries.map (·.1) ∧ set[name]? = some value →
        (entries.foldl (fun set entry => set.insert entry.1 entry.2) set)[name]? = some value := by
    clear h
    induction entries with
    | nil => simp
    | cons entry entries ih =>
        intro set hset
        obtain ⟨hfresh, hnodup⟩ := List.nodup_cons.mp hnodup
        rw [List.foldl_cons]
        refine ih hnodup _ ?_
        obtain hmem | ⟨hnot, hold⟩ := hset
        · obtain rfl | hmem := List.mem_cons.mp hmem
          · exact .inr ⟨hfresh, Std.ExtTreeMap.getElem?_insert_self⟩
          · exact .inl hmem
        · rw [List.map_cons, List.mem_cons, not_or] at hnot
          refine .inr ⟨hnot.2, ?_⟩
          rw [Std.ExtTreeMap.getElem?_insert, if_neg, hold]
          simpa using Ne.symm hnot.1
  exact hfold ∅ (.inl h)

structure RowKey where
  kind : String
  id : String
  deriving DecidableEq

instance : Ord RowKey := ⟨compareLex (compareOn RowKey.kind) (compareOn RowKey.id)⟩

instance : Std.TransOrd RowKey :=
  inferInstanceAs (Std.TransCmp (compareLex (compareOn RowKey.kind) (compareOn RowKey.id)))

instance : Std.LawfulEqOrd RowKey where
  eq_of_compare {a b} h := by
    have hlex : compareLex (compareOn RowKey.kind) (compareOn RowKey.id) a b = .eq := h
    rw [compareLex_eq_eq] at hlex
    cases a
    cases b
    simpa [compareOn] using hlex

structure RegistryRow where
  kind : String
  id : String
  /-- Server seq of the batch that last touched the row. -/
  seq : Nat
  deleted : Bool
  /-- Tombstone clock; a row revived by an upsert keeps it. -/
  delHlc : Option Hlc
  fields : FieldMap JsonValue
  clocks : FieldMap Hlc
  deriving DecidableEq

namespace RegistryRow

def key (row : RegistryRow) : RowKey := { kind := row.kind, id := row.id }

def tombstone (kind id : String) (hlc : Hlc) : RegistryRow :=
  { kind, id, seq := 0, deleted := true, delHlc := some hlc, fields := ∅, clocks := ∅ }

/-- The live row an upsert starts from where there is none. -/
def blank (kind id : String) : RegistryRow :=
  { kind, id, seq := 0, deleted := false, delHlc := none, fields := ∅, clocks := ∅ }

/-- A revived tombstone loses wholesale: only its identity and its delete clock stay. -/
def revived (row : RegistryRow) : RegistryRow :=
  { row with deleted := false, fields := ∅, clocks := ∅ }

def entomb (row : RegistryRow) (hlc : Hlc) : RegistryRow :=
  { row with deleted := true, delHlc := some hlc, fields := ∅, clocks := ∅ }

def maxClock (row : RegistryRow) : Option Hlc :=
  row.clocks.foldl (fun max _ clock => if max.all (· < clock) then some clock else max) row.delHlc

end RegistryRow

inductive OpKind where
  /-- Creates, and revives tombstones when newer. -/
  | upsert
  /-- Never creates or revives. -/
  | update
  /-- Tombstones when causally newer than the row. -/
  | delete
  deriving DecidableEq

structure RowOp where
  kind : String
  id : String
  op : OpKind
  /-- Field writes; null deletes the field and is still a clocked write. -/
  set : Option (FieldMap JsonValue)
  hlc : Hlc
  /-- Clocks of single fields, which a re-seed carries over from the row. -/
  clocks : Option (FieldMap Hlc)
  deriving DecidableEq

namespace RowOp

def key (op : RowOp) : RowKey := { kind := op.kind, id := op.id }

def clockFor (op : RowOp) (field : String) : Hlc := (op.clocks.bind (·[field]?)).getD op.hlc

end RowOp

/-- One turn of the loop over `set`. -/
def writeField (op : RowOp) (acc : RegistryRow × Bool) (field : String) (value : JsonValue) :
    RegistryRow × Bool :=
  if hlcNewer (op.clockFor field) acc.1.clocks[field]? then
    ({ acc.1 with
        fields := if value.isNull then acc.1.fields.erase field else acc.1.fields.insert field value
        clocks := acc.1.clocks.insert field (op.clockFor field) }, true)
  else
    acc

/-- The field writes of an upsert or an update on the row it starts from. -/
def writeSet (op : RowOp) (base : RegistryRow) (changed : Bool) : RegistryRow × Bool :=
  (op.set.getD ∅).foldl (writeField op) (base, changed)

def finishWrites (outcome : RegistryRow × Bool) : Option RegistryRow × Bool :=
  if outcome.2 then (some { outcome.1 with deleted := false }, true) else (some outcome.1, false)

def applyDelete (row : Option RegistryRow) (op : RowOp) : Option RegistryRow × Bool :=
  match row with
  | none => (some (.tombstone op.kind op.id op.hlc), true)
  | some row =>
      if hlcNewer op.hlc (if row.deleted then row.delHlc else row.maxClock) then
        (some (row.entomb op.hlc), true)
      else
        (some row, false)

/-- `apply_op`: the row after the op (absent only for an update on a missing row) and whether
anything changed. -/
def applyOp (row : Option RegistryRow) (op : RowOp) : Option RegistryRow × Bool :=
  if op.op = .delete then
    applyDelete row op
  else
    match row with
    | none =>
        if op.op = .update then (none, false)
        else finishWrites (writeSet op (.blank op.kind op.id) true)
    | some row =>
        if row.deleted then
          if op.op = .update ∨ ¬ hlcNewer op.hlc row.delHlc then (some row, false)
          else finishWrites (writeSet op row.revived true)
        else
          finishWrites (writeSet op row false)

/-- A row as a re-seed op: one upsert with the row's own clocks, or a delete for a tombstone. -/
def rowToSeedOp (row : RegistryRow) : RowOp :=
  if row.deleted then
    { kind := row.kind, id := row.id, op := .delete, set := none,
      hlc := row.delHlc.getD (encodeHlc 0 0 "seed"), clocks := none }
  else
    { kind := row.kind, id := row.id, op := .upsert, set := some row.fields,
      hlc := row.maxClock.getD (encodeHlc 0 0 "seed"), clocks := some row.clocks }

@[simp]
theorem rowToSeedOp_key (row : RegistryRow) : (rowToSeedOp row).key = row.key := by
  unfold rowToSeedOp RowOp.key RegistryRow.key
  split <;> rfl

theorem rowToSeedOp_ne_update (row : RegistryRow) : (rowToSeedOp row).op ≠ .update := by
  unfold rowToSeedOp
  split <;> simp

end Zeron.Registry
