import Zeron.Lib.Writes
import Zeron.Registry.Merge
import Zeron.Registry.Validate

/-!
# The merge in the other two languages

`applyOp` of `edge/src/registry-core.ts` and of `apps/ios/Zeron/Sync/RegistryCore.swift` are one
text in two languages. What the languages do differently is a `Dialect`: the order in which a loop
visits a map, what a lookup finds that nobody stored, and what compares as a clock.
-/

namespace Zeron.Registry

/-- A row whose clocks are the values of another language. -/
structure RowIn (Clock : Type) where
  kind : String
  id : String
  seq : Nat
  deleted : Bool
  delHlc : Option Clock
  fields : FieldMap JsonValue
  clocks : FieldMap Clock
  deriving DecidableEq

/-- The order in which a loop visits the entries of a map. -/
structure MapOrder where
  entries : ∀ {V : Type}, FieldMap V → List (String × V)
  perm : ∀ {V : Type} (map : FieldMap V), (entries map).Perm map.toList

def MapOrder.sorted : MapOrder := { entries := (·.toList), perm := fun _ => .refl _ }

/-- How a language reads maps and compares clocks. -/
structure Dialect (Clock : Type) extends MapOrder where
  /-- A clock that arrived as text. -/
  text : Hlc → Clock
  less : Clock → Clock → Bool
  /-- What a lookup finds under a key the map does not own. -/
  inherited : String → Option Clock
  less_text : ∀ a b, isHlc a = true → isHlc b = true → less (text a) (text b) = decide (a < b)
  /-- An inherited value is no clock, and compares as newer than every clock. -/
  text_less_inherited : ∀ a key c, isHlc a = true → inherited key = some c →
    less (text a) c = true ∧ less c (text a) = false ∧ less c c = false

namespace Dialect

variable {Clock : Type} (d : Dialect Clock)

def read (map : FieldMap Clock) (key : String) : Option Clock := map[key]?.or (d.inherited key)

def texts (map : FieldMap Hlc) : FieldMap Clock := map.map fun _ clock => d.text clock

def hlcNewer (a : Clock) (b : Option Clock) : Bool := b.all (d.less · a)

/-- `op.clocks?.[field] ?? op.hlc` -/
def clockFor (op : RowOp) (field : String) : Clock :=
  (op.clocks.bind fun clocks => d.read (d.texts clocks) field).getD (d.text op.hlc)

def maxClock (row : RowIn Clock) : Option Clock :=
  (d.entries row.clocks).foldl
    (fun max entry => if d.hlcNewer entry.2 max then some entry.2 else max) row.delHlc

def applyDelete (row : Option (RowIn Clock)) (op : RowOp) : Option (RowIn Clock) × Bool :=
  match row with
  | none =>
      (some { kind := op.kind, id := op.id, seq := 0, deleted := true,
              delHlc := some (d.text op.hlc), fields := ∅, clocks := ∅ }, true)
  | some row =>
      if d.hlcNewer (d.text op.hlc) (if row.deleted then row.delHlc else d.maxClock row) then
        (some { row with deleted := true, delHlc := some (d.text op.hlc), fields := ∅, clocks := ∅ },
          true)
      else
        (some row, false)

/-- The row the field writes begin with and whether it is already a change; none where the op
returns before them. -/
def base (row : Option (RowIn Clock)) (op : RowOp) : Option (RowIn Clock × Bool) :=
  match row with
  | none =>
      if op.op = .update then none
      else some ({ kind := op.kind, id := op.id, seq := 0, deleted := false, delHlc := none,
                   fields := ∅, clocks := ∅ }, true)
  | some row =>
      if row.deleted then
        if op.op = .update then none
        else if ¬ d.hlcNewer (d.text op.hlc) row.delHlc then none
        else some ({ kind := row.kind, id := row.id, seq := row.seq, deleted := false,
                     delHlc := row.delHlc, fields := ∅, clocks := ∅ }, true)
      else
        some (row, false)

def writeField (op : RowOp) (acc : RowIn Clock × Bool) (key : String) (value : JsonValue) :
    RowIn Clock × Bool :=
  if d.hlcNewer (d.clockFor op key) (d.read acc.1.clocks key) then
    ({ acc.1 with
        fields := if value.isNull then acc.1.fields.erase key else acc.1.fields.insert key value
        clocks := acc.1.clocks.insert key (d.clockFor op key) }, true)
  else
    acc

def writeSet (op : RowOp) (start : RowIn Clock × Bool) : RowIn Clock × Bool :=
  Lib.KeyedWrites.all (d.writeField op) start (d.entries (op.set.getD ∅))

def applyOp (row : Option (RowIn Clock)) (op : RowOp) : Option (RowIn Clock) × Bool :=
  if op.op = .delete then
    d.applyDelete row op
  else
    match d.base row op with
    | none => (row, false)
    | some start =>
        let outcome := d.writeSet op start
        if outcome.2 then (some { outcome.1 with deleted := false }, true)
        else (some outcome.1, false)

def hold (row : RegistryRow) : RowIn Clock :=
  { kind := row.kind, id := row.id, seq := row.seq, deleted := row.deleted,
    delHlc := row.delHlc.map d.text, fields := row.fields, clocks := d.texts row.clocks }

/-- Both languages make the same of the op: the same row, and the same answer whether it changed. -/
def Agrees (row : Option RegistryRow) (op : RowOp) : Prop :=
  d.applyOp (row.map d.hold) op = ((Registry.applyOp row op).1.map d.hold,
    (Registry.applyOp row op).2)

instance [DecidableEq Clock] (row : Option RegistryRow) (op : RowOp) :
    Decidable (d.Agrees row op) :=
  inferInstanceAs (Decidable (_ = _))

end Dialect

/-- A value a JavaScript clock lookup can yield: a clock, or a method every object inherits. -/
inductive JsClock where
  | text (hlc : Hlc)
  | method (name : String)
  deriving DecidableEq

namespace JsClock

/-- The names in `Object.prototype` that pass for a field name. -/
def objectPrototype : List String :=
  ["constructor", "hasOwnProperty", "isPrototypeOf", "propertyIsEnumerable", "toLocaleString",
    "toString", "valueOf"]

/-- `String(value)`: a built-in function shows its name, and `constructor` is the function
`Object`. -/
def toPrimitive : JsClock → String
  | .text hlc => hlc
  | .method name =>
      "function " ++ (if name = "constructor" then "Object" else name) ++
        "() \x7b [native code] \x7d"

def codeUnits (s : String) : List Nat := s.toList.flatMap utf16Units

/-- `a < b` of two strings: by code unit. -/
def less (a b : JsClock) : Bool := codeUnits a.toPrimitive < codeUnits b.toPrimitive

def inherited (key : String) : Option JsClock :=
  if key ∈ objectPrototype then some (.method key) else none

end JsClock

end Zeron.Registry
