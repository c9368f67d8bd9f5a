import Mathlib.Data.String.Basic

namespace Zeron.Registry

/-- A JSON value as the three clients hold it. A number is an integer that a double holds exactly, or
the text `JSON.stringify` writes for it. -/
inductive JsonValue where
  | null
  | bool (value : Bool)
  | int (value : Int)
  | double (text : String)
  | string (value : String)
  | array (items : List JsonValue)
  | object (entries : List (String × JsonValue))

namespace JsonValue

mutual

def decEq : (left right : JsonValue) → Decidable (left = right)
  | .null, .null => isTrue rfl
  | .bool a, .bool b => decidable_of_iff (a = b) (by simp)
  | .int a, .int b => decidable_of_iff (a = b) (by simp)
  | .double a, .double b => decidable_of_iff (a = b) (by simp)
  | .string a, .string b => decidable_of_iff (a = b) (by simp)
  | .array a, .array b =>
      match decEqItems a b with
      | isTrue h => isTrue (by rw [h])
      | isFalse h => isFalse (by simpa using h)
  | .object a, .object b =>
      match decEqEntries a b with
      | isTrue h => isTrue (by rw [h])
      | isFalse h => isFalse (by simpa using h)
  | .null, .bool _ | .null, .int _ | .null, .double _ | .null, .string _ | .null, .array _
  | .null, .object _ | .bool _, .null | .bool _, .int _ | .bool _, .double _ | .bool _, .string _
  | .bool _, .array _ | .bool _, .object _ | .int _, .null | .int _, .bool _ | .int _, .double _
  | .int _, .string _ | .int _, .array _ | .int _, .object _ | .double _, .null | .double _, .bool _
  | .double _, .int _ | .double _, .string _ | .double _, .array _ | .double _, .object _
  | .string _, .null | .string _, .bool _ | .string _, .int _ | .string _, .double _
  | .string _, .array _ | .string _, .object _ | .array _, .null | .array _, .bool _
  | .array _, .int _ | .array _, .double _ | .array _, .string _ | .array _, .object _
  | .object _, .null | .object _, .bool _ | .object _, .int _ | .object _, .double _
  | .object _, .string _ | .object _, .array _ => isFalse (by simp)

def decEqItems : (left right : List JsonValue) → Decidable (left = right)
  | [], [] => isTrue rfl
  | [], _ :: _ | _ :: _, [] => isFalse (by simp)
  | a :: as, b :: bs =>
      match decEq a b, decEqItems as bs with
      | isTrue h, isTrue hs => isTrue (by rw [h, hs])
      | isFalse h, _ => isFalse (by simp [h])
      | _, isFalse hs => isFalse (by simp [hs])

def decEqEntries : (left right : List (String × JsonValue)) → Decidable (left = right)
  | [], [] => isTrue rfl
  | [], _ :: _ | _ :: _, [] => isFalse (by simp)
  | (key, a) :: as, (key', b) :: bs =>
      match decEq a b, decEqEntries as bs with
      | isTrue h, isTrue hs => decidable_of_iff (key = key') (by simp [h, hs])
      | isFalse h, _ => isFalse (by simp [h])
      | _, isFalse hs => isFalse (by simp [hs])

end

instance : DecidableEq JsonValue := decEq

def isNull : JsonValue → Bool
  | .null => true
  | _ => false

@[simp]
theorem isNull_iff {value : JsonValue} : value.isNull = true ↔ value = .null := by
  cases value <;> simp [isNull]

end JsonValue

end Zeron.Registry
