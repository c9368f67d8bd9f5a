import Zeron.Registry.Core

/-!
# What the room accepts

`validateOp` of `edge/src/registry-core.ts` and the checks of `handlePush`. The size of an op is the
length of its JSON text, counted as the room counts it: in UTF-16 code units.
-/

namespace Zeron.Registry

section Text

def utf16Units (c : Char) : List Nat :=
  if c.toNat < 0x10000 then [c.toNat]
  else [0xD800 + (c.toNat - 0x10000) / 0x400, 0xDC00 + (c.toNat - 0x10000) % 0x400]

def jsonCharLength (c : Char) : Nat :=
  if c = '"' ∨ c = '\\' then 2
  else if c.toNat < 0x20 then
    -- \b \t \n \f \r have a short escape.
    if c.toNat ∈ [8, 9, 10, 12, 13] then 2 else 6
  else (utf16Units c).length

def jsonStringLength (s : String) : Nat := 2 + (s.toList.map jsonCharLength).sum

def jsonIntLength : Int → Nat
  | .ofNat n => (Nat.toDigits 10 n).length
  | .negSucc n => 1 + (Nat.toDigits 10 (n + 1)).length

def jsonCommas (members : Nat) : Nat := members - 1

mutual

/-- `JSON.stringify(value).length`. -/
def JsonValue.textLength : JsonValue → Nat
  | .null => 4
  | .bool true => 4
  | .bool false => 5
  | .int n => jsonIntLength n
  | .double text => text.length
  | .string s => jsonStringLength s
  | .array items => 2 + itemsLength items + jsonCommas items.length
  | .object entries => 2 + entriesLength entries + jsonCommas entries.length

def itemsLength : List JsonValue → Nat
  | [] => 0
  | item :: items => item.textLength + itemsLength items

def entriesLength : List (String × JsonValue) → Nat
  | [] => 0
  | (key, value) :: entries => jsonStringLength key + 1 + value.textLength + entriesLength entries

end

def fieldsLength (fields : FieldMap JsonValue) : Nat :=
  (JsonValue.object fields.toList).textLength

def clocksLength (clocks : FieldMap Hlc) : Nat :=
  2 + (clocks.toList.map fun entry =>
    jsonStringLength entry.1 + 1 + jsonStringLength entry.2).sum + jsonCommas clocks.toList.length

def OpKind.text : OpKind → String
  | .upsert => "upsert"
  | .update => "update"
  | .delete => "delete"

/-- `JSON.stringify(op).length`: the members, each with its quoted name and its colon. -/
def RowOp.textLength (op : RowOp) : Nat :=
  let set := op.set.map fun set => 6 + fieldsLength set
  let clocks := op.clocks.map fun clocks => 9 + clocksLength clocks
  2 + (7 + jsonStringLength op.kind) + (5 + jsonStringLength op.id) +
    (5 + jsonStringLength op.op.text) + (6 + jsonStringLength op.hlc) +
    set.getD 0 + clocks.getD 0 +
    jsonCommas (4 + set.toList.length + clocks.toList.length)

end Text

section Patterns

/-- Letters, digits and `_ . : @ /` and the hyphen, 1 to 256 of them. -/
def isId (s : String) : Bool :=
  1 ≤ s.length ∧ s.length ≤ 256 ∧ s.toList.all fun c => c.isAlphanum ∨ c ∈ ['_', '.', ':', '@', '/', '-']

/-- `^[a-z][a-zA-Z0-9]{0,31}$` -/
def isKind (s : String) : Bool :=
  match s.toList with
  | [] => false
  | c :: rest => c.isLower ∧ rest.length ≤ 31 ∧ rest.all (·.isAlphanum)

/-- `^[a-zA-Z][a-zA-Z0-9]{0,63}$` -/
def isField (s : String) : Bool :=
  match s.toList with
  | [] => false
  | c :: rest => c.isAlpha ∧ rest.length ≤ 63 ∧ rest.all (·.isAlphanum)

/-- `[A-Za-z0-9_-]{1,128}` -/
def isDevice (cs : List Char) : Bool :=
  1 ≤ cs.length ∧ cs.length ≤ 128 ∧ cs.all fun c => c.isAlphanum ∨ c ∈ ['_', '-']

/-- `\d{n}` at the front, then the separator. -/
def isDigits (n : Nat) (cs : List Char) : Bool :=
  n < cs.length ∧ (cs.take n).all (·.isDigit) ∧ (cs.drop n).head? = some '-'

/-- `^\d{13}-\d{6}-[A-Za-z0-9_-]{1,128}$` -/
def isHlc (s : String) : Bool :=
  isDigits 13 s.toList ∧ isDigits 6 (s.toList.drop 14) ∧ isDevice (s.toList.drop 21)

theorem isDigits_iff {n : Nat} {cs : List Char} :
    isDigits n cs = true ↔ ∃ digits rest, cs = digits ++ '-' :: rest ∧ digits.length = n ∧
      ∀ c ∈ digits, c.isDigit = true := by
  unfold isDigits
  simp only [decide_eq_true_eq, List.all_eq_true]
  constructor
  · rintro ⟨hlen, hdigits, hdash⟩
    obtain ⟨rest, hrest⟩ := List.head?_eq_some_iff.mp hdash
    refine ⟨cs.take n, rest, ?_, List.length_take_of_le hlen.le, hdigits⟩
    rw [← hrest, List.take_append_drop]
  · rintro ⟨digits, rest, rfl, rfl, hdigits⟩
    refine ⟨by simp, ?_, by simp⟩
    rw [List.take_left]
    exact hdigits

theorem isHlc_iff {hlc : Hlc} :
    isHlc hlc = true ↔ ∃ ms counter device, hlc.toList = ms ++ '-' :: (counter ++ '-' :: device) ∧
      (ms.length = 13 ∧ ∀ c ∈ ms, c.isDigit = true) ∧
      (counter.length = 6 ∧ ∀ c ∈ counter, c.isDigit = true) ∧ isDevice device = true := by
  have hsplit : ∀ (digits rest : List Char) (n : Nat), digits.length = n →
      (digits ++ '-' :: rest).drop (n + 1) = rest := by
    rintro digits rest n rfl
    simp
  unfold isHlc
  rw [decide_eq_true_eq, isDigits_iff]
  constructor
  · rintro ⟨⟨ms, rest, hms, hmsLen, hmsDigits⟩, hcounter, hdevice⟩
    rw [hms, hsplit ms rest 13 hmsLen] at hcounter
    obtain ⟨counter, device, hrest, hlen, hdigits⟩ := isDigits_iff.mp hcounter
    have hdrop : hlc.toList.drop 21 = device := by
      have h14 : hlc.toList.drop 14 = rest := by rw [hms, hsplit ms rest 13 hmsLen]
      have h21 : hlc.toList.drop 21 = (hlc.toList.drop 14).drop 7 := by rw [List.drop_drop]
      rw [h21, h14, hrest, hsplit counter device 6 hlen]
    exact ⟨ms, counter, device, hrest ▸ hms, ⟨hmsLen, hmsDigits⟩, ⟨hlen, hdigits⟩, hdrop ▸ hdevice⟩
  · rintro ⟨ms, counter, device, hms, ⟨hmsLen, hmsDigits⟩, ⟨hlen, hdigits⟩, hdevice⟩
    have h14 : hlc.toList.drop 14 = counter ++ '-' :: device := by rw [hms, hsplit ms _ 13 hmsLen]
    have h21 : hlc.toList.drop 21 = device := by
      have hdrop : hlc.toList.drop 21 = (hlc.toList.drop 14).drop 7 := by rw [List.drop_drop]
      rw [hdrop, h14, hsplit counter device 6 hlen]
    refine ⟨⟨ms, _, hms, hmsLen, hmsDigits⟩, ?_, h21 ▸ hdevice⟩
    rw [h14]
    exact isDigits_iff.mpr ⟨counter, device, rfl, hlen, hdigits⟩

end Patterns

section Plain

/-- JSON writes the character as it is, in one code unit. -/
def IsPlain (c : Char) : Prop := 0x20 ≤ c.toNat ∧ c.toNat < 128 ∧ c ≠ '"' ∧ c ≠ '\\'

instance (c : Char) : Decidable (IsPlain c) := inferInstanceAs (Decidable (_ ∧ _))

theorem isPlain_of_isAlphanum {c : Char} (h : c.isAlphanum = true) : IsPlain c := by
  have hrange : c.toNat < 128 ∧ 48 ≤ c.toNat ∧ c.toNat ≠ 92 := by
    change ((decide ('A'.val ≤ c.val ∧ c.val ≤ 'Z'.val) ||
      decide ('a'.val ≤ c.val) && decide (c.val ≤ 'z'.val)) ||
      decide ('0'.val ≤ c.val) && decide (c.val ≤ '9'.val)) = true at h
    simp only [Bool.or_eq_true, Bool.and_eq_true, decide_eq_true_eq, UInt32.le_iff_toNat_le] at h
    simp at h
    omega
  obtain ⟨hascii, hprint, hslash⟩ := hrange
  refine ⟨by omega, hascii, ?_, ?_⟩
  · rintro rfl
    exact absurd hprint (by decide)
  · rintro rfl
    exact absurd rfl hslash

theorem jsonStringLength_of_plain {s : String} (h : ∀ c ∈ s.toList, IsPlain c) :
    jsonStringLength s = s.length + 2 := by
  have hchars : ∀ cs : List Char, (∀ c ∈ cs, IsPlain c) →
      (cs.map jsonCharLength).sum = cs.length := by
    intro cs hcs
    induction cs with
    | nil => rfl
    | cons c cs ih =>
        obtain ⟨hprint, hascii, hquote, hslash⟩ := hcs c List.mem_cons_self
        have hone : jsonCharLength c = 1 := by
          unfold jsonCharLength utf16Units
          rw [if_neg (by simp [hquote, hslash]), if_neg (by omega), if_pos (by omega)]
          rfl
        rw [List.map_cons, List.sum_cons, hone, ih fun c' h' => hcs c' (List.mem_cons_of_mem _ h'),
          List.length_cons, Nat.add_comm]
  rw [jsonStringLength, hchars s.toList h, String.length_toList, Nat.add_comm]

theorem isPlain_of_isId {id : String} (h : isId id = true) : ∀ c ∈ id.toList, IsPlain c := by
  simp only [isId, decide_eq_true_eq, List.all_eq_true] at h
  intro c hc
  obtain hplain | hmark := h.2.2 c hc
  · exact isPlain_of_isAlphanum hplain
  · simp only [List.mem_cons, List.not_mem_nil, or_false] at hmark
    obtain rfl | rfl | rfl | rfl | rfl | rfl := hmark <;> decide

theorem isPlain_of_isHlc {hlc : Hlc} (h : isHlc hlc = true) : ∀ c ∈ hlc.toList, IsPlain c := by
  obtain ⟨ms, counter, device, hlc', ⟨-, hms⟩, ⟨-, hcounter⟩, hdevice⟩ := isHlc_iff.mp h
  simp only [isDevice, decide_eq_true_eq, List.all_eq_true] at hdevice
  have hdigit : ∀ c : Char, c.isDigit = true → IsPlain c := fun c hc =>
    isPlain_of_isAlphanum (by simp [Char.isAlphanum, hc])
  rw [hlc']
  intro c hc
  simp only [List.mem_append, List.mem_cons] at hc
  obtain hc | rfl | hc | rfl | hc := hc
  · exact hdigit c (hms c hc)
  · decide
  · exact hdigit c (hcounter c hc)
  · decide
  · obtain hplain | hmark := hdevice.2.2 c hc
    · exact isPlain_of_isAlphanum hplain
    · simp only [List.mem_cons, List.not_mem_nil, or_false] at hmark
      obtain rfl | rfl := hmark <;> decide

end Plain

/-- 16 KiB: a row is an index entry, never a document. -/
def maxOpBytes : Nat := 16 * 1024

def maxBatchOps : Nat := 500

/-- The check of the writes: none in a delete, field names in any other op. -/
def validateSet (op : RowOp) : Option String :=
  match op.op, op.set with
  | .delete, none => none
  | .delete, some _ => some "delete carries set"
  | _, none => some "missing set"
  | _, some set => (set.keys.find? fun key => ! isField key).map ("bad field: " ++ ·)

def validateClocks (clocks : FieldMap Hlc) : Option String :=
  (clocks.toList.find? fun entry => ! isField entry.1 ∨ ! isHlc entry.2).map fun entry =>
    if ! isField entry.1 then "bad clock field: " ++ entry.1 else "bad clock: " ++ entry.1

def validateOp (op : RowOp) : Option String :=
  if ! isKind op.kind then some "bad kind"
  else if ! isId op.id then some "bad id"
  else if ! isHlc op.hlc then some "bad hlc"
  else
    (validateSet op).or <| (op.clocks.bind validateClocks).or <|
      if maxOpBytes < op.textLength then some "op too large" else none

theorem validateOp_eq_none_iff {op : RowOp} :
    validateOp op = none ↔ isKind op.kind = true ∧ isId op.id = true ∧ isHlc op.hlc = true ∧
      validateSet op = none ∧ (∀ clocks ∈ op.clocks, validateClocks clocks = none) ∧
      op.textLength ≤ maxOpBytes := by
  unfold validateOp
  by_cases hkind : isKind op.kind = true
  · by_cases hid : isId op.id = true
    · by_cases hhlc : isHlc op.hlc = true
      · have hclocks : op.clocks.bind validateClocks = none ↔
            ∀ clocks ∈ op.clocks, validateClocks clocks = none := by
          cases op.clocks <;> simp
        simp [hkind, hid, hhlc, Option.or_eq_none_iff, hclocks]
      · simp [hkind, hid, hhlc]
    · simp [hkind, hid]
  · simp [hkind]

theorem validateClocks_eq_none_iff {clocks : FieldMap Hlc} :
    validateClocks clocks = none ↔
      ∀ entry ∈ clocks.toList, isField entry.1 = true ∧ isHlc entry.2 = true := by
  simp [validateClocks, List.find?_eq_none, not_or]

/-- The code and the message of the error a push is refused with. -/
def refuses (ops : List RowOp) : Option (String × String) :=
  if ops.length = 0 ∨ maxBatchOps < ops.length then
    some ("bad_push", "batch of " ++ String.ofList (Nat.toDigits 10 ops.length) ++ " ops")
  else
    ops.findSome? fun op =>
      (validateOp op).map fun invalid => ("invalid_op", op.kind ++ "/" ++ op.id ++ ": " ++ invalid)

end Zeron.Registry
