import Zeron.Lib.JsonString
import Zeron.Lib.Leb128
import Zeron.Registry.Json

/-!
# Device frames

The codec of `crates/rpc/src/device_room.rs` and its counterpart in `edge/src/device-room.ts`:
`uleb128(header_len)`, the header as JSON, the payload.
-/

namespace Zeron.Wire

open Zeron.Lib (Bytes)
open Zeron.Lib.Leb128 (uleb128)
open Zeron.Lib.Utf8 (encode decode?)
open Zeron.Registry (JsonValue)

/-! ## Rust -/

structure DeviceFrameHeader where
  s : String
  k : String
  /-- `to`. -/
  toConn : Option String
  /-- `from`. -/
  fromConn : Option String
  deriving DecidableEq

/-- `serde_json` on headers. -/
structure HeaderJson where
  toVec : DeviceFrameHeader → String
  /-- The error is serde's message. -/
  fromSlice : Bytes → Except String DeviceFrameHeader
  fromSlice_toVec : ∀ header, fromSlice (encode (toVec header)) = .ok header

namespace HeaderJson

variable (json : HeaderJson)

def headerPart (header : DeviceFrameHeader) : Bytes :=
  uleb128 (encode (json.toVec header)).length ++ encode (json.toVec header)

def encodeDeviceFrame (header : DeviceFrameHeader) (payload : Bytes) : Bytes :=
  json.headerPart header ++ payload

/-- The length is read from five bytes at most: the check `shift >= 32` fails on a sixth. -/
def decodeDeviceFrame (bytes : Bytes) : Except String (DeviceFrameHeader × Bytes) :=
  match Zeron.Lib.Leb128.read 5 1 0 bytes with
  | .error .truncated => .error "device frame: truncated uleb128"
  | .error .overflow => .error "device frame: uleb128 overflow"
  | .ok (len, rest) =>
      if rest.length < len then .error "device frame: truncated header"
      else
        match json.fromSlice (rest.take len) with
        | .error err => .error ("device frame: bad header JSON: " ++ err)
        | .ok header => .ok (header, rest.drop len)

theorem decodeDeviceFrame_encode (header : DeviceFrameHeader) (payload : Bytes) :
    json.decodeDeviceFrame (json.encodeDeviceFrame header payload) =
      if (encode (json.toVec header)).length < 2 ^ 35 then .ok (header, payload)
      else .error "device frame: uleb128 overflow" := by
  have hpow : 128 ^ 5 = 2 ^ 35 := by norm_num
  unfold decodeDeviceFrame encodeDeviceFrame headerPart
  rw [List.append_assoc, Zeron.Lib.Leb128.read_uleb128 _ 5 1 0 _ (by decide), hpow]
  by_cases hlength : (encode (json.toVec header)).length < 2 ^ 35
  · have hshort : ¬(encode (json.toVec header) ++ payload).length <
        0 + (encode (json.toVec header)).length * 1 := by
      rw [List.length_append]
      omega
    simp only [if_pos hlength, if_neg hshort]
    simp [json.fromSlice_toVec]
  · simp only [if_neg hlength]

theorem decodeDeviceFrame_take (header : DeviceFrameHeader) {i : Nat}
    (hi : i < (json.headerPart header).length) :
    ∃ err, json.decodeDeviceFrame ((json.headerPart header).take i) = .error err := by
  unfold decodeDeviceFrame headerPart at *
  generalize hjson : encode (json.toVec header) = text at *
  rw [List.length_append] at hi
  rw [List.take_append]
  by_cases hlen : i < (uleb128 text.length).length
  · -- Inside the length.
    obtain ⟨err, herr⟩ := Zeron.Lib.Leb128.read_take_uleb128 text.length 5 1 0 i hlen
    have hzero : i - (uleb128 text.length).length = 0 := by omega
    rw [hzero, List.take_zero, List.append_nil, herr]
    cases err <;> exact ⟨_, rfl⟩
  · -- The length is complete, the header is not.
    rw [List.take_of_length_le (by omega), Zeron.Lib.Leb128.read_uleb128 _ 5 1 0 _ (by decide)]
    have hshort : (text.take (i - (uleb128 text.length).length)).length < text.length := by
      rw [List.length_take]
      omega
    by_cases hfits : text.length < 128 ^ 5
    · simp only [if_pos hfits, Nat.mul_one, Nat.zero_add, if_pos hshort]
      exact ⟨_, rfl⟩
    · simp only [if_neg hfits]
      exact ⟨_, rfl⟩

end HeaderJson

/-! ## TypeScript -/

/-- The reader of `loro-protocol`, and `JSON` on values; `none` is an exception. -/
structure EdgeLibraries where
  readVarString : Bytes → Option (String × Bytes)
  parse : String → Option JsonValue
  /-- `JSON.stringify` of an object with these members. -/
  stringify : List (String × JsonValue) → String
  /-- What a value becomes when it is written and read: `-0` is `0`, an infinite number `null`. -/
  rewritten : JsonValue → JsonValue
  rewritten_string : ∀ s, rewritten (.string s) = .string s
  parse_stringify : ∀ members, (members.map Prod.fst).Nodup → parse (stringify members) =
    some (.object (members.map fun (key, value) => (key, rewritten value)))
  readVarString_push : ∀ text rest,
    readVarString (uleb128 (encode text).length ++ encode text ++ rest) = some (text, rest)

/-- A property of a header; `none` is `undefined`. -/
def property (header : JsonValue) (key : String) : Option JsonValue :=
  match header with
  | .object members => members.lookup key
  | _ => none

/-- A header literal: members that are `undefined` are not written. -/
def members (s k toConn fromConn : Option JsonValue) : List (String × JsonValue) :=
  [("s", s), ("k", k), ("to", toConn), ("from", fromConn)].filterMap fun (key, value) =>
    value.map fun value => (key, value)

namespace EdgeLibraries

variable (lib : EdgeLibraries)

def encodeDeviceFrame (header : List (String × JsonValue)) (payload : Bytes) : Bytes :=
  let text := lib.stringify header
  uleb128 (encode text).length ++ encode text ++ payload

def decodeDeviceFrame (bytes : Bytes) : Option (JsonValue × Bytes) := do
  let (text, payload) ← lib.readVarString bytes
  let header ← lib.parse text
  return (header, payload)

theorem members_nodup (s k toConn fromConn : Option JsonValue) :
    ((members s k toConn fromConn).map Prod.fst).Nodup := by
  cases s <;> cases k <;> cases toConn <;> cases fromConn <;> simp [members]

theorem decodeDeviceFrame_encode {header : List (String × JsonValue)}
    (hkeys : (header.map Prod.fst).Nodup) (payload : Bytes) :
    lib.decodeDeviceFrame (lib.encodeDeviceFrame header payload) =
      some (.object (header.map fun (key, value) => (key, lib.rewritten value)), payload) := by
  unfold decodeDeviceFrame encodeDeviceFrame
  simp only [lib.readVarString_push, lib.parse_stringify header hkeys, Option.bind_eq_bind,
    Option.bind_some]
  rfl

theorem property_members (s k toConn fromConn : Option JsonValue) :
    let header := JsonValue.object
      ((members s k toConn fromConn).map fun (key, value) => (key, lib.rewritten value))
    property header "s" = s.map lib.rewritten ∧ property header "k" = k.map lib.rewritten ∧
      property header "to" = toConn.map lib.rewritten ∧
      property header "from" = fromConn.map lib.rewritten := by
  cases s <;> cases k <;> cases toConn <;> cases fromConn <;> exact ⟨rfl, rfl, rfl, rfl⟩

end EdgeLibraries

/-! ## Libraries for headers of strings -/

namespace FlatJson

open Zeron.Lib.JsonString (quote readString)

/-- Strings are kept; other values stand for a number without a text. -/
def rewritten : JsonValue → JsonValue
  | .string s => .string s
  | _ => .null

def valueText : JsonValue → List Char
  | .string s => quote s.toList
  | _ => ['n', 'u', 'l', 'l']

def memberText (key : String) (value : JsonValue) : List Char :=
  quote key.toList ++ ':' :: valueText value

def membersText : List (String × JsonValue) → List Char
  | [] => ['}']
  | [(key, value)] => memberText key value ++ ['}']
  | (key, value) :: rest => memberText key value ++ ',' :: membersText rest

def readValue : List Char → Option (JsonValue × List Char)
  | '"' :: cs => (readString cs).map fun (s, cs) => (.string (.ofList s), cs)
  | 'n' :: 'u' :: 'l' :: 'l' :: cs => some (.null, cs)
  | _ => none

def readMember : List Char → Option ((String × JsonValue) × List Char)
  | '"' :: cs =>
      match readString cs with
      | some (key, ':' :: cs) => (readValue cs).map fun (value, cs) => ((.ofList key, value), cs)
      | _ => none
  | _ => none

def readMembers : Nat → List Char → Option (List (String × JsonValue))
  | 0, _ => none
  | fuel + 1, cs =>
      match readMember cs with
      | some (member, ',' :: cs) => (readMembers fuel cs).map (member :: ·)
      | some (member, ['}']) => some [member]
      | _ => none

def parse (text : String) : Option JsonValue :=
  match text.toList with
  | ['\x7b', '}'] => some (.object [])
  | '\x7b' :: cs => (readMembers cs.length cs).map .object
  | _ => none

theorem readString_quote (cs rest : List Char) :
    ∃ body, quote cs ++ rest = '"' :: body ∧ readString body = some (cs, rest) := by
  refine ⟨Zeron.Lib.JsonString.escape cs ++ '"' :: rest, by simp [quote], ?_⟩
  exact Zeron.Lib.JsonString.readString_escape cs rest

theorem readValue_valueText (value : JsonValue) (rest : List Char) :
    readValue (valueText value ++ rest) = some (rewritten value, rest) := by
  cases value with
  | string s =>
      obtain ⟨body, hbody, hread⟩ := readString_quote s.toList rest
      simp [valueText, hbody, readValue, hread, rewritten]
  | _ => rfl

theorem readMember_memberText (key : String) (value : JsonValue) (rest : List Char) :
    readMember (memberText key value ++ rest) = some ((key, rewritten value), rest) := by
  obtain ⟨body, hbody, hread⟩ := readString_quote key.toList (':' :: valueText value ++ rest)
  have hsplit : memberText key value ++ rest =
      quote key.toList ++ (':' :: valueText value ++ rest) := by
    simp [memberText]
  rw [hsplit, hbody]
  simp [readMember, hread, readValue_valueText]

theorem readMembers_membersText {members : List (String × JsonValue)} (hmembers : members ≠ [])
    {fuel : Nat} (hfuel : members.length ≤ fuel) :
    readMembers fuel (membersText members) =
      some (members.map fun (key, value) => (key, rewritten value)) := by
  induction members generalizing fuel with
  | nil => exact absurd rfl hmembers
  | cons member rest ih =>
      obtain ⟨fuel, rfl⟩ : ∃ n, fuel = n + 1 := ⟨fuel - 1, by simp at hfuel; omega⟩
      obtain ⟨key, value⟩ := member
      cases rest with
      | nil => simp [membersText, readMembers, readMember_memberText]
      | cons other rest =>
          have htail := ih (by simp) (by simpa using hfuel)
          simp [membersText, readMembers, readMember_memberText, htail]

theorem length_le_length_membersText (members : List (String × JsonValue)) :
    members.length ≤ (membersText members).length := by
  induction members with
  | nil => simp
  | cons member rest ih =>
      obtain ⟨key, value⟩ := member
      cases rest with
      | nil => simp [membersText]
      | cons other rest =>
          simp only [membersText, List.length_append, List.length_cons] at ih ⊢
          omega

theorem parse_membersText (members : List (String × JsonValue)) :
    parse (.ofList ('\x7b' :: membersText members)) =
      some (.object (members.map fun (key, value) => (key, rewritten value))) := by
  unfold parse
  rw [String.toList_ofList]
  cases members with
  | nil => rfl
  | cons member rest =>
      obtain ⟨body, hbody⟩ : ∃ body, membersText (member :: rest) = '"' :: body := by
        cases rest <;> exact ⟨_, rfl⟩
      have hread := readMembers_membersText (List.cons_ne_nil member rest)
        (length_le_length_membersText (member :: rest))
      rw [hbody] at hread ⊢
      exact congrArg (Option.map JsonValue.object) hread

/-- JSON on headers whose members are strings. -/
def libraries : EdgeLibraries where
  readVarString bytes :=
    match Zeron.Lib.Leb128.read bytes.length 1 0 bytes with
    | .error _ => none
    | .ok (len, rest) =>
        if rest.length < len then none
        else (decode? (rest.take len)).map fun text => (text, rest.drop len)
  parse := parse
  stringify members := .ofList ('\x7b' :: membersText members)
  rewritten := rewritten
  rewritten_string _ := rfl
  parse_stringify members _ := parse_membersText members
  readVarString_push text rest := by
    have hpos := List.length_pos_iff.mpr (Zeron.Lib.Leb128.uleb128_ne_nil (encode text).length)
    generalize hbytes : uleb128 (encode text).length ++ encode text ++ rest = bytes
    have hbudget : (encode text).length < 128 ^ bytes.length := by
      calc
        (encode text).length ≤ bytes.length := by
          rw [← hbytes, List.length_append, List.length_append]
          omega
        _ < 128 ^ bytes.length := Nat.lt_pow_self (by decide)
    have hread := Zeron.Lib.Leb128.read_uleb128 (encode text).length bytes.length 1 0
      (encode text ++ rest) (by rw [← hbytes, List.length_append, List.length_append]; omega)
    rw [← List.append_assoc, hbytes, if_pos hbudget] at hread
    simp [hread]

end FlatJson

/-! ## A header that is too long -/

namespace DeviceFrameHeader

open Zeron.Lib.JsonString (quote readString escape)

def expect (literal cs : List Char) : Option (List Char) :=
  if literal.isPrefixOf cs then some (cs.drop literal.length) else none

def readOptional (literal cs : List Char) : Option (Option (List Char) × List Char) :=
  match expect literal cs with
  | none => some (none, cs)
  | some cs => (readString cs).map fun (value, cs) => (some value, cs)

def text (header : DeviceFrameHeader) : List Char :=
  "\x7b\"s\":".toList ++ quote header.s.toList ++ ",\"k\":".toList ++ quote header.k.toList ++
    (header.toConn.elim [] fun conn => ",\"to\":".toList ++ quote conn.toList) ++
    (header.fromConn.elim [] fun conn => ",\"from\":".toList ++ quote conn.toList) ++ ['}']

def read (cs : List Char) : Option DeviceFrameHeader := do
  let cs ← expect "\x7b\"s\":\"".toList cs
  let (s, cs) ← readString cs
  let cs ← expect ",\"k\":\"".toList cs
  let (k, cs) ← readString cs
  let (toConn, cs) ← readOptional ",\"to\":\"".toList cs
  let (fromConn, cs) ← readOptional ",\"from\":\"".toList cs
  let cs ← expect ['}'] cs
  if cs = [] then
    some
      { s := .ofList s
        k := .ofList k
        toConn := toConn.map .ofList
        fromConn := fromConn.map .ofList }
  else none

theorem expect_append (literal cs : List Char) : expect literal (literal ++ cs) = some cs := by
  simp [expect]

theorem expect_quote (literal opening : List Char)
    (hopening : opening = literal ++ ['"']) (value cs : List Char) :
    ∃ mid, expect opening (literal ++ (quote value ++ cs)) = some mid ∧
      readString mid = some (value, cs) := by
  have hsplit : literal ++ (quote value ++ cs) = opening ++ (escape value ++ '"' :: cs) := by
    simp [hopening, quote]
  exact ⟨_, by rw [hsplit, expect_append], Zeron.Lib.JsonString.readString_escape value cs⟩

theorem readOptional_elim (literal opening : List Char) (hopening : opening = literal ++ ['"'])
    (conn : Option String) (cs : List Char) (hcs : expect opening cs = none) :
    readOptional opening (conn.elim [] (fun conn => literal ++ quote conn.toList) ++ cs) =
      some (conn.map String.toList, cs) := by
  cases conn with
  | none => simp [readOptional, hcs]
  | some conn =>
      obtain ⟨mid, hmid, hread⟩ := expect_quote literal opening hopening conn.toList cs
      rw [Option.elim_some, List.append_assoc, readOptional, hmid]
      simp [hread]

theorem read_text (header : DeviceFrameHeader) : read header.text = some header := by
  obtain ⟨s, k, toConn, fromConn⟩ := header
  -- The four members, each followed by what comes after it.
  have hfrom := readOptional_elim ",\"from\":".toList ",\"from\":\"".toList rfl fromConn ['}'] rfl
  have hto := readOptional_elim ",\"to\":".toList ",\"to\":\"".toList rfl toConn
    ((fromConn.elim [] fun conn => ",\"from\":".toList ++ quote conn.toList) ++ ['}'])
    (by cases fromConn <;> rfl)
  obtain ⟨midk, hmidk, hk⟩ := expect_quote ",\"k\":".toList ",\"k\":\"".toList rfl k.toList
    ((toConn.elim [] fun conn => ",\"to\":".toList ++ quote conn.toList) ++
      ((fromConn.elim [] fun conn => ",\"from\":".toList ++ quote conn.toList) ++ ['}']))
  obtain ⟨mids, hmids, hs⟩ := expect_quote "\x7b\"s\":".toList "\x7b\"s\":\"".toList rfl s.toList _
  unfold read text
  simp only [List.append_assoc]
  rw [hmids]
  simp only [Option.bind_eq_bind, Option.bind_some, hs]
  rw [hmidk]
  simp only [Option.bind_some, hk]
  rw [hto]
  simp only [Option.bind_some]
  rw [hfrom]
  simp [expect, Option.map_map, Function.comp_def]

def json : HeaderJson where
  toVec header := .ofList header.text
  fromSlice bytes :=
    match decode? bytes with
    | none => .error "invalid unicode code point"
    | some text =>
        match read text.toList with
        | none => .error "invalid header"
        | some header => .ok header
  fromSlice_toVec header := by
    simp only [Zeron.Lib.Utf8.decode?_encode, String.toList_ofList, read_text]

theorem toList_toVec (header : DeviceFrameHeader) : (json.toVec header).toList = header.text :=
  String.toList_ofList

theorem length_le_append (left middle right : List Char) :
    middle.length ≤ (left ++ (middle ++ right)).length := by
  simp only [List.length_append]
  omega

theorem length_quote (cs : List Char) : (quote cs).length = (escape cs).length + 2 := by
  simp [quote]

theorem length_le_length_toVec (header : DeviceFrameHeader) :
    header.s.toList.length ≤ (encode (json.toVec header)).length := by
  calc
    header.s.toList.length ≤ (escape header.s.toList).length :=
      Zeron.Lib.JsonString.length_le_length_escape _
    _ ≤ (quote header.s.toList).length := by
      rw [length_quote]
      omega
    _ ≤ header.text.length := by
      obtain ⟨left, right, htext⟩ : ∃ left right,
          header.text = left ++ (quote header.s.toList ++ right) := by
        refine ⟨"\x7b\"s\":".toList, ?_⟩
        unfold text
        rw [List.append_assoc, List.append_assoc, List.append_assoc, List.append_assoc,
          List.append_assoc]
        exact Exists.intro _ rfl
      rw [htext]
      exact length_le_append _ _ _
    _ = (json.toVec header).toList.length := congrArg List.length (toList_toVec header).symm
    _ ≤ (encode (json.toVec header)).length := Zeron.Lib.Utf8.length_le_length_encode _

/-- A stream id of `n` letters. -/
def padded (n : Nat) : DeviceFrameHeader :=
  { s := .ofList (List.replicate n 'a'), k := "rpc", toConn := none, fromConn := none }

theorem length_le_length_padded (n : Nat) : n ≤ (encode (json.toVec (padded n))).length := by
  have hle := length_le_length_toVec (padded n)
  rwa [padded, String.toList_ofList, List.length_replicate] at hle

/-- A stream id of 32 GiB is written and not read back. -/
theorem long_not_read_back :
    ¬∀ header payload, json.decodeDeviceFrame (json.encodeDeviceFrame header payload) =
      .ok (header, payload) := by
  intro h
  generalize hn : 2 ^ 35 = n
  have hlength : ¬(encode (json.toVec (padded n))).length < 2 ^ 35 := by
    rw [hn]
    exact Nat.not_lt.mpr (length_le_length_padded n)
  have hlong := h (padded n) []
  rw [HeaderJson.decodeDeviceFrame_encode, if_neg hlength] at hlong
  cases hlong

end DeviceFrameHeader

end Zeron.Wire
