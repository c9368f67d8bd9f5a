import Zeron.Lib.ByteReads

/-!
# Chat wire frames

`encode` and `decode` of `crates/sync/src/chat_frames.rs`, `encodeFrame` and `decodeFrame` of
`edge/src/chat-frames.ts`, and `ChatWire` of `apps/ios/Zeron/Sync/ChatFrames.swift`: three codecs for
one layout, a type byte, four bytes of header length, the header as JSON, the payload.

A decoder's outer `none` is a read outside the input, its inner `none` a rejected frame. The JSON
libraries are parameters; that they agree on every text is part of the interface. How the bytes of
the header become a text is not, and there the three differ.
-/

namespace Zeron.Wire

open Zeron.Lib (Bytes)
open Zeron.Lib.Utf8 (encode decode? decodeLossy)

/-- The byte order mark. -/
def mark : Char := '\uFEFF'

/-- `serde_json`, `JSON.parse` with `JSON.stringify`, and `JSONSerialization`, with header values in
`J`. -/
structure JsonLibraries (J : Type) where
  /-- The common answer to a text. -/
  parse : String → Option J
  isObject : J → Bool
  /-- The answer of `JSONSerialization` to bytes that are no UTF-8 text. -/
  parseForeign : Bytes → Option J
  toVec : J → String
  stringify : J → String
  dataWithJSONObject : J → Option String
  /-- The mark is no white space of JSON. -/
  parse_mark : ∀ text, parse (.ofList (mark :: text)) = none
  parse_toVec : ∀ header, isObject header → parse (toVec header) = some header
  parse_stringify : ∀ header, isObject header → parse (stringify header) = some header
  parse_data : ∀ header, isObject header →
    ∃ text, dataWithJSONObject header = some text ∧ parse text = some header

structure WireFrame (J : Type) where
  kind : UInt8
  header : J
  payload : Bytes

/-- `FRAME`: the types 0x01 to 0x0b, the same in the three sources. -/
def knownTypes : List UInt8 := [0x01, 0x02, 0x03, 0x04, 0x05, 0x06, 0x07, 0x08, 0x09, 0x0a, 0x0b]

def maxHeaderBytes : Nat := 4096

variable {bytes : Bytes}

variable {kind : UInt8}

namespace JsonLibraries

variable {J : Type} (lib : JsonLibraries J)

/-! ## From bytes to a header -/

/-- `serde_json::from_slice`: strict UTF-8. -/
def fromSlice (bytes : Bytes) : Option J := (decode? bytes).bind lib.parse

/-- `TextDecoder` as constructed: one leading mark is dropped, malformed parts are replaced. -/
def textDecode (bytes : Bytes) : String :=
  match (decodeLossy bytes).toList with
  | c :: rest => if c = mark then .ofList rest else .ofList (c :: rest)
  | [] => ""

def jsonParse (bytes : Bytes) : Option J := lib.parse (textDecode bytes)

def jsonObject (bytes : Bytes) : Option J :=
  match decode? bytes with
  | some text => lib.parse text
  | none => lib.parseForeign bytes

/-! ## The encoders -/

/-- `[type u8][headerLen u32 LE][header JSON][payload]`; the length is cut to 32 bits. -/
def layout (kind : UInt8) (header payload : Bytes) : Bytes :=
  kind :: (Bytes.u32le header.length ++ header ++ payload)

def encodeRust (kind : UInt8) (header : J) (payload : Bytes) : Bytes :=
  layout kind (encode (lib.toVec header)) payload

def encodeTs (kind : UInt8) (header : J) (payload : Bytes) : Bytes :=
  layout kind (encode (lib.stringify header)) payload

/-- `none`: the conversion to `UInt32` traps. -/
def encodeSwift (kind : UInt8) (header : J) (payload : Bytes) : Option Bytes :=
  let headerData := encode ((lib.dataWithJSONObject header).getD "\x7b\x7d")
  if headerData.length < 4294967296 then some (layout kind headerData payload) else none

/-! ## The decoders -/

/-- The steps after the length, the same in the three sources but for the reader of the header. -/
def decodeRest (read : Bytes → Option J) (bytes : Bytes) (kind : UInt8) (headerLen : Nat) :
    Option (Option (WireFrame J)) :=
  if maxHeaderBytes < headerLen ∨ bytes.length < 5 + headerLen then some none
  else
    (bytes.slice 5 (5 + headerLen)).bind fun headerBytes =>
      match read headerBytes with
      | none => some none
      | some header =>
          if lib.isObject header then
            (bytes.slice (5 + headerLen) bytes.length).bind fun payload =>
              some (some { kind, header, payload })
          else some none

def decodeRust (bytes : Bytes) : Option (Option (WireFrame J)) :=
  if bytes.length < 5 then some none
  else do
    let kind ← bytes.byteAt 0
    let headerLen ← bytes.readU32le 1
    lib.decodeRest lib.fromSlice bytes kind headerLen

def decodeTs (bytes : Bytes) : Option (Option (WireFrame J)) :=
  if bytes.length < 5 then some none
  else do
    let kind ← bytes.byteAt 0
    if kind ∉ knownTypes then some none
    else
      let headerLen ← bytes.readU32le 1
      lib.decodeRest lib.jsonParse bytes kind headerLen

def decodeSwift (bytes : Bytes) : Option (Option (WireFrame J)) :=
  if bytes.length < 5 then some none
  else do
    let head : Bytes := bytes.take 5
    let kind ← head.byteAt 0
    let headerLen ← head.readU32le 1
    lib.decodeRest lib.jsonObject bytes kind headerLen

/-! ## What the decoders share -/

/-- The type, the header's bytes and the payload of a frame whose lengths are right. -/
def sections : Bytes → Option (UInt8 × Bytes × Bytes)
  | kind :: b₀ :: b₁ :: b₂ :: b₃ :: rest =>
      let headerLen := Bytes.ofU32le b₀ b₁ b₂ b₃
      if headerLen ≤ maxHeaderBytes ∧ headerLen ≤ rest.length then
        some (kind, rest.take headerLen, rest.drop headerLen)
      else none
  | _ => none

def framed (kind : UInt8) (payload : Bytes) (parsed : Option J) : Option (WireFrame J) :=
  (parsed.filter lib.isObject).map fun header => { kind, header, payload }

theorem sections_eq_none_of_lt (h : bytes.length < 5) : sections bytes = none := by
  match bytes, h with
  | [], _ | [_], _ | [_, _], _ | [_, _, _], _ | [_, _, _, _], _ => rfl

theorem exists_cons_of_le (h : 5 ≤ bytes.length) :
    ∃ kind b₀ b₁ b₂ b₃ rest, bytes = kind :: b₀ :: b₁ :: b₂ :: b₃ :: rest := by
  match bytes, h with
  | kind :: b₀ :: b₁ :: b₂ :: b₃ :: rest, _ => exact ⟨kind, b₀, b₁, b₂, b₃, rest, rfl⟩

/-- No read of the last steps leaves the input, and what they accept is the framed header. -/
theorem decodeRest_eq (read : Bytes → Option J) (kind b₀ b₁ b₂ b₃ : UInt8) (rest : Bytes) :
    lib.decodeRest read (kind :: b₀ :: b₁ :: b₂ :: b₃ :: rest) kind (Bytes.ofU32le b₀ b₁ b₂ b₃) =
      some ((sections (kind :: b₀ :: b₁ :: b₂ :: b₃ :: rest)).bind fun (kind, header, payload) =>
        lib.framed kind payload (read header)) := by
  generalize hlen : Bytes.ofU32le b₀ b₁ b₂ b₃ = headerLen
  unfold decodeRest
  by_cases hfits : headerLen ≤ maxHeaderBytes ∧ headerLen ≤ rest.length
  · obtain ⟨hmax, hrest⟩ := hfits
    have hsections : sections (kind :: b₀ :: b₁ :: b₂ :: b₃ :: rest) =
        some (kind, rest.take headerLen, rest.drop headerLen) := by
      simp only [sections, hlen]
      rw [if_pos ⟨hmax, hrest⟩]
    have hslice : Bytes.slice (kind :: b₀ :: b₁ :: b₂ :: b₃ :: rest) 5 (5 + headerLen) =
        some (rest.take headerLen) := by
      rw [Bytes.slice_of_le (by omega) (by simp only [List.length_cons]; omega),
        Nat.add_sub_cancel_left]
      rfl
    have hpayload : Bytes.slice (kind :: b₀ :: b₁ :: b₂ :: b₃ :: rest) (5 + headerLen)
        (kind :: b₀ :: b₁ :: b₂ :: b₃ :: rest).length = some (rest.drop headerLen) := by
      rw [Bytes.slice_of_le (by simp only [List.length_cons]; omega) (Nat.le_refl _),
        ← List.length_drop, List.take_length, Nat.add_comm 5 headerLen]
      rfl
    rw [if_neg (by simp only [List.length_cons]; omega), hsections, hslice, hpayload]
    simp only [Option.bind_some, framed]
    cases read (rest.take headerLen) with
    | none => rfl
    | some header =>
        by_cases hobject : lib.isObject header <;> simp [Option.filter, hobject]
  · have hsections : sections (kind :: b₀ :: b₁ :: b₂ :: b₃ :: rest) = none := by
      simp only [sections, hlen]
      rw [if_neg hfits]
    rw [if_pos (by simp only [List.length_cons]; omega), hsections]
    rfl

theorem decodeRust_eq (bytes : Bytes) :
    lib.decodeRust bytes = some ((sections bytes).bind fun (kind, header, payload) =>
      lib.framed kind payload (lib.fromSlice header)) := by
  unfold decodeRust
  by_cases hlength : bytes.length < 5
  · rw [if_pos hlength, sections_eq_none_of_lt hlength]
    rfl
  · rw [if_neg hlength]
    obtain ⟨kind, b₀, b₁, b₂, b₃, rest, rfl⟩ := exists_cons_of_le (Nat.not_lt.mp hlength)
    exact lib.decodeRest_eq lib.fromSlice kind b₀ b₁ b₂ b₃ rest

theorem decodeSwift_eq (bytes : Bytes) :
    lib.decodeSwift bytes = some ((sections bytes).bind fun (kind, header, payload) =>
      lib.framed kind payload (lib.jsonObject header)) := by
  unfold decodeSwift
  by_cases hlength : bytes.length < 5
  · rw [if_pos hlength, sections_eq_none_of_lt hlength]
    rfl
  · rw [if_neg hlength]
    obtain ⟨kind, b₀, b₁, b₂, b₃, rest, rfl⟩ := exists_cons_of_le (Nat.not_lt.mp hlength)
    exact lib.decodeRest_eq lib.jsonObject kind b₀ b₁ b₂ b₃ rest

theorem decodeTs_eq (bytes : Bytes) :
    lib.decodeTs bytes = some ((sections bytes).bind fun (kind, header, payload) =>
      if kind ∈ knownTypes then lib.framed kind payload (lib.jsonParse header) else none) := by
  unfold decodeTs
  by_cases hlength : bytes.length < 5
  · rw [if_pos hlength, sections_eq_none_of_lt hlength]
    rfl
  · rw [if_neg hlength]
    obtain ⟨kind, b₀, b₁, b₂, b₃, rest, rfl⟩ := exists_cons_of_le (Nat.not_lt.mp hlength)
    change (if kind ∉ knownTypes then some none else lib.decodeRest lib.jsonParse _ kind
      (Bytes.ofU32le b₀ b₁ b₂ b₃)) = _
    have hkind : ∀ found, sections (kind :: b₀ :: b₁ :: b₂ :: b₃ :: rest) = some found →
        found.1 = kind := by
      intro found hfound
      simp only [sections, Option.ite_none_right_eq_some, Option.some.injEq] at hfound
      rw [← hfound.2]
    by_cases hknown : kind ∈ knownTypes
    · rw [if_neg (not_not.mpr hknown), lib.decodeRest_eq]
      cases hsections : sections (kind :: b₀ :: b₁ :: b₂ :: b₃ :: rest) with
      | none => rfl
      | some found =>
          have hmem : found.1 ∈ knownTypes := hkind found hsections ▸ hknown
          simp [hmem]
    · rw [if_pos hknown]
      cases hsections : sections (kind :: b₀ :: b₁ :: b₂ :: b₃ :: rest) with
      | none => rfl
      | some found =>
          have hmem : found.1 ∉ knownTypes := hkind found hsections ▸ hknown
          simp [hmem]

/-! ## Round trips -/

theorem sections_layout (kind : UInt8) (header payload : Bytes)
    (hfits : header.length ≤ maxHeaderBytes) :
    sections (layout kind header payload) = some (kind, header, payload) := by
  have hlen := Bytes.ofU32le_u32le (n := header.length) (by unfold maxHeaderBytes at hfits; omega)
  have hlayout : layout kind header payload =
      kind :: .ofNat header.length :: .ofNat (header.length / 256) ::
        .ofNat (header.length / 65536) :: .ofNat (header.length / 16777216) ::
          (header ++ payload) := rfl
  rw [hlayout, sections, hlen, if_pos ⟨hfits, by simp⟩, List.take_left, List.drop_left]

theorem framed_of_isObject (kind : UInt8) {header : J} (payload : Bytes)
    (hobject : lib.isObject header = true) :
    lib.framed kind payload (some header) = some { kind, header, payload } := by
  simp [framed, Option.filter, hobject]

theorem fromSlice_encode (text : String) : lib.fromSlice (encode text) = lib.parse text := by
  simp [fromSlice]

theorem jsonObject_encode (text : String) : lib.jsonObject (encode text) = lib.parse text := by
  simp [jsonObject]

theorem textDecode_of_decode? {text : String} (h : decode? bytes = some text)
    (hmark : ∀ rest, text ≠ .ofList (mark :: rest)) : textDecode bytes = text := by
  unfold textDecode
  rw [Zeron.Lib.Utf8.decodeLossy_of_decode? h]
  split
  · rename_i c rest htext
    have htext' : text = .ofList (c :: rest) := by rw [← htext, String.ofList_toList]
    rw [if_neg, htext']
    rintro rfl
    exact hmark rest htext'
  · rename_i htext
    exact (String.toList_eq_nil_iff.mp htext).symm

theorem textDecode_mark {rest : List Char}
    (h : decode? bytes = some (.ofList (mark :: rest))) : textDecode bytes = .ofList rest := by
  unfold textDecode
  rw [Zeron.Lib.Utf8.decodeLossy_of_decode? h, String.toList_ofList]
  exact if_pos rfl

theorem jsonParse_encode {text : String} {header : J} (h : lib.parse text = some header) :
    lib.jsonParse (encode text) = some header := by
  unfold jsonParse
  rw [textDecode_of_decode? (Zeron.Lib.Utf8.decode?_encode text), h]
  rintro rest rfl
  rw [lib.parse_mark] at h
  cases h

def Decodes (bytes : Bytes) (frame : WireFrame J) : Prop :=
  lib.decodeRust bytes = some (some frame) ∧ lib.decodeTs bytes = some (some frame) ∧
    lib.decodeSwift bytes = some (some frame)

theorem decodes_layout {text : String} {header : J} (payload : Bytes) (hknown : kind ∈ knownTypes)
    (hobject : lib.isObject header = true)
    (hparse : lib.parse text = some header) (hfits : (encode text).length ≤ maxHeaderBytes) :
    lib.Decodes (layout kind (encode text) payload) { kind, header, payload } := by
  have hsections := sections_layout kind (encode text) payload hfits
  have hframed := lib.framed_of_isObject kind payload hobject
  refine ⟨?_, ?_, ?_⟩
  · simp [decodeRust_eq, hsections, fromSlice_encode, hparse, hframed]
  · simp [decodeTs_eq, hsections, lib.jsonParse_encode hparse, hframed, hknown]
  · simp [decodeSwift_eq, hsections, jsonObject_encode, hparse, hframed]

/-! ## Agreement on every byte string -/

/-- The three decoders agree, but for frames of an unknown type, which TypeScript refuses. -/
structure Agree (bytes : Bytes) : Prop where
  swift : lib.decodeSwift bytes = lib.decodeRust bytes
  ts : lib.decodeTs bytes =
    (lib.decodeRust bytes).map fun frame => frame.filter fun frame => frame.kind ∈ knownTypes

def IsObject (parsed : Option J) : Prop := ∃ header, parsed = some header ∧ lib.isObject header

/-- The header is a text without a mark; or what TypeScript makes of it without the mark, or with
its malformed parts replaced, is no object, nor is what Swift makes of bytes that are no text. -/
def HeaderReadable (kind : UInt8) (header : Bytes) : Prop :=
  match decode? header with
  | some text =>
      ∀ rest, text = .ofList (mark :: rest) → kind ∈ knownTypes →
        ¬lib.IsObject (lib.parse (.ofList rest))
  | none =>
      (kind ∈ knownTypes → ¬lib.IsObject (lib.parse (textDecode header))) ∧
        ¬lib.IsObject (lib.parseForeign header)

def Readable (bytes : Bytes) : Prop :=
  ∀ kind header payload, sections bytes = some (kind, header, payload) →
    lib.HeaderReadable kind header

theorem framed_eq_none_iff {payload : Bytes} {parsed : Option J} :
    lib.framed kind payload parsed = none ↔ ¬lib.IsObject parsed := by
  cases parsed with
  | none => simp [framed, IsObject]
  | some header => by_cases h : lib.isObject header <;> simp [framed, IsObject, Option.filter, h]

theorem framed_kind {payload : Bytes} {parsed : Option J} {frame : WireFrame J}
    (h : lib.framed kind payload parsed = some frame) : frame.kind = kind := by
  obtain ⟨header, -, rfl⟩ := Option.map_eq_some_iff.mp h
  rfl

theorem filter_framed (kind : UInt8) (payload : Bytes) (parsed : Option J) :
    (lib.framed kind payload parsed).filter (fun frame => frame.kind ∈ knownTypes) =
      if kind ∈ knownTypes then lib.framed kind payload parsed else none := by
  cases hframed : lib.framed kind payload parsed with
  | none => simp
  | some frame => simp [Option.filter, lib.framed_kind hframed]

theorem agree_iff_of_sections {header payload : Bytes}
    (h : sections bytes = some (kind, header, payload)) :
    lib.Agree bytes ↔
      lib.framed kind payload (lib.jsonObject header) =
          lib.framed kind payload (lib.fromSlice header) ∧
        (kind ∈ knownTypes → lib.framed kind payload (lib.jsonParse header) =
          lib.framed kind payload (lib.fromSlice header)) := by
  have hts : lib.Agree bytes ↔ _ ∧ _ := ⟨fun h => ⟨h.swift, h.ts⟩, fun h => ⟨h.1, h.2⟩⟩
  rw [hts, decodeSwift_eq, decodeTs_eq, decodeRust_eq, h]
  simp only [Option.bind_some, Option.map_some, Option.some.injEq, filter_framed]
  refine and_congr_right fun _ => ?_
  by_cases hknown : kind ∈ knownTypes <;> simp [hknown]

theorem agree_iff_of_text {header payload : Bytes} {text : String}
    (h : sections bytes = some (kind, header, payload)) (htext : decode? header = some text) :
    lib.Agree bytes ↔ lib.HeaderReadable kind header := by
  rw [lib.agree_iff_of_sections h]
  have hrust : lib.fromSlice header = lib.parse text := by simp [fromSlice, htext]
  have hswift : lib.jsonObject header = lib.parse text := by simp [jsonObject, htext]
  simp only [hrust, hswift, true_and, HeaderReadable, htext, jsonParse]
  by_cases hmark : ∃ rest, text = .ofList (mark :: rest)
  · obtain ⟨rest, rfl⟩ := hmark
    have hnone : lib.framed kind payload (lib.parse (.ofList (mark :: rest))) = none := by
      rw [lib.parse_mark]
      rfl
    rw [textDecode_mark htext, hnone, framed_eq_none_iff]
    constructor
    · intro hobject other hother hknown
      obtain rfl : rest = other := List.cons_injective (String.ofList_injective hother)
      exact hobject hknown
    · intro hobject hknown
      exact hobject rest rfl hknown
  · have hrest : ∀ rest, text ≠ .ofList (mark :: rest) := fun rest htext => hmark ⟨rest, htext⟩
    rw [textDecode_of_decode? htext hrest]
    simp only [implies_true, true_iff]
    intro rest heq
    exact absurd heq (hrest rest)

theorem agree_iff_of_foreign {header payload : Bytes}
    (h : sections bytes = some (kind, header, payload)) (htext : decode? header = none) :
    lib.Agree bytes ↔ lib.HeaderReadable kind header := by
  rw [lib.agree_iff_of_sections h]
  have hrust : lib.framed kind payload (lib.fromSlice header) = none := by
    simp [fromSlice, htext, framed]
  have hswift : lib.jsonObject header = lib.parseForeign header := by simp [jsonObject, htext]
  simp only [hrust, hswift, framed_eq_none_iff, HeaderReadable, htext, jsonParse]
  exact and_comm

theorem agree_iff_readable (bytes : Bytes) : lib.Agree bytes ↔ lib.Readable bytes := by
  cases hsections : sections bytes with
  | none =>
      constructor
      · intro _ kind header payload h
        rw [hsections] at h
        cases h
      · intro _
        constructor <;> simp [decodeSwift_eq, decodeTs_eq, decodeRust_eq, hsections]
  | some found =>
      obtain ⟨kind, header, payload⟩ := found
      have hagree : lib.Agree bytes ↔ lib.HeaderReadable kind header := by
        cases htext : decode? header with
        | none => exact lib.agree_iff_of_foreign hsections htext
        | some text => exact lib.agree_iff_of_text hsections htext
      rw [hagree]
      constructor
      · intro hreadable kind' header' payload' h
        rw [hsections] at h
        cases h
        exact hreadable
      · intro hreadable
        exact hreadable kind header payload hsections

/-- **The codecs.** What an encoder writes for a header that fits is read back by all decoders; no
decoder reads outside its input; and the decoders agree exactly on the readable byte strings. -/
theorem codecs_agree_iff {J : Type} (lib : JsonLibraries J) :
    (∀ kind ∈ knownTypes, ∀ header payload, lib.isObject header = true →
      ((encode (lib.toVec header)).length ≤ maxHeaderBytes →
        lib.Decodes (lib.encodeRust kind header payload) { kind, header, payload }) ∧
      ((encode (lib.stringify header)).length ≤ maxHeaderBytes →
        lib.Decodes (lib.encodeTs kind header payload) { kind, header, payload }) ∧
      (∀ text, lib.dataWithJSONObject header = some text →
        (encode text).length ≤ maxHeaderBytes →
          ∃ bytes, lib.encodeSwift kind header payload = some bytes ∧
            lib.Decodes bytes { kind, header, payload })) ∧
    ∀ bytes, lib.decodeRust bytes ≠ none ∧ lib.decodeTs bytes ≠ none ∧
      lib.decodeSwift bytes ≠ none ∧ (lib.Agree bytes ↔ lib.Readable bytes) := by
  constructor
  · intro kind hknown header payload hobject
    refine ⟨?_, ?_, ?_⟩
    · exact lib.decodes_layout payload hknown hobject (lib.parse_toVec header hobject)
    · exact lib.decodes_layout payload hknown hobject (lib.parse_stringify header hobject)
    · intro text htext hfits
      obtain ⟨text', htext', hparse⟩ := lib.parse_data header hobject
      rw [htext] at htext'
      cases htext'
      refine ⟨layout kind (encode text) payload, ?_, ?_⟩
      · unfold maxHeaderBytes at hfits
        simp only [encodeSwift, htext, Option.getD_some]
        rw [if_pos (by omega)]
      · exact lib.decodes_layout payload hknown hobject hparse hfits
  · intro bytes
    refine ⟨?_, ?_, ?_, lib.agree_iff_readable bytes⟩
    · simp [decodeRust_eq]
    · simp [decodeTs_eq]
    · simp [decodeSwift_eq]

end JsonLibraries

/-! ## A byte that is no text -/

/-- Headers `{}` and `{"a":"?"}` with the replacement character for the question mark. -/
inductive Sample where
  | empty
  | gap
  deriving DecidableEq

namespace Sample

def text : Sample → String
  | .empty => "\x7b\x7d"
  | .gap => "\x7b\"a\":\"\uFFFD\"\x7d"

def parse (s : String) : Option Sample :=
  if s = text .empty then some .empty else if s = text .gap then some .gap else none

theorem parse_text (sample : Sample) : parse sample.text = some sample := by
  cases sample <;> decide

def libraries : JsonLibraries Sample where
  parse := parse
  isObject _ := true
  parseForeign _ := none
  toVec := text
  stringify := text
  dataWithJSONObject sample := some sample.text
  parse_mark rest := by
    have hne : ∀ sample, String.ofList (mark :: rest) ≠ text sample := by
      intro sample h
      have hhead := congrArg (fun s => s.toList.head?) h
      cases sample <;> simp [mark, text] at hhead
    rw [parse, if_neg (hne .empty), if_neg (hne .gap)]
  parse_toVec sample _ := parse_text sample
  parse_stringify sample _ := parse_text sample
  parse_data sample _ := ⟨sample.text, rfl, parse_text sample⟩

/-- A push whose header is `{"a":"?"}` with the byte 0xff for the question mark. -/
def torn : Bytes := [0x06, 9, 0, 0, 0, 0x7b, 0x22, 0x61, 0x22, 0x3a, 0x22, 0xff, 0x22, 0x7d]

/-- TypeScript accepts it with a replaced character, Rust refuses it. -/
theorem torn_splits_codecs : ¬∀ bytes, libraries.Agree bytes := by
  intro h
  have hts : (libraries.decodeTs torn).map Option.isSome = some true := by decide
  have hrust : (libraries.decodeRust torn).map Option.isSome = some false := by decide
  obtain ⟨frame, hframe, hnone⟩ := Option.map_eq_some_iff.mp hrust
  rw [(h torn).ts, hframe] at hts
  cases frame with
  | none => simp at hts
  | some frame => simp at hnone

end Sample

end Zeron.Wire
