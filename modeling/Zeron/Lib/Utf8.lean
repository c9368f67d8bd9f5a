import Mathlib.Data.List.Basic

/-!
# UTF-8

The encoding of a string, and the decoder of the Encoding Standard: a machine fed one byte at a
time, which answers each maximal malformed part by one gap. A strict reader refuses a text with a
gap, a lossy one writes the replacement character there. Both read back what was encoded.
-/

namespace Zeron.Lib

abbrev Bytes : Type := List UInt8

namespace Utf8

def encodeChar (c : Char) : Bytes :=
  if c.toNat < 0x80 then [.ofNat c.toNat]
  else if c.toNat < 0x800 then
    [.ofNat (0xC0 + c.toNat / 64), .ofNat (0x80 + c.toNat % 64)]
  else if c.toNat < 0x10000 then
    [.ofNat (0xE0 + c.toNat / 4096), .ofNat (0x80 + c.toNat / 64 % 64),
      .ofNat (0x80 + c.toNat % 64)]
  else
    [.ofNat (0xF0 + c.toNat / 262144), .ofNat (0x80 + c.toNat / 4096 % 64),
      .ofNat (0x80 + c.toNat / 64 % 64), .ofNat (0x80 + c.toNat % 64)]

def encode (s : String) : Bytes := s.toList.flatMap encodeChar

def utf8Len (text : List Char) : Nat := (text.flatMap encodeChar).length

/-- Inside a character: how many bytes are missing, the code point so far, and the range the next
byte must lie in. Nothing is missing between characters. -/
structure Pending where
  needed : Nat
  code : Nat
  lower : Nat
  upper : Nat

namespace Pending

def idle : Pending := { needed := 0, code := 0, lower := 0x80, upper := 0xBF }

/-- A byte between characters. -/
def start (byte : UInt8) : List (Option Char) × Pending :=
  let b := byte.toNat
  if b < 0x80 then ([some (.ofNat b)], idle)
  else if b < 0xC2 then ([none], idle)
  else if b < 0xE0 then ([], { needed := 1, code := b - 0xC0, lower := 0x80, upper := 0xBF })
  else if b < 0xF0 then
    -- No overlong forms and no surrogates.
    ([], { needed := 2, code := b - 0xE0
           lower := if b = 0xE0 then 0xA0 else 0x80
           upper := if b = 0xED then 0x9F else 0xBF })
  else if b < 0xF5 then
    ([], { needed := 3, code := b - 0xF0
           lower := if b = 0xF0 then 0x90 else 0x80
           upper := if b = 0xF4 then 0x8F else 0xBF })
  else ([none], idle)

/-- A byte that does not continue the character closes it by a gap and is read again. -/
def feed (pending : Pending) (byte : UInt8) : List (Option Char) × Pending :=
  if pending.needed = 0 then start byte
  else if byte.toNat < pending.lower ∨ pending.upper < byte.toNat then
    (none :: (start byte).1, (start byte).2)
  else
    let code := pending.code * 64 + (byte.toNat - 0x80)
    if pending.needed = 1 then ([some (.ofNat code)], idle)
    else ([], { needed := pending.needed - 1, code, lower := 0x80, upper := 0xBF })

end Pending

def scan : Pending → Bytes → List (Option Char)
  | pending, [] => if pending.needed = 0 then [] else [none]
  | pending, byte :: bytes => (pending.feed byte).1 ++ scan (pending.feed byte).2 bytes

/-- The characters of a text, with its gaps. -/
def units (bytes : Bytes) : List (Option Char) := scan .idle bytes

def decode? (bytes : Bytes) : Option String :=
  if none ∈ units bytes then none else some (.ofList ((units bytes).filterMap id))

def replacement : Char := '\uFFFD'

def decodeLossy (bytes : Bytes) : String :=
  .ofList ((units bytes).map fun unit => unit.getD replacement)

/-! ## Reading back -/

theorem toNat_ofNat {n : Nat} (h : n < 256) : (UInt8.ofNat n).toNat = n := by
  simp only [UInt8.toNat_ofNat']
  omega

theorem toNat_le (c : Char) : c.toNat < 0x110000 ∧ ¬(0xD800 ≤ c.toNat ∧ c.toNat < 0xE000) := by
  have hvalid := c.valid
  simp only [UInt32.isValidChar, Nat.isValidChar] at hvalid
  change c.val.toNat < 0x110000 ∧ ¬(0xD800 ≤ c.val.toNat ∧ c.val.toNat < 0xE000)
  omega

/-- A byte in range continues the character. -/
theorem feed_continue {needed code lower upper m : Nat} {byte : UInt8}
    (hbyte : byte.toNat = 0x80 + m) (hlower : lower ≤ 0x80 + m) (hupper : 0x80 + m ≤ upper) :
    Pending.feed { needed := needed + 1, code, lower, upper } byte =
      if needed = 0 then ([some (.ofNat (code * 64 + m))], .idle)
      else ([], { needed, code := code * 64 + m, lower := 0x80, upper := 0xBF }) := by
  unfold Pending.feed
  have hrange : ¬(0x80 + m < lower ∨ upper < 0x80 + m) := by omega
  simp only [hbyte, Nat.add_sub_cancel_left, if_neg hrange, Nat.add_sub_cancel]
  rw [if_neg (by omega)]
  congr 1
  simp

/-- The last byte of a character. -/
theorem scan_last {code lower upper m : Nat} (hm : m < 64) (hlower : lower ≤ 0x80 + m)
    (hupper : 0x80 + m ≤ upper) (bytes : Bytes) :
    scan { needed := 1, code, lower, upper } (.ofNat (0x80 + m) :: bytes) =
      some (.ofNat (code * 64 + m)) :: scan .idle bytes := by
  rw [scan, feed_continue (toNat_ofNat (by omega)) hlower hupper, if_pos rfl]
  rfl

/-- A byte after which the character still lacks some. -/
theorem scan_more (needed : Nat) {code lower upper m : Nat} (hm : m < 64) (hlower : lower ≤ 0x80 + m)
    (hupper : 0x80 + m ≤ upper) (bytes : Bytes) :
    scan { needed := needed + 2, code, lower, upper } (.ofNat (0x80 + m) :: bytes) =
      scan { needed := needed + 1, code := code * 64 + m, lower := 0x80, upper := 0xBF } bytes := by
  rw [scan, feed_continue (toNat_ofNat (by omega)) hlower hupper, if_neg (by omega)]
  rfl

theorem scan_idle_cons (byte : UInt8) (bytes : Bytes) :
    scan .idle (byte :: bytes) = (Pending.start byte).1 ++ scan (Pending.start byte).2 bytes := rfl

theorem start_one {n : Nat} (h : n < 0x80) :
    Pending.start (.ofNat n) = ([some (.ofNat n)], .idle) := by
  simp [Pending.start, toNat_ofNat (show n < 256 by omega), h]

theorem start_two {n : Nat} (hlow : 2 ≤ n) (hhigh : n < 0x20) :
    Pending.start (.ofNat (0xC0 + n)) =
      ([], { needed := 1, code := n, lower := 0x80, upper := 0xBF }) := by
  have hbyte : (UInt8.ofNat (0xC0 + n)).toNat = 0xC0 + n := toNat_ofNat (by omega)
  simp only [Pending.start, hbyte]
  rw [if_neg (by omega), if_neg (by omega), if_pos (by omega), Nat.add_sub_cancel_left]

theorem start_three {n : Nat} (hhigh : n < 0x10) :
    Pending.start (.ofNat (0xE0 + n)) =
      ([], { needed := 2, code := n, lower := if n = 0 then 0xA0 else 0x80
             upper := if n = 0xD then 0x9F else 0xBF }) := by
  have hbyte : (UInt8.ofNat (0xE0 + n)).toNat = 0xE0 + n := toNat_ofNat (by omega)
  have hzero : 0xE0 + n = 0xE0 ↔ n = 0 := by omega
  have hthirteen : 0xE0 + n = 0xED ↔ n = 0xD := by omega
  simp only [Pending.start, hbyte, hzero, hthirteen]
  rw [if_neg (by omega), if_neg (by omega), if_neg (by omega), if_pos (by omega),
    Nat.add_sub_cancel_left]

theorem start_four {n : Nat} (hhigh : n < 5) :
    Pending.start (.ofNat (0xF0 + n)) =
      ([], { needed := 3, code := n, lower := if n = 0 then 0x90 else 0x80
             upper := if n = 4 then 0x8F else 0xBF }) := by
  have hbyte : (UInt8.ofNat (0xF0 + n)).toNat = 0xF0 + n := toNat_ofNat (by omega)
  have hzero : 0xF0 + n = 0xF0 ↔ n = 0 := by omega
  have hfour : 0xF0 + n = 0xF4 ↔ n = 4 := by omega
  simp only [Pending.start, hbyte, hzero, hfour]
  rw [if_neg (by omega), if_neg (by omega), if_neg (by omega), if_neg (by omega),
    if_pos (by omega), Nat.add_sub_cancel_left]

theorem scan_encodeChar (c : Char) (bytes : Bytes) :
    scan .idle (encodeChar c ++ bytes) = some c :: scan .idle bytes := by
  obtain ⟨hlt, hsurrogate⟩ := toNat_le c
  have hchar : Char.ofNat c.toNat = c := Char.ofNat_toNat c
  unfold encodeChar
  split_ifs with h1 h2 h3
  · rw [List.singleton_append, scan_idle_cons, start_one h1, hchar]
    rfl
  · rw [List.cons_append, scan_idle_cons, start_two (by omega) (by omega)]
    change scan _ (_ :: bytes) = _
    rw [scan_last (by omega) (by omega) (by omega)]
    have hcode : c.toNat / 64 * 64 + c.toNat % 64 = c.toNat := by omega
    rw [hcode, hchar]
  · rw [List.cons_append, scan_idle_cons, start_three (by omega)]
    change scan _ (_ :: _ :: bytes) = _
    -- The two narrowed ranges exclude what a shorter form or a surrogate would need.
    rw [scan_more 0 (by omega) (by split <;> omega) (by split <;> omega),
      scan_last (by omega) (by omega) (by omega)]
    have hcode : (c.toNat / 4096 * 64 + c.toNat / 64 % 64) * 64 + c.toNat % 64 = c.toNat := by
      omega
    rw [hcode, hchar]
  · rw [List.cons_append, scan_idle_cons, start_four (by omega)]
    change scan _ (_ :: _ :: _ :: bytes) = _
    rw [scan_more 1 (by omega) (by split <;> omega) (by split <;> omega),
      scan_more 0 (by omega) (by omega) (by omega),
      scan_last (by omega) (by omega) (by omega)]
    have hcode : ((c.toNat / 262144 * 64 + c.toNat / 4096 % 64) * 64 + c.toNat / 64 % 64) * 64 +
        c.toNat % 64 = c.toNat := by omega
    rw [hcode, hchar]

theorem units_encodeChars (chars : List Char) (bytes : Bytes) :
    units (chars.flatMap encodeChar ++ bytes) = chars.map some ++ units bytes := by
  induction chars with
  | nil => rfl
  | cons c chars ih =>
      rw [List.flatMap_cons, List.append_assoc, units, scan_encodeChar]
      exact congrArg (some c :: ·) ih

theorem units_encode (s : String) : units (encode s) = s.toList.map some := by
  have h := units_encodeChars s.toList []
  rwa [List.append_nil, show units [] = [] from rfl, List.append_nil] at h

@[simp]
theorem decode?_encode (s : String) : decode? (encode s) = some s := by
  unfold decode?
  rw [units_encode, if_neg (by simp)]
  simp [List.filterMap_map, String.ofList_toList]

/-- A text without gaps reads the same to both readers. -/
theorem decodeLossy_of_decode? {bytes : Bytes} {s : String} (h : decode? bytes = some s) :
    decodeLossy bytes = s := by
  unfold decode? at h
  split_ifs at h with hgap
  cases h
  unfold decodeLossy
  congr 1
  have hall : ∀ us : List (Option Char), none ∉ us →
      us.map (fun unit => unit.getD replacement) = us.filterMap id := by
    intro us
    induction us with
    | nil => intro _; rfl
    | cons unit us ih =>
        intro hmem
        rw [List.mem_cons, not_or] at hmem
        cases unit with
        | none => exact absurd rfl hmem.1
        | some c => simp [ih hmem.2]
  exact hall _ hgap

theorem length_le_length_encode (s : String) : s.toList.length ≤ (encode s).length := by
  have hchar : ∀ c, 1 ≤ (encodeChar c).length := by
    intro c
    unfold encodeChar
    split_ifs <;> simp
  unfold encode
  induction s.toList with
  | nil => simp
  | cons c cs ih =>
      rw [List.flatMap_cons, List.length_append, List.length_cons]
      have := hchar c
      omega

/-- An ASCII byte of an encoding is an ASCII character of the text. -/
theorem mem_of_ascii_mem_encode {s : String} {byte : UInt8} (hascii : byte.toNat < 0x80)
    (h : byte ∈ encode s) : Char.ofNat byte.toNat ∈ s.toList := by
  obtain ⟨c, hc, hbyte⟩ := List.mem_flatMap.mp h
  have hlt := (toNat_le c).1
  have hone : byte.toNat = c.toNat := by
    unfold encodeChar at hbyte
    split_ifs at hbyte with h1 h2 h3
    all_goals
      simp only [List.mem_cons, List.not_mem_nil, or_false] at hbyte
    · rw [hbyte, toNat_ofNat (by omega)]
    · obtain rfl | rfl := hbyte <;> rw [toNat_ofNat (by omega)] at hascii <;> omega
    · obtain rfl | rfl | rfl := hbyte <;> rw [toNat_ofNat (by omega)] at hascii <;> omega
    · obtain rfl | rfl | rfl | rfl := hbyte <;> rw [toNat_ofNat (by omega)] at hascii <;> omega
  rw [hone, Char.ofNat_toNat]
  exact hc

/-! ## Torn texts -/

theorem scan_ne_nil {pending : Pending} (h : pending.needed ≠ 0) (bytes : Bytes) :
    scan pending bytes ≠ [] := by
  induction bytes generalizing pending with
  | nil => simp [scan, h]
  | cons byte bytes ih =>
      unfold scan Pending.feed
      rw [if_neg h]
      split
      · simp
      · dsimp only
        split
        · simp
        · rename_i hneeded
          have hmore : ({ needed := pending.needed - 1
                          code := pending.code * 64 + (byte.toNat - 0x80)
                          lower := 0x80, upper := 0xBF } : Pending).needed ≠ 0 := by
            change pending.needed - 1 ≠ 0
            omega
          simpa using ih hmore

theorem start_emits_or_needs (byte : UInt8) :
    (Pending.start byte).1 ≠ [] ∨ (Pending.start byte).2.needed ≠ 0 := by
  simp only [Pending.start]
  split_ifs <;> simp

theorem units_ne_nil {bytes : Bytes} (h : bytes ≠ []) : units bytes ≠ [] := by
  cases bytes with
  | nil => exact absurd rfl h
  | cons byte bytes =>
      rw [units, scan_idle_cons]
      intro hnil
      obtain ⟨hemits, hscan⟩ := List.append_eq_nil_iff.mp hnil
      obtain hne | hneeds := start_emits_or_needs byte
      · exact hne hemits
      · exact scan_ne_nil hneeds bytes hscan

theorem scan_of_needed {pending : Pending} (h : pending.needed = 0) (bytes : Bytes) :
    scan pending bytes = units bytes := by
  cases bytes with
  | nil => simp [scan, units, Pending.idle, h]
  | cons byte bytes =>
      unfold units
      rw [scan, scan_idle_cons, Pending.feed, if_pos h]

/-- A text without gaps leaves the scanner between characters. -/
theorem scan_append {pending : Pending} {first : Bytes} (h : none ∉ scan pending first)
    (second : Bytes) : scan pending (first ++ second) = scan pending first ++ units second := by
  induction first generalizing pending with
  | nil =>
      have hneeded : pending.needed = 0 := by
        by_contra hne
        simp [scan, hne] at h
      rw [List.nil_append, scan_of_needed hneeded, scan_of_needed hneeded]
      rfl
  | cons byte bytes ih =>
      rw [scan, List.mem_append, not_or] at h
      rw [List.cons_append, scan, scan, ih h.2, List.append_assoc]

/-- What a strict reader makes of a torn text is a part of the text, and a proper one unless nothing
is missing. -/
theorem exists_append_of_decode?_take {text torn : String} {k : Nat}
    (h : decode? ((encode text).take k) = some torn) :
    ∃ rest, text.toList = torn.toList ++ rest ∧ (k < (encode text).length → rest ≠ []) := by
  unfold decode? at h
  split_ifs at h with hgap
  cases h
  have hunits : units ((encode text).take k) ++ units ((encode text).drop k)
      = text.toList.map some := by
    rw [← units_encode, ← List.take_append_drop k (encode text), List.take_append_drop]
    conv_rhs => rw [← List.take_append_drop k (encode text)]
    exact (scan_append hgap _).symm
  obtain ⟨read, rest, htext, hread, hrest⟩ := List.map_eq_append_iff.mp hunits.symm
  refine ⟨rest, ?_, fun hk hnil => ?_⟩
  · rw [← hread, htext]
    simp [List.filterMap_map]
  · have hdrop : (encode text).drop k ≠ [] := by
      simpa using hk
    rw [hnil, List.map_nil] at hrest
    exact units_ne_nil hdrop hrest.symm

/-! ## ASCII -/

theorem start_lower (byte : UInt8) : 0x80 ≤ (Pending.start byte).2.lower := by
  unfold Pending.start
  dsimp only
  split_ifs <;> simp [Pending.idle]

theorem feed_lower (pending : Pending) (byte : UInt8) : 0x80 ≤ (pending.feed byte).2.lower := by
  unfold Pending.feed
  split_ifs
  · exact start_lower byte
  · exact start_lower byte
  · simp [Pending.idle]
  · simp

/-- An ASCII byte at the end is a character of its own. -/
theorem scan_concat_ascii {pending : Pending} (h : 0x80 ≤ pending.lower) (bytes : Bytes)
    {byte : UInt8} (hascii : byte.toNat < 0x80) :
    ∃ front, scan pending (bytes ++ [byte]) = front ++ [some (Char.ofNat byte.toNat)] := by
  induction bytes generalizing pending with
  | nil =>
      have hstart : Pending.start byte = ([some (.ofNat byte.toNat)], .idle) := by
        simp [Pending.start, hascii]
      have hlow : byte.toNat < pending.lower ∨ pending.upper < byte.toNat := .inl (by omega)
      rw [List.nil_append, scan, Pending.feed, hstart]
      split_ifs
      · exact ⟨[], rfl⟩
      · exact ⟨[none], rfl⟩
  | cons first bytes ih =>
      obtain ⟨front, hfront⟩ := ih (feed_lower pending first)
      refine ⟨(pending.feed first).1 ++ front, ?_⟩
      rw [List.cons_append, scan, hfront, List.append_assoc]

theorem decodeLossy_concat_ascii (bytes : Bytes) {byte : UInt8} (hascii : byte.toNat < 0x80) :
    ∃ front, (decodeLossy (bytes ++ [byte])).toList = front ++ [Char.ofNat byte.toNat] := by
  obtain ⟨front, hfront⟩ := @scan_concat_ascii .idle (by decide) bytes byte hascii
  refine ⟨front.map fun unit => unit.getD replacement, ?_⟩
  rw [decodeLossy, String.toList_ofList, units, hfront, List.map_append]
  rfl

end Utf8

end Zeron.Lib
