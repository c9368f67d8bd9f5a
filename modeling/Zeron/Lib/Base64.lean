import Zeron.Lib.Utf8

/-!
# Base64

The standard alphabet with padding. The reader is strict: groups are full, padding stands in the last
group only, and no bit is set behind the last byte.
-/

namespace Zeron.Lib.Base64

/-- The character of a value below 64. -/
def digit (n : Nat) : Char :=
  if n < 26 then .ofNat (65 + n)
  else if n < 52 then .ofNat (71 + n)
  else if n < 62 then .ofNat (n - 4)
  else if n = 62 then '+'
  else '/'

def value (c : Char) : Option Nat :=
  let n := c.toNat
  if 65 ≤ n ∧ n < 91 then some (n - 65)
  else if 97 ≤ n ∧ n < 123 then some (n - 71)
  else if 48 ≤ n ∧ n < 58 then some (n + 4)
  else if c = '+' then some 62
  else if c = '/' then some 63
  else none

def encode : Bytes → List Char
  | [] => []
  | [a] => [digit (a.toNat / 4), digit (a.toNat % 4 * 16), '=', '=']
  | [a, b] =>
      [digit (a.toNat / 4), digit (a.toNat % 4 * 16 + b.toNat / 16), digit (b.toNat % 16 * 4), '=']
  | a :: b :: c :: rest =>
      digit (a.toNat / 4) :: digit (a.toNat % 4 * 16 + b.toNat / 16) ::
        digit (b.toNat % 16 * 4 + c.toNat / 64) :: digit (c.toNat % 64) :: encode rest

/-- Two characters before the padding. -/
def decodeOne (w x : Char) : Option Bytes :=
  match value w, value x with
  | some w, some x => if x % 16 = 0 then some [.ofNat (w * 4 + x / 16)] else none
  | _, _ => none

/-- Three characters before the padding. -/
def decodeTwo (w x y : Char) : Option Bytes :=
  match value w, value x, value y with
  | some w, some x, some y =>
      if y % 4 = 0 then some [.ofNat (w * 4 + x / 16), .ofNat (x % 16 * 16 + y / 4)] else none
  | _, _, _ => none

def decodeGroup (w x y z : Char) : Option Bytes :=
  match value w, value x, value y, value z with
  | some w, some x, some y, some z =>
      some [.ofNat (w * 4 + x / 16), .ofNat (x % 16 * 16 + y / 4), .ofNat (y % 4 * 64 + z)]
  | _, _, _, _ => none

def decode : List Char → Option Bytes
  | [] => some []
  | w :: x :: y :: z :: rest =>
      if rest = [] ∧ z = '=' then if y = '=' then decodeOne w x else decodeTwo w x y
      else (decodeGroup w x y z).bind fun group => (decode rest).map (group ++ ·)
  | _ => none

theorem value_digit : ∀ n < 64, value (digit n) = some n := by decide

theorem digit_visible :
    ∀ n < 64, 0x21 ≤ (digit n).toNat ∧ (digit n).toNat < 0x7F ∧ digit n ≠ '=' := by decide

theorem decodeOne_encode (a : UInt8) :
    decodeOne (digit (a.toNat / 4)) (digit (a.toNat % 4 * 16)) = some [a] := by
  have ha := a.toNat_lt
  have hbyte : a.toNat / 4 * 4 + a.toNat % 4 * 16 / 16 = a.toNat := by omega
  rw [decodeOne, value_digit _ (by omega), value_digit _ (by omega)]
  dsimp only
  rw [if_pos (by omega), hbyte, UInt8.ofNat_toNat]

theorem decodeTwo_encode (a b : UInt8) :
    decodeTwo (digit (a.toNat / 4)) (digit (a.toNat % 4 * 16 + b.toNat / 16))
      (digit (b.toNat % 16 * 4)) = some [a, b] := by
  have ha := a.toNat_lt
  have hb := b.toNat_lt
  have hfirst : a.toNat / 4 * 4 + (a.toNat % 4 * 16 + b.toNat / 16) / 16 = a.toNat := by omega
  have hsecond : (a.toNat % 4 * 16 + b.toNat / 16) % 16 * 16 + b.toNat % 16 * 4 / 4 = b.toNat := by
    omega
  rw [decodeTwo, value_digit _ (by omega), value_digit _ (by omega), value_digit _ (by omega)]
  dsimp only
  rw [if_pos (by omega), hfirst, hsecond, UInt8.ofNat_toNat, UInt8.ofNat_toNat]

theorem decodeGroup_encode (a b c : UInt8) :
    decodeGroup (digit (a.toNat / 4)) (digit (a.toNat % 4 * 16 + b.toNat / 16))
      (digit (b.toNat % 16 * 4 + c.toNat / 64)) (digit (c.toNat % 64)) = some [a, b, c] := by
  have ha := a.toNat_lt
  have hb := b.toNat_lt
  have hc := c.toNat_lt
  have hfirst : a.toNat / 4 * 4 + (a.toNat % 4 * 16 + b.toNat / 16) / 16 = a.toNat := by omega
  have hsecond : (a.toNat % 4 * 16 + b.toNat / 16) % 16 * 16 +
      (b.toNat % 16 * 4 + c.toNat / 64) / 4 = b.toNat := by omega
  have hthird : (b.toNat % 16 * 4 + c.toNat / 64) % 4 * 64 + c.toNat % 64 = c.toNat := by omega
  rw [decodeGroup, value_digit _ (by omega), value_digit _ (by omega), value_digit _ (by omega),
    value_digit _ (by omega)]
  dsimp only
  rw [hfirst, hsecond, hthird, UInt8.ofNat_toNat, UInt8.ofNat_toNat, UInt8.ofNat_toNat]

theorem decode_encode (bytes : Bytes) : decode (encode bytes) = some bytes := by
  induction bytes using encode.induct with
  | case1 => rfl
  | case2 a =>
      rw [encode, decode, if_pos ⟨rfl, rfl⟩, if_pos rfl, decodeOne_encode]
  | case3 a b =>
      have hpad := (digit_visible (b.toNat % 16 * 4) (by omega)).2.2
      rw [encode, decode, if_pos ⟨rfl, rfl⟩, if_neg hpad, decodeTwo_encode]
  | case4 a b c rest ih =>
      have hpad := (digit_visible (c.toNat % 64) (by omega)).2.2
      rw [encode, decode, if_neg (fun h => hpad h.2), decodeGroup_encode, ih]
      rfl

theorem encode_append {front : Bytes} (h : front.length % 3 = 0) (back : Bytes) :
    encode (front ++ back) = encode front ++ encode back := by
  induction front using encode.induct with
  | case1 => rfl
  | case2 _ | case3 _ _ => simp at h
  | case4 a b c rest ih =>
      have hrest : rest.length % 3 = 0 := by
        simp only [List.length_cons] at h
        omega
      simp only [List.cons_append, encode]
      rw [ih hrest]

theorem length_encode (bytes : Bytes) : (encode bytes).length = 4 * ((bytes.length + 2) / 3) := by
  induction bytes using encode.induct with
  | case1 => rfl
  | case2 _ | case3 _ _ => simp [encode]
  | case4 a b c rest ih =>
      simp only [encode, List.length_cons, ih]
      omega

theorem visible_of_mem_encode {bytes : Bytes} {char : Char} (h : char ∈ encode bytes) :
    0x21 ≤ char.toNat ∧ char.toNat < 0x7F := by
  have hdigit : ∀ n < 64, char = digit n → 0x21 ≤ char.toNat ∧ char.toNat < 0x7F := by
    rintro n hn rfl
    exact ⟨(digit_visible n hn).1, (digit_visible n hn).2.1⟩
  have hpad : char = '=' → 0x21 ≤ char.toNat ∧ char.toNat < 0x7F := by
    rintro rfl
    decide
  induction bytes using encode.induct with
  | case1 => cases h
  | case2 a =>
      have ha := a.toNat_lt
      simp only [encode, List.mem_cons, List.not_mem_nil, or_false] at h
      obtain h | h | h | h := h
      · exact hdigit _ (by omega) h
      · exact hdigit _ (by omega) h
      · exact hpad h
      · exact hpad h
  | case3 a b =>
      have ha := a.toNat_lt
      have hb := b.toNat_lt
      simp only [encode, List.mem_cons, List.not_mem_nil, or_false] at h
      obtain h | h | h | h := h
      · exact hdigit _ (by omega) h
      · exact hdigit _ (by omega) h
      · exact hdigit _ (by omega) h
      · exact hpad h
  | case4 a b c rest ih =>
      have ha := a.toNat_lt
      have hb := b.toNat_lt
      have hc := c.toNat_lt
      simp only [encode, List.mem_cons] at h
      obtain h | h | h | h | h := h
      · exact hdigit _ (by omega) h
      · exact hdigit _ (by omega) h
      · exact hdigit _ (by omega) h
      · exact hdigit _ (by omega) h
      · exact ih h

end Zeron.Lib.Base64
