import Zeron.Lib.Utf8

/-!
# Reads of a byte string

Reads that fault outside the input, and unsigned numbers of four bytes, least significant first.
-/

namespace Zeron.Lib

namespace Bytes

def byteAt (bytes : Bytes) (i : Nat) : Option UInt8 := bytes[i]?

def slice (bytes : Bytes) (start stop : Nat) : Option Bytes :=
  if start ≤ stop ∧ stop ≤ bytes.length then some ((bytes.drop start).take (stop - start)) else none

/-- The number modulo `2 ^ 32`. -/
def u32le (n : Nat) : Bytes :=
  [.ofNat n, .ofNat (n / 256), .ofNat (n / 65536), .ofNat (n / 16777216)]

def ofU32le (b₀ b₁ b₂ b₃ : UInt8) : Nat :=
  b₀.toNat + 256 * b₁.toNat + 65536 * b₂.toNat + 16777216 * b₃.toNat

def readU32le (bytes : Bytes) (i : Nat) : Option Nat := do
  let b₀ ← bytes.byteAt i
  let b₁ ← bytes.byteAt (i + 1)
  let b₂ ← bytes.byteAt (i + 2)
  let b₃ ← bytes.byteAt (i + 3)
  return ofU32le b₀ b₁ b₂ b₃

theorem ofU32le_u32le {n : Nat} (h : n < 4294967296) :
    ofU32le (.ofNat n) (.ofNat (n / 256)) (.ofNat (n / 65536)) (.ofNat (n / 16777216)) = n := by
  simp only [ofU32le, UInt8.toNat_ofNat']
  omega

theorem slice_of_le {bytes : Bytes} {start stop : Nat} (hle : start ≤ stop)
    (hstop : stop ≤ bytes.length) :
    bytes.slice start stop = some ((bytes.drop start).take (stop - start)) :=
  if_pos ⟨hle, hstop⟩

end Bytes

end Zeron.Lib
