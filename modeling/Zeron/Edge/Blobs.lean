import Mathlib.Data.List.Basic
import Std.Data.ExtTreeMap

/-!
# Chunked blobs

`edge/src/blobs.ts`: named blobs over a table of chunk rows.
-/

namespace Zeron.Edge

abbrev Bytes := List UInt8

def chunkBytes : Nat := 1500000

section Chunks

/-- The chunk rows of `put`, in the order of their `idx`; there is one even for no bytes. -/
def chunks (bytes : Bytes) : List Bytes :=
  (List.range (max 1 ((bytes.length + chunkBytes - 1) / chunkBytes))).map fun idx =>
    (bytes.drop (idx * chunkBytes)).take chunkBytes

theorem flatten_chunks (bytes : Bytes) (size count : Nat) :
    ((List.range count).map fun idx => (bytes.drop (idx * size)).take size).flatten =
      bytes.take (count * size) := by
  induction count with
  | zero => simp
  | succ count ih =>
      rw [List.range_succ, List.map_append, List.flatten_append, ih, Nat.succ_mul, List.take_add]
      simp

theorem chunks_flatten (bytes : Bytes) : (chunks bytes).flatten = bytes := by
  rw [chunks, flatten_chunks]
  refine List.take_of_length_le ?_
  unfold chunkBytes
  omega

end Chunks

/-- The table, grouped by name; a name without a row is absent. -/
abbrev BlobStore := Std.ExtTreeMap String (List Bytes)

namespace BlobStore

variable (store : BlobStore)

def put (name : String) (bytes : Bytes) : BlobStore := store.insert name (chunks bytes)

def get (name : String) : Option Bytes := (store[name]?).map List.flatten

theorem get_put (name name' : String) (bytes : Bytes) :
    get (put store name bytes) name' = if name = name' then some bytes else get store name' := by
  unfold get put
  rw [Std.ExtTreeMap.getElem?_insert]
  by_cases hname : name = name'
  · subst hname
    simp [chunks_flatten]
  · simp [hname]

end BlobStore

end Zeron.Edge
