import Mathlib

/-!
# Common types

`common.Hash` of `common/types.go`: the 32 bytes of a Keccak-256 hash.  The zero hash
`common.Hash{}` doubles as a sentinel in several places (the meta-root of the trie
database, the end of its flush-list).
-/

namespace Atlantis

/-- `common.HashLength`. -/
def HashLength : Nat := 32

/-- `common.Hash`: a byte array of length `HashLength`. -/
structure Hash where
  bytes : List UInt8
  length_bytes : bytes.length = HashLength
  deriving DecidableEq

namespace Hash

/-- `common.Hash{}`, the hash of all zero bytes. -/
def zero : Hash := ⟨List.replicate 32 0, by simp [HashLength]⟩

instance : Inhabited Hash := ⟨zero⟩

/-- `common.BytesToHash`: the last `HashLength` bytes, padded with zeros on the left when
there are fewer. -/
def ofBytes (b : List UInt8) : Hash :=
  if h : b.length ≤ 32 then
    ⟨List.replicate (32 - b.length) 0 ++ b, by simp [HashLength]; omega⟩
  else
    ⟨b.drop (b.length - 32), by simp [HashLength]; omega⟩

/-- A hash read back from its own bytes is itself. -/
@[simp] theorem ofBytes_bytes (h : Hash) : ofBytes h.bytes = h := by
  obtain ⟨b, hb⟩ := h
  simp only [HashLength] at hb
  simp [ofBytes, hb]

/-- Bytes of a hash's length read as a hash are its bytes. -/
theorem bytes_ofBytes {b : List UInt8} (h : b.length = HashLength) : (ofBytes b).bytes = b := by
  simp only [HashLength] at h
  simp [ofBytes, h]

theorem bytes_injective : Function.Injective Hash.bytes := by
  intro a b h
  cases a
  cases b
  simp only at h
  subst h
  rfl

end Hash

end Atlantis
