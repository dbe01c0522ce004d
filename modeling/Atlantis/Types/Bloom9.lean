import Atlantis.Lib.Bits
import Atlantis.Rlp.Raw

/-!
# Header log blooms

`core/types/bloom9.go`: the 2048-bit bloom of a block header.  `bloom9` hashes a log address
or topic and sets three bits of a big integer, each picked by eleven bits of the hash; a
bloom is that integer in 256 big-endian bytes, and `BloomLookup` tests that all three bits of
a value are set.  Keccak-256 is a parameter, a function to 32-byte strings.

Bit `i` of the big integer is bit `i % 8` of byte `255 - i / 8` of the bloom (`testBit_Big`).
-/

namespace Atlantis.Types

/-- `BloomByteLength`. -/
def BloomByteLength : Nat := 256

/-- `BloomBitLength`. -/
def BloomBitLength : Nat := 8 * BloomByteLength

/-- `Bloom`: a 2048-bit bloom filter. -/
abbrev Bloom := Vector UInt8 256

/-- `Big`: the bloom as a big-endian big integer. -/
def Bloom.Big (b : Bloom) : Nat := Rlp.bigEndian b.toList

/-- Bit `i` of a bloom, by its bytes: bit `i % 8` of byte `255 - i / 8`. -/
def Bloom.bit (b : Bloom) (i : Nat) : Bool :=
  decide (i < BloomBitLength) && (b.get ⟨255 - i / 8, by omega⟩).toNat.testBit (i % 8)

/-- The index of the bit that `bloom9` sets for the hash bytes `i` and `i + 1`. -/
def bloom9Index (h : List UInt8) (i : Nat) : Nat :=
  ((h.getD (i + 1) 0).toNat + ((h.getD i 0).toNat <<< 8)) &&& 2047

/-- `bloom9`: the three bits of a value, from the first six bytes of its hash. -/
def bloom9 (keccak256 : List UInt8 → List UInt8) (b : List UInt8) : Nat :=
  let h := keccak256 b
  [0, 2, 4].foldl (fun r i => r ||| 1 <<< bloom9Index h i) 0

/-- `BloomLookup`: all the bits of the value are set in the bloom. -/
def BloomLookup (keccak256 : List UInt8 → List UInt8) (bin : Bloom) (topic : List UInt8) :
    Bool :=
  let cmp := bloom9 keccak256 topic
  (bin.Big &&& cmp) == cmp

theorem bloom9Index_lt (h : List UInt8) (i : Nat) : bloom9Index h i < BloomBitLength := by
  unfold bloom9Index BloomBitLength BloomByteLength
  rw [show (2047 : Nat) = 2 ^ 11 - 1 from rfl, Nat.and_two_pow_sub_one_eq_mod]
  exact Nat.mod_lt _ (by decide)

/-- **The bits of `bloom9`** are the three indexes. -/
theorem testBit_bloom9 (keccak256 : List UInt8 → List UInt8) (b : List UInt8) (n : Nat) :
    (bloom9 keccak256 b).testBit n = true ↔ n ∈ [0, 2, 4].map (bloom9Index (keccak256 b)) := by
  simp only [bloom9, List.foldl_cons, List.foldl_nil, Nat.testBit_or, Nat.zero_testBit,
    Nat.one_shiftLeft, Nat.testBit_two_pow, Bool.false_or, Bool.or_eq_true, decide_eq_true_eq,
    List.map_cons, List.map_nil, List.mem_cons, List.not_mem_nil, or_false]
  grind

/-- **The big integer of a bloom** has its bits in the bloom's bytes, big-endian. -/
theorem testBit_Big (b : Bloom) (i : Nat) : b.Big.testBit i = b.bit i := by
  unfold Bloom.Big Rlp.bigEndian Bloom.bit BloomBitLength BloomByteLength
  rw [List.testBit_foldl_bigEndian, Vector.length_toList]
  by_cases hi : i < 8 * 256
  · simp only [hi, decide_true, Bool.true_and]
    rw [List.getD_eq_getElem _ _ (by simp; omega)]
    simp
    rfl
  · simp [hi]

/-- **`BloomLookup` tests the bits of the value** in the bloom's bytes. -/
theorem BloomLookup_iff (keccak256 : List UInt8 → List UInt8) (bin : Bloom) (topic : List UInt8) :
    BloomLookup keccak256 bin topic = true ↔
      ∀ i ∈ [0, 2, 4], bin.bit (bloom9Index (keccak256 topic) i) = true := by
  unfold BloomLookup
  simp only [beq_iff_eq]
  constructor
  · intro h i hi
    have hbit := congrArg (fun n => n.testBit (bloom9Index (keccak256 topic) i)) h
    have hset : (bloom9 keccak256 topic).testBit (bloom9Index (keccak256 topic) i) = true :=
      (testBit_bloom9 _ _ _).mpr (List.mem_map_of_mem hi)
    simp only [Nat.testBit_and, hset, Bool.and_true, testBit_Big] at hbit
    exact hbit
  · intro h
    apply Nat.eq_of_testBit_eq
    intro n
    rw [Nat.testBit_and, testBit_Big]
    by_cases hn : n ∈ [0, 2, 4].map (bloom9Index (keccak256 topic))
    · obtain ⟨i, hi, rfl⟩ := List.mem_map.mp hn
      rw [h i hi, Bool.true_and]
    · have hclear : (bloom9 keccak256 topic).testBit n = false :=
        Bool.eq_false_iff.mpr fun ht => hn ((testBit_bloom9 _ _ _).mp ht)
      rw [hclear, Bool.and_false]

end Atlantis.Types
