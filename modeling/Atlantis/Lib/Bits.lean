import Mathlib.Data.Nat.Bitwise
import Mathlib.Data.List.Induction

/-!
# Bits of bytes and of byte strings

A one-bit mask `1 <<< k` on a byte reads or sets its bit `k`, and a shift by `s` and a mask
of one read bit `s`; a byte string read as a
big-endian number has bit `i` in bit `i % 8` of the byte `i / 8` from the end; and bytewise
`&&&` and `|||` of two byte strings act bit by bit on each byte the two share.
-/

namespace Nat

theorem and_two_pow_ne_zero_iff (a k : Nat) : a &&& 2 ^ k ≠ 0 ↔ a.testBit k = true := by
  constructor
  · intro h
    by_contra hb
    apply h
    apply Nat.eq_of_testBit_eq
    intro i
    by_cases hi : i = k
    · subst hi
      simp [hb]
    · simp [Nat.testBit_two_pow_of_ne (Ne.symm hi)]
  · intro h hz
    have := congrArg (fun n => n.testBit k) hz
    simp [h] at this

end Nat

namespace UInt8

theorem toNat_one_shiftLeft {k : Nat} (hk : k < 8) : (1 <<< UInt8.ofNat k).toNat = 2 ^ k := by
  have hk' : (UInt8.ofNat k).toNat = k := UInt8.toNat_ofNat_of_lt' (by simp [UInt8.size]; omega)
  rw [UInt8.toNat_shiftLeft, hk', Nat.mod_eq_of_lt hk, Nat.shiftLeft_eq, UInt8.toNat_one,
    Nat.one_mul]
  exact Nat.mod_eq_of_lt (Nat.pow_lt_pow_right (by decide) hk)

/-- **A one-bit mask reads a bit.** -/
theorem and_one_shiftLeft_ne_zero_iff (x : UInt8) {k : Nat} (hk : k < 8) :
    x &&& (1 <<< UInt8.ofNat k) ≠ 0 ↔ x.toNat.testBit k = true := by
  rw [← Nat.and_two_pow_ne_zero_iff, ← toNat_one_shiftLeft hk, ← UInt8.toNat_and]
  constructor
  · intro h hz
    exact h (UInt8.toNat_inj.mp (by rw [hz]; rfl))
  · intro h hz
    exact h (by rw [hz]; rfl)

/-- **A one-bit mask sets a bit.** -/
theorem testBit_or_one_shiftLeft (x : UInt8) {k : Nat} (hk : k < 8) (j : Nat) :
    (x ||| (1 <<< UInt8.ofNat k)).toNat.testBit j = (x.toNat.testBit j || decide (k = j)) := by
  rw [UInt8.toNat_or, Nat.testBit_or, toNat_one_shiftLeft hk, Nat.testBit_two_pow]

theorem testBit_toNat_of_le (x : UInt8) {j : Nat} (hj : 8 ≤ j) : x.toNat.testBit j = false :=
  Nat.testBit_lt_two_pow (lt_of_lt_of_le x.toNat_lt (Nat.pow_le_pow_right (by decide) hj))

/-- **A shift and a mask of one read a bit.** -/
theorem shiftRight_and_one_ne_zero (x : UInt8) {s : Nat} (hs : s < 8) :
    ((x >>> UInt8.ofNat s) &&& 0x01 != 0) = x.toNat.testBit s := by
  have h1 : ((x >>> UInt8.ofNat s) &&& 0x01).toNat = (x.toNat >>> s) % 2 := by
    simp [UInt8.toNat_and, UInt8.toNat_shiftRight, Nat.mod_eq_of_lt hs]
  have h2 : ((x >>> UInt8.ofNat s) &&& 0x01 != 0) =
      (((x >>> UInt8.ofNat s) &&& 0x01).toNat != 0) := by
    simp [bne, UInt8.ext_iff]
  rw [Nat.testBit, Nat.one_and_eq_mod_two, h2, h1]

theorem testBit_xor_eq_false {a b : UInt8} {s : Nat} :
    (a ^^^ b).toNat.testBit s = false ↔ a.toNat.testBit s = b.toNat.testBit s := by
  rw [UInt8.toNat_xor, Nat.testBit_xor]
  cases a.toNat.testBit s <;> cases b.toNat.testBit s <;> simp

end UInt8

namespace List

/-- **Bit `i` of a big-endian byte string** is bit `i % 8` of its byte `i / 8` from the end. -/
theorem testBit_foldl_bigEndian (b : List UInt8) (i : Nat) :
    (b.foldl (fun acc (x : UInt8) => acc * 256 + x.toNat) 0).testBit i =
      (decide (i < 8 * b.length) && (b.getD (b.length - 1 - i / 8) 0).toNat.testBit (i % 8)) := by
  induction b using List.reverseRecOn generalizing i with
  | nil => simp
  | append_singleton l x ih =>
    have hsplit : (l ++ [x]).foldl (fun acc (x : UInt8) => acc * 256 + x.toNat) 0 =
        2 ^ 8 * l.foldl (fun acc (x : UInt8) => acc * 256 + x.toNat) 0 + x.toNat := by
      rw [List.foldl_append, List.foldl_cons, List.foldl_nil, Nat.mul_comm]
      rfl
    rw [hsplit, Nat.testBit_two_pow_mul_add _ x.toNat_lt]
    simp only [List.length_append, List.length_singleton]
    split
    · -- the low byte
      next hi =>
      have hidx : l.length + 1 - 1 - i / 8 = l.length := by omega
      rw [hidx, List.getD_append_right _ _ _ _ (le_refl _), Nat.sub_self, Nat.mod_eq_of_lt hi]
      simp only [List.getD_cons_zero]
      have : i < 8 * (l.length + 1) := by omega
      simp [this]
    · -- the higher bytes
      next hi =>
      rw [ih (i - 8)]
      by_cases hlt : i < 8 * (l.length + 1)
      · have hidx : l.length + 1 - 1 - i / 8 = l.length - 1 - (i - 8) / 8 := by omega
        have hlt' : l.length - 1 - (i - 8) / 8 < l.length := by omega
        rw [hidx, List.getD_append _ _ _ _ hlt', show (i - 8) % 8 = i % 8 by omega]
        simp [hlt, show i - 8 < 8 * l.length by omega]
      · simp [hlt, show ¬ i - 8 < 8 * l.length by omega]

end List
