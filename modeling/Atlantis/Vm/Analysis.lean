import Atlantis.Common.Types
import Atlantis.Lib.Bits
import Mathlib.Order.WellFounded
import Mathlib.Logic.Function.Iterate
import Mathlib.Tactic.IntervalCases

/-!
# Jump destination analysis

`codeBitmap` of `core/vm/analysis.go` marks, one bit for each byte of code, the bytes that
are the immediate data of a `PUSHn`, and `destinations.has` accepts a jump to a `JUMPDEST`
byte whose bit is clear.

A bitmap is the list of its bytes; an index past its end makes the source panic, which is
`none` here.  Each write is an `|=` of a mask, so `Bitvec.bit`, the bit of a position read as
a number, only ever gains bits (`bit_modify`): `set` gains one position and `set8` the eight
from its argument on.  The code read from its first byte, each `PUSHn` skipping its `n`
immediate bytes, gives the positions where an instruction starts (`IsStart`); they form a
strictly increasing sequence, with no start between one and the next (`not_isStart_between`).
The loop of `codeBitmap` keeps the invariant that the bits below `pc` are set exactly at the
positions that are not starts (`codeBitmapLoop_spec`), and its writes stay within the
`len(code)/8 + 5` bytes it allocates.

`destinations.has` gives up on a destination of 63 bits or more, so for a code longer than
`2^62` bytes a `JUMPDEST` at `2^62` is not a destination (`has_beyond_two_pow_62`).
-/

namespace Atlantis.Vm

/-- `PUSH1`. -/
def PUSH1 : UInt8 := 0x60

/-- `PUSH32`. -/
def PUSH32 : UInt8 := 0x7f

/-- `JUMPDEST`. -/
def JUMPDEST : UInt8 := 0x5b

/-- `bitvec`: bit `pos` is the mask `0x80 >> (pos % 8)` of byte `pos / 8`. -/
abbrev Bitvec := List UInt8

namespace Bitvec

/-- `(*bits)[i] |= v`, which panics where `i` is past the end. -/
def orAt (bits : Bitvec) (i : Nat) (v : UInt8) : Option Bitvec :=
  if i < bits.length then some (bits.modify i (· ||| v)) else none

/-- `bitvec.set`. -/
def set (bits : Bitvec) (pos : Nat) : Option Bitvec :=
  orAt bits (pos / 8) (0x80 >>> (pos % 8).toUInt8)

/-- `bitvec.set8`: the eight bits from `pos` on, over two bytes. -/
def set8 (bits : Bitvec) (pos : Nat) : Option Bitvec := do
  let bits ← orAt bits (pos / 8) (0xFF >>> (pos % 8).toUInt8)
  orAt bits (pos / 8 + 1) (~~~(0xFF >>> (pos % 8).toUInt8))

/-- `bitvec.codeSegment`, which panics where `pos / 8` is past the end. -/
def codeSegment (bits : Bitvec) (pos : Nat) : Option Bool :=
  bits[pos / 8]?.map fun b => (b &&& (0x80 >>> (pos % 8).toUInt8)) == 0

/-- The bit of position `q`: bit `7 - q % 8` of byte `q / 8` read as a number, clear past
the end. -/
def bit (bits : Bitvec) (q : Nat) : Bool :=
  (bits.getD (q / 8) 0).toNat.testBit (7 - q % 8)

end Bitvec

/-- The first inner loop of `codeBitmap`: eight bits at a time while `numbits >= 8`. -/
def set8Loop (bits : Bitvec) (pc numbits : Nat) : Option (Bitvec × Nat × Nat) :=
  if 8 ≤ numbits then
    match Bitvec.set8 bits pc with
    | none => none
    | some bits => set8Loop bits (pc + 8) (numbits - 8)
  else some (bits, pc, numbits)
termination_by numbits

/-- The second inner loop: the bits left, one at a time. -/
def setLoop (bits : Bitvec) (pc numbits : Nat) : Option (Bitvec × Nat) :=
  if 0 < numbits then
    match Bitvec.set bits pc with
    | none => none
    | some bits => setLoop bits (pc + 1) (numbits - 1)
  else some (bits, pc)
termination_by numbits

theorem set8Loop_pc {bits : Bitvec} {pc numbits : Nat} {r : Bitvec × Nat × Nat}
    (h : set8Loop bits pc numbits = some r) : r.2.1 = pc + 8 * (numbits / 8) := by
  fun_induction set8Loop bits pc numbits with
  | case1 bits pc numbits h8 hset => simp at h
  | case2 bits pc numbits h8 bits' hset ih =>
    rw [ih h]
    omega
  | case3 bits pc numbits h8 =>
    cases h
    simp only
    omega

theorem setLoop_pc {bits : Bitvec} {pc numbits : Nat} {r : Bitvec × Nat}
    (h : setLoop bits pc numbits = some r) : r.2 = pc + numbits := by
  fun_induction setLoop bits pc numbits with
  | case1 bits pc numbits hpos hset => simp at h
  | case2 bits pc numbits hpos bits' hset ih =>
    rw [ih h]
    omega
  | case3 bits pc numbits hpos =>
    cases h
    simp only
    omega

/-- The loop of `codeBitmap` from `pc` on. -/
def codeBitmapLoop (code : List UInt8) (bits : Bitvec) (pc : Nat) : Option Bitvec :=
  if h : pc < code.length then
    let op := code.get ⟨pc, h⟩
    if PUSH1 ≤ op ∧ op ≤ PUSH32 then
      match _h8 : set8Loop bits (pc + 1) (op - PUSH1 + 1).toNat with
      | none => none
      | some (bits, pc', numbits) =>
        match _h1 : setLoop bits pc' numbits with
        | none => none
        | some (bits, pc'') => codeBitmapLoop code bits pc''
    else codeBitmapLoop code bits (pc + 1)
  else some bits
termination_by code.length - pc
decreasing_by
  · -- `set8Loop` and `setLoop` only move `pc` forward
    have h8' := set8Loop_pc _h8
    have h1' := setLoop_pc _h1
    simp only at h8' h1'
    omega
  · omega

/-- `codeBitmap`: the bitmap is four bytes longer than the code needs, for the data of a
`PUSH32` at its end. -/
def codeBitmap (code : List UInt8) : Option Bitvec :=
  codeBitmapLoop code (List.replicate (code.length / 8 + 1 + 4) 0) 0

/-- `destinations`: the bitmap of each code analysed so far, by the hash of the code. -/
abbrev Destinations := Hash → Option Bitvec

/-- `destinations.has`: whether `dest` is a `JUMPDEST` in a code segment, with the bitmap
made and kept the first time the code is seen. -/
def Destinations.has (d : Destinations) (codehash : Hash) (code : List UInt8) (dest : Nat) :
    Option (Bool × Destinations) :=
  -- `dest.BitLen() >= 63` is `dest >= 2^62`; below that `dest.Uint64()` is `dest`
  if h : 2 ^ 62 ≤ dest ∨ code.length ≤ dest then some (false, d)
  else
    let analysed : Option (Bitvec × Destinations) :=
      match d codehash with
      | some m => some (m, d)
      | none => (codeBitmap code).map fun m => (m, Function.update d codehash (some m))
    analysed.bind fun (m, d) =>
      if code.get ⟨dest, by omega⟩ = JUMPDEST then (Bitvec.codeSegment m dest).map fun seg => (seg, d)
      else some (false, d)

/-! ## The code read from its first byte -/

/-- The number of immediate bytes of the instruction `op`. -/
def pushSize (op : UInt8) : Nat := if PUSH1 ≤ op ∧ op ≤ PUSH32 then (op - PUSH1 + 1).toNat else 0

/-- Where the instruction after the one at `pc` starts; past the end of the code, the next
byte. -/
def nextPc (code : List UInt8) (pc : Nat) : Nat := pc + 1 + pushSize (code.getD pc 0)

/-- An instruction starts at `p` when the code is read from its first byte on. -/
def IsStart (code : List UInt8) (p : Nat) : Prop := ∃ k, (nextPc code)^[k] 0 = p

section Decoding

variable (code : List UInt8)

theorem lt_nextPc (pc : Nat) : pc < nextPc code pc := by
  unfold nextPc
  omega

theorem strictMono_iterate_nextPc : StrictMono fun k => (nextPc code)^[k] 0 :=
  strictMono_nat_of_lt_succ fun k => by
    rw [Function.iterate_succ_apply']
    exact lt_nextPc code _

instance (p : Nat) : Decidable (IsStart code p) :=
  -- the `k`-th start is at least `k`, so it is enough to look at the first `p + 1`
  decidable_of_iff (∃ k < p + 1, (nextPc code)^[k] 0 = p)
    ⟨fun ⟨k, _, hk⟩ => ⟨k, hk⟩, fun ⟨k, hk⟩ =>
      ⟨k, by have := (strictMono_iterate_nextPc code).id_le k; simp only [id] at this; omega, hk⟩⟩

theorem isStart_zero : IsStart code 0 := ⟨0, rfl⟩

variable {code}

theorem IsStart.nextPc {pc : Nat} (h : IsStart code pc) : IsStart code (nextPc code pc) := by
  obtain ⟨k, hk⟩ := h
  exact ⟨k + 1, by rw [Function.iterate_succ_apply', hk]⟩

/-- No instruction starts inside another one's immediate data. -/
theorem not_isStart_between {pc q : Nat} (hpc : IsStart code pc) (hlo : pc < q)
    (hhi : q < nextPc code pc) : ¬ IsStart code q := by
  rintro ⟨j, rfl⟩
  obtain ⟨k, rfl⟩ := hpc
  have hmono := strictMono_iterate_nextPc code
  have hkj : k < j := hmono.lt_iff_lt.1 hlo
  have hjk : j < k + 1 := hmono.lt_iff_lt.1 (by rw [Function.iterate_succ_apply']; exact hhi)
  omega

end Decoding

/-! ## Writes to the bitmap -/

namespace Bitvec

/-- `|=` on byte `i` sets the bits of the mask in that byte and no other. -/
theorem bit_modify (bits : Bitvec) {i : Nat} (v : UInt8) (hi : i < bits.length) (q : Nat) :
    bit (bits.modify i (· ||| v)) q =
      (bit bits q || (decide (q / 8 = i) && v.toNat.testBit (7 - q % 8))) := by
  unfold bit
  rw [List.getD_eq_getElem?_getD, List.getD_eq_getElem?_getD, List.getElem?_modify]
  by_cases hq : q / 8 = i
  · subst hq
    rw [List.getElem?_eq_getElem hi]
    simp [UInt8.toNat_or, Nat.testBit_or]
  · simp [Ne.symm hq, hq]

theorem toNat_mask {r : Nat} (hr : r < 8) : ((0x80 : UInt8) >>> r.toUInt8).toNat = 2 ^ (7 - r) := by
  interval_cases r <;> rfl

theorem toNat_lowMask {r : Nat} (hr : r < 8) :
    ((0xFF : UInt8) >>> r.toUInt8).toNat = 2 ^ (8 - r) - 1 := by
  interval_cases r <;> rfl

theorem testBit_toNat_not (x : UInt8) (k : Nat) :
    (~~~x).toNat.testBit k = (decide (k < 8) && !x.toNat.testBit k) := by
  show (~~~x.toBitVec).toNat.testBit k = (decide (k < 8) && !x.toBitVec.toNat.testBit k)
  rw [BitVec.testBit_toNat, BitVec.testBit_toNat, BitVec.getLsbD_not]

/-- `set` sets the bit of `pos` and no other. -/
theorem set_spec (bits : Bitvec) {pos : Nat} (h : pos / 8 < bits.length) :
    ∃ bits', set bits pos = some bits' ∧ bits'.length = bits.length ∧
      ∀ q, bit bits' q = (bit bits q || decide (q = pos)) := by
  have hr : pos % 8 < 8 := Nat.mod_lt _ (by decide)
  refine ⟨_, by rw [set, orAt, if_pos h], List.length_modify _ _ _, fun q => ?_⟩
  rw [bit_modify bits _ h, toNat_mask hr, Nat.testBit_two_pow]
  -- the byte and the place in it give the position
  have hsame : (q / 8 = pos / 8 ∧ 7 - pos % 8 = 7 - q % 8) ↔ q = pos := by omega
  simp only [← Bool.decide_and, hsame]

/-- `set8` sets the eight bits from `pos` on and no other. -/
theorem set8_spec (bits : Bitvec) {pos : Nat} (h : pos / 8 + 1 < bits.length) :
    ∃ bits', set8 bits pos = some bits' ∧ bits'.length = bits.length ∧
      ∀ q, bit bits' q = (bit bits q || decide (pos ≤ q ∧ q < pos + 8)) := by
  have hr : pos % 8 < 8 := Nat.mod_lt _ (by decide)
  have h0 : pos / 8 < bits.length := by omega
  have h1 : pos / 8 + 1 < (bits.modify (pos / 8) (· ||| (0xFF >>> (pos % 8).toUInt8))).length := by
    rwa [List.length_modify]
  refine ⟨(bits.modify (pos / 8) (· ||| (0xFF >>> (pos % 8).toUInt8))).modify (pos / 8 + 1)
      (· ||| ~~~(0xFF >>> (pos % 8).toUInt8)), ?_, by rw [List.length_modify, List.length_modify],
    fun q => ?_⟩
  · simp only [set8, orAt, if_pos h0, Option.bind_eq_bind, Option.bind_some, if_pos h1]
  rw [bit_modify _ _ h1, bit_modify bits _ h0, testBit_toNat_not, toNat_lowMask hr,
    Nat.testBit_two_pow_sub_one]
  -- the low bits of byte `pos / 8` from `pos % 8` on, then the high bits of the next
  have hfirst : (q / 8 = pos / 8 ∧ 7 - q % 8 < 8 - pos % 8) ↔ (q / 8 = pos / 8 ∧ pos ≤ q) := by omega
  have hsecond : (q / 8 = pos / 8 + 1 ∧ 7 - q % 8 < 8 ∧ ¬ 7 - q % 8 < 8 - pos % 8) ↔
      (q / 8 = pos / 8 + 1 ∧ q < pos + 8) := by omega
  have hboth : ((q / 8 = pos / 8 ∧ pos ≤ q) ∨ (q / 8 = pos / 8 + 1 ∧ q < pos + 8)) ↔
      (pos ≤ q ∧ q < pos + 8) := by omega
  cases bit bits q <;>
    simp only [Bool.false_or, Bool.true_or, ← Bool.decide_and, ← decide_not, ← Bool.decide_or,
      hfirst, hsecond, hboth]

/-- `codeSegment` reads the bit of a position inside the bitmap, negated. -/
theorem codeSegment_eq (bits : Bitvec) {pos : Nat} (h : pos / 8 < bits.length) :
    codeSegment bits pos = some (!bit bits pos) := by
  have hr : pos % 8 < 8 := Nat.mod_lt _ (by decide)
  rw [codeSegment, List.getElem?_eq_getElem h, Option.map_some, bit, List.getD_eq_getElem _ _ h]
  congr 1
  -- the mask is the power of two at the position's bit
  have hiff : bits[pos / 8] &&& 0x80 >>> (pos % 8).toUInt8 ≠ 0 ↔
      bits[pos / 8].toNat.testBit (7 - pos % 8) = true := by
    rw [Ne, ← UInt8.toNat_inj, UInt8.toNat_and, toNat_mask hr, UInt8.toNat_zero]
    exact Nat.and_two_pow_ne_zero_iff _ _
  cases htb : bits[pos / 8].toNat.testBit (7 - pos % 8)
  · have hzero : bits[pos / 8] &&& 0x80 >>> (pos % 8).toUInt8 = 0 := by
      by_contra hne
      simp [hiff.1 hne] at htb
    simp [hzero]
  · simpa using hiff.2 htb

end Bitvec

/-! ## The loops of `codeBitmap` -/

/-- The first inner loop sets the bits of the whole bytes of data from `pc` on. -/
theorem set8Loop_spec (bits : Bitvec) (pc numbits : Nat) (h : (pc + numbits) / 8 < bits.length) :
    ∃ bits', set8Loop bits pc numbits = some (bits', pc + 8 * (numbits / 8), numbits % 8) ∧
      bits'.length = bits.length ∧
      ∀ q, Bitvec.bit bits' q = (Bitvec.bit bits q || decide (pc ≤ q ∧ q < pc + 8 * (numbits / 8))) := by
  induction numbits using Nat.strong_induction_on generalizing bits pc with
  | _ numbits ih =>
    rw [set8Loop]
    by_cases h8 : 8 ≤ numbits
    · obtain ⟨bits1, hset, hlen1, hbit1⟩ := @Bitvec.set8_spec bits pc (by omega)
      obtain ⟨bits2, hloop, hlen2, hbit2⟩ :=
        ih (numbits - 8) (by omega) bits1 (pc + 8) (by rw [hlen1]; omega)
      refine ⟨bits2, ?_, hlen2.trans hlen1, fun q => ?_⟩
      · rw [if_pos h8, hset]
        simp only
        rw [hloop, show pc + 8 + 8 * ((numbits - 8) / 8) = pc + 8 * (numbits / 8) by omega,
          show (numbits - 8) % 8 = numbits % 8 by omega]
      · rw [hbit2, hbit1, Bool.or_assoc, ← Bool.decide_or]
        congr 1
        exact decide_eq_decide.2 (by omega)
    · refine ⟨bits, ?_, rfl, fun q => ?_⟩
      · rw [if_neg h8, show numbits / 8 = 0 by omega, Nat.mod_eq_of_lt (by omega)]
        rfl
      · rw [show numbits / 8 = 0 by omega]
        simp only [Nat.mul_zero, Nat.add_zero]
        rw [decide_eq_false (by omega), Bool.or_false]

/-- The second inner loop sets the bits of the `numbits` bytes from `pc` on. -/
theorem setLoop_spec (bits : Bitvec) (pc numbits : Nat) (h : (pc + numbits) / 8 < bits.length) :
    ∃ bits', setLoop bits pc numbits = some (bits', pc + numbits) ∧ bits'.length = bits.length ∧
      ∀ q, Bitvec.bit bits' q = (Bitvec.bit bits q || decide (pc ≤ q ∧ q < pc + numbits)) := by
  induction numbits using Nat.strong_induction_on generalizing bits pc with
  | _ numbits ih =>
    rw [setLoop]
    by_cases hpos : 0 < numbits
    · obtain ⟨bits1, hset, hlen1, hbit1⟩ := @Bitvec.set_spec bits pc (by omega)
      obtain ⟨bits2, hloop, hlen2, hbit2⟩ :=
        ih (numbits - 1) (by omega) bits1 (pc + 1) (by rw [hlen1]; omega)
      refine ⟨bits2, ?_, hlen2.trans hlen1, fun q => ?_⟩
      · rw [if_pos hpos, hset]
        simp only
        rw [hloop, show pc + 1 + (numbits - 1) = pc + numbits by omega]
      · rw [hbit2, hbit1, Bool.or_assoc, ← Bool.decide_or]
        congr 1
        exact decide_eq_decide.2 (by omega)
    · refine ⟨bits, ?_, rfl, fun q => ?_⟩
      · rw [if_neg hpos, show numbits = 0 by omega, Nat.add_zero]
      · rw [decide_eq_false (by omega), Bool.or_false]

/-- The invariant of the loop of `codeBitmap` at `pc`: an instruction starts at `pc`, and
the bits below `pc` are set exactly where none starts. -/
structure LoopInv (code : List UInt8) (bits : Bitvec) (pc : Nat) : Prop where
  length : bits.length = code.length / 8 + 5
  start : IsStart code pc
  bit : ∀ q, Bitvec.bit bits q = decide (q < pc ∧ ¬ IsStart code q)

theorem loopInv_zero (code : List UInt8) :
    LoopInv code (List.replicate (code.length / 8 + 1 + 4) 0) 0 where
  length := List.length_replicate
  start := isStart_zero code
  bit q := by
    have hzero : (List.replicate (code.length / 8 + 1 + 4) (0 : UInt8)).getD (q / 8) 0 = 0 := by
      rw [List.getD_eq_getElem?_getD, List.getElem?_replicate]
      split <;> rfl
    rw [decide_eq_false (by omega), Bitvec.bit, hzero, UInt8.toNat_zero, Nat.zero_testBit]

/-- One round of the loop: setting the bits of the instruction's immediate data keeps the
invariant at the next instruction. -/
theorem LoopInv.step {code : List UInt8} {bits bits' : Bitvec} {pc : Nat} (hinv : LoopInv code bits pc)
    (hlen : bits'.length = bits.length)
    (hbit : ∀ q, Bitvec.bit bits' q = (Bitvec.bit bits q || decide (pc < q ∧ q < nextPc code pc))) :
    LoopInv code bits' (nextPc code pc) where
  length := hlen.trans hinv.length
  start := hinv.start.nextPc
  bit q := by
    rw [hbit, hinv.bit, ← Bool.decide_or, decide_eq_decide]
    have hnext := lt_nextPc code pc
    constructor
    · rintro (⟨hlt, hq⟩ | ⟨hlo, hhi⟩)
      · exact ⟨by omega, hq⟩
      · exact ⟨hhi, not_isStart_between hinv.start hlo hhi⟩
    · rintro ⟨hhi, hq⟩
      rcases Nat.lt_trichotomy q pc with hlt | rfl | hlo
      · exact Or.inl ⟨hlt, hq⟩
      · exact absurd hinv.start hq
      · exact Or.inr ⟨hlo, hhi⟩

theorem pushSize_le (op : UInt8) : pushSize op ≤ 32 := by
  unfold pushSize
  split
  · next hpush =>
    have hlo := UInt8.le_iff_toNat_le.1 hpush.1
    have hhi := UInt8.le_iff_toNat_le.1 hpush.2
    have hpush1 : PUSH1.toNat = 96 := rfl
    have hpush32 : PUSH32.toNat = 127 := rfl
    rw [UInt8.toNat_add, UInt8.toNat_sub_of_le _ _ hpush.1, UInt8.toNat_one]
    omega
  · omega

/-- The loop of `codeBitmap` runs to the end of the code without writing past the bitmap, and
leaves the bits of the code set exactly where no instruction starts. -/
theorem codeBitmapLoop_spec (code : List UInt8) : ∀ n (bits : Bitvec) pc, code.length - pc = n →
    LoopInv code bits pc →
    ∃ bits', codeBitmapLoop code bits pc = some bits' ∧ bits'.length = code.length / 8 + 5 ∧
      ∀ q < code.length, Bitvec.bit bits' q = !decide (IsStart code q) := by
  intro n
  -- on the code left to read
  induction n using Nat.strong_induction_on with
  | _ n ih =>
  intro bits pc hn hinv
  rw [codeBitmapLoop]
  by_cases hpc : pc < code.length
  · rw [dif_pos hpc]
    dsimp only
    have hop : code.getD pc 0 = code.get ⟨pc, hpc⟩ := List.getD_eq_getElem _ _ hpc
    have hsize := pushSize_le (code.get ⟨pc, hpc⟩)
    by_cases hpush : PUSH1 ≤ code.get ⟨pc, hpc⟩ ∧ code.get ⟨pc, hpc⟩ ≤ PUSH32
    · -- a `PUSHn`: the two inner loops set the bits of its `n` bytes of data
      rw [if_pos hpush]
      have hnext : nextPc code pc = pc + 1 + (code.get ⟨pc, hpc⟩ - PUSH1 + 1).toNat := by
        rw [nextPc, hop, pushSize, if_pos hpush]
      have hbound : (pc + 1 + (code.get ⟨pc, hpc⟩ - PUSH1 + 1).toNat) / 8 < bits.length := by
        rw [hinv.length, ← hnext, nextPc, hop]
        omega
      obtain ⟨bits1, h8, hlen1, hbit1⟩ := set8Loop_spec bits (pc + 1) _ (by omega)
      obtain ⟨bits2, h1, hlen2, hbit2⟩ := setLoop_spec bits1
        (pc + 1 + 8 * ((code.get ⟨pc, hpc⟩ - PUSH1 + 1).toNat / 8)) ((code.get ⟨pc, hpc⟩ - PUSH1 + 1).toNat % 8)
        (by rw [hlen1]; omega)
      split
      · next hnone => rw [h8] at hnone; cases hnone
      · next bits1' pc1 n1 hsome =>
        rw [h8] at hsome
        cases hsome
        split
        · next hnone => rw [h1] at hnone; cases hnone
        · next bits2' pc2 hsome =>
          rw [h1] at hsome
          cases hsome
          have hinv' : LoopInv code bits2 (nextPc code pc) := by
            refine hinv.step (hlen2.trans hlen1) fun q => ?_
            rw [hbit2, hbit1, Bool.or_assoc, ← Bool.decide_or]
            congr 1
            exact decide_eq_decide.2 (by omega)
          refine ih _ (by omega) bits2 _ rfl ?_
          rwa [show pc + 1 + 8 * ((code.get ⟨pc, hpc⟩ - PUSH1 + 1).toNat / 8) +
            (code.get ⟨pc, hpc⟩ - PUSH1 + 1).toNat % 8 = nextPc code pc by omega]
    · -- any other instruction: no data, and the next byte
      rw [if_neg hpush]
      have hnext : nextPc code pc = pc + 1 := by
        rw [nextPc, hop, pushSize, if_neg hpush]
      have hinv' : LoopInv code bits (nextPc code pc) :=
        hinv.step rfl fun q => by rw [decide_eq_false (by omega), Bool.or_false]
      rw [hnext] at hinv'
      exact ih _ (by omega) bits _ rfl hinv'
  · rw [dif_neg hpc]
    refine ⟨bits, rfl, hinv.length, fun q hq => ?_⟩
    rw [hinv.bit, ← decide_not]
    exact decide_eq_decide.2 ⟨fun h => h.2, fun h => ⟨by omega, h⟩⟩

/-- `codeBitmap` never writes past the `len(code)/8 + 5` bytes it allocates, and a position
of the code is in a code segment exactly where an instruction starts. -/
theorem codeBitmap_spec (code : List UInt8) :
    ∃ bits, codeBitmap code = some bits ∧ bits.length = code.length / 8 + 5 ∧
      ∀ p < code.length, Bitvec.codeSegment bits p = some (decide (IsStart code p)) := by
  obtain ⟨bits, hloop, hlen, hbit⟩ := codeBitmapLoop_spec code _ _ 0 rfl (loopInv_zero code)
  refine ⟨bits, hloop, hlen, fun p hp => ?_⟩
  rw [Bitvec.codeSegment_eq bits (by omega), hbit p hp, Bool.not_not]

/-! ## `destinations.has` -/

/-- A cache of bitmaps that holds, at `codehash`, nothing or the bitmap of `code`. -/
def Destinations.Agrees (d : Destinations) (codehash : Hash) (code : List UInt8) : Prop :=
  ∀ m, d codehash = some m → codeBitmap code = some m

/-- `destinations.has` answers whether `dest` is below `2^62`, in the code, an instruction
start and a `JUMPDEST`; the cache it leaves still agrees at `codehash` and is unchanged at
every other hash. -/
theorem has_spec (d : Destinations) (codehash : Hash) (code : List UInt8) (dest : Nat)
    (hd : d.Agrees codehash code) :
    ∃ d', d.has codehash code dest =
        some (decide (dest < 2 ^ 62 ∧ dest < code.length ∧ IsStart code dest ∧
          code.getD dest 0 = JUMPDEST), d') ∧
      d'.Agrees codehash code ∧ ∀ h, h ≠ codehash → d' h = d h := by
  obtain ⟨bits, hbitmap, hlen, hseg⟩ := codeBitmap_spec code
  rw [Destinations.has]
  by_cases hout : 2 ^ 62 ≤ dest ∨ code.length ≤ dest
  · refine ⟨d, ?_, hd, fun _ _ => rfl⟩
    rw [dif_pos hout, decide_eq_false (by omega)]
  · rw [dif_neg hout]
    have hdest : dest < code.length := by omega
    -- the cache gives the code's bitmap, made now or kept from before
    obtain ⟨d', hanalysed, hd', hother⟩ : ∃ d', (match d codehash with
        | some m => some (m, d)
        | none => (codeBitmap code).map fun m => (m, Function.update d codehash (some m))) =
          some (bits, d') ∧ d'.Agrees codehash code ∧ ∀ h, h ≠ codehash → d' h = d h := by
      cases hc : d codehash with
      | none =>
        refine ⟨Function.update d codehash (some bits), by rw [hbitmap]; rfl, fun m hm => ?_,
          fun h hne => Function.update_of_ne hne _ _⟩
        rw [Function.update_self] at hm
        rw [hbitmap, hm]
      | some m =>
        have hm : m = bits := Option.some_injective _ ((hd m hc).symm.trans hbitmap)
        exact ⟨d, by rw [hm], hd, fun _ _ => rfl⟩
    refine ⟨d', ?_, hd', hother⟩
    dsimp only
    rw [hanalysed, Option.bind_some]
    have hget : code.getD dest 0 = code.get ⟨dest, hdest⟩ := List.getD_eq_getElem _ _ hdest
    by_cases hjump : code.get ⟨dest, hdest⟩ = JUMPDEST
    · rw [if_pos hjump, hseg dest hdest, Option.map_some]
      congr 2
      exact decide_eq_decide.2 ⟨fun h => ⟨by omega, hdest, h, hget.trans hjump⟩, fun h => h.2.2.1⟩
    · rw [if_neg hjump, decide_eq_false (fun h => hjump (hget.symm.trans h.2.2.2))]

/-- Jump destination analysis is exact and in bounds: `codeBitmap` writes only inside its
`len(code)/8 + 5` bytes and marks the positions of the code where no instruction starts; and
for a code of at most `2^62` bytes (contract code is capped far below that),
`destinations.has` with a cache that agrees on the code accepts exactly the `JUMPDEST`s that
start an instruction. -/
theorem jumpdest_analysis (code : List UInt8) :
    (∃ bits, codeBitmap code = some bits ∧ bits.length = code.length / 8 + 5 ∧
      ∀ p < code.length, Bitvec.codeSegment bits p = some (decide (IsStart code p))) ∧
    ∀ (d : Destinations) (codehash : Hash) (dest : Nat), code.length ≤ 2 ^ 62 →
      d.Agrees codehash code →
      ((d.has codehash code dest).map Prod.fst = some true ↔
        dest < code.length ∧ IsStart code dest ∧ code.getD dest 0 = JUMPDEST) := by
  refine ⟨codeBitmap_spec code, fun d codehash dest hlen hd => ?_⟩
  obtain ⟨d', hhas, -, -⟩ := has_spec d codehash code dest hd
  rw [hhas, Option.map_some, Option.some_inj, decide_eq_true_iff]
  -- the `2^62` cut of `has` is past the end of such a code
  exact ⟨fun h => h.2, fun h => ⟨by omega, h⟩⟩

theorem jumpdest_analysis_push1 :
    [PUSH1, JUMPDEST, JUMPDEST].length ≤ 2 ^ 62 ∧
      Destinations.Agrees (fun _ => none) Hash.zero [PUSH1, JUMPDEST, JUMPDEST] ∧
      ((Destinations.has (fun _ => none) Hash.zero [PUSH1, JUMPDEST, JUMPDEST] 2).map Prod.fst =
          some true ↔
        2 < [PUSH1, JUMPDEST, JUMPDEST].length ∧ IsStart [PUSH1, JUMPDEST, JUMPDEST] 2 ∧
          [PUSH1, JUMPDEST, JUMPDEST].getD 2 0 = JUMPDEST) :=
  ⟨(by decide), fun _ h => (by cases h),
    (jumpdest_analysis [PUSH1, JUMPDEST, JUMPDEST]).2 _ _ 2 (by decide) (fun _ h => (by cases h))⟩

end Atlantis.Vm
