import Mathlib

/-!
# Memory and the gas of its expansion

`core/vm/memory.go`, `memoryGasCost` of `core/vm/gas_table.go`, `toWordSize` of
`core/vm/common.go`, and the memory sizing of `Interpreter.Run`.

Memory is paid for by the word: `C(w) = 3 w + w² / 512` for `w` words, and an expansion
costs the difference of `C` at the new and the old size, which `memoryGasCost` computes
from the cost it remembers (`lastGasCost`).  It computes in `uint64`, and refuses sizes
above `0xffffffffe0`.  The square of the word count fits in 64 bits only for sizes up to
`0x1FFFFFFFE0`: up to there every expansion costs exactly the difference
(`expandAll_spec`), and above it the square wraps (`memoryGasCost_wraps`).
-/

namespace Atlantis.Vm

/-- The errors of the interpreter that the functions modelled here return. -/
inductive VmError where
  | errGasUintOverflow
  | ErrOutOfGas
  deriving DecidableEq, Repr

/-- `math.MaxUint64`. -/
def MaxUint64 : UInt64 := 0xffffffffffffffff

/-- `params.MemoryGas`. -/
def MemoryGas : UInt64 := 3

/-- `params.QuadCoeffDiv`. -/
def QuadCoeffDiv : UInt64 := 512

/-- `math.SafeMul`: the product and whether it overflowed. -/
def SafeMul (x y : UInt64) : UInt64 × Bool :=
  if x = 0 ∨ y = 0 then (0, false) else (x * y, y > MaxUint64 / x)

/-- `toWordSize`: the number of 32-byte words a size takes, rounded up. -/
def toWordSize (size : UInt64) : UInt64 :=
  if size > MaxUint64 - 31 then MaxUint64 / 32 + 1 else (size + 31) / 32

/-- `Memory`: the bytes stored and the gas paid for them so far. -/
structure Memory where
  store : List UInt8
  lastGasCost : UInt64
  deriving DecidableEq

namespace Memory

/-- `NewMemory`. -/
def NewMemory : Memory := ⟨[], 0⟩

/-- `Len`. -/
def Len (m : Memory) : Nat := m.store.length

/-- `Resize`: zero bytes appended up to the size. -/
def Resize (m : Memory) (size : UInt64) : Memory :=
  if UInt64.ofNat m.Len < size then
    { m with store := m.store ++ List.replicate (size - UInt64.ofNat m.Len).toNat 0 }
  else m

end Memory

open Memory

/-- `memoryGasCost`: the gas of expanding the memory to a size, which is remembered. -/
def memoryGasCost (mem : Memory) (newMemSize : UInt64) : Except VmError (UInt64 × Memory) :=
  if newMemSize = 0 then .ok (0, mem)
  else if newMemSize > 0xffffffffe0 then .error .errGasUintOverflow
  else
    let newMemSizeWords := toWordSize newMemSize
    let newMemSize := newMemSizeWords * 32
    if newMemSize > UInt64.ofNat mem.Len then
      let square := newMemSizeWords * newMemSizeWords
      let linCoef := newMemSizeWords * MemoryGas
      let quadCoef := square / QuadCoeffDiv
      let newTotalFee := linCoef + quadCoef
      let fee := newTotalFee - mem.lastGasCost
      .ok (fee, { mem with lastGasCost := newTotalFee })
    else .ok (0, mem)

/-- The memory part of one step of `Interpreter.Run`: the size the operation asks for, as
`bigUint64` reads it and rounded up to words, its memory gas, and the memory resized to it
once the gas is paid. -/
def expand (mem : Memory) (memSize : Nat) : Except VmError (UInt64 × Memory) :=
  -- `bigUint64`: a size of more than 64 bits overflows
  if 2 ^ 64 ≤ memSize then .error .errGasUintOverflow
  else
    match SafeMul (toWordSize (UInt64.ofNat memSize)) 32 with
    | (_, true) => .error .errGasUintOverflow
    | (memorySize, false) =>
      (memoryGasCost mem memorySize).map fun (fee, mem) =>
        (fee, if memorySize > 0 then mem.Resize memorySize else mem)

/-- The memory part of the steps of one frame: the sizes asked for one after the other,
from a new memory, with the gas paid for memory in all. -/
def expandAll (mem : Memory) : List Nat → Except VmError (Nat × Memory)
  | [] => .ok (0, mem)
  | memSize :: sizes => do
    let (fee, mem) ← expand mem memSize
    let (total, mem) ← expandAll mem sizes
    pure (fee.toNat + total, mem)

/-! ## What memory costs -/

/-- `C(w) = 3 w + w² / 512`: the gas of `w` words of memory. -/
def memoryCost (w : Nat) : Nat := 3 * w + w * w / 512

theorem memoryCost_mono {w w' : Nat} (h : w ≤ w') : memoryCost w ≤ memoryCost w' := by
  have hsq : w * w ≤ w' * w' := Nat.mul_le_mul h h
  have hdiv : w * w / 512 ≤ w' * w' / 512 := Nat.div_le_div_right hsq
  unfold memoryCost
  omega

/-- Word counts whose square fits in 64 bits: of sizes up to `0x1FFFFFFFE0`. -/
theorem toWordSize_toNat {size : UInt64} (h : size.toNat ≤ 0x1FFFFFFFE0) :
    (toWordSize size).toNat = (size.toNat + 31) / 32 := by
  have hle : ¬size > MaxUint64 - 31 := by
    rw [gt_iff_lt, UInt64.lt_iff_toNat_lt, UInt64.toNat_sub_of_le _ _ (by decide)]
    simp only [MaxUint64, UInt64.reduceToNat]
    omega
  rw [toWordSize, if_neg hle, UInt64.toNat_div, UInt64.toNat_add]
  simp only [UInt64.reduceToNat]
  rw [Nat.mod_eq_of_lt (by omega)]

/-- The fee `memoryGasCost` computes for `w` words is `C(w)`, while `w²` fits in 64 bits. -/
theorem totalFee_toNat {w : UInt64} (hw : w.toNat < 2 ^ 32) :
    (w * MemoryGas + w * w / QuadCoeffDiv).toNat = memoryCost w.toNat := by
  have hsq : w.toNat * w.toNat < 2 ^ 32 * 2 ^ 32 := Nat.mul_lt_mul'' hw hw
  have hquad : w.toNat * w.toNat / 512 ≤ w.toNat * w.toNat := Nat.div_le_self _ _
  rw [UInt64.toNat_add, UInt64.toNat_mul, UInt64.toNat_div, UInt64.toNat_mul]
  simp only [MemoryGas, QuadCoeffDiv, UInt64.reduceToNat, memoryCost]
  rw [Nat.mod_eq_of_lt (by omega : w.toNat * w.toNat < 2 ^ 64),
    Nat.mod_eq_of_lt (by omega : w.toNat * 3 < 2 ^ 64), Nat.mod_eq_of_lt (by omega)]
  omega

/-! ## Memory that is paid for -/

/-- What the interpreter keeps of its memory, where every size asked for is at most
`0x1FFFFFFFE0`: a whole number of words, with `lastGasCost` what they cost. -/
structure Memory.Paid (mem : Memory) : Prop where
  words : mem.Len % 32 = 0
  bound : mem.Len ≤ 0x1FFFFFFFE0
  cost : mem.lastGasCost.toNat = memoryCost (mem.Len / 32)

theorem paid_NewMemory : NewMemory.Paid :=
  ⟨rfl, by decide, rfl⟩

/-- `memoryGasCost` of a size of whole words that fit: the memory grows by the difference
of `C`, or not at all. -/
theorem memoryGasCost_spec {mem : Memory} (hmem : mem.Paid) {n : UInt64}
    (hn : n.toNat ≤ 0x1FFFFFFFE0) (hwords : n.toNat % 32 = 0) :
    (mem.Len < n.toNat ∧ memoryGasCost mem n =
        .ok (UInt64.ofNat (memoryCost (n.toNat / 32) - memoryCost (mem.Len / 32)),
          { mem with lastGasCost := UInt64.ofNat (memoryCost (n.toNat / 32)) })) ∨
      (n.toNat ≤ mem.Len ∧ memoryGasCost mem n = .ok (0, mem)) := by
  have hw := toWordSize_toNat hn
  have hlen : (UInt64.ofNat mem.Len).toNat = mem.Len := by
    have hlt : mem.Len < 2 ^ 64 := by
      have := hmem.bound
      omega
    simp only [UInt64.toNat_ofNat', Nat.mod_eq_of_lt hlt]
  -- the size rounded to words is the size itself
  have hsize : (toWordSize n * 32).toNat = n.toNat := by
    rw [UInt64.toNat_mul, hw]
    simp only [UInt64.reduceToNat]
    omega
  by_cases hzero : n = 0
  · subst hzero
    exact Or.inr ⟨by simp, by simp [memoryGasCost]⟩
  have hcap : ¬n > 0xffffffffe0 := by
    rw [gt_iff_lt, UInt64.lt_iff_toNat_lt]
    simp only [UInt64.reduceToNat]
    omega
  by_cases hgrow : mem.Len < n.toNat
  · left
    have hfee : (toWordSize n * MemoryGas + toWordSize n * toWordSize n / QuadCoeffDiv).toNat =
        memoryCost (n.toNat / 32) := by
      rw [totalFee_toNat (by omega), hw]
      congr 1
      omega
    have hmono : memoryCost (mem.Len / 32) ≤ memoryCost (n.toNat / 32) :=
      memoryCost_mono (Nat.div_le_div_right (Nat.le_of_lt hgrow))
    refine ⟨hgrow, ?_⟩
    have hgt : toWordSize n * 32 > UInt64.ofNat mem.Len := by
      rw [gt_iff_lt, UInt64.lt_iff_toNat_lt, hsize, hlen]
      exact hgrow
    simp only [memoryGasCost, hzero, if_false, hcap, hgt, if_true]
    congr 3
    · apply UInt64.toNat.inj
      rw [UInt64.toNat_sub_of_le _ _ (by rw [UInt64.le_iff_toNat_le, hfee, hmem.cost]; exact hmono),
        hfee, hmem.cost, UInt64.toNat_ofNat', Nat.mod_eq_of_lt]
      have := UInt64.toNat_lt (toWordSize n * MemoryGas + toWordSize n * toWordSize n / QuadCoeffDiv)
      omega
    · apply UInt64.toNat.inj
      rw [hfee, UInt64.toNat_ofNat', Nat.mod_eq_of_lt]
      have := UInt64.toNat_lt (toWordSize n * MemoryGas + toWordSize n * toWordSize n / QuadCoeffDiv)
      omega
  · right
    have hle : ¬toWordSize n * 32 > UInt64.ofNat mem.Len := by
      rw [gt_iff_lt, UInt64.lt_iff_toNat_lt, hsize, hlen]
      exact hgrow
    refine ⟨by omega, ?_⟩
    simp only [memoryGasCost, hzero, if_false, hcap, hle]

theorem Resize_Len (mem : Memory) (hlen : mem.Len < 2 ^ 64) (size : UInt64) :
    (mem.Resize size).Len = max mem.Len size.toNat := by
  have hofNat : (UInt64.ofNat mem.Len).toNat = mem.Len := by
    simp only [UInt64.toNat_ofNat', Nat.mod_eq_of_lt hlen]
  unfold Resize
  split
  · next hlt =>
    rw [UInt64.lt_iff_toNat_lt, hofNat] at hlt
    have hsub : (size - UInt64.ofNat mem.Len).toNat = size.toNat - mem.Len := by
      rw [UInt64.toNat_sub_of_le _ _ (by rw [UInt64.le_iff_toNat_le, hofNat]; omega), hofNat]
    show (mem.store ++ List.replicate (size - UInt64.ofNat mem.Len).toNat 0).length = _
    rw [List.length_append, List.length_replicate, hsub]
    simp only [Len] at hlt ⊢
    omega
  · next hge =>
    rw [UInt64.lt_iff_toNat_lt, hofNat] at hge
    omega

theorem Resize_lastGasCost (mem : Memory) (size : UInt64) :
    (mem.Resize size).lastGasCost = mem.lastGasCost := by
  unfold Resize
  split <;> rfl

/-- `SafeMul` of a word count that fits by 32 does not overflow. -/
theorem SafeMul_words {w : UInt64} (hw : w.toNat ≤ 2 ^ 32) (h0 : w ≠ 0) : SafeMul w 32 = (w * 32, false) := by
  have hpos : 0 < w.toNat := by
    rcases Nat.eq_zero_or_pos w.toNat with h | h
    · exact absurd (UInt64.toNat.inj (h.trans rfl)) h0
    · exact h
  have hfit : ¬(32 : UInt64) > MaxUint64 / w := by
    rw [gt_iff_lt, UInt64.lt_iff_toNat_lt, UInt64.toNat_div]
    simp only [MaxUint64, UInt64.reduceToNat, Nat.not_lt]
    rw [Nat.le_div_iff_mul_le hpos]
    omega
  simp only [SafeMul, h0, false_or, hfit, decide_false]
  rfl

/-- One step's memory, for a size that fits: the memory grows to the size in words and the
fee is the difference of `C`. -/
theorem expand_spec {mem : Memory} (hmem : mem.Paid) {memSize : Nat} (hsize : memSize ≤ 0x1FFFFFFFE0) :
    ∃ fee mem', expand mem memSize = .ok (fee, mem') ∧ mem'.Paid ∧ mem.Len ≤ mem'.Len ∧
      fee.toNat = memoryCost (mem'.Len / 32) - memoryCost (mem.Len / 32) := by
  have hlen : mem.Len < 2 ^ 64 := by
    have := hmem.bound
    omega
  have hofNat : (UInt64.ofNat memSize).toNat = memSize := by
    simp only [UInt64.toNat_ofNat']
    exact Nat.mod_eq_of_lt (by omega)
  have hw : (toWordSize (UInt64.ofNat memSize)).toNat = (memSize + 31) / 32 := by
    rw [toWordSize_toNat (by omega), hofNat]
  have hfits : ¬2 ^ 64 ≤ memSize := by omega
  by_cases hzero : toWordSize (UInt64.ofNat memSize) = 0
  · -- nothing asked for: no gas, no growth
    refine ⟨0, mem, ?_, hmem, Nat.le_refl _, by simp⟩
    simp only [expand, hfits, if_false, hzero, SafeMul, true_or, if_true, UInt64.zero_mul, memoryGasCost]
    rfl
  -- the size in words, as `Run` passes it on
  have hn : (toWordSize (UInt64.ofNat memSize) * 32).toNat = (memSize + 31) / 32 * 32 := by
    rw [UInt64.toNat_mul, hw]
    simp only [UInt64.reduceToNat]
    omega
  have hpos : 0 < toWordSize (UInt64.ofNat memSize) * 32 := by
    rw [UInt64.lt_iff_toNat_lt, hn]
    have : (toWordSize (UInt64.ofNat memSize)).toNat ≠ 0 := fun h => hzero (UInt64.toNat.inj (h.trans rfl))
    simp only [UInt64.reduceToNat]
    omega
  have hrun : expand mem memSize = (memoryGasCost mem (toWordSize (UInt64.ofNat memSize) * 32)).map
      fun (fee, mem) => (fee, mem.Resize (toWordSize (UInt64.ofNat memSize) * 32)) := by
    simp only [expand, hfits, if_false, SafeMul_words (by omega) hzero, hpos, if_true]
  rcases memoryGasCost_spec hmem (by omega : (toWordSize (UInt64.ofNat memSize) * 32).toNat ≤ 0x1FFFFFFFE0)
      (by omega) with ⟨hgrow, hcost⟩ | ⟨hstay, hcost⟩
  · -- the memory grows to the size asked for, and remembers what it now costs
    have hC : memoryCost ((memSize + 31) / 32 * 32 / 32) < 2 ^ 64 := by
      have hle := memoryCost_mono (by omega : (memSize + 31) / 32 * 32 / 32 ≤ 2 ^ 32)
      simp only [memoryCost] at hle ⊢
      omega
    have hLen : (({ mem with lastGasCost := UInt64.ofNat (memoryCost ((memSize + 31) / 32 * 32 / 32)) } :
        Memory).Resize (toWordSize (UInt64.ofNat memSize) * 32)).Len = (memSize + 31) / 32 * 32 := by
      rw [Resize_Len { mem with lastGasCost := UInt64.ofNat (memoryCost ((memSize + 31) / 32 * 32 / 32)) } hlen, hn]
      rw [hn] at hgrow
      exact Nat.max_eq_right (Nat.le_of_lt hgrow)
    rw [hn] at hcost hgrow
    refine ⟨_, _, by rw [hrun, hcost]; rfl, ⟨?_, ?_, ?_⟩, ?_, ?_⟩
    · rw [hLen]
      omega
    · rw [hLen]
      omega
    · rw [hLen, Resize_lastGasCost, UInt64.toNat_ofNat', Nat.mod_eq_of_lt hC]
    · rw [hLen]
      omega
    · rw [hLen, UInt64.toNat_ofNat', Nat.mod_eq_of_lt (by omega)]
  · -- the memory is large enough already
    have hLen : (mem.Resize (toWordSize (UInt64.ofNat memSize) * 32)).Len = mem.Len := by
      rw [Resize_Len mem hlen]
      exact Nat.max_eq_left hstay
    refine ⟨_, _, by rw [hrun, hcost]; rfl, ⟨?_, ?_, ?_⟩, Nat.le_of_eq hLen.symm,
      by rw [hLen]; simp⟩
    · rw [hLen]
      exact hmem.words
    · rw [hLen]
      exact hmem.bound
    · rw [hLen, Resize_lastGasCost]
      exact hmem.cost

/-- **The gas of memory over a frame.**  For every sequence of memory sizes asked for in one
frame, each at most `0x1FFFFFFFE0`, the steps succeed, the fees add up to the difference of
`C` at the final and the first size, and `lastGasCost` is `C` of the memory's words after
every step. -/
theorem expandAll_spec {mem : Memory} (hmem : mem.Paid) (sizes : List Nat)
    (hsizes : ∀ size ∈ sizes, size ≤ 0x1FFFFFFFE0) :
    ∃ total mem', expandAll mem sizes = .ok (total, mem') ∧ mem'.Paid ∧ mem.Len ≤ mem'.Len ∧
      total = memoryCost (mem'.Len / 32) - memoryCost (mem.Len / 32) := by
  induction sizes generalizing mem with
  | nil => exact ⟨0, mem, rfl, hmem, Nat.le_refl _, by simp⟩
  | cons size sizes ih =>
    obtain ⟨fee, mem₁, h₁, hpaid₁, hle₁, hfee⟩ := expand_spec hmem (hsizes size List.mem_cons_self)
    obtain ⟨total, mem₂, h₂, hpaid₂, hle₂, htotal⟩ :=
      ih hpaid₁ fun s hs => hsizes s (List.mem_cons_of_mem _ hs)
    -- the fees telescope, as the cost only grows with the memory
    have hmono₁ := memoryCost_mono (Nat.div_le_div_right (c := 32) hle₁)
    have hmono₂ := memoryCost_mono (Nat.div_le_div_right (c := 32) hle₂)
    refine ⟨fee.toNat + total, mem₂, by simp only [expandAll, h₁, h₂, bind, Except.bind, pure, Except.pure], hpaid₂, Nat.le_trans hle₁ hle₂, ?_⟩
    omega

theorem expandAll_spec_two :
    (∀ size ∈ [64, 0x1FFFFFFFE0], size ≤ 0x1FFFFFFFE0) ∧
      ∃ total mem', expandAll NewMemory [64, 0x1FFFFFFFE0] = .ok (total, mem') ∧ mem'.Paid ∧
        NewMemory.Len ≤ mem'.Len ∧ total = memoryCost (mem'.Len / 32) - memoryCost (NewMemory.Len / 32) :=
  ⟨by decide, expandAll_spec paid_NewMemory [64, 0x1FFFFFFFE0] (by decide)⟩

/-- **The square wraps.**  A new memory asked to grow to `0x2000000000` bytes, a size
`memoryGasCost` accepts, is charged `3 · 2^32` for its `2^32` words: their square is `2^64`,
which wraps to 0, so the quadratic part `2^55` of `C(2^32)` is not charged. -/
theorem memoryGasCost_wraps :
    memoryGasCost NewMemory 0x2000000000 = .ok (0x300000000, ⟨[], 0x300000000⟩) ∧
      memoryCost 0x100000000 = 0x300000000 + 2 ^ 55 :=
  ⟨by decide, by decide⟩

end Atlantis.Vm
