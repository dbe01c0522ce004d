import Atlantis.Bloombits.Generator

/-!
# Bloom bits matching

`core/bloombits/matcher.go`: a matcher filters a range of blocks by the rotated bloom bits of
their sections.  `NewMatcher` turns each group of clauses (addresses, or the topics of one
position) into the three bloom bit indexes of each clause, skipping a group that is empty or
has a nil clause, which matches everything.  For each section in the range, the sub-matcher of
each group ANDs the three bit vectors of a clause, ORs its clauses, and ANDs the result into
the section's vector, dropping the section when no bit is left; `Start` then reads the
matching blocks of the range out of the vectors that come through.

The pipeline of goroutines and channels, and the retrieval of the vectors through schedulers
and retrievers, deliver to each stage the sections in order and the vectors of the bits it
asks for; here a stage is a function of the section's vector and of the section's bit
vectors, which the bloom indexer commits from a generator fed the section's headers in block
order (`sectionData`).  The commit reads the columns through `Generator.Bitset`, which refuses
them all for a section of fewer than 2048 blocks; from 2048 blocks on the vectors hold the
header blooms' bits (`SectionBits`).  The bytewise operations of `bitutil` are its portable
versions.
-/

namespace Atlantis.Bloombits

open Atlantis.Types

/-! ## Byte vectors -/

/-- `ANDBytes`: the first `min` bytes of `dst` become the bytewise AND of `a` and `b`. -/
def ANDBytes (dst a b : List UInt8) : List UInt8 :=
  List.zipWith (· &&& ·) a b ++ dst.drop (min a.length b.length)

/-- `ORBytes`: the first `min` bytes of `dst` become the bytewise OR of `a` and `b`. -/
def ORBytes (dst a b : List UInt8) : List UInt8 :=
  List.zipWith (· ||| ·) a b ++ dst.drop (min a.length b.length)

/-- `TestBytes`: whether any bit is set. -/
def TestBytes (p : List UInt8) : Bool :=
  p.any (· != 0)

/-- Go's `copy(dst, src)`: the first bytes of `dst` become those of `src`. -/
def copy (dst src : List UInt8) : List UInt8 :=
  src.take dst.length ++ dst.drop src.length

/-! ## The matcher -/

/-- `calcBloomIndexes`: the bloom bit indexes of a value, from the first six bytes of its
hash. -/
def calcBloomIndexes (keccak256 : List UInt8 → List UInt8) (b : List UInt8) : List Nat :=
  let h := keccak256 b
  (List.range 3).map fun i =>
    (((h.getD (2 * i) 0).toNat <<< 8) &&& 2047) + (h.getD (2 * i + 1) 0).toNat

/-- `Matcher`: the section size and the bit indexes of the clauses of each group. -/
structure Matcher where
  sectionSize : Nat
  filters : List (List (List Nat))

/-- `NewMatcher`: a group that is empty or has a nil clause is skipped. -/
def NewMatcher (keccak256 : List UInt8 → List UInt8) (sectionSize : Nat)
    (filters : List (List (Option (List UInt8)))) : Matcher where
  sectionSize := sectionSize
  filters := filters.filterMap fun filter =>
    if filter.isEmpty then none
    else filter.mapM fun clause => clause.map (calcBloomIndexes keccak256)

/-- One step of the AND loop over the bits of a clause. -/
def andStep (sectionSize : Nat) (data : Nat → List UInt8) (andVector : Option (List UInt8))
    (bit : Nat) : Option (List UInt8) :=
  match andVector with
  | none => some (copy (List.replicate (sectionSize / 8) 0) (data bit))
  | some v => some (ANDBytes v v (data bit))

/-- One step of the OR loop over the clauses of a group. -/
def orStep (sectionSize : Nat) (data : Nat → List UInt8) (orVector : Option (List UInt8))
    (bits : List Nat) : Option (List UInt8) :=
  let andVector := bits.foldl (andStep sectionSize data) none
  match orVector with
  | none => andVector
  | some o => some (ORBytes o o (andVector.getD []))

/-- The sub-matcher of one group on one section: the AND of the bit vectors of each clause,
their OR, ANDed into the section's vector, which goes on if a bit is left. -/
def subMatch (sectionSize : Nat) (bloom : List (List Nat)) (data : Nat → List UInt8)
    (bitset : List UInt8) : Option (List UInt8) :=
  let orVector := bloom.foldl (orStep sectionSize data) none
  let orVector := orVector.getD (List.replicate (sectionSize / 8) 0)
  let orVector := ANDBytes orVector orVector bitset
  if TestBytes orVector then some orVector else none

/-- The daisy chain of `run` on one section: its vector starts with every bit set, and each
group's sub-matcher in turn ANDs into it or drops the section. -/
def Matcher.runSection (m : Matcher) (data : Nat → List UInt8) : Option (List UInt8) :=
  m.filters.foldlM (fun bitset bloom => subMatch m.sectionSize bloom data bitset)
    (List.replicate (m.sectionSize / 8) 0xff)

/-- The loop of `Start` over the blocks of a section: a zero byte at a byte boundary skips
its eight blocks. -/
def extractLoop (bitset : List UInt8) (sectionStart last : Nat) : Nat → Nat → List Nat
  | 0, _ => []
  | fuel + 1, i =>
    if last < i then []
    else
      let next := (bitset[(i - sectionStart) / 8]?).getD 0
      if next = 0 then
        extractLoop bitset sectionStart last fuel (if i % 8 = 0 then i + 8 else i + 1)
      else
        (if next &&& 1 <<< UInt8.ofNat (7 - i % 8) ≠ 0 then [i] else []) ++
          extractLoop bitset sectionStart last fuel (i + 1)

/-- The blocks of the range that the vector of a section marks. -/
def extract (sectionSize begin end_ sec : Nat) (bitset : List UInt8) : List Nat :=
  let sectionStart := sec * sectionSize
  let first := max sectionStart begin
  let last := min (sectionStart + sectionSize - 1) end_
  extractLoop bitset sectionStart last (last + 1 - first) first

/-- `Start`: the matching blocks of the range, section by section. -/
def Matcher.Start (m : Matcher) (data : Nat → Nat → List UInt8) (begin end_ : Nat) : List Nat :=
  (List.range' (begin / m.sectionSize) (end_ / m.sectionSize + 1 - begin / m.sectionSize)).flatMap
    fun sec =>
      match m.runSection (data sec) with
      | none => []
      | some bitset => extract m.sectionSize begin end_ sec bitset

/-- The bit vectors the bloom indexer commits for section `sec`: a new generator (`Reset`)
fed the section's header blooms in block order (`Process`), read back by `Commit`. -/
def sectionData (sectionSize : Nat) (headerBloom : Nat → Bloom) (sec : Nat) :
    Except Error (List (List UInt8)) := do
  let gen ← generate sectionSize
    ((List.range sectionSize).map fun k => headerBloom (sec * sectionSize + k))
  Commit gen

/-- A header bloom passes the filter: every group that is not empty and has no nil clause
has a clause whose bits are all in the bloom. -/
def Passes (keccak256 : List UInt8 → List UInt8) (filters : List (List (Option (List UInt8))))
    (bloom : Bloom) : Prop :=
  ∀ filter ∈ filters, filter ≠ [] → (∀ c ∈ filter, c.isSome) →
    ∃ x, some x ∈ filter ∧ BloomLookup keccak256 bloom x = true

instance (keccak256 : List UInt8 → List UInt8) (filters : List (List (Option (List UInt8))))
    (bloom : Bloom) : Decidable (Passes keccak256 filters bloom) :=
  decidable_of_iff (∀ filter ∈ filters, filter ≠ [] → (∀ c ∈ filter, c.isSome) →
      ∃ c ∈ filter, c.any (BloomLookup keccak256 bloom) = true) (by
    unfold Passes
    refine forall₂_congr fun filter _ => imp_congr_right fun _ => imp_congr_right fun _ => ?_
    constructor
    · rintro ⟨c, hc, hany⟩
      cases c with
      | none => simp at hany
      | some x => exact ⟨x, hc, by simpa using hany⟩
    · rintro ⟨x, hx, hl⟩
      exact ⟨some x, hx, by simpa using hl⟩)

/-! ## The bits of byte vectors -/

section Vectors

variable {a b : List UInt8}

theorem blockBit_of_length_le {v : List UInt8} {k : Nat} (hk : v.length ≤ k / 8) :
    blockBit v k = false := by
  simp [blockBit, List.getElem?_eq_none hk]

theorem blockBit_zipWith {f : UInt8 → UInt8 → UInt8} {g : Bool → Bool → Bool}
    (hfg : ∀ x y j, (f x y).toNat.testBit j = g (x.toNat.testBit j) (y.toNat.testBit j))
    (hg : g false false = false) (hlen : a.length = b.length) (k : Nat) :
    blockBit (List.zipWith f a b) k = g (blockBit a k) (blockBit b k) := by
  by_cases hk : k / 8 < a.length
  · simp [blockBit, List.getElem?_zipWith, List.getElem?_eq_getElem hk,
      List.getElem?_eq_getElem (hlen ▸ hk), hfg]
  · rw [blockBit_of_length_le (by simp; omega), blockBit_of_length_le (by omega),
      blockBit_of_length_le (by omega), hg]

@[simp] theorem length_ANDBytes (hlen : a.length = b.length) : (ANDBytes a a b).length = a.length := by
  simp [ANDBytes, hlen]

@[simp] theorem length_ORBytes (hlen : a.length = b.length) : (ORBytes a a b).length = a.length := by
  simp [ORBytes, hlen]

/-- **`ANDBytes` ANDs the bits of each block.** -/
theorem blockBit_ANDBytes (hlen : a.length = b.length) (k : Nat) :
    blockBit (ANDBytes a a b) k = (blockBit a k && blockBit b k) := by
  rw [ANDBytes, hlen, Nat.min_self, ← hlen, List.drop_length, List.append_nil]
  exact blockBit_zipWith (fun x y j => by simp) rfl hlen k

/-- **`ORBytes` ORs the bits of each block.** -/
theorem blockBit_ORBytes (hlen : a.length = b.length) (k : Nat) :
    blockBit (ORBytes a a b) k = (blockBit a k || blockBit b k) := by
  rw [ORBytes, hlen, Nat.min_self, ← hlen, List.drop_length, List.append_nil]
  exact blockBit_zipWith (fun x y j => by simp) rfl hlen k

theorem copy_replicate {d : List UInt8} {n : Nat} (hlen : d.length = n) :
    copy (List.replicate n 0) d = d := by
  simp [copy, ← hlen]

theorem blockBit_replicate_ff (n k : Nat) :
    blockBit (List.replicate n 0xff) k = decide (k < 8 * n) := by
  by_cases hk : k / 8 < n
  · have hget : (List.replicate n (0xff : UInt8))[k / 8]? = some 0xff := by simp [hk]
    have hbit : ∀ j < 8, (0xff : UInt8).toNat.testBit j = true := by decide
    rw [blockBit, hget, Option.getD_some, hbit _ (by omega)]
    simp only [true_eq_decide_iff]
    omega
  · rw [blockBit_of_length_le (by simpa using hk)]
    simp
    omega

theorem blockBit_replicate_zero (n k : Nat) : blockBit (List.replicate n 0) k = false := by
  by_cases hk : k / 8 < n <;> simp [blockBit, hk]

/-- **No bit of a vector is set** when `TestBytes` says so. -/
theorem TestBytes_eq_false_iff (v : List UInt8) :
    TestBytes v = false ↔ ∀ k < 8 * v.length, blockBit v k = false := by
  unfold TestBytes
  rw [List.any_eq_false]
  simp only [bne_iff_ne, ne_eq, Decidable.not_not]
  constructor
  · intro h k hk
    have hx := h _ (List.getElem_mem (show k / 8 < v.length by omega))
    simp [blockBit, List.getElem?_eq_getElem (show k / 8 < v.length by omega), hx]
  · intro h x hx
    obtain ⟨i, hi, rfl⟩ := List.getElem_of_mem hx
    -- each bit of byte `i` is the bit of one block of it
    apply UInt8.toNat_inj.mp
    apply Nat.zero_of_testBit_eq_false
    intro j
    by_cases hj : j < 8
    · have := h (8 * i + (7 - j)) (by omega)
      simp only [blockBit, show (8 * i + (7 - j)) / 8 = i by omega,
        List.getElem?_eq_getElem hi, Option.getD_some] at this
      rwa [show 7 - (8 * i + (7 - j)) % 8 = j by omega] at this
    · exact UInt8.testBit_toNat_of_le _ (by omega)

end Vectors

/-! ## One section through the sub-matchers -/

/-- All the bits of a clause are set for block `k`. -/
def clauseBit (data : Nat → List UInt8) (bits : List Nat) (k : Nat) : Bool :=
  bits.all fun bit => blockBit (data bit) k

/-- Some clause of a group has all its bits set for block `k`. -/
def groupBit (data : Nat → List UInt8) (bloom : List (List Nat)) (k : Nat) : Bool :=
  bloom.any fun bits => clauseBit data bits k

section SubMatch

variable {sectionSize : Nat} {data : Nat → List UInt8}

/-- The AND loop of a clause from a vector. -/
theorem foldl_andStep_some (bits : List Nat)
    (hd : ∀ bit ∈ bits, (data bit).length = sectionSize / 8) :
    ∀ v : List UInt8, v.length = sectionSize / 8 →
      ∃ w, bits.foldl (andStep sectionSize data) (some v) = some w ∧
        w.length = sectionSize / 8 ∧ ∀ k, blockBit w k = (blockBit v k && clauseBit data bits k) := by
  induction bits with
  | nil => exact fun v hv => ⟨v, rfl, hv, fun k => by simp [clauseBit]⟩
  | cons bit bits ih =>
    intro v hv
    have hbit := hd bit (by simp)
    obtain ⟨w, hw, hlen, hbits⟩ := ih (fun b hb => hd b (by simp [hb])) (ANDBytes v v (data bit))
      (by rw [length_ANDBytes (hv.trans hbit.symm), hv])
    refine ⟨w, hw, hlen, fun k => ?_⟩
    rw [hbits, blockBit_ANDBytes (hv.trans hbit.symm)]
    simp [clauseBit, Bool.and_assoc]

/-- **The AND loop of a clause** gives the blocks where all its bits are set. -/
theorem foldl_andStep_none {bits : List Nat} (hne : bits ≠ [])
    (hd : ∀ bit ∈ bits, (data bit).length = sectionSize / 8) :
    ∃ w, bits.foldl (andStep sectionSize data) none = some w ∧
      w.length = sectionSize / 8 ∧ ∀ k, blockBit w k = clauseBit data bits k := by
  obtain ⟨bit, bits, rfl⟩ := List.exists_cons_of_ne_nil hne
  have hbit := hd bit (by simp)
  obtain ⟨w, hw, hlen, hbits⟩ := foldl_andStep_some bits (fun b hb => hd b (by simp [hb]))
    (data bit) hbit
  refine ⟨w, ?_, hlen, fun k => by rw [hbits]; simp [clauseBit]⟩
  simpa [andStep, copy_replicate hbit] using hw

/-- The OR loop over the clauses of a group from a vector. -/
theorem foldl_orStep_some (bloom : List (List Nat)) (hne : ∀ bits ∈ bloom, bits ≠ [])
    (hd : ∀ bits ∈ bloom, ∀ bit ∈ bits, (data bit).length = sectionSize / 8) :
    ∀ o : List UInt8, o.length = sectionSize / 8 →
      ∃ w, bloom.foldl (orStep sectionSize data) (some o) = some w ∧
        w.length = sectionSize / 8 ∧ ∀ k, blockBit w k = (blockBit o k || groupBit data bloom k) := by
  induction bloom with
  | nil => exact fun o ho => ⟨o, rfl, ho, fun k => by simp [groupBit]⟩
  | cons bits bloom ih =>
    intro o ho
    obtain ⟨a, ha, halen, habits⟩ := foldl_andStep_none (hne bits (by simp)) (hd bits (by simp))
    obtain ⟨w, hw, hlen, hbits⟩ := ih (fun b hb => hne b (by simp [hb]))
      (fun b hb => hd b (by simp [hb])) (ORBytes o o a) (by rw [length_ORBytes (ho.trans halen.symm), ho])
    refine ⟨w, by simpa [orStep, ha] using hw, hlen, fun k => ?_⟩
    rw [hbits, blockBit_ORBytes (ho.trans halen.symm), habits]
    simp [groupBit, Bool.or_assoc]

/-- **The OR loop of a group** gives the blocks where some clause has all its bits set. -/
theorem orVector_eq {bloom : List (List Nat)} (hne : ∀ bits ∈ bloom, bits ≠ [])
    (hd : ∀ bits ∈ bloom, ∀ bit ∈ bits, (data bit).length = sectionSize / 8) :
    ∃ w, (bloom.foldl (orStep sectionSize data) none).getD (List.replicate (sectionSize / 8) 0) = w ∧
      w.length = sectionSize / 8 ∧ ∀ k, blockBit w k = groupBit data bloom k := by
  cases bloom with
  | nil => exact ⟨_, rfl, by simp, fun k => by simp [blockBit_replicate_zero, groupBit]⟩
  | cons bits bloom =>
    obtain ⟨a, ha, halen, habits⟩ := foldl_andStep_none (hne bits (by simp)) (hd bits (by simp))
    obtain ⟨w, hw, hlen, hbits⟩ := foldl_orStep_some bloom (fun b hb => hne b (by simp [hb]))
      (fun b hb => hd b (by simp [hb])) a halen
    refine ⟨w, by simp [orStep, ha, hw], hlen, fun k => ?_⟩
    rw [hbits, habits]
    simp [groupBit]

/-- **A sub-matcher** ANDs the blocks of its group into the section's vector, and drops the
section when none is left. -/
theorem subMatch_eq {bloom : List (List Nat)} (hne : ∀ bits ∈ bloom, bits ≠ [])
    (hd : ∀ bits ∈ bloom, ∀ bit ∈ bits, (data bit).length = sectionSize / 8)
    {bitset : List UInt8} (hlen : bitset.length = sectionSize / 8) :
    ∃ v, v.length = sectionSize / 8 ∧
      (∀ k, blockBit v k = (groupBit data bloom k && blockBit bitset k)) ∧
      subMatch sectionSize bloom data bitset = if TestBytes v then some v else none := by
  obtain ⟨w, hw, hwlen, hwbits⟩ := orVector_eq hne hd
  refine ⟨ANDBytes w w bitset, by rw [length_ANDBytes (hwlen.trans hlen.symm), hwlen],
    fun k => by rw [blockBit_ANDBytes (hwlen.trans hlen.symm), hwbits], ?_⟩
  simp only [subMatch, hw]

/-- **The daisy chain on a section**: the vector that comes out marks the blocks that every
group matches, and a section is dropped only when no block is left. -/
theorem foldlM_subMatch (blooms : List (List (List Nat)))
    (hne : ∀ bloom ∈ blooms, ∀ bits ∈ bloom, bits ≠ [])
    (hd : ∀ bloom ∈ blooms, ∀ bits ∈ bloom, ∀ bit ∈ bits, (data bit).length = sectionSize / 8) :
    ∀ bitset : List UInt8, bitset.length = sectionSize / 8 →
      (∀ v, blooms.foldlM (fun bitset bloom => subMatch sectionSize bloom data bitset) bitset =
          some v → v.length = sectionSize / 8 ∧
            ∀ k, blockBit v k = (blockBit bitset k && blooms.all fun bloom => groupBit data bloom k)) ∧
      (blooms.foldlM (fun bitset bloom => subMatch sectionSize bloom data bitset) bitset = none →
        ∀ k < 8 * (sectionSize / 8),
          (blockBit bitset k && blooms.all fun bloom => groupBit data bloom k) = false) := by
  induction blooms with
  | nil =>
    intro bitset hlen
    refine ⟨fun v hv => ?_, fun h => by simp at h⟩
    simp only [List.foldlM_nil, pure, Option.some.injEq] at hv
    subst hv
    exact ⟨hlen, fun k => by simp⟩
  | cons bloom blooms ih =>
    intro bitset hlen
    obtain ⟨v, hvlen, hvbits, hsub⟩ :=
      subMatch_eq (hne bloom (by simp)) (hd bloom (by simp)) hlen
    have ih' := ih (fun b hb => hne b (by simp [hb])) (fun b hb => hd b (by simp [hb])) v hvlen
    rw [List.foldlM_cons, hsub]
    by_cases ht : TestBytes v
    · -- the section goes on with the vector of this group
      simp only [ht, if_true, Option.bind_eq_bind, Option.bind_some]
      refine ⟨fun w hw => ?_, fun hw k hk => ?_⟩
      · obtain ⟨hwlen, hwbits⟩ := ih'.1 w hw
        refine ⟨hwlen, fun k => ?_⟩
        rw [hwbits, hvbits]
        simp only [List.all_cons]
        cases blockBit bitset k <;> cases groupBit data bloom k <;> simp
      · have := ih'.2 hw k hk
        rw [hvbits] at this
        simp only [List.all_cons]
        cases hb : blockBit bitset k <;> cases hg : groupBit data bloom k <;> simp_all
    · -- no block is left: the section is dropped here
      simp only [ht, Bool.false_eq_true, if_false, Option.bind_eq_bind, Option.bind_none]
      refine ⟨fun w hw => by simp at hw, fun _ k hk => ?_⟩
      have := (TestBytes_eq_false_iff v).mp (by simpa using ht) k (by rw [hvlen]; exact hk)
      rw [hvbits] at this
      simp only [List.all_cons]
      cases hb : blockBit bitset k <;> cases hg : groupBit data bloom k <;> simp_all

end SubMatch

/-! ## Reading the blocks out of a section's vector -/

section Extract

variable (v : List UInt8) {sectionStart : Nat}

/-- The blocks of a zero byte are not marked. -/
theorem blockBit_of_byte_zero {i k : Nat} (hzero : (v[(i - sectionStart) / 8]?).getD 0 = 0)
    (hk : (k - sectionStart) / 8 = (i - sectionStart) / 8) : blockBit v (k - sectionStart) = false := by
  simp [blockBit, hk, hzero]

/-- **The loop of `Start`** lists the blocks from `i` to `last` that the vector marks; the
byte skips drop only unmarked blocks. -/
theorem extractLoop_eq (hss : sectionStart % 8 = 0) (last : Nat) :
    ∀ fuel i, sectionStart ≤ i → last + 1 - i ≤ fuel →
      extractLoop v sectionStart last fuel i =
        (List.range' i (last + 1 - i)).filter fun k => blockBit v (k - sectionStart) := by
  intro fuel
  induction fuel with
  | zero =>
    intro i _ hf
    simp [extractLoop, show last + 1 - i = 0 by omega]
  | succ fuel ih =>
    intro i hi hf
    rw [extractLoop]
    split
    · next hlt => simp [show last + 1 - i = 0 by omega]
    · next hle =>
      have hsplit : List.range' i (last + 1 - i) = i :: List.range' (i + 1) (last + 1 - (i + 1)) := by
        rw [show last + 1 - i = (last + 1 - (i + 1)) + 1 by omega, List.range'_succ]
      have hbit : blockBit v (i - sectionStart) =
          ((v[(i - sectionStart) / 8]?).getD 0).toNat.testBit (7 - i % 8) := by
        simp only [blockBit, show (i - sectionStart) % 8 = i % 8 by omega]
      dsimp only
      by_cases hzero : (v[(i - sectionStart) / 8]?).getD 0 = 0
      · rw [if_pos hzero]
        by_cases h8 : i % 8 = 0
        · -- a zero byte at a byte boundary: its eight blocks are skipped
          rw [if_pos h8, ih (i + 8) (by omega) (by omega)]
          have hsplit8 : List.range' i (last + 1 - i) =
              List.range' i (min 8 (last + 1 - i)) ++ List.range' (i + 8) (last + 1 - (i + 8)) := by
            by_cases h : 8 ≤ last + 1 - i
            · rw [Nat.min_eq_left h, show i + 8 = i + 1 * 8 by omega, List.range'_append]
              congr 1
              omega
            · rw [Nat.min_eq_right (by omega), show last + 1 - (i + 8) = 0 by omega]
              simp
          have hnil : (List.range' i (min 8 (last + 1 - i))).filter
              (fun k => blockBit v (k - sectionStart)) = [] := by
            rw [List.filter_eq_nil_iff]
            intro k hk
            rw [List.mem_range'_1] at hk
            simp [blockBit_of_byte_zero v hzero
              (show (k - sectionStart) / 8 = (i - sectionStart) / 8 by omega)]
          rw [hsplit8, List.filter_append, hnil, List.nil_append]
        · rw [if_neg h8, ih (i + 1) (by omega) (by omega), hsplit, List.filter_cons_of_neg]
          simp [hbit, hzero]
      · rw [if_neg hzero, ih (i + 1) (by omega) (by omega), hsplit, List.filter_cons]
        have hmask := UInt8.and_one_shiftLeft_ne_zero_iff ((v[(i - sectionStart) / 8]?).getD 0)
          (show 7 - i % 8 < 8 by omega)
        rw [← hbit] at hmask
        by_cases hb : blockBit v (i - sectionStart) = true
        · simp [hb, hmask.mpr hb]
        · have : ¬ ((v[(i - sectionStart) / 8]?).getD 0 &&& 1 <<< UInt8.ofNat (7 - i % 8) ≠ 0) :=
            fun h => hb (hmask.mp h)
          simp [hb, this]

/-- **The blocks `Start` reads out of a section's vector** are the marked blocks of the
section within the range. -/
theorem extract_eq {sectionSize : Nat} (h8 : sectionSize % 8 = 0) (begin end_ sec : Nat) :
    extract sectionSize begin end_ sec v =
      (List.range' (max (sec * sectionSize) begin)
          (min (sec * sectionSize + sectionSize - 1) end_ + 1 - max (sec * sectionSize) begin)).filter
        fun k => blockBit v (k - sec * sectionSize) := by
  unfold extract
  exact extractLoop_eq v (by rw [Nat.mul_mod, h8]; simp) _ _ _ (Nat.le_max_left _ _) (le_refl _)

end Extract

/-! ## The section data and the filter groups -/

/-- The bit vectors `data` of section `sec` hold, for each block of the section, its header
bloom's bit. -/
structure SectionBits (sectionSize : Nat) (headerBloom : Nat → Bloom) (sec : Nat)
    (data : Nat → List UInt8) : Prop where
  width : ∀ bit < BloomBitLength, (data bit).length = sectionSize / 8
  bit : ∀ bit < BloomBitLength, ∀ r < sectionSize,
    blockBit (data bit) r = (headerBloom (sec * sectionSize + r)).bit bit

/-- **The bit vectors the indexer commits** for a section of at least 2048 blocks hold, for
each block of the section, its header bloom's bit. -/
theorem sectionData_spec {sectionSize : Nat} (hsize : BloomBitLength ≤ sectionSize)
    (h8 : sectionSize % 8 = 0) (headerBloom : Nat → Bloom) (sec : Nat) :
    ∃ cols, sectionData sectionSize headerBloom sec = .ok cols ∧
      SectionBits sectionSize headerBloom sec fun bit => cols.getD bit [] := by
  -- the section's header blooms, one for each block
  have hlen : ((List.range sectionSize).map fun k => headerBloom (sec * sectionSize + k)).length =
      sectionSize := by simp
  obtain ⟨g, hg, hcommit, hcols⟩ := generate_commit hsize h8 hlen
  refine ⟨g.blooms, by simp [sectionData, hg, bind, Except.bind, hcommit],
    fun bit hbit => ?_, fun bit hbit r hr => ?_⟩
  · have hlt : bit < g.blooms.length := by rw [hcols.length]; exact hbit
    rw [List.getD_eq_getElem _ _ hlt]
    exact hcols.width _ (List.getElem_mem hlt)
  · rw [hcols.bit bit hbit r hr, List.getElem?_map, List.getElem?_range hr]
    rfl

/-- **The indexer commits nothing** for a section of fewer than 2048 blocks: the generator
fills, and `Bitset` refuses the column of index `sectionSize`. -/
theorem sectionData_small {sectionSize : Nat} (hsize : sectionSize < BloomBitLength)
    (h8 : sectionSize % 8 = 0) (headerBloom : Nat → Bloom) (sec : Nat) :
    sectionData sectionSize headerBloom sec = .error .errSectionOutOfBounds := by
  obtain ⟨g, hg, hsec, hnext, -⟩ := generate_columns h8
    ((List.range sectionSize).map fun k => headerBloom (sec * sectionSize + k)) (by simp)
  simp only [List.length_map, List.length_range] at hnext
  simp [sectionData, hg, bind, Except.bind, Commit_small (hnext.trans hsec.symm) (hsec ▸ hsize)]

/-- The index `calcBloomIndexes` computes from two bytes of the hash is the bit `bloom9` sets:
the low eleven bits of the big-endian pair. -/
theorem calcIndex_eq (h : List UInt8) (i : Nat) :
    (((h.getD (2 * i) 0).toNat <<< 8) &&& 2047) + (h.getD (2 * i + 1) 0).toNat =
      bloom9Index h (2 * i) := by
  unfold bloom9Index
  simp only [Nat.shiftLeft_eq, show (2047 : Nat) = 2 ^ 11 - 1 from rfl,
    Nat.and_two_pow_sub_one_eq_mod]
  have := (h.getD (2 * i + 1) 0).toNat_lt
  omega

theorem calcBloomIndexes_eq (keccak256 : List UInt8 → List UInt8) (x : List UInt8) :
    calcBloomIndexes keccak256 x = [0, 2, 4].map (bloom9Index (keccak256 x)) := by
  simp only [calcBloomIndexes, calcIndex_eq]
  rfl

/-- The index list of a clause does the test `BloomLookup` does. -/
theorem clauseBit_calcBloomIndexes (keccak256 : List UInt8 → List UInt8) {sectionSize : Nat}
    {headerBloom : Nat → Bloom} {sec : Nat} {data : Nat → List UInt8}
    (hdata : SectionBits sectionSize headerBloom sec data) {r : Nat} (hr : r < sectionSize)
    (x : List UInt8) :
    clauseBit data (calcBloomIndexes keccak256 x) r =
      BloomLookup keccak256 (headerBloom (sec * sectionSize + r)) x := by
  rw [Bool.eq_iff_iff, BloomLookup_iff, clauseBit, List.all_eq_true, calcBloomIndexes_eq]
  constructor
  · intro h i hi
    have := h _ (List.mem_map_of_mem hi)
    rwa [hdata.bit _ (bloom9Index_lt _ _) r hr] at this
  · intro h bit hbit
    obtain ⟨i, hi, rfl⟩ := List.mem_map.mp hbit
    rw [hdata.bit _ (bloom9Index_lt _ _) r hr]
    exact h i hi

/-- A group with no nil clause has the indexes of its clauses. -/
theorem mapM_map_eq {α β : Type} (g : α → β) :
    ∀ l : List (Option α), l.mapM (fun c => c.map g) =
      if ∀ c ∈ l, c.isSome then some ((l.filterMap id).map g) else none
  | [] => by simp
  | c :: l => by
    rw [List.mapM_cons, mapM_map_eq g l]
    cases c with
    | none => simp
    | some a =>
      by_cases hl : ∀ c ∈ l, c.isSome
      · simp only [if_pos hl, Option.map_some, Option.bind_eq_bind, Option.bind_some, pure]
        have hnone : none ∉ l := fun h => by simpa using hl none h
        simp [hnone]
      · simp [hl]

theorem mem_NewMatcher_filters {keccak256 : List UInt8 → List UInt8} {sectionSize : Nat}
    {filters : List (List (Option (List UInt8)))} {bloom : List (List Nat)}
    (h : bloom ∈ (NewMatcher keccak256 sectionSize filters).filters) :
    ∀ bits ∈ bloom, ∃ x, bits = calcBloomIndexes keccak256 x := by
  obtain ⟨filter, -, hf⟩ := List.mem_filterMap.mp h
  intro bits hbits
  split at hf
  · cases hf
  · rw [mapM_map_eq] at hf
    split at hf
    · cases hf
      obtain ⟨x, -, rfl⟩ := List.mem_map.mp hbits
      exact ⟨x, rfl⟩
    · cases hf

/-- **The groups of `NewMatcher` all match a block** exactly when its header bloom passes
the filter. -/
theorem all_groupBit_iff (keccak256 : List UInt8 → List UInt8) {sectionSize : Nat}
    (filters : List (List (Option (List UInt8)))) {headerBloom : Nat → Bloom} {sec : Nat}
    {data : Nat → List UInt8} (hdata : SectionBits sectionSize headerBloom sec data) {r : Nat}
    (hr : r < sectionSize) :
    (NewMatcher keccak256 sectionSize filters).filters.all
        (fun bloom => groupBit data bloom r) =
      decide (Passes keccak256 filters (headerBloom (sec * sectionSize + r))) := by
  rw [Bool.eq_iff_iff, decide_eq_true_iff, NewMatcher, List.all_filterMap, List.all_eq_true]
  refine forall₂_congr fun filter _ => ?_
  -- a group is skipped when it is empty or has a nil clause
  by_cases hne : filter = []
  · simp [hne]
  have hempty : filter.isEmpty = false := by simpa using hne
  simp only [hempty, Bool.false_eq_true, if_false, mapM_map_eq]
  by_cases hsome : ∀ c ∈ filter, c.isSome
  · simp only [if_pos hsome]
    have hgroup : groupBit data
        ((filter.filterMap id).map (calcBloomIndexes keccak256)) r = true ↔
        ∃ x, some x ∈ filter ∧ BloomLookup keccak256 (headerBloom (sec * sectionSize + r)) x = true := by
      simp only [groupBit, List.any_map, List.any_eq_true, Function.comp_apply,
        clauseBit_calcBloomIndexes keccak256 hdata hr, List.mem_filterMap, id_eq]
      constructor
      · rintro ⟨x, ⟨c, hc, rfl⟩, hx⟩
        exact ⟨x, hc, hx⟩
      · rintro ⟨x, hx, hl⟩
        exact ⟨x, ⟨some x, hx, rfl⟩, hl⟩
    rw [hgroup]
    exact ⟨fun h _ _ => h, fun h => h hne hsome⟩
  · simp only [if_neg hsome]
    constructor
    · intro _ _ h
      exact absurd h hsome
    · intro _
      simp

/-! ## The whole range -/

/-- The blocks of section `sec` within the range. -/
theorem sectionBlocks_first {size b e : Nat} (hsize : 0 < size) :
    ∀ n, ((List.range' (b / size) (n + 1)).flatMap fun sec =>
        List.range' (max (sec * size) b) (min (sec * size + size - 1) e + 1 - max (sec * size) b)) =
      List.range' b (min ((b / size + n + 1) * size) (e + 1) - b) := by
  have hlo := Nat.div_mul_le_self b size
  have hhi := Nat.lt_div_mul_add (a := b) hsize
  intro n
  induction n with
  | zero =>
    rw [List.range'_succ, List.range'_zero, List.flatMap_singleton, Nat.max_eq_right hlo,
      Nat.add_zero, Nat.succ_mul]
    congr 1
    omega
  | succ n ih =>
    -- the next section starts where the blocks so far end
    rw [List.range'_concat, List.flatMap_append, ih, List.flatMap_singleton]
    have hY : (b / size + n + 1 + 1) * size = (b / size + n + 1) * size + size := Nat.succ_mul _ _
    have hYb : b < (b / size + n + 1) * size := by
      have : (b / size + 1) * size ≤ (b / size + n + 1) * size :=
        Nat.mul_le_mul_right _ (by omega)
      rw [Nat.succ_mul] at this
      omega
    rw [show b / size + 1 * (n + 1) = b / size + n + 1 by omega, Nat.max_eq_left (by omega),
      show b / size + (n + 1) + 1 = b / size + n + 1 + 1 by omega, hY]
    by_cases he : e + 1 ≤ (b / size + n + 1) * size
    · have h0 : min ((b / size + n + 1) * size + size - 1) e + 1 - (b / size + n + 1) * size = 0 := by
        omega
      rw [Nat.min_eq_right he, h0, List.range'_zero, List.append_nil, Nat.min_eq_right (by omega)]
    · rw [Nat.min_eq_left (by omega)]
      have happ := @List.range'_append b ((b / size + n + 1) * size - b)
        (min ((b / size + n + 1) * size + size - 1) e + 1 - (b / size + n + 1) * size) 1
      rw [show b + 1 * ((b / size + n + 1) * size - b) = (b / size + n + 1) * size by omega] at happ
      rw [happ]
      congr 1
      omega

/-- **The sections of `Start` cover the range**, each with its blocks in it. -/
theorem sectionBlocks_eq {size : Nat} (hsize : 0 < size) (b e : Nat) :
    ((List.range' (b / size) (e / size + 1 - b / size)).flatMap fun sec =>
        List.range' (max (sec * size) b) (min (sec * size + size - 1) e + 1 - max (sec * size) b)) =
      List.range' b (e + 1 - b) := by
  by_cases hbe : b / size ≤ e / size
  · rw [show e / size + 1 - b / size = (e / size - b / size) + 1 by omega, sectionBlocks_first hsize]
    have := Nat.lt_div_mul_add (a := e) hsize
    rw [show b / size + (e / size - b / size) + 1 = e / size + 1 by omega, Nat.succ_mul,
      Nat.min_eq_right (by omega)]
  · have : e < b := by
      by_contra h
      exact hbe (Nat.div_le_div_right (by omega))
    simp [show e / size + 1 - b / size = 0 by omega, show e + 1 - b = 0 by omega]

theorem flatMap_congr_mem {α β : Type} {f g : α → List β} :
    ∀ {l : List α}, (∀ a ∈ l, f a = g a) → l.flatMap f = l.flatMap g
  | [], _ => rfl
  | a :: l, h => by
    rw [List.flatMap_cons, List.flatMap_cons, h a (by simp),
      flatMap_congr_mem fun b hb => h b (by simp [hb])]

end Atlantis.Bloombits
