import Atlantis.Types.Bloom9
import Atlantis.Lib.Loop

/-!
# Rotated bloom bits

`core/bloombits/generator.go`: a generator takes the header blooms of a section of blocks,
in block order, and rotates them into 2048 bit columns, one per bloom bit: block `k` of the
section is bit `7 - k % 8` of byte `k / 8` of every column (`blockBit`), set in column `i`
when bit `i` of the block's bloom is set.  `BloomIndexer.Process` feeds the headers of a
section to a new generator in this way (`generate`).

Column `i` after the blooms of `blooms` have been added holds exactly bit `i` of each of
them (`Columns`, `generate_columns`).  `BloomIndexer.Commit` of `eth/bloombits.go` reads the
2048 columns back with `Bitset` (`Commit`).  `Bitset` checks the column index against the
number of blocks of the section, not against the number of columns: it refuses every index
from `sections` on with `errSectionOutOfBounds`, so the commit goes through exactly when the
section has at least 2048 blocks (`generate_commit`, `Commit_small`).
-/

namespace Atlantis.Bloombits

open Atlantis.Types

/-- The errors of the generator. -/
inductive Error where
  /-- `errSectionOutOfBounds`: "section out of bounds". -/
  | errSectionOutOfBounds
  /-- "section count not multiple of 8". -/
  | sectionCount
  /-- "bloom filter with unexpected index". -/
  | unexpectedIndex
  /-- "bloom not fully generated yet". -/
  | notFullyGenerated
  deriving DecidableEq, Repr

/-- `Generator`: the rotated blooms, the number of blocks of a section, and the next block. -/
structure Generator where
  blooms : List (List UInt8)
  sections : Nat
  nextBit : Nat

/-- `NewGenerator`. -/
def NewGenerator (sections : Nat) : Except Error Generator :=
  if sections % 8 ≠ 0 then .error .sectionCount
  else .ok ⟨List.replicate BloomBitLength (List.replicate (sections / 8) 0), sections, 0⟩

/-- The loop of `AddBloom`: bit `i` of the bloom, bit `i % 8` of its byte `255 - i / 8`,
sets the block's bit in column `i`. -/
def rotate (byteIndex : Nat) (bitMask : UInt8) (bloom : Bloom) (blooms : List (List UInt8)) :
    List (List UInt8) :=
  blooms.mapIdx fun i col =>
    -- bloomByteIndex and bloomBitMask
    if bloom.get ⟨BloomByteLength - 1 - i / 8, by unfold BloomByteLength; omega⟩ &&&
        1 <<< UInt8.ofNat (i % 8) ≠ 0 then
      col.modify byteIndex (· ||| bitMask)
    else col

/-- `AddBloom`: rotates the bloom of the next block into the columns. -/
def Generator.AddBloom (b : Generator) (index : Nat) (bloom : Bloom) : Except Error Generator :=
  -- Make sure we're not adding more bloom filters than our capacity
  if b.nextBit ≥ b.sections then .error .errSectionOutOfBounds
  else if b.nextBit ≠ index then .error .unexpectedIndex
  else
    let byteIndex := b.nextBit / 8
    let bitMask : UInt8 := 1 <<< UInt8.ofNat (7 - b.nextBit % 8)
    .ok { b with blooms := rotate byteIndex bitMask bloom b.blooms, nextBit := b.nextBit + 1 }

/-- `Bitset`: the column of a bloom bit, once all the blocks are in. -/
def Generator.Bitset (b : Generator) (idx : Nat) : Except Error (List UInt8) :=
  if b.nextBit ≠ b.sections then .error .notFullyGenerated
  else if idx ≥ b.sections then .error .errSectionOutOfBounds
  else .ok (b.blooms.getD idx [])

/-- `BloomIndexer.Commit`: the column of each bloom bit, read with `Bitset` in bit order; the
first error is the commit's, and nothing is written. -/
def Commit (gen : Generator) : Except Error (List (List UInt8)) :=
  (List.range BloomBitLength).mapM gen.Bitset

/-- The blooms of a section fed to a new generator in block order. -/
def generate (sections : Nat) (blooms : List Bloom) : Except Error Generator := do
  let g ← NewGenerator sections
  blooms.zipIdx.foldlM (fun g (bloom, i) => g.AddBloom i bloom) g

/-! ## The columns -/

/-- The bit of block `k` in a column. -/
def blockBit (col : List UInt8) (k : Nat) : Bool :=
  ((col[k / 8]?).getD 0).toNat.testBit (7 - k % 8)

/-- The columns hold bit `i` of the bloom of each block added, and nothing else. -/
structure Columns (sections : Nat) (blooms : List Bloom) (cols : List (List UInt8)) : Prop where
  length : cols.length = BloomBitLength
  width : ∀ col ∈ cols, col.length = sections / 8
  bit : ∀ i < BloomBitLength, ∀ k < sections,
    blockBit (cols.getD i []) k = ((blooms[k]?).map fun bloom => bloom.bit i).getD false

/-- Setting the bit of block `n` sets that bit of the column and no other. -/
theorem blockBit_modify {col : List UInt8} {n k : Nat} (hn : n / 8 < col.length) :
    blockBit (col.modify (n / 8) (· ||| 1 <<< UInt8.ofNat (7 - n % 8))) k =
      (blockBit col k || decide (k = n)) := by
  unfold blockBit
  rw [List.getElem?_modify]
  by_cases hkn : n / 8 = k / 8
  · rw [← hkn, List.getElem?_eq_getElem hn]
    simp only [if_true, Option.map_eq_map, Option.map_some, Option.getD_some]
    rw [UInt8.testBit_or_one_shiftLeft _ (by omega)]
    congr 1
    apply decide_eq_decide.mpr
    omega
  · simp only [hkn, if_false, Option.map_eq_map, Option.map_id_fun', id_eq]
    have : k ≠ n := fun h => hkn (by rw [h])
    simp [this]

/-- The bit of a bloom that `rotate` reads. -/
theorem rotate_reads_bit (bloom : Bloom) {i : Nat} (hi : i < BloomBitLength) :
    (bloom.get ⟨BloomByteLength - 1 - i / 8, by unfold BloomByteLength; omega⟩ &&&
      1 <<< UInt8.ofNat (i % 8) ≠ 0) ↔ bloom.bit i = true := by
  rw [UInt8.and_one_shiftLeft_ne_zero_iff _ (by omega)]
  simp [Bloom.bit, hi, BloomByteLength]

/-- **Adding the bloom of the next block** keeps the columns. -/
theorem Columns.addBloom {sections : Nat} {blooms : List Bloom} {cols : List (List UInt8)}
    (h : Columns sections blooms cols) (hn : blooms.length < sections) (h8 : sections % 8 = 0)
    (bloom : Bloom) :
    Columns sections (blooms ++ [bloom])
      (rotate (blooms.length / 8) (1 <<< UInt8.ofNat (7 - blooms.length % 8)) bloom cols) := by
  have hwidth : blooms.length / 8 < sections / 8 := by omega
  refine ⟨by simp [rotate, h.length], fun col hcol => ?_, fun i hi k hk => ?_⟩
  · obtain ⟨i, hi, rfl⟩ := List.getElem_of_mem hcol
    simp only [rotate, List.getElem_mapIdx]
    split
    · rw [List.length_modify]
      exact h.width _ (List.getElem_mem _)
    · exact h.width _ (List.getElem_mem _)
  · have hi' : i < cols.length := by rw [h.length]; exact hi
    have hcol := h.width _ (List.getElem_mem hi')
    have hold := h.bit i hi k hk
    rw [List.getD_eq_getElem _ _ hi'] at hold
    rw [List.getD_eq_getElem _ _ (by simp [rotate]; exact hi')]
    simp only [rotate, List.getElem_mapIdx]
    -- the new block's bit is the bloom's; every other block keeps its bit
    by_cases hkn : k = blooms.length
    · subst hkn
      simp only [List.getElem?_append_right (le_refl _), Nat.sub_self, List.getElem?_cons_zero,
        Option.map_some, Option.getD_some]
      split
      · next hset =>
        rw [blockBit_modify (by omega), (rotate_reads_bit bloom hi).mp hset]
        simp
      · next hclear =>
        rw [hold, List.getElem?_eq_none (le_refl _)]
        simpa [rotate_reads_bit bloom hi] using hclear
    · have hk' : ((blooms ++ [bloom])[k]?.map fun b => b.bit i) =
          (blooms[k]?.map fun b => b.bit i) := by
        rcases Nat.lt_or_gt_of_ne hkn with hlt | hgt
        · rw [List.getElem?_append_left hlt]
        · rw [List.getElem?_eq_none (by simp; omega), List.getElem?_eq_none (by omega)]
      rw [hk']
      split
      · rw [blockBit_modify (by omega), hold]
        simp [hkn]
      · exact hold

theorem columns_new (sections : Nat) :
    Columns sections [] (List.replicate BloomBitLength (List.replicate (sections / 8) 0)) := by
  refine ⟨by simp, fun col hcol => by rw [(List.mem_replicate.mp hcol).2]; simp, ?_⟩
  intro i hi k hk
  rw [List.getD_eq_getElem _ _ (by simpa using hi)]
  simp only [List.getElem_replicate, blockBit]
  by_cases hk8 : k / 8 < sections / 8 <;> simp [hk8]

/-- **A section's blooms fed in block order** give the columns of their bits. -/
theorem generate_columns {sections : Nat} (h8 : sections % 8 = 0) (blooms : List Bloom)
    (hlen : blooms.length ≤ sections) :
    ∃ g, generate sections blooms = .ok g ∧ g.sections = sections ∧
      g.nextBit = blooms.length ∧ Columns sections blooms g.blooms := by
  have hnew : NewGenerator sections =
      .ok ⟨List.replicate BloomBitLength (List.replicate (sections / 8) 0), sections, 0⟩ := by
    simp [NewGenerator, h8]
  simp only [generate, hnew, bind, Except.bind]
  -- the loop adds the blooms one by one, by induction from the end of the list
  induction blooms using List.reverseRecOn with
  | nil => exact ⟨_, rfl, rfl, rfl, columns_new sections⟩
  | append_singleton l bloom ih =>
    simp only [List.length_append, List.length_singleton] at hlen
    obtain ⟨g, hg, hsec, hnext, hcols⟩ := ih (by omega)
    rw [List.zipIdx_append, List.foldlM_append, hg]
    have hadd : g.AddBloom l.length bloom =
        .ok { g with
          blooms := (rotate (l.length / 8) (1 <<< UInt8.ofNat (7 - l.length % 8)) bloom g.blooms),
          nextBit := l.length + 1 } := by
      simp [Generator.AddBloom, hsec, hnext, show ¬ sections ≤ l.length by omega]
    refine ⟨{ g with
      blooms := (rotate (l.length / 8) (1 <<< UInt8.ofNat (7 - l.length % 8)) bloom g.blooms),
      nextBit := l.length + 1 }, ?_, hsec, by simp, hcols.addBloom (by omega) h8 bloom⟩
    simp [bind, Except.bind, hadd]
    rfl

/-! ## The commit -/

theorem Bitset_of_lt {b : Generator} (hfull : b.nextBit = b.sections) {idx : Nat}
    (hidx : idx < b.sections) : b.Bitset idx = .ok (b.blooms.getD idx []) := by
  simp [Generator.Bitset, hfull, Nat.not_le.mpr hidx]

theorem Bitset_of_le {b : Generator} (hfull : b.nextBit = b.sections) {idx : Nat}
    (hidx : b.sections ≤ idx) : b.Bitset idx = .error .errSectionOutOfBounds := by
  simp [Generator.Bitset, hfull, hidx]

/-- **A full generator of at least 2048 blocks commits its columns.** -/
theorem Commit_of_le {b : Generator} (hfull : b.nextBit = b.sections)
    (hsize : BloomBitLength ≤ b.sections) (hlen : b.blooms.length = BloomBitLength) :
    Commit b = .ok b.blooms := by
  rw [Commit, List.mapM_except_ok _ (fun idx => b.blooms.getD idx [])
    fun idx hidx => Bitset_of_lt hfull (by simp at hidx; omega)]
  -- reading every column back gives the columns
  apply congrArg Except.ok
  refine List.ext_getElem (by simp [hlen]) fun i h₁ h₂ => ?_
  simp [List.getElem?_eq_getElem h₂]

/-- **A full generator of fewer than 2048 blocks commits nothing**: `Bitset` refuses the
column of index `sections`. -/
theorem Commit_small {b : Generator} (hfull : b.nextBit = b.sections)
    (hsize : b.sections < BloomBitLength) : Commit b = .error .errSectionOutOfBounds := by
  have hsplit : List.range BloomBitLength =
      List.range b.sections ++ b.sections :: List.range' (b.sections + 1)
        (BloomBitLength - (b.sections + 1)) := by
    have happ := List.range'_append_1 (s := 0) (m := b.sections)
      (n := BloomBitLength - b.sections)
    rw [Nat.zero_add, Nat.add_sub_cancel' hsize.le] at happ
    rw [List.range_eq_range', ← happ, List.range_eq_range',
      show BloomBitLength - b.sections = (BloomBitLength - (b.sections + 1)) + 1 by omega,
      List.range'_succ]
  rw [Commit, hsplit]
  exact List.mapM_except_error _ (Bitset_of_le hfull (Nat.le_refl _)) _
    fun idx hidx => ⟨_, Bitset_of_lt hfull (List.mem_range.mp hidx)⟩

/-- **The indexer's section** (`Reset`, `Process` for each block, `Commit`): with at least 2048
blocks, the columns it commits hold the bits of the blooms. -/
theorem generate_commit {sections : Nat} (hsize : BloomBitLength ≤ sections)
    (h8 : sections % 8 = 0) {blooms : List Bloom} (hlen : blooms.length = sections) :
    ∃ g, generate sections blooms = .ok g ∧ Commit g = .ok g.blooms ∧
      Columns sections blooms g.blooms := by
  obtain ⟨g, hg, hsec, hnext, hcols⟩ := generate_columns h8 blooms (by omega)
  exact ⟨g, hg, Commit_of_le (by omega) (by omega) hcols.length, hcols⟩

end Atlantis.Bloombits
