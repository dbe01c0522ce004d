import Atlantis.Common.Types
import Mathlib.Algebra.Order.Ring.Int
import Mathlib.Order.Monotone.Basic

/-!
# Ethash difficulty adjustment

`CalcDifficulty` of `consensus/ethash/consensus.go` picks the fork of the block after the
parent and computes its difficulty from the parent's difficulty, time, number and uncles.
Every fork moves the parent's difficulty by a number of steps of `parent_diff / 2048`, keeps
the result at least `MinimumDifficulty`, and adds the exponential factor on top
(`adjusted`); the forks differ in the number of steps: EIP-100 for Byzantium, EIP-2 for
Homestead and one step up or down around 13 seconds for Frontier.

`big.Int`'s `Div` is Euclidean division, `/` on integers here.  `calcDifficultyHomestead`
divides by `big5`, which no file of the package declares, so the package does not build as
it is; the model takes the divisor as a parameter.  With 10, the divisor of the code's own
comment and of EIP-2, every fork computes its formula, at least `MinimumDifficulty` and not
increasing with the block's time (`CalcDifficulty_spec`); with any other divisor the
Homestead branch is not EIP-2 (`calcDifficultyHomestead_eq_eip2_iff`).
-/

namespace Atlantis.Ethash

/-- `params.DifficultyBoundDivisor`. -/
def DifficultyBoundDivisor : Int := 2048

/-- `params.MinimumDifficulty`. -/
def MinimumDifficulty : Int := 131072

/-- `params.DurationLimit`. -/
def DurationLimit : Int := 13

/-- `expDiffPeriod`. -/
def expDiffPeriod : Int := 100000

/-- `types.EmptyUncleHash`, the hash of an empty list of uncles. -/
def EmptyUncleHash : Hash :=
  ⟨[0x1d, 0xcc, 0x4d, 0xe8, 0xde, 0xc7, 0x5d, 0x7a, 0xab, 0x85, 0xb5, 0x67, 0xb6, 0xcc, 0xd4, 0x1a,
    0xd3, 0x12, 0x45, 0x1b, 0x94, 0x8a, 0x74, 0x13, 0xf0, 0xa1, 0x42, 0xfd, 0x40, 0xd4, 0x93, 0x47], rfl⟩

/-- The fields of a header that the difficulty adjustment reads. -/
structure Header where
  number : Nat
  time : Nat
  difficulty : Int
  uncleHash : Hash

/-- The fork blocks of `params.ChainConfig` that the difficulty adjustment reads; `none` is a
fork that is not scheduled. -/
structure ChainConfig where
  HomesteadBlock : Option Nat
  ByzantiumBlock : Option Nat

/-- `isForked`. -/
def isForked (s : Option Nat) (head : Nat) : Bool :=
  match s with
  | none => false
  | some s => s ≤ head

/-- `ChainConfig.IsHomestead`. -/
def ChainConfig.IsHomestead (c : ChainConfig) (num : Nat) : Bool := isForked c.HomesteadBlock num

/-- `ChainConfig.IsByzantium`. -/
def ChainConfig.IsByzantium (c : ChainConfig) (num : Nat) : Bool := isForked c.ByzantiumBlock num

/-- `calcDifficultyByzantium`. -/
def calcDifficultyByzantium (time : Nat) (parent : Header) : Int :=
  -- (2 if len(parent_uncles) else 1) - (block_timestamp - parent_timestamp) // 9
  let x := ((time : Int) - parent.time) / 9
  let x := if parent.uncleHash = EmptyUncleHash then 1 - x else 2 - x
  let x := if x < -99 then -99 else x
  let y := parent.difficulty / DifficultyBoundDivisor
  let x := parent.difficulty + y * x
  let x := if x < MinimumDifficulty then MinimumDifficulty else x
  -- the parent's number is one less than the block's
  let fakeBlockNumber : Int := if 2999999 ≤ parent.number then (parent.number : Int) - 2999999 else 0
  let periodCount := fakeBlockNumber / expDiffPeriod
  if 1 < periodCount then x + 2 ^ (periodCount - 2).toNat else x

/-- `calcDifficultyHomestead`, dividing by `big5`. -/
def calcDifficultyHomestead (big5 : Int) (time : Nat) (parent : Header) : Int :=
  let x := ((time : Int) - parent.time) / big5
  let x := 1 - x
  let x := if x < -99 then -99 else x
  let y := parent.difficulty / DifficultyBoundDivisor
  let x := parent.difficulty + y * x
  let x := if x < MinimumDifficulty then MinimumDifficulty else x
  let periodCount := ((parent.number : Int) + 1) / expDiffPeriod
  if 1 < periodCount then x + 2 ^ (periodCount - 2).toNat else x

/-- `calcDifficultyFrontier`. -/
def calcDifficultyFrontier (time : Nat) (parent : Header) : Int :=
  let adjust := parent.difficulty / DifficultyBoundDivisor
  let diff :=
    if (time : Int) - parent.time < DurationLimit then parent.difficulty + adjust
    else parent.difficulty - adjust
  let diff := if diff < MinimumDifficulty then MinimumDifficulty else diff
  let periodCount := ((parent.number : Int) + 1) / expDiffPeriod
  if 1 < periodCount then max (diff + 2 ^ (periodCount - 2).toNat) MinimumDifficulty else diff

/-- `CalcDifficulty`: the rules of the fork of the block after the parent. -/
def CalcDifficulty (big5 : Int) (config : ChainConfig) (time : Nat) (parent : Header) : Int :=
  let next := parent.number + 1
  if config.IsByzantium next then calcDifficultyByzantium time parent
  else if config.IsHomestead next then calcDifficultyHomestead big5 time parent
  else calcDifficultyFrontier time parent

/-! ## The formulas of the forks -/

/-- The exponential factor: `2^(periodCount - 2)` from a `periodCount` of 2 on, and `0`
before, the integer part of the power. -/
def bomb (periodCount : Int) : Int := if 1 < periodCount then 2 ^ (periodCount - 2).toNat else 0

/-- The shape of every fork's formula: the difficulty moved by `adjustment` steps of
`difficulty / 2048`, at least `MinimumDifficulty`, and the exponential factor on top. -/
def adjusted (difficulty adjustment periodCount : Int) : Int :=
  max (difficulty + difficulty / DifficultyBoundDivisor * adjustment) MinimumDifficulty + bomb periodCount

/-- EIP-100, with the 3,000,000-block delay of the exponential factor of EIP-649. -/
def eip100 (time : Nat) (parent : Header) : Int :=
  adjusted parent.difficulty
    (max ((if parent.uncleHash = EmptyUncleHash then 1 else 2) - ((time : Int) - parent.time) / 9) (-99))
    (max 0 ((parent.number : Int) + 1 - 3000000) / 100000)

/-- EIP-2. -/
def eip2 (time : Nat) (parent : Header) : Int :=
  adjusted parent.difficulty (max (1 - ((time : Int) - parent.time) / 10) (-99))
    (((parent.number : Int) + 1) / 100000)

/-- Frontier: one step up below 13 seconds, one step down from 13 on. -/
def frontier (time : Nat) (parent : Header) : Int :=
  adjusted parent.difficulty (if (time : Int) - parent.time < 13 then 1 else -1)
    (((parent.number : Int) + 1) / 100000)

/-- The formula of the fork of the block after the parent. -/
def forkFormula (config : ChainConfig) (time : Nat) (parent : Header) : Int :=
  if config.IsByzantium (parent.number + 1) then eip100 time parent
  else if config.IsHomestead (parent.number + 1) then eip2 time parent
  else frontier time parent

section Adjusted

theorem bomb_nonneg (periodCount : Int) : 0 ≤ bomb periodCount := by
  unfold bomb
  split
  · exact pow_nonneg (by decide) _
  · exact le_refl 0

theorem minimumDifficulty_le_adjusted (difficulty adjustment periodCount : Int) :
    MinimumDifficulty ≤ adjusted difficulty adjustment periodCount := by
  unfold adjusted
  have := bomb_nonneg periodCount
  have := le_max_right (difficulty + difficulty / DifficultyBoundDivisor * adjustment) MinimumDifficulty
  omega

/-- More steps give a larger difficulty, where the difficulty is not negative. -/
theorem adjusted_mono {difficulty a a' : Int} (hd : 0 ≤ difficulty) (ha : a ≤ a') (periodCount : Int) :
    adjusted difficulty a periodCount ≤ adjusted difficulty a' periodCount := by
  have hstep : 0 ≤ difficulty / DifficultyBoundDivisor := Int.ediv_nonneg hd (by decide)
  unfold adjusted
  gcongr

/-- The source's clamps are `max`. -/
theorem clamp_eq_max (x bound : Int) : (if x < bound then bound else x) = max x bound := by
  rw [max_def]
  split_ifs <;> omega

end Adjusted

/-! ## The code computes the formulas -/

theorem calcDifficultyByzantium_eq (time : Nat) (parent : Header) :
    calcDifficultyByzantium time parent = eip100 time parent := by
  have hfake : (if 2999999 ≤ parent.number then (parent.number : Int) - 2999999 else 0) =
      max 0 ((parent.number : Int) + 1 - 3000000) := by
    split_ifs <;> omega
  have hbase : (if parent.uncleHash = EmptyUncleHash then 1 - ((time : Int) - parent.time) / 9
      else 2 - ((time : Int) - parent.time) / 9) =
      (if parent.uncleHash = EmptyUncleHash then 1 else 2) - ((time : Int) - parent.time) / 9 := by
    split_ifs <;> rfl
  simp only [calcDifficultyByzantium, eip100, adjusted, bomb, hfake, hbase, clamp_eq_max, expDiffPeriod]
  split_ifs <;> omega

theorem calcDifficultyHomestead_eq (big5 : Int) (time : Nat) (parent : Header) :
    calcDifficultyHomestead big5 time parent =
      adjusted parent.difficulty (max (1 - ((time : Int) - parent.time) / big5) (-99))
        (((parent.number : Int) + 1) / 100000) := by
  simp only [calcDifficultyHomestead, adjusted, bomb, clamp_eq_max, expDiffPeriod]
  split_ifs <;> omega

theorem calcDifficultyFrontier_eq (time : Nat) (parent : Header) :
    calcDifficultyFrontier time parent = frontier time parent := by
  -- one step of `adjust` up or down is `adjust * (±1)`
  have hstep : (if (time : Int) - parent.time < DurationLimit then
      parent.difficulty + parent.difficulty / DifficultyBoundDivisor
      else parent.difficulty - parent.difficulty / DifficultyBoundDivisor) =
      parent.difficulty + parent.difficulty / DifficultyBoundDivisor *
        (if (time : Int) - parent.time < 13 then 1 else -1) := by
    simp only [DurationLimit]
    split_ifs <;> omega
  have hpow : (0 : Int) ≤ 2 ^ ((((parent.number : Int) + 1) / 100000 - 2).toNat) := pow_nonneg (by decide) _
  simp only [calcDifficultyFrontier, frontier, adjusted, bomb, hstep, clamp_eq_max, expDiffPeriod]
  -- the `BigMax` after the exponential factor changes nothing: the difficulty is already
  -- at least the minimum
  split_ifs <;> omega

/-! ## Time -/

/-- A later block moves the difficulty by no more steps, in every fork. -/
theorem eip100_antitone (parent : Header) (hd : 0 ≤ parent.difficulty) :
    Antitone fun time => eip100 time parent := by
  intro time time' htime
  apply adjusted_mono hd
  have : ((time : Int) - parent.time) / 9 ≤ ((time' : Int) - parent.time) / 9 :=
    Int.ediv_le_ediv (by decide) (by omega)
  omega

theorem eip2_antitone (parent : Header) (hd : 0 ≤ parent.difficulty) :
    Antitone fun time => eip2 time parent := by
  intro time time' htime
  apply adjusted_mono hd
  have : ((time : Int) - parent.time) / 10 ≤ ((time' : Int) - parent.time) / 10 :=
    Int.ediv_le_ediv (by decide) (by omega)
  omega

theorem frontier_antitone (parent : Header) (hd : 0 ≤ parent.difficulty) :
    Antitone fun time => frontier time parent := by
  intro time time' htime
  apply adjusted_mono hd
  split_ifs <;> omega

/-- With the divisor 10 of its comment, `CalcDifficulty` computes the formula of the fork of
the next block, which is at least `MinimumDifficulty` and does not increase with the block's
time. -/
theorem CalcDifficulty_spec (config : ChainConfig) (parent : Header)
    (hparent : MinimumDifficulty ≤ parent.difficulty) (time : Nat) :
    CalcDifficulty 10 config time parent = forkFormula config time parent ∧
      MinimumDifficulty ≤ CalcDifficulty 10 config time parent ∧
      ∀ time', time ≤ time' → CalcDifficulty 10 config time' parent ≤ CalcDifficulty 10 config time parent := by
  have hd : 0 ≤ parent.difficulty := le_trans (by decide) hparent
  -- the fork does not depend on the time; each branch is its formula
  have hformula : ∀ time, CalcDifficulty 10 config time parent = forkFormula config time parent := by
    intro time
    simp only [CalcDifficulty, forkFormula]
    split_ifs
    · exact calcDifficultyByzantium_eq time parent
    · exact calcDifficultyHomestead_eq 10 time parent
    · exact calcDifficultyFrontier_eq time parent
  refine ⟨hformula time, ?_, fun time' htime => ?_⟩
  · rw [hformula, forkFormula]
    split_ifs <;> exact minimumDifficulty_le_adjusted _ _ _
  · rw [hformula, hformula, forkFormula, forkFormula]
    split_ifs
    · exact eip100_antitone parent hd htime
    · exact eip2_antitone parent hd htime
    · exact frontier_antitone parent hd htime

theorem CalcDifficulty_spec_genesis :
    MinimumDifficulty ≤ (⟨0, 0, 131072, EmptyUncleHash⟩ : Header).difficulty ∧
      (CalcDifficulty 10 ⟨some 0, some 0⟩ 20 ⟨0, 0, 131072, EmptyUncleHash⟩ =
          forkFormula ⟨some 0, some 0⟩ 20 ⟨0, 0, 131072, EmptyUncleHash⟩ ∧
        MinimumDifficulty ≤ CalcDifficulty 10 ⟨some 0, some 0⟩ 20 ⟨0, 0, 131072, EmptyUncleHash⟩ ∧
        ∀ time', 20 ≤ time' → CalcDifficulty 10 ⟨some 0, some 0⟩ time' ⟨0, 0, 131072, EmptyUncleHash⟩ ≤
          CalcDifficulty 10 ⟨some 0, some 0⟩ 20 ⟨0, 0, 131072, EmptyUncleHash⟩) :=
  ⟨by decide, CalcDifficulty_spec ⟨some 0, some 0⟩ ⟨0, 0, 131072, EmptyUncleHash⟩ (by decide) 20⟩

/-! ## The divisor of the Homestead rules -/

/-- A parent whose difficulty is far above the minimum, so that no adjustment of at least
`-99` steps meets the floor. -/
def bigParent : Header := ⟨0, 0, 2048 * 2 ^ 20, EmptyUncleHash⟩

/-- Over a parent far above the minimum, two adjustments give the same difficulty only if
they are equal. -/
theorem adjusted_bigParent_inj {a a' : Int} (ha : -99 ≤ a) (ha' : -99 ≤ a')
    (h : adjusted bigParent.difficulty a 0 = adjusted bigParent.difficulty a' 0) : a = a' := by
  have hstep : bigParent.difficulty / DifficultyBoundDivisor = 2 ^ 20 := by decide
  simp only [adjusted, bomb, hstep] at h
  have hmin : MinimumDifficulty = 131072 := rfl
  rw [hmin, max_eq_left (by simp only [bigParent]; omega), max_eq_left (by simp only [bigParent]; omega)] at h
  omega

/-- The Homestead branch computes EIP-2 exactly when `big5` is 10: for any other divisor a
block some seconds after a parent far above the minimum gets another difficulty. -/
theorem calcDifficultyHomestead_eq_eip2_iff (big5 : Int) :
    (∀ time parent, MinimumDifficulty ≤ parent.difficulty → parent.time < time →
      calcDifficultyHomestead big5 time parent = eip2 time parent) ↔ big5 = 10 := by
  constructor
  · intro h
    by_contra hne
    -- a time gap that the two divisors round differently
    have hgap : ∃ gap : Int, 0 < gap ∧ gap / big5 ≠ gap / 10 ∧ -99 ≤ 1 - gap / big5 ∧ -99 ≤ 1 - gap / 10 := by
      by_cases hsmall : 1 ≤ big5 ∧ big5 < 10
      · -- a divisor below 10 rounds itself to 1, and 10 rounds it to 0
        have hself : big5 / big5 = 1 := Int.ediv_self (by omega)
        have hten : big5 / 10 = 0 := Int.ediv_eq_zero_of_lt (by omega) (by omega)
        exact ⟨big5, by omega, by omega, by omega, by omega⟩
      · -- a divisor above 10 rounds 10 to 0, one of at most 0 to at most 0
        have hten : (10 : Int) / 10 = 1 := by decide
        have hround : (10 : Int) / big5 ≤ 0 := by
          rcases Int.lt_or_le 10 big5 with hbig | hneg
          · rw [Int.ediv_eq_zero_of_lt (by decide) hbig]
          · exact Int.ediv_nonpos_of_nonneg_of_nonpos (by decide) (by omega)
        exact ⟨10, by decide, by omega, by omega, by omega⟩
    obtain ⟨gap, hpos, hround, hlo, hlo'⟩ := hgap
    have heq := h gap.toNat bigParent (by decide) (by simp only [bigParent]; omega)
    have htime : ((bigParent.time : Nat) : Int) = 0 := rfl
    have hperiod : ((bigParent.number : Int) + 1) / 100000 = 0 := by decide
    rw [calcDifficultyHomestead_eq, eip2, htime, hperiod, Int.sub_zero, Int.toNat_of_nonneg (by omega)] at heq
    have := adjusted_bigParent_inj (le_max_right _ _) (le_max_right _ _) heq
    rw [max_eq_left hlo, max_eq_left hlo'] at this
    omega
  · rintro rfl time parent - -
    rw [calcDifficultyHomestead_eq, eip2]

theorem calcDifficultyHomestead_five_not_eip2 :
    ¬ ∀ time parent, MinimumDifficulty ≤ parent.difficulty → parent.time < time →
      calcDifficultyHomestead 5 time parent = eip2 time parent :=
  fun h => absurd ((calcDifficultyHomestead_eq_eip2_iff 5).1 h) (by decide)

end Atlantis.Ethash
