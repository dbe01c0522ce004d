import Atlantis.Ethash.Difficulty
import Mathlib.Logic.Function.Basic

/-!
# Uncles and the block reward

`VerifyUncles` of `consensus/ethash/consensus.go` gathers the (at most) seven ancestors of a
block and the uncles they included, then admits each uncle of the block that was not
rewarded before, is not an ancestor, and whose parent is an ancestor other than the parent
of the block; `verifyHeader` then checks the uncle against that parent, the number included.
`accumulateRewards` credits each uncle's coinbase `(uncle.Number + 8 - header.Number) * R / 8`
and the block's coinbase `R + R / 32` per uncle.

The map of ancestors holds the block itself too, so an uncle whose parent is the block passes
the checks, one block ahead of it, and is rewarded `9 R / 8` (`uncle_of_itself`): only the
hash, which would have to commit to an uncle that commits to it, rules that out.  For every
other uncle the parent is one of the six ancestors above the parent of the block, so the
uncle is two to seven blocks behind the block, and its reward lies strictly between `0` and
`R` (`uncle_rewards`).

`verifyHeader` is modelled by its number check; the checks it makes before and after it (time,
difficulty, gas, seal, forks) are a parameter, `checks`.  The chain is the function
`GetBlock` of the `ChainReader`.
-/

namespace Atlantis.Ethash

/-- `ethash.Mode`. -/
inductive Mode where
  | ModeNormal
  | ModeShared
  | ModeTest
  | ModeFake
  | ModeFullFake
  deriving DecidableEq, Repr

/-- `FrontierBlockReward`, in wei. -/
def FrontierBlockReward : Int := 2000000000000000000

/-- `ByzantiumBlockReward`, in wei. -/
def ByzantiumBlockReward : Int := 1000000000000000000

/-- `maxUncles`. -/
def maxUncles : Nat := 2

/-- The errors of `VerifyUncles`, and the one of `verifyHeader` the number check returns. -/
inductive UncleError where
  | errTooManyUncles
  | errDuplicateUncle
  | errUncleIsAncestor
  | errDanglingUncle
  | ErrInvalidNumber
  | header
  deriving DecidableEq, Repr

/-- The fields of a header that `VerifyUncles` and `accumulateRewards` read; `hash` is what
`Hash()` returns. -/
structure BlockHeader (Address : Type) where
  number : Nat
  hash : Hash
  parentHash : Hash
  coinbase : Address

/-- The parts of a block that `VerifyUncles` reads. -/
structure Block (Address : Type) where
  header : BlockHeader Address
  uncles : List (BlockHeader Address)

variable {Address : Type}

/-- `n - 1` on `uint64`. -/
def decr (n : Nat) : Nat := (n + 2 ^ 64 - 1) % 2 ^ 64

/-- `verifyHeader` of an uncle against its parent: the checks the rewards do not depend on,
then the number check. -/
def verifyHeader (checks : BlockHeader Address → BlockHeader Address → Except UncleError Unit)
    (header parent : BlockHeader Address) : Except UncleError Unit := do
  checks header parent
  -- Verify that the block number is parent's +1
  if (header.number : Int) - parent.number ≠ 1 then throw .ErrInvalidNumber

/-- The walk of `VerifyUncles` over the ancestors: `i` steps left, from the block `parent` at
`number` back, until the chain does not have the block. -/
def gatherAncestors (chain : Hash → Nat → Option (Block Address)) :
    Nat → Hash → Nat → (Hash → Option (BlockHeader Address)) → List Hash →
      (Hash → Option (BlockHeader Address)) × List Hash
  | 0, _, _, ancestors, uncles => (ancestors, uncles)
  | i + 1, parent, number, ancestors, uncles =>
    match chain parent number with
    | none => (ancestors, uncles)
    | some ancestor =>
      gatherAncestors chain i ancestor.header.parentHash (decr number)
        (Function.update ancestors ancestor.header.hash (some ancestor.header))
        (uncles ++ ancestor.uncles.map (·.hash))

/-- The loop of `VerifyUncles` over the uncles of `block`. -/
def checkUncles (checks : BlockHeader Address → BlockHeader Address → Except UncleError Unit)
    (block : Block Address) (ancestors : Hash → Option (BlockHeader Address)) :
    List Hash → List (BlockHeader Address) → Except UncleError Unit
  | _, [] => .ok ()
  | uncles, uncle :: rest =>
    -- Make sure every uncle is rewarded only once
    let hash := uncle.hash
    if hash ∈ uncles then .error .errDuplicateUncle
    else
      let uncles := uncles ++ [hash]
      -- Make sure the uncle has a valid ancestry
      if (ancestors hash).isSome then .error .errUncleIsAncestor
      else
        match ancestors uncle.parentHash with
        | none => .error .errDanglingUncle
        | some parent =>
          if uncle.parentHash = block.header.parentHash then .error .errDanglingUncle
          else
            match verifyHeader checks uncle parent with
            | .error e => .error e
            | .ok () => checkUncles checks block ancestors uncles rest

/-- `VerifyUncles`. -/
def VerifyUncles (mode : Mode)
    (checks : BlockHeader Address → BlockHeader Address → Except UncleError Unit)
    (chain : Hash → Nat → Option (Block Address)) (block : Block Address) : Except UncleError Unit :=
  -- If we're running a full engine faking, accept any input as valid
  if mode = .ModeFullFake then .ok ()
  -- Verify that there are at most 2 uncles included in this block
  else if block.uncles.length > maxUncles then .error .errTooManyUncles
  else
    -- Gather the set of past uncles and ancestors
    let r := gatherAncestors chain 7 block.header.parentHash (decr block.header.number)
      (fun _ => none) []
    let ancestors := Function.update r.1 block.header.hash (some block.header)
    let uncles := r.2 ++ [block.header.hash]
    -- Verify each of the uncles that it's recent, but not an ancestor
    checkUncles checks block ancestors uncles block.uncles

/-- The block reward of `accumulateRewards`, by the fork of the block. -/
def blockReward (config : ChainConfig) (number : Nat) : Int :=
  if config.IsByzantium number then ByzantiumBlockReward else FrontierBlockReward

/-- The reward of an uncle's coinbase. -/
def uncleReward (blockReward : Int) (header uncle : BlockHeader Address) : Int :=
  ((uncle.number : Int) + 8 - header.number) * blockReward / 8

section Balances

variable [DecidableEq Address]

/-- `StateDB.AddBalance`, on the balances alone. -/
def addBalance (state : Address → Int) (addr : Address) (amount : Int) : Address → Int :=
  Function.update state addr (state addr + amount)

/-- `accumulateRewards`, on the balances. -/
def accumulateRewards (config : ChainConfig) (state : Address → Int) (header : BlockHeader Address)
    (uncles : List (BlockHeader Address)) : Address → Int :=
  -- Select the correct block reward based on chain progression
  let blockReward := blockReward config header.number
  -- Accumulate the rewards for the miner and any included uncles
  let r := uncles.foldl (fun (acc : (Address → Int) × Int) uncle =>
    (addBalance acc.1 uncle.coinbase (uncleReward blockReward header uncle),
      acc.2 + blockReward / 32)) (state, blockReward)
  addBalance r.1 header.coinbase r.2

end Balances

/-! ## What the checks of an uncle establish -/

section Uncles

variable {checks : BlockHeader Address → BlockHeader Address → Except UncleError Unit}

theorem verifyHeader_number {header parent : BlockHeader Address}
    (h : verifyHeader checks header parent = .ok ()) : (header.number : Int) - parent.number = 1 := by
  unfold verifyHeader at h
  cases hc : checks header parent with
  | error e => simp [hc, bind, Except.bind] at h
  | ok u =>
    simp only [hc, bind, Except.bind] at h
    by_contra hne
    simp [hne, throw, throwThe, MonadExceptOf.throw] at h

/-- Each uncle the loop admits has a parent among the ancestors, other than the parent of
the block, and is numbered one after it. -/
theorem checkUncles_ok {block : Block Address} {ancestors : Hash → Option (BlockHeader Address)} :
    ∀ {uncles : List Hash} {us : List (BlockHeader Address)},
      checkUncles checks block ancestors uncles us = .ok () →
      ∀ u ∈ us, ∃ parent, ancestors u.parentHash = some parent ∧
        u.parentHash ≠ block.header.parentHash ∧ (u.number : Int) - parent.number = 1
  | _, [], _ => by simp
  | uncles, uncle :: rest, h => by
    unfold checkUncles at h
    dsimp only at h
    split_ifs at h with hdup hancestor hdangling
    · -- an uncle of the block's own parent is dangling, whatever the map holds
      split at h <;> cases h
    · split at h
      · cases h
      · next parent hparent =>
        split at h
        · cases h
        · next hverify =>
          intro u hu
          rcases List.mem_cons.1 hu with rfl | hu
          · exact ⟨parent, hparent, hdangling, verifyHeader_number hverify⟩
          · exact checkUncles_ok h u hu

variable {chain : Hash → Nat → Option (Block Address)}

/-- **The walk over the ancestors**: every ancestor it records was found `k` steps back, is
numbered `k` below the block it started from, and is the block it started from when `k = 0`.
The chain holds every block under its hash and number, below `2^63`. -/
theorem gatherAncestors_spec
    (hchain : ∀ h n b, chain h n = some b → b.header.hash = h ∧ b.header.number = n ∧ n < 2 ^ 63) :
    ∀ (i : Nat) (parent : Hash) (number : Nat) (ancestors : Hash → Option (BlockHeader Address))
      (uncles : List Hash) (h : Hash) (p : BlockHeader Address), i ≤ 7 →
      (gatherAncestors chain i parent number ancestors uncles).1 h = some p →
      ancestors h = some p ∨
        ∃ k < i, p.number < 2 ^ 63 ∧ p.number + k = number ∧ (k = 0 → h = parent)
  | 0, _, _, _, _, _, _, _, hp => .inl hp
  | i + 1, parent, number, ancestors, uncles, h, p, hi, hp => by
    unfold gatherAncestors at hp
    cases hc : chain parent number with
    | none =>
      rw [hc] at hp
      exact .inl hp
    | some b =>
      rw [hc] at hp
      obtain ⟨hhash, hnum, hlt⟩ := hchain _ _ _ hc
      rcases gatherAncestors_spec hchain i _ _ _ _ h p (by omega) hp with hp | ⟨k, hk, hpn, hpk, -⟩
      · -- recorded at this step, or before the walk
        by_cases hh : h = b.header.hash
        · subst hh
          rw [Function.update_self] at hp
          cases hp
          exact .inr ⟨0, by omega, by omega, by omega, fun _ => hhash⟩
        · rw [Function.update_of_ne hh] at hp
          exact .inl hp
      · -- recorded further back: the `uint64` number does not wrap below a block of the chain
        unfold decr at hpk
        exact .inr ⟨k + 1, by omega, hpn, by omega, by omega⟩

/-- The parent of an uncle, other than the parent of the block, is two to seven blocks
behind the block. -/
theorem ancestor_number
    (hchain : ∀ h n b, chain h n = some b → b.header.hash = h ∧ b.header.number = n ∧ n < 2 ^ 63)
    {block : Block Address} (hnumber : block.header.number < 2 ^ 63) {h : Hash} {p : BlockHeader Address}
    (hp : (gatherAncestors chain 7 block.header.parentHash (decr block.header.number)
      (fun _ => none) []).1 h = some p)
    (hne : h ≠ block.header.parentHash) :
    p.number + 2 ≤ block.header.number ∧ block.header.number ≤ p.number + 7 := by
  rcases gatherAncestors_spec hchain 7 _ _ _ _ h p le_rfl hp with hp | ⟨k, hk, hpn, hpk, hk0⟩
  · cases hp
  · have hk1 : k ≠ 0 := fun h0 => hne (hk0 h0)
    unfold decr at hpk
    omega

/-- What `VerifyUncles` establishes outside the faking mode: at most two uncles, each with a
parent among the ancestors or the block itself, other than the parent of the block, and
numbered one after it. -/
theorem VerifyUncles_ok {mode : Mode} (hmode : mode ≠ .ModeFullFake) {block : Block Address}
    (h : VerifyUncles mode checks chain block = .ok ()) :
    block.uncles.length ≤ 2 ∧ ∀ u ∈ block.uncles, ∃ parent,
      Function.update (gatherAncestors chain 7 block.header.parentHash (decr block.header.number)
        (fun _ => none) []).1 block.header.hash (some block.header) u.parentHash = some parent ∧
      u.parentHash ≠ block.header.parentHash ∧ (u.number : Int) - parent.number = 1 := by
  unfold VerifyUncles at h
  rw [if_neg hmode] at h
  split_ifs at h with hlen
  exact ⟨by unfold maxUncles at hlen; omega, checkUncles_ok h⟩

end Uncles

/-! ## The rewards -/

section Rewards

variable [DecidableEq Address]

theorem addBalance_apply (state : Address → Int) (addr : Address) (amount : Int) (a : Address) :
    addBalance state addr amount a = state a + if a = addr then amount else 0 := by
  unfold addBalance
  by_cases h : a = addr
  · subst h
    simp
  · simp [h]

/-- The loop of `accumulateRewards`: each uncle's reward to its coinbase, and `R / 32` more
for the block's coinbase per uncle. -/
theorem foldl_rewards (R : Int) (header : BlockHeader Address) :
    ∀ (uncles : List (BlockHeader Address)) (state : Address → Int) (reward : Int) (a : Address),
      (uncles.foldl (fun (acc : (Address → Int) × Int) uncle =>
        (addBalance acc.1 uncle.coinbase (uncleReward R header uncle), acc.2 + R / 32))
          (state, reward)).1 a =
        state a + ((uncles.filter (fun u => u.coinbase = a)).map (uncleReward R header)).sum ∧
      (uncles.foldl (fun (acc : (Address → Int) × Int) uncle =>
        (addBalance acc.1 uncle.coinbase (uncleReward R header uncle), acc.2 + R / 32))
          (state, reward)).2 = reward + uncles.length * (R / 32)
  | [], state, reward, a => by simp
  | u :: us, state, reward, a => by
    rw [List.foldl_cons]
    obtain ⟨h₁, h₂⟩ := foldl_rewards R header us _ _ a
    refine ⟨?_, ?_⟩
    · rw [h₁, addBalance_apply]
      by_cases hu : u.coinbase = a
      · simp [hu]
        ring
      · simp [hu, Ne.symm hu]
    · rw [h₂, List.length_cons]
      push_cast
      ring

/-- **What `accumulateRewards` credits**: to each address, the rewards of the uncles it mined,
and to the block's coinbase `R + n R / 32` for `n` uncles. -/
theorem accumulateRewards_apply (config : ChainConfig) (state : Address → Int)
    (header : BlockHeader Address) (uncles : List (BlockHeader Address)) (a : Address) :
    accumulateRewards config state header uncles a = state a +
      ((uncles.filter (fun u => u.coinbase = a)).map
        (uncleReward (blockReward config header.number) header)).sum +
      if a = header.coinbase then
        blockReward config header.number + uncles.length * (blockReward config header.number / 32)
      else 0 := by
  unfold accumulateRewards
  obtain ⟨h₁, h₂⟩ := foldl_rewards (blockReward config header.number) header uncles state
    (blockReward config header.number) a
  rw [addBalance_apply, h₁, h₂]

end Rewards

/-- An uncle two to seven blocks behind is rewarded more than nothing and less than the block. -/
theorem uncleReward_bounds (config : ChainConfig) (header uncle : BlockHeader Address)
    (hlo : 2 ≤ (uncle.number : Int) + 8 - header.number) (hhi : (uncle.number : Int) + 8 - header.number ≤ 7) :
    0 < uncleReward (blockReward config header.number) header uncle ∧
      uncleReward (blockReward config header.number) header uncle < blockReward config header.number := by
  unfold uncleReward blockReward ByzantiumBlockReward FrontierBlockReward
  split_ifs <;> omega

/-- An uncle whose parent is the block itself passes `VerifyUncles`, one block ahead of the
block, and is rewarded `9 R / 8`, more than the block reward. -/
theorem uncle_of_itself :
    VerifyUncles .ModeNormal (fun _ _ => .ok ()) (fun _ _ => (none : Option (Block Nat)))
        ⟨⟨10, Hash.ofBytes [1], Hash.ofBytes [0], 0⟩, [⟨11, Hash.ofBytes [2], Hash.ofBytes [1], 1⟩]⟩ =
        .ok () ∧
      uncleReward (blockReward ⟨none, none⟩ 10) ⟨10, Hash.ofBytes [1], Hash.ofBytes [0], 0⟩
          ⟨11, Hash.ofBytes [2], Hash.ofBytes [1], 1⟩ = 9 * FrontierBlockReward / 8 ∧
      FrontierBlockReward < 9 * FrontierBlockReward / 8 := by
  refine ⟨rfl, rfl, ?_⟩
  unfold FrontierBlockReward
  omega

/-- **Uncle rewards are positive and bounded.**  Outside the faking mode, over a chain that
holds each block under its hash and number, below `2^63`, every block that passes
`VerifyUncles` with uncles whose parent is not the block itself has at most two uncles, each
two to seven blocks behind it; `accumulateRewards` credits each uncle's coinbase a reward
strictly between `0` and `R`, and the block's coinbase `R + n (R / 32)`. -/
theorem uncle_rewards [DecidableEq Address] (config : ChainConfig) (mode : Mode)
    (hmode : mode ≠ .ModeFullFake)
    (checks : BlockHeader Address → BlockHeader Address → Except UncleError Unit)
    (chain : Hash → Nat → Option (Block Address))
    (hchain : ∀ h n b, chain h n = some b → b.header.hash = h ∧ b.header.number = n ∧ n < 2 ^ 63)
    (block : Block Address) (hnumber : block.header.number < 2 ^ 63)
    (hself : ∀ u ∈ block.uncles, u.parentHash ≠ block.header.hash)
    (hverify : VerifyUncles mode checks chain block = .ok ()) :
    block.uncles.length ≤ 2 ∧
      (∀ u ∈ block.uncles, 2 ≤ (u.number : Int) + 8 - block.header.number ∧
        (u.number : Int) + 8 - block.header.number ≤ 7 ∧
        0 < uncleReward (blockReward config block.header.number) block.header u ∧
        uncleReward (blockReward config block.header.number) block.header u <
          blockReward config block.header.number) ∧
      ∀ state a, accumulateRewards config state block.header block.uncles a = state a +
        ((block.uncles.filter (fun u => u.coinbase = a)).map
          (uncleReward (blockReward config block.header.number) block.header)).sum +
        if a = block.header.coinbase then
          blockReward config block.header.number +
            block.uncles.length * (blockReward config block.header.number / 32)
        else 0 := by
  obtain ⟨hlen, huncles⟩ := VerifyUncles_ok hmode hverify
  refine ⟨hlen, fun u hu => ?_, fun state a => accumulateRewards_apply config state block.header
    block.uncles a⟩
  obtain ⟨parent, hparent, hne, hnum⟩ := huncles u hu
  -- the parent is not the block, so the walk found it among the ancestors
  rw [Function.update_of_ne (hself u hu)] at hparent
  obtain ⟨hlo, hhi⟩ := ancestor_number hchain hnumber hparent hne
  have hd₁ : 2 ≤ (u.number : Int) + 8 - block.header.number := by omega
  have hd₂ : (u.number : Int) + 8 - block.header.number ≤ 7 := by omega
  exact ⟨hd₁, hd₂, uncleReward_bounds config block.header u hd₁ hd₂⟩

/-- Block 10 with an uncle of its grandparent, block 8: the uncle is seven blocks back. -/
theorem uncle_rewards_grandparent :
    [(⟨9, Hash.ofBytes [7], Hash.ofBytes [8], 1⟩ : BlockHeader Nat)].length ≤ 2 ∧
      (∀ u ∈ [(⟨9, Hash.ofBytes [7], Hash.ofBytes [8], 1⟩ : BlockHeader Nat)],
        2 ≤ (u.number : Int) + 8 - 10 ∧ (u.number : Int) + 8 - 10 ≤ 7 ∧
        0 < uncleReward (blockReward ⟨none, none⟩ 10) ⟨10, Hash.ofBytes [10], Hash.ofBytes [9], 0⟩ u ∧
        uncleReward (blockReward ⟨none, none⟩ 10) ⟨10, Hash.ofBytes [10], Hash.ofBytes [9], 0⟩ u <
          blockReward ⟨none, none⟩ 10) ∧
      ∀ state a, accumulateRewards ⟨none, none⟩ state ⟨10, Hash.ofBytes [10], Hash.ofBytes [9], 0⟩
          [⟨9, Hash.ofBytes [7], Hash.ofBytes [8], 1⟩] a = state a +
        (([(⟨9, Hash.ofBytes [7], Hash.ofBytes [8], 1⟩ : BlockHeader Nat)].filter (fun u => u.coinbase = a)).map
          (uncleReward (blockReward ⟨none, none⟩ 10) ⟨10, Hash.ofBytes [10], Hash.ofBytes [9], 0⟩)).sum +
        if a = 0 then blockReward ⟨none, none⟩ 10 + 1 * (blockReward ⟨none, none⟩ 10 / 32) else 0 :=
  uncle_rewards ⟨none, none⟩ .ModeNormal (by decide) (fun _ _ => .ok ())
    (fun h n => if h = Hash.ofBytes [9] ∧ n = 9 then some ⟨⟨9, Hash.ofBytes [9], Hash.ofBytes [8], 0⟩, []⟩
      else if h = Hash.ofBytes [8] ∧ n = 8 then some ⟨⟨8, Hash.ofBytes [8], Hash.ofBytes [0], 0⟩, []⟩
      else none)
    (fun h n b hb => by
      split_ifs at hb with h₉ h₈
      · obtain ⟨rfl, rfl⟩ := h₉
        cases hb
        exact ⟨rfl, rfl, by decide⟩
      · obtain ⟨rfl, rfl⟩ := h₈
        cases hb
        exact ⟨rfl, rfl, by decide⟩)
    ⟨⟨10, Hash.ofBytes [10], Hash.ofBytes [9], 0⟩, [⟨9, Hash.ofBytes [7], Hash.ofBytes [8], 1⟩]⟩
    (by decide) (by decide) rfl

end Atlantis.Ethash
