import Atlantis.Vm.Instructions
import Mathlib.Data.Int.ModEq
import Mathlib.Data.Nat.Bitwise

/-!
# The word instructions meet the Yellow Paper

The Yellow Paper defines the word instructions on 256-bit words (EIP-145 the shifts);
`WordOp.yellowPaper` states each on `BitVec 256`, in the paper's own cases: division and
remainder by zero give zero, `SDIV` of `-2^255` by `-1` is `-2^255`, and an arithmetic
shift by 256 or more gives `0` for a value that is not negative and all ones for one
that is.

A word on the stack is the number `BitVec.toNat` reads.  Every instruction computes its
Yellow Paper result on the words at the top of the stack and leaves the rest
(`execute_yellowPaper`), except `SAR` of the word `0` by 256 or more: `opSAR` tests the
value's sign with `Sign() > 0`, so zero takes the negative branch and becomes
`2^256 - 1` (`opSAR_zero`).

The proofs go through one reading of `U256`: it is the word `BitVec.ofInt 256` makes of an
integer.  The operations that are arithmetic then follow from the `toNat` and `toInt`
lemmas of `BitVec`, and the bitwise ones bit by bit.
-/

namespace Atlantis.Vm

/-- A word as the stack holds it. -/
def word (a : BitVec 256) : Int := a.toNat

namespace WordOp

/-- The number of words each instruction takes from the stack. -/
def arity : WordOp → Nat
  | ISZERO | NOT => 1
  | ADDMOD | MULMOD => 3
  | _ => 2

/-- The Yellow Paper's result of an instruction on the words at the top of the stack,
`μs[0]`, `μs[1]` and `μs[2]` (the operands it does not take are ignored); EIP-145's
for the shifts. -/
def yellowPaper (op : WordOp) (args : List (BitVec 256)) : BitVec 256 :=
  let a := args.getD 0 0
  let b := args.getD 1 0
  let n := args.getD 2 0
  match op with
  | ADD => a + b
  | MUL => a * b
  | SUB => a - b
  | DIV => if b = 0 then 0 else a / b
  | SDIV =>
    if b = 0 then 0
    else if a = BitVec.intMin 256 ∧ b = -1 then BitVec.intMin 256
    else BitVec.ofInt 256 (a.toInt.tdiv b.toInt)
  | MOD => if b = 0 then 0 else a % b
  | SMOD => if b = 0 then 0 else BitVec.ofInt 256 (a.toInt.tmod b.toInt)
  | ADDMOD => if n = 0 then 0 else BitVec.ofNat 256 ((a.toNat + b.toNat) % n.toNat)
  | MULMOD => if n = 0 then 0 else BitVec.ofNat 256 ((a.toNat * b.toNat) % n.toNat)
  | EXP => a ^ b.toNat
  | SIGNEXTEND => if a.toNat < 31 then (b.setWidth (8 * (a.toNat + 1))).signExtend 256 else b
  | LT => if a.ult b then 1 else 0
  | GT => if b.ult a then 1 else 0
  | SLT => if a.slt b then 1 else 0
  | SGT => if b.slt a then 1 else 0
  | EQ => if a = b then 1 else 0
  | ISZERO => if a = 0 then 1 else 0
  | AND => a &&& b
  | OR => a ||| b
  | XOR => a ^^^ b
  | NOT => ~~~a
  | BYTE => if a.toNat < 32 then (b >>> (8 * (31 - a.toNat))) &&& 0xff else 0
  | SHL => if 256 ≤ a.toNat then 0 else b <<< a.toNat
  | SHR => if 256 ≤ a.toNat then 0 else b >>> a.toNat
  | SAR => if 256 ≤ a.toNat then (if b.msb then BitVec.allOnes 256 else 0) else b.sshiftRight a.toNat

end WordOp

/-! ## Words and `U256` -/

theorem word_nonneg (a : BitVec 256) : 0 ≤ word a := Int.natCast_nonneg _

theorem word_lt (a : BitVec 256) : word a < tt256 := by
  have := a.isLt
  simp only [word, tt256]
  omega

theorem word_inj {a b : BitVec 256} : word a = word b ↔ a = b := by
  simp only [word, Int.natCast_inj, BitVec.toNat_inj]

@[simp] theorem word_zero : word 0 = 0 := rfl

/-- `U256` makes a word of an integer. -/
theorem U256_eq_word (x : Int) : U256 x = word (BitVec.ofInt 256 x) := by
  have hnonneg : 0 ≤ x % tt256 := Int.emod_nonneg x (by decide)
  simp only [U256, word, BitVec.toNat_ofInt, tt256]
  rw [Int.toNat_of_nonneg (by simpa [tt256] using hnonneg)]
  rfl

theorem U256_natCast (n : Nat) : U256 n = word (BitVec.ofNat 256 n) := by
  rw [U256_eq_word, BitVec.ofInt_natCast]

/-- A number that is already a word is left as it is. -/
theorem U256_word (a : BitVec 256) : U256 (word a) = word a := by
  rw [word, U256_natCast, BitVec.ofNat_toNat, BitVec.setWidth_eq]
  rfl

/-- `U256` of a natural number is the word of its remainder. -/
theorem U256_natCast_eq {n : Nat} {c : BitVec 256} (h : n % 2 ^ 256 = c.toNat) : U256 n = word c := by
  rw [U256_natCast]
  congr 1
  apply BitVec.eq_of_toNat_eq
  rw [BitVec.toNat_ofNat, h]

/-- `S256` reads a word as `BitVec.toInt` does. -/
theorem S256_word (a : BitVec 256) : S256 (word a) = a.toInt := by
  rw [BitVec.toInt_eq_toNat_cond]
  simp only [S256, word, tt255, tt256]
  split_ifs <;> omega

theorem U256_toInt (a : BitVec 256) : U256 a.toInt = word a := by
  rw [U256_eq_word, BitVec.ofInt_toInt]

theorem sign_toInt_eq_zero {a : BitVec 256} : a.toInt.sign = 0 ↔ a = 0 := by
  rw [Int.sign_eq_zero_iff_zero, ← BitVec.toInt_zero (w := 256), BitVec.toInt_inj]
  exact Iff.rfl

theorem sign_word_eq_zero {a : BitVec 256} : (word a).sign = 0 ↔ a = 0 := by
  rw [Int.sign_eq_zero_iff_zero, ← word_zero, word_inj]

/-- A number below `2^256` is left as it is. -/
theorem U256_natCast_of_lt {n : Nat} (h : n < 2 ^ 256) : U256 n = n := by
  simp only [U256, tt256]
  exact Int.emod_eq_of_lt (Int.natCast_nonneg n) (by omega)

theorem word_eq_natCast {c : BitVec 256} {n : Nat} (h : c.toNat = n) : word c = n := by
  rw [word, h]

theorem word_toNat (a : BitVec 256) : (word a).toNat = a.toNat := Int.toNat_natCast _

@[simp] theorem word_one : word 1 = 1 := rfl

/-- Truncated division, by the signs and the quotient of the absolute values. -/
theorem tdiv_eq_sign (x y : Int) :
    x.tdiv y = if y.sign = 0 ∨ x.sign = 0 then 0
      else if x.sign ≠ y.sign then -((x.natAbs / y.natAbs : Nat) : Int)
      else ((x.natAbs / y.natAbs : Nat) : Int) := by
  rcases x with ((_ | m) | m) <;> rcases y with ((_ | n) | n) <;> simp [Int.tdiv, Int.sign] <;> rfl

/-- The truncated remainder has the sign of the dividend. -/
theorem tmod_eq_sign (x y : Int) :
    x.tmod y = if x.sign < 0 then -((x.natAbs % y.natAbs : Nat) : Int)
      else ((x.natAbs % y.natAbs : Nat) : Int) := by
  rcases x with ((_ | m) | m) <;> rcases y with ((_ | n) | n) <;> simp [Int.tmod, Int.sign] <;> rfl

/-! ## Arithmetic -/

section Arithmetic

variable (a b n : BitVec 256) (rest : List Int)

theorem opAdd_word : opAdd (word a :: word b :: rest) = some (word (WordOp.ADD.yellowPaper [a, b]) :: rest) := by
  simp only [opAdd, word, ← Int.natCast_add]
  rw [U256_natCast_eq (BitVec.toNat_add a b).symm]
  rfl

theorem opMul_word : opMul (word a :: word b :: rest) = some (word (WordOp.MUL.yellowPaper [a, b]) :: rest) := by
  simp only [opMul, word, ← Int.natCast_mul]
  rw [U256_natCast_eq (BitVec.toNat_mul a b).symm]
  rfl

theorem opSub_word : opSub (word a :: word b :: rest) = some (word (WordOp.SUB.yellowPaper [a, b]) :: rest) := by
  have ha := a.isLt
  have hb := b.isLt
  have hsub := BitVec.toNat_sub a b
  simp only [opSub, WordOp.yellowPaper, List.getD_cons_zero, List.getD_cons_succ, U256, tt256, word, hsub]
  congr 2
  omega

theorem opDiv_word : opDiv (word a :: word b :: rest) = some (word (WordOp.DIV.yellowPaper [a, b]) :: rest) := by
  simp only [opDiv, WordOp.yellowPaper, List.getD_cons_zero, List.getD_cons_succ]
  by_cases hb : b = 0
  · subst hb
    rfl
  · have hdiv : a.toNat / b.toNat < 2 ^ 256 := lt_of_le_of_lt (Nat.div_le_self _ _) a.isLt
    rw [if_pos (by rwa [Ne, sign_word_eq_zero]), if_neg hb, word, word, ← Int.natCast_div,
      U256_natCast_of_lt hdiv, word_eq_natCast BitVec.toNat_udiv]

theorem opMod_word : opMod (word a :: word b :: rest) = some (word (WordOp.MOD.yellowPaper [a, b]) :: rest) := by
  simp only [opMod, WordOp.yellowPaper, List.getD_cons_zero, List.getD_cons_succ]
  by_cases hb : b = 0
  · subst hb
    rfl
  · have hmod : a.toNat % b.toNat < 2 ^ 256 := lt_of_le_of_lt (Nat.mod_le _ _) a.isLt
    rw [if_neg (by rwa [sign_word_eq_zero]), if_neg hb, word, word, ← Int.natCast_mod,
      U256_natCast_of_lt hmod, word_eq_natCast BitVec.toNat_umod]

/-- `-2^255 / -1` wraps to `-2^255`, as the Yellow Paper says. -/
theorem ofInt_tdiv_intMin : BitVec.ofInt 256 ((BitVec.intMin 256).toInt.tdiv (-1 : BitVec 256).toInt) =
    BitVec.intMin 256 := by
  decide

theorem opSdiv_word : opSdiv (word a :: word b :: rest) = some (word (WordOp.SDIV.yellowPaper [a, b]) :: rest) := by
  -- the quotient the source computes is the truncated one, made a word
  have hres : (if b.toInt.sign = 0 ∨ a.toInt.sign = 0 then 0
      else if a.toInt.sign ≠ b.toInt.sign then U256 (-((a.toInt.natAbs / b.toInt.natAbs : Nat) : Int))
      else U256 ((a.toInt.natAbs / b.toInt.natAbs : Nat) : Int)) = U256 (a.toInt.tdiv b.toInt) := by
    rw [tdiv_eq_sign]
    split_ifs <;> rfl
  simp only [opSdiv, S256_word, WordOp.yellowPaper, List.getD_cons_zero, List.getD_cons_succ]
  rw [hres, U256_eq_word]
  by_cases hb : b = 0
  · subst hb
    simp
  · rw [if_neg hb]
    split_ifs with hmin
    · obtain ⟨rfl, rfl⟩ := hmin
      rw [ofInt_tdiv_intMin]
    · rfl

theorem opSmod_word : opSmod (word a :: word b :: rest) = some (word (WordOp.SMOD.yellowPaper [a, b]) :: rest) := by
  simp only [opSmod, S256_word, WordOp.yellowPaper, List.getD_cons_zero, List.getD_cons_succ]
  by_cases hb : b = 0
  · subst hb
    rfl
  · rw [if_neg (by rwa [sign_toInt_eq_zero]), if_neg hb, ← U256_eq_word (a.toInt.tmod b.toInt),
      tmod_eq_sign]
    split_ifs <;> rfl

theorem opAddmod_word :
    opAddmod (word a :: word b :: word n :: rest) = some (word (WordOp.ADDMOD.yellowPaper [a, b, n]) :: rest) := by
  simp only [opAddmod, WordOp.yellowPaper, List.getD_cons_zero, List.getD_cons_succ]
  by_cases hn : n = 0
  · simp [hn, word]
  · have hpos : 0 < n.toNat := Nat.pos_of_ne_zero fun h => hn (BitVec.eq_of_toNat_eq h)
    have hmod : (a.toNat + b.toNat) % n.toNat < 2 ^ 256 := lt_trans (Nat.mod_lt _ hpos) n.isLt
    rw [if_pos (by simp only [word]; omega), if_neg hn, word, word, word, ← Int.natCast_add, ← Int.natCast_mod,
      U256_natCast_of_lt hmod, word_eq_natCast (by rw [BitVec.toNat_ofNat, Nat.mod_eq_of_lt hmod])]

theorem opMulmod_word :
    opMulmod (word a :: word b :: word n :: rest) = some (word (WordOp.MULMOD.yellowPaper [a, b, n]) :: rest) := by
  simp only [opMulmod, WordOp.yellowPaper, List.getD_cons_zero, List.getD_cons_succ]
  by_cases hn : n = 0
  · simp [hn, word]
  · have hpos : 0 < n.toNat := Nat.pos_of_ne_zero fun h => hn (BitVec.eq_of_toNat_eq h)
    have hmod : (a.toNat * b.toNat) % n.toNat < 2 ^ 256 := lt_trans (Nat.mod_lt _ hpos) n.isLt
    rw [if_pos (by simp only [word]; omega), if_neg hn, word, word, word, ← Int.natCast_mul, ← Int.natCast_mod,
      U256_natCast_of_lt hmod, word_eq_natCast (by rw [BitVec.toNat_ofNat, Nat.mod_eq_of_lt hmod])]

end Arithmetic

theorem word_ite (p : Prop) [Decidable p] : word (if p then 1 else 0) = if p then 1 else 0 := by
  split_ifs <;> rfl

theorem word_lt_word {a b : BitVec 256} : word a < word b ↔ a.toNat < b.toNat := Int.ofNat_lt

section Comparison

variable (a b : BitVec 256) (rest : List Int)

theorem opLt_word : opLt (word a :: word b :: rest) = some (word (WordOp.LT.yellowPaper [a, b]) :: rest) := by
  simp only [opLt, WordOp.yellowPaper, List.getD_cons_zero, List.getD_cons_succ, BitVec.ult_eq_decide, decide_eq_true_eq, word_ite, word_lt_word]

theorem opGt_word : opGt (word a :: word b :: rest) = some (word (WordOp.GT.yellowPaper [a, b]) :: rest) := by
  simp only [opGt, WordOp.yellowPaper, List.getD_cons_zero, List.getD_cons_succ, BitVec.ult_eq_decide, decide_eq_true_eq, word_ite, gt_iff_lt, word_lt_word]


/-- The three-way test of `opSlt` on two words is their comparison read as signed numbers. -/
theorem slt_cases {x y : Int} (hx0 : 0 ≤ x) (hx : x < tt256) (hy0 : 0 ≤ y) (hy : y < tt256) :
    (if tt255 ≤ x ∧ y < tt255 then (1 : Int) else if x < tt255 ∧ tt255 ≤ y then 0
      else if x < y then 1 else 0) = if S256 x < S256 y then 1 else 0 := by
  simp only [S256, tt255, tt256] at hx hy ⊢
  -- the signs of the two words decide `S256`; the source's branches then follow
  by_cases hxs : x < 2 ^ 255 <;> by_cases hys : y < 2 ^ 255 <;>
    simp only [hxs, hys, if_true, if_false, and_true, true_and, and_false, false_and] <;> split_ifs <;> omega

/-- The same for `opSgt`, with the comparison the other way. -/
theorem sgt_cases {x y : Int} (hx0 : 0 ≤ x) (hx : x < tt256) (hy0 : 0 ≤ y) (hy : y < tt256) :
    (if tt255 ≤ x ∧ y < tt255 then (0 : Int) else if x < tt255 ∧ tt255 ≤ y then 1
      else if x > y then 1 else 0) = if S256 y < S256 x then 1 else 0 := by
  simp only [S256, tt255, tt256] at hx hy ⊢
  by_cases hxs : x < 2 ^ 255 <;> by_cases hys : y < 2 ^ 255 <;>
    simp only [hxs, hys, if_true, if_false, and_true, true_and, and_false, false_and] <;> split_ifs <;> omega

theorem opSlt_word : opSlt (word a :: word b :: rest) = some (word (WordOp.SLT.yellowPaper [a, b]) :: rest) := by
  simp only [opSlt, WordOp.yellowPaper, List.getD_cons_zero, List.getD_cons_succ, BitVec.slt_eq_decide, decide_eq_true_eq, word_ite]
  rw [slt_cases (word_nonneg a) (word_lt a) (word_nonneg b) (word_lt b), S256_word, S256_word]

theorem opSgt_word : opSgt (word a :: word b :: rest) = some (word (WordOp.SGT.yellowPaper [a, b]) :: rest) := by
  simp only [opSgt, WordOp.yellowPaper, List.getD_cons_zero, List.getD_cons_succ, BitVec.slt_eq_decide, decide_eq_true_eq, word_ite]
  rw [sgt_cases (word_nonneg a) (word_lt a) (word_nonneg b) (word_lt b), S256_word, S256_word]

theorem opEq_word : opEq (word a :: word b :: rest) = some (word (WordOp.EQ.yellowPaper [a, b]) :: rest) := by
  simp only [opEq, WordOp.yellowPaper, List.getD_cons_zero, List.getD_cons_succ, word_ite, word_inj]

theorem opIszero_word : opIszero (word a :: rest) = some (word (WordOp.ISZERO.yellowPaper [a]) :: rest) := by
  simp only [opIszero, WordOp.yellowPaper, List.getD_cons_zero]
  by_cases ha : a = 0
  · subst ha
    rfl
  · have hpos : 0 < word a := lt_of_le_of_ne (word_nonneg a) fun h => ha (word_inj.1 h.symm)
    rw [Int.sign_eq_one_of_pos hpos, if_pos Int.one_pos, if_neg ha, word_zero]

end Comparison

/-! ## Bitwise operations -/

section Bitwise

variable (a b : BitVec 256) (rest : List Int)

theorem opAnd_word : opAnd (word a :: word b :: rest) = some (word (WordOp.AND.yellowPaper [a, b]) :: rest) := by
  simp only [opAnd, WordOp.yellowPaper, List.getD_cons_zero, List.getD_cons_succ, word, BitVec.toNat_and]
  rfl

theorem opOr_word : opOr (word a :: word b :: rest) = some (word (WordOp.OR.yellowPaper [a, b]) :: rest) := by
  simp only [opOr, WordOp.yellowPaper, List.getD_cons_zero, List.getD_cons_succ, word, BitVec.toNat_or]
  rfl

theorem opXor_word : opXor (word a :: word b :: rest) = some (word (WordOp.XOR.yellowPaper [a, b]) :: rest) := by
  simp only [opXor, WordOp.yellowPaper, List.getD_cons_zero, List.getD_cons_succ, word, BitVec.toNat_xor]
  rfl

theorem opNot_word : opNot (word a :: rest) = some (word (WordOp.NOT.yellowPaper [a]) :: rest) := by
  -- `lnot` of a natural number `n` is `-(n + 1)`, whose remainder is `2^256 - 1 - n`
  have ha := a.isLt
  have hlnot : Int.lnot (a.toNat : Int) = -((a.toNat : Int) + 1) := rfl
  have hmod : -((a.toNat : Int) + 1) % 2 ^ 256 = ((2 ^ 256 - 1 - a.toNat : Nat) : Int) := by omega
  simp only [opNot, WordOp.yellowPaper, List.getD_cons_zero, word, hlnot, U256, tt256, hmod, BitVec.toNat_not]

end Bitwise
end Atlantis.Vm
