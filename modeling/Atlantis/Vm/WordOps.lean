import Atlantis.Vm.YellowPaper
import Mathlib.Data.Nat.Digits.Lemmas

/-!
# Exponentiation, sign extension, bytes and shifts

The word instructions whose source does more than one operation of `big.Int`:
`math.Exp` squares and multiplies over the 64-bit words of the exponent, `opSignExtend`
masks at the sign bit, `math.Byte` reads a byte out of those words, and the shifts
truncate their operands first.  With the lemmas of `Atlantis.Vm.YellowPaper` they give
`execute_yellowPaper`: every word instruction computes the Yellow Paper's result on the
words at the top of the stack, except `SAR` of the word `0` by 256 or more
(`opSAR_zero`).
-/

namespace Atlantis.Vm

/-! ## `EXP` -/

theorem U256_modEq (x : Int) : U256 x ≡ x [ZMOD tt256] := Int.mod_modEq x tt256

theorem U256_nonneg (x : Int) : 0 ≤ U256 x := Int.emod_nonneg x (by decide)

theorem U256_lt (x : Int) : U256 x < tt256 := Int.emod_lt_of_pos x (by decide)

/-- Over `i` bits of a word of the exponent, `expBits` multiplies the result by the base to
the power of those bits, and raises the base to `2^i`, both modulo `2^256`. -/
theorem expBits_modEq (result base : Int) (w i : Nat) :
    (expBits result base w i).1 ≡ result * base ^ (w % 2 ^ i) [ZMOD tt256] ∧
      (expBits result base w i).2 ≡ base ^ 2 ^ i [ZMOD tt256] := by
  induction i generalizing result base w with
  | zero => simp only [expBits, pow_zero, Nat.mod_one, mul_one, pow_one]; exact ⟨rfl, rfl⟩
  | succ i ih =>
    -- the low bit of the word is taken, and the rest of it is the next step's word
    have hbit : (if w % 2 = 1 then U256 (result * base) else result) ≡ result * base ^ (w % 2) [ZMOD tt256] := by
      split_ifs with hw
      · rw [hw, pow_one]
        exact U256_modEq _
      · rw [show w % 2 = 0 by omega, pow_zero, mul_one]
    have hsq : U256 (base * base) ≡ base ^ 2 [ZMOD tt256] := by
      rw [sq]
      exact U256_modEq _
    have hmod : w % 2 ^ (i + 1) = w % 2 + 2 * (w / 2 % 2 ^ i) := by
      rw [Nat.pow_succ', Nat.mod_mul]
    obtain ⟨hresult, hbase⟩ := ih (if w % 2 = 1 then U256 (result * base) else result) (U256 (base * base)) (w / 2)
    constructor
    · calc (expBits result base w (i + 1)).1
          ≡ (if w % 2 = 1 then U256 (result * base) else result) * U256 (base * base) ^ (w / 2 % 2 ^ i)
            [ZMOD tt256] := hresult
        _ ≡ result * base ^ (w % 2) * (base ^ 2) ^ (w / 2 % 2 ^ i) [ZMOD tt256] := hbit.mul (hsq.pow _)
        _ = result * base ^ (w % 2 ^ (i + 1)) := by rw [hmod, pow_add, pow_mul, mul_assoc]
    · calc (expBits result base w (i + 1)).2 ≡ U256 (base * base) ^ 2 ^ i [ZMOD tt256] := hbase
        _ ≡ (base ^ 2) ^ 2 ^ i [ZMOD tt256] := hsq.pow _
        _ = base ^ 2 ^ (i + 1) := by rw [← pow_mul, pow_succ']

/-- `expBits` keeps a result that is a word a word. -/
theorem expBits_fst_range {result : Int} (h0 : 0 ≤ result) (h1 : result < tt256) (base : Int) (w i : Nat) :
    0 ≤ (expBits result base w i).1 ∧ (expBits result base w i).1 < tt256 := by
  induction i generalizing result base w with
  | zero => exact ⟨h0, h1⟩
  | succ i ih =>
    apply ih
    · split_ifs
      · exact U256_nonneg _
      · exact h0
    · split_ifs
      · exact U256_lt _
      · exact h1

/-- `BitVec`'s power is the power of the number, modulo `2^w`. -/
theorem toNat_pow {w : Nat} (x : BitVec w) (k : Nat) : (x ^ k).toNat = x.toNat ^ k % 2 ^ w := by
  induction k with
  | zero => simp
  | succ k ih => rw [BitVec.pow_succ, BitVec.toNat_mul, ih, Nat.mod_mul_mod, Nat.pow_succ]

section Fold

variable (ws : List Nat)

/-- The loop of `math.Exp` over the words of the exponent, least significant first. -/
theorem exp_fold_modEq (hws : ∀ w ∈ ws, w < 2 ^ wordBits) (acc : Int × Int) :
    (ws.foldl (fun acc word => expBits acc.1 acc.2 word wordBits) acc).1 ≡
      acc.1 * acc.2 ^ Nat.ofDigits (2 ^ wordBits) ws [ZMOD tt256] := by
  induction ws generalizing acc with
  | nil => simp only [List.foldl_nil, Nat.ofDigits_nil, pow_zero, mul_one]; rfl
  | cons w ws ih =>
    obtain ⟨hresult, hbase⟩ := expBits_modEq acc.1 acc.2 w wordBits
    have hw : w % 2 ^ wordBits = w := Nat.mod_eq_of_lt (hws w List.mem_cons_self)
    rw [hw] at hresult
    rw [List.foldl_cons]
    calc _ ≡ (expBits acc.1 acc.2 w wordBits).1 * (expBits acc.1 acc.2 w wordBits).2 ^ Nat.ofDigits (2 ^ wordBits) ws
          [ZMOD tt256] := ih (fun v hv => hws v (List.mem_cons_of_mem w hv)) _
      _ ≡ acc.1 * acc.2 ^ w * (acc.2 ^ 2 ^ wordBits) ^ Nat.ofDigits (2 ^ wordBits) ws [ZMOD tt256] :=
          hresult.mul (hbase.pow _)
      _ = acc.1 * acc.2 ^ Nat.ofDigits (2 ^ wordBits) (w :: ws) := by
          rw [Nat.ofDigits_cons, pow_add, pow_mul, mul_assoc]

theorem exp_fold_range (acc : Int × Int) (h0 : 0 ≤ acc.1) (h1 : acc.1 < tt256) :
    0 ≤ (ws.foldl (fun acc word => expBits acc.1 acc.2 word wordBits) acc).1 ∧
      (ws.foldl (fun acc word => expBits acc.1 acc.2 word wordBits) acc).1 < tt256 := by
  induction ws generalizing acc with
  | nil => exact ⟨h0, h1⟩
  | cons w ws ih =>
    obtain ⟨hw0, hw1⟩ := expBits_fst_range h0 h1 acc.2 w wordBits
    rw [List.foldl_cons]
    exact ih _ hw0 hw1

end Fold

/-- `math.Exp` on a word exponent is the power modulo `2^256`. -/
theorem Exp_word (a b : BitVec 256) : Exp (word a) (word b) = word (a ^ b.toNat) := by
  have hdigits : ∀ w ∈ Bits (word b), w < 2 ^ wordBits := fun w hw =>
    Nat.digits_lt_base (Nat.one_lt_two_pow (by decide)) hw
  have hmod := exp_fold_modEq (Bits (word b)) hdigits (1, word a)
  obtain ⟨h0, h1⟩ := exp_fold_range (Bits (word b)) (1, word a) (show (0 : Int) ≤ 1 by decide)
    (show (1 : Int) < tt256 by decide)
  rw [Bits, show (word b).natAbs = b.toNat from Int.natAbs_natCast _, Nat.ofDigits_digits, one_mul] at hmod
  rw [Exp]
  calc _ = (word a) ^ b.toNat % tt256 := by
        rw [← Int.emod_eq_of_lt h0 h1]
        exact hmod
    _ = word (a ^ b.toNat) := by
        simp only [word, toNat_pow, tt256]
        push_cast
        rfl

theorem opExp_word (a b : BitVec 256) (rest : List Int) :
    opExp (word a :: word b :: rest) = some (word (WordOp.EXP.yellowPaper [a, b]) :: rest) := by
  rw [opExp, Exp_word]
  rfl

/-! ## `SIGNEXTEND` -/

/-- The mask of `opSignExtend`: the bits below `bit`. -/
theorem one_shiftLeft_sub_one (bit : Nat) : (1 : Int) <<< bit - 1 = ((2 ^ bit - 1 : Nat) : Int) := by
  rw [Int.shiftLeft_eq]
  push_cast [Nat.one_le_two_pow]
  ring

/-- Below byte 31, `opSignExtend` sets the bits above `bit` where it is set and clears them
where it is not: the word sign-extended from bit `bit`. -/
theorem signExtend_mask (x : BitVec 256) (bit : Nat) :
    U256 (if (word x).testBit bit then (word x).lor (((2 ^ bit - 1 : Nat) : Int)).lnot
      else (word x).land ((2 ^ bit - 1 : Nat) : Int)) =
      word ((x.setWidth (bit + 1)).signExtend 256) := by
  have hmsb : (x.setWidth (bit + 1)).msb = x.getLsbD bit := by
    simp [BitVec.msb_eq_getLsbD_last]
  have htest : (word x).testBit bit = x.getLsbD bit := rfl
  rw [htest]
  by_cases hset : x.getLsbD bit
  · -- `lor` with a negative mask is negative: the complement of the bits below `bit` that `x` lacks
    have hval : (word x).lor (((2 ^ bit - 1 : Nat) : Int)).lnot =
        Int.negSucc (Nat.ldiff (2 ^ bit - 1) x.toNat) := rfl
    rw [if_pos hset, hval, U256_eq_word, BitVec.ofInt_negSucc_eq_not_ofNat]
    congr 1
    apply BitVec.eq_of_getLsbD_eq
    intro i hi
    rw [BitVec.getLsbD_not, BitVec.getLsbD_ofNat, Nat.testBit_ldiff, Nat.testBit_two_pow_sub_one,
      BitVec.getLsbD_signExtend, BitVec.getLsbD_setWidth, hmsb, BitVec.testBit_toNat]
    rcases Nat.lt_trichotomy i bit with hlt | rfl | hgt
    · simp [hi, hlt, Nat.lt_succ_of_lt hlt]
    · simp [hi, hset]
    · simp [hi, hset, Nat.not_lt_of_gt hgt, show ¬ i < bit + 1 by omega]
  · have hval : (word x).land ((2 ^ bit - 1 : Nat) : Int) = ((x.toNat &&& (2 ^ bit - 1) : Nat) : Int) := rfl
    rw [if_neg hset, hval, U256_natCast]
    congr 1
    apply BitVec.eq_of_getLsbD_eq
    intro i hi
    rw [BitVec.getLsbD_ofNat, Nat.testBit_and, Nat.testBit_two_pow_sub_one,
      BitVec.getLsbD_signExtend, BitVec.getLsbD_setWidth, hmsb, BitVec.testBit_toNat]
    rcases Nat.lt_trichotomy i bit with hlt | rfl | hgt
    · simp [hi, hlt, Nat.lt_succ_of_lt hlt]
    · simpa [hi] using hset
    · simp [hi, hset, Nat.not_lt_of_gt hgt, show ¬ i < bit + 1 by omega]

theorem opSignExtend_word (b x : BitVec 256) (rest : List Int) :
    opSignExtend (word b :: word x :: rest) =
      some (word (WordOp.SIGNEXTEND.yellowPaper [b, x]) :: rest) := by
  simp only [opSignExtend, WordOp.yellowPaper, List.getD_cons_zero, List.getD_cons_succ]
  by_cases hb : b.toNat < 31
  · rw [if_pos (show word b < 31 by simp only [word]; omega), if_pos hb]
    rw [word_toNat, one_shiftLeft_sub_one, signExtend_mask, show b.toNat * 8 + 7 + 1 = 8 * (b.toNat + 1) by omega]
    -- the width of `setWidth` still reads the operand through `getD`
    rfl
  · rw [if_neg (show ¬ word b < 31 by simp only [word]; omega), if_neg hb]

/-! ## Shifts -/

section Shift

variable (shift x : BitVec 256) (rest : List Int)

theorem opSHL_word : opSHL (word shift :: word x :: rest) = some (word (WordOp.SHL.yellowPaper [shift, x]) :: rest) := by
  simp only [opSHL, WordOp.yellowPaper, List.getD_cons_zero, List.getD_cons_succ, U256_word]
  by_cases hshift : 256 ≤ shift.toNat
  · rw [if_pos (by simp only [word]; omega), if_pos hshift, word_zero]
  · have hval : U256 (word x <<< shift.toNat) = word (x <<< shift.toNat) := by
      rw [word, ← Int.natCast_shiftLeft, U256_natCast_eq BitVec.toNat_shiftLeft.symm]
    rw [if_neg (by simp only [word]; omega), if_neg hshift, word_toNat, hval]

theorem opSHR_word : opSHR (word shift :: word x :: rest) = some (word (WordOp.SHR.yellowPaper [shift, x]) :: rest) := by
  simp only [opSHR, WordOp.yellowPaper, List.getD_cons_zero, List.getD_cons_succ, U256_word]
  by_cases hshift : 256 ≤ shift.toNat
  · rw [if_pos (by simp only [word]; omega), if_pos hshift, word_zero]
  · have hlt : x.toNat >>> shift.toNat < 2 ^ 256 := lt_of_le_of_lt (Nat.shiftRight_le _ _) x.isLt
    have hval : U256 (word x >>> shift.toNat) = word (x >>> shift.toNat) := by
      rw [word, ← Int.natCast_shiftRight, U256_natCast_of_lt hlt, word, BitVec.toNat_ushiftRight]
    rw [if_neg (by simp only [word]; omega), if_neg hshift, word_toNat, hval]

/-- Where the value is not zero, the source's sign test picks the Yellow Paper's result of
a shift by 256 or more. -/
theorem sar_overflow {x : BitVec 256} (hx : x ≠ 0) :
    U256 (if x.toInt.sign > 0 then 0 else -1) = word (if x.msb then BitVec.allOnes 256 else 0) := by
  have hne : x.toInt ≠ 0 := fun h => hx (sign_toInt_eq_zero.1 (by rw [h]; rfl))
  by_cases hmsb : x.msb
  · have hneg : x.toInt < 0 := by simpa [BitVec.msb_eq_toInt] using hmsb
    rw [Int.sign_eq_neg_one_of_neg hneg, if_neg (by decide), if_pos hmsb]
    rfl
  · have hpos : 0 < x.toInt := by
      have : ¬ x.toInt < 0 := by simpa [BitVec.msb_eq_toInt] using hmsb
      omega
    rw [Int.sign_eq_one_of_pos hpos, if_pos Int.one_pos, if_neg hmsb]
    rfl

theorem opSAR_word (hx : 256 ≤ shift.toNat → x ≠ 0) :
    opSAR (word shift :: word x :: rest) = some (word (WordOp.SAR.yellowPaper [shift, x]) :: rest) := by
  simp only [opSAR, WordOp.yellowPaper, List.getD_cons_zero, List.getD_cons_succ, U256_word, S256_word]
  by_cases hshift : 256 ≤ shift.toNat
  · rw [if_pos (by simp only [word]; omega), if_pos hshift, sar_overflow (hx hshift)]
  · rw [if_neg (by simp only [word]; omega), if_neg hshift, word_toNat, ← BitVec.toInt_sshiftRight, U256_toInt]

/-- `opSAR` tests the sign with `Sign() > 0`, so the value `0` takes the negative
branch: shifted by 256 or more it becomes `2^256 - 1`, where EIP-145 gives `0`. -/
theorem opSAR_zero (hshift : 256 ≤ shift.toNat) :
    opSAR (word shift :: word 0 :: rest) = some (word (BitVec.allOnes 256) :: rest) ∧
      WordOp.SAR.yellowPaper [shift, 0] = 0 := by
  have hsign : (BitVec.toInt (0 : BitVec 256)).sign = 0 := sign_toInt_eq_zero.2 rfl
  constructor
  · simp only [opSAR, U256_word, S256_word, hsign]
    have hallOnes : U256 (-1) = word (BitVec.allOnes 256) := by
      simp only [U256, tt256, word, BitVec.toNat_allOnes]
      omega
    rw [if_pos (show word shift ≥ 256 by simp only [word]; omega), if_neg (by decide), hallOnes]
  · simp only [WordOp.yellowPaper, List.getD_cons_zero, List.getD_cons_succ]
    rw [if_pos hshift, if_neg (by decide)]

theorem opSAR_zero_by_256 :
    256 ≤ (256 : BitVec 256).toNat ∧
      (opSAR (word 256 :: word 0 :: []) = some (word (BitVec.allOnes 256) :: []) ∧
        WordOp.SAR.yellowPaper [256, 0] = 0) :=
  ⟨by decide, opSAR_zero 256 [] (by decide)⟩

end Shift

/-! ## `BYTE` -/

/-- `bigEndianByteAt` reads the word that holds the byte, or `0` past the last word. -/
theorem bigEndianByteAt_eq (bigint : Int) (n : Nat) :
    bigEndianByteAt bigint n =
      UInt8.ofNat ((Bits bigint).getD (n / wordBytes) 0 >>> (8 * (n % wordBytes))) := by
  unfold bigEndianByteAt
  dsimp only
  rw [List.getD_eq_getElem?_getD]
  split
  · next hnone => rw [hnone, Option.getD_none, Nat.zero_shiftRight]; rfl
  · next w hsome => rw [hsome]; rfl

/-- Byte `k` of a number, read through the 64-bit word that holds it. -/
theorem byte_of_words (v k : Nat) :
    ((v / (2 ^ 64) ^ (k / 8) % 2 ^ 64) >>> (8 * (k % 8))) % 2 ^ 8 = v / 2 ^ (8 * k) % 2 ^ 8 := by
  have hr : k % 8 < 8 := Nat.mod_lt _ (by decide)
  -- the word splits at the byte: the bits below it, and at least a byte above
  have hsplit : (2 : Nat) ^ 64 = 2 ^ (8 * (k % 8)) * 2 ^ (64 - 8 * (k % 8)) := by
    rw [← Nat.pow_add, show 8 * (k % 8) + (64 - 8 * (k % 8)) = 64 by omega]
  have hdvd : 2 ^ 8 ∣ 2 ^ (64 - 8 * (k % 8)) :=
    ⟨2 ^ (56 - 8 * (k % 8)), by rw [← Nat.pow_add,
      show 8 + (56 - 8 * (k % 8)) = 64 - 8 * (k % 8) by omega]⟩
  rw [Nat.shiftRight_eq_div_pow, ← Nat.pow_mul, hsplit, Nat.mod_mul_right_div_self, Nat.mod_mod_of_dvd _ hdvd,
    Nat.div_div_eq_div_mul, ← Nat.pow_add, show 64 * (k / 8) + 8 * (k % 8) = 8 * k by omega]

theorem opByte_word (i x : BitVec 256) (rest : List Int) :
    opByte (word i :: word x :: rest) = some (word (WordOp.BYTE.yellowPaper [i, x]) :: rest) := by
  simp only [opByte, WordOp.yellowPaper, List.getD_cons_zero, List.getD_cons_succ]
  by_cases hi : i.toNat < 32
  · have hbyte : (Byte (word x) 32 (word i).toNat).toNat = x.toNat / 2 ^ (8 * (31 - i.toNat)) % 256 := by
      rw [word_toNat, Byte, if_neg (by omega), bigEndianByteAt_eq, UInt8.toNat_ofNat', Bits, word,
        Int.natAbs_natCast, Nat.getD_digits _ _ (by decide), wordBits, wordBytes]
      exact byte_of_words x.toNat (32 - 1 - i.toNat)
    rw [if_pos (by simp only [word]; omega), if_pos hi, hbyte, word, BitVec.toNat_and, BitVec.toNat_ushiftRight,
      show (0xff : BitVec 256).toNat = 2 ^ 8 - 1 from rfl, Nat.and_two_pow_sub_one_eq_mod, Nat.shiftRight_eq_div_pow]
  · rw [if_neg (by simp only [word]; omega), if_neg hi, word_zero]

/-! ## The word instructions -/

/-- Every word instruction, on a stack whose top words are its operands, pops them and
pushes the Yellow Paper's result, and leaves the rest of the stack as it was; for `SAR` by
256 or more, where the value is not `0` (`opSAR_zero` is that case). -/
theorem execute_yellowPaper (op : WordOp) (args : List (BitVec 256)) (hargs : args.length = op.arity)
    (hsar : op = .SAR → 256 ≤ (args.getD 0 0).toNat → args.getD 1 0 ≠ 0) (rest : List Int) :
    op.execute (args.map word ++ rest) = some (word (op.yellowPaper args) :: rest) := by
  cases op
  -- the instructions of one operand and of three
  case ISZERO =>
    obtain ⟨a, rfl⟩ := List.length_eq_one_iff.1 hargs
    exact opIszero_word a rest
  case NOT =>
    obtain ⟨a, rfl⟩ := List.length_eq_one_iff.1 hargs
    exact opNot_word a rest
  case ADDMOD =>
    obtain ⟨a, b, n, rfl⟩ := List.length_eq_three.1 hargs
    exact opAddmod_word a b n rest
  case MULMOD =>
    obtain ⟨a, b, n, rfl⟩ := List.length_eq_three.1 hargs
    exact opMulmod_word a b n rest
  -- the rest take two
  all_goals obtain ⟨a, b, rfl⟩ := List.length_eq_two.1 hargs
  case ADD => exact opAdd_word a b rest
  case MUL => exact opMul_word a b rest
  case SUB => exact opSub_word a b rest
  case DIV => exact opDiv_word a b rest
  case SDIV => exact opSdiv_word a b rest
  case MOD => exact opMod_word a b rest
  case SMOD => exact opSmod_word a b rest
  case EXP => exact opExp_word a b rest
  case SIGNEXTEND => exact opSignExtend_word a b rest
  case LT => exact opLt_word a b rest
  case GT => exact opGt_word a b rest
  case SLT => exact opSlt_word a b rest
  case SGT => exact opSgt_word a b rest
  case EQ => exact opEq_word a b rest
  case AND => exact opAnd_word a b rest
  case OR => exact opOr_word a b rest
  case XOR => exact opXor_word a b rest
  case BYTE => exact opByte_word a b rest
  case SHL => exact opSHL_word a b rest
  case SHR => exact opSHR_word a b rest
  case SAR => exact opSAR_word a b rest (hsar rfl)

theorem execute_yellowPaper_sar :
    [256, -1].length = WordOp.SAR.arity ∧
      (WordOp.SAR = .SAR → 256 ≤ ([256, -1].getD 0 0 : BitVec 256).toNat → ([256, -1].getD 1 0 : BitVec 256) ≠ 0) ∧
      WordOp.SAR.execute ([256, -1].map word ++ []) = some (word (WordOp.SAR.yellowPaper [256, -1]) :: []) :=
  ⟨rfl, fun _ _ => by decide, execute_yellowPaper .SAR [256, -1] rfl (fun _ _ => by decide) []⟩

end Atlantis.Vm
