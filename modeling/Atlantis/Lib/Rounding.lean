import Mathlib

/-!
# Rounding an integer to a number of significant bits

Converting an integer to a binary floating-point format of `p` significant bits rounds it to
the nearest number whose binary digits below its top `p` are zero, a tie going to the one
whose last kept digit is even.  Below `2 ^ p` every integer is kept exactly (`nat_of_lt`,
`int_of_natAbs_lt`).  Above, the rounding of `m` lies between the powers of two around `m`
(`pow_log_le_nat`, `nat_le_pow_succ_log`), and from that and the monotonicity of the tie rule
at one exponent the rounding keeps the order of its inputs (`nat_mono`, `int_mono`); it does
not keep them apart, as `2 ^ p + 1` meets `2 ^ p`, which is kept (`nat_two_pow_add_one`,
`nat_two_pow`).
-/

namespace Rounding

/-- The number of low binary digits dropped from `m` at `p` significant bits. -/
def shift (p m : Nat) : Nat := Nat.log 2 m + 1 - p

/-- Whether the dropped digits `r`, out of `2 ^ s`, round the kept part `q` up: above the half,
or at the half with `q` odd. -/
def roundsUp (s q r : Nat) : Bool :=
  decide (2 ^ s < 2 * r) || (decide (2 * r = 2 ^ s) && q % 2 == 1)

/-- `m` rounded to `p` significant bits, to nearest with ties to even. -/
def nat (p m : Nat) : Nat :=
  if m < 2 ^ p then m
  else (m / 2 ^ shift p m + if roundsUp (shift p m) (m / 2 ^ shift p m) (m % 2 ^ shift p m)
    then 1 else 0) * 2 ^ shift p m

/-- An integer rounded to `p` significant bits: its magnitude rounded, with its sign. -/
def int (p : Nat) (n : Int) : Int :=
  if 0 ≤ n then (nat p n.toNat : Int) else -(nat p n.natAbs : Int)

variable {p m : Nat}

theorem nat_of_lt (h : m < 2 ^ p) : nat p m = m := if_pos h

/-- A rounding up at some dropped digits is one at more of them. -/
theorem roundsUp_mono {s q r r' : Nat} (hr : r ≤ r') (h : roundsUp s q r = true) :
    roundsUp s q r' = true := by
  simp only [roundsUp, Bool.or_eq_true, decide_eq_true_eq, Bool.and_eq_true, beq_iff_eq] at h ⊢
  omega

/-- The part kept, one up, is at most the power of two above `m`. -/
theorem ceil_le_pow_succ_log : (m / 2 ^ shift p m + 1) * 2 ^ shift p m ≤ 2 ^ (Nat.log 2 m + 1) := by
  have hs : shift p m ≤ Nat.log 2 m + 1 := by unfold shift; omega
  have hm : m < 2 ^ (Nat.log 2 m + 1) := Nat.lt_pow_succ_log_self (by decide) m
  have hsplit : 2 ^ (Nat.log 2 m + 1) = 2 ^ (Nat.log 2 m + 1 - shift p m) * 2 ^ shift p m :=
    (Nat.pow_sub_mul_pow 2 hs).symm
  rw [hsplit]
  apply Nat.mul_le_mul_right
  have : m / 2 ^ shift p m < 2 ^ (Nat.log 2 m + 1 - shift p m) := by
    rw [Nat.div_lt_iff_lt_mul (Nat.two_pow_pos _), ← hsplit]
    exact hm
  omega

section Large

variable (h : 2 ^ p ≤ m)
include h

theorem le_log : p ≤ Nat.log 2 m := by
  have hlt := Nat.lt_pow_succ_log_self (b := 2) (by decide) m
  have : 2 ^ p < 2 ^ (Nat.log 2 m + 1) := Nat.lt_of_le_of_lt h hlt
  have := (Nat.pow_lt_pow_iff_right (by decide : 1 < 2)).mp this
  omega

/-- The part kept, with its digits dropped, is at least the power of two below `m`. -/
theorem pow_log_le_floor (hp : 0 < p) : 2 ^ Nat.log 2 m ≤ m / 2 ^ shift p m * 2 ^ shift p m := by
  have hs : shift p m ≤ Nat.log 2 m := by unfold shift; omega
  have hm : 2 ^ Nat.log 2 m ≤ m :=
    Nat.pow_log_le_self 2 (Nat.pos_iff_ne_zero.mp (Nat.lt_of_lt_of_le (Nat.two_pow_pos p) h))
  have hsplit : 2 ^ Nat.log 2 m = 2 ^ (Nat.log 2 m - shift p m) * 2 ^ shift p m :=
    (Nat.pow_sub_mul_pow 2 hs).symm
  rw [hsplit]
  apply Nat.mul_le_mul_right
  rw [Nat.le_div_iff_mul_le (Nat.two_pow_pos _), ← hsplit]
  exact hm

/-- Above `2 ^ p` the rounding is the part kept, or one more, times the dropped power. -/
theorem nat_bounds : m / 2 ^ shift p m * 2 ^ shift p m ≤ nat p m ∧
    nat p m ≤ (m / 2 ^ shift p m + 1) * 2 ^ shift p m := by
  rw [nat, if_neg (Nat.not_lt.mpr h)]
  constructor
  · exact Nat.mul_le_mul_right _ (Nat.le_add_right _ _)
  · apply Nat.mul_le_mul_right
    split <;> omega

theorem pow_log_le_nat (hp : 0 < p) : 2 ^ Nat.log 2 m ≤ nat p m :=
  Nat.le_trans (pow_log_le_floor h hp) (nat_bounds h).1

theorem nat_le_pow_succ_log : nat p m ≤ 2 ^ (Nat.log 2 m + 1) :=
  Nat.le_trans (nat_bounds h).2 ceil_le_pow_succ_log

end Large

/-- Two numbers at one exponent round in order: by their kept parts, and at one kept part by
the tie rule. -/
theorem nat_mono_of_log_eq {a b : Nat} (ha : 2 ^ p ≤ a) (hab : a ≤ b)
    (hlog : Nat.log 2 a = Nat.log 2 b) : nat p a ≤ nat p b := by
  have hb : 2 ^ p ≤ b := Nat.le_trans ha hab
  have hs : shift p a = shift p b := by rw [shift, shift, hlog]
  have hq : a / 2 ^ shift p a ≤ b / 2 ^ shift p a := Nat.div_le_div_right hab
  rcases Nat.lt_or_eq_of_le hq with hlt | heq
  · -- a larger kept part: one up from `a`'s is at most `b`'s
    calc nat p a ≤ (a / 2 ^ shift p a + 1) * 2 ^ shift p a := (nat_bounds ha).2
      _ ≤ b / 2 ^ shift p b * 2 ^ shift p b := by rw [← hs]; exact Nat.mul_le_mul_right _ hlt
      _ ≤ nat p b := (nat_bounds hb).1
  · -- one kept part: `b` drops more, and rounds up where `a` does
    have hr : a % 2 ^ shift p a ≤ b % 2 ^ shift p a := by
      have := Nat.div_add_mod a (2 ^ shift p a)
      have := Nat.div_add_mod b (2 ^ shift p a)
      rw [← heq] at this
      omega
    rw [nat, nat, if_neg (Nat.not_lt.mpr ha), if_neg (Nat.not_lt.mpr hb), ← hs, ← heq]
    apply Nat.mul_le_mul_right
    split
    · rw [if_pos (roundsUp_mono hr ‹_›)]
    · split <;> omega

/-- **Rounding keeps the order.** -/
theorem nat_mono (hp : 0 < p) : Monotone (nat p) := by
  intro a b hab
  by_cases ha : a < 2 ^ p
  · by_cases hb : b < 2 ^ p
    · rw [nat_of_lt ha, nat_of_lt hb]
      exact hab
    · -- `a` is kept, `b` rounds to at least the power of two below it
      have hb' : 2 ^ p ≤ b := Nat.not_lt.mp hb
      calc nat p a = a := nat_of_lt ha
        _ ≤ 2 ^ p := ha.le
        _ ≤ 2 ^ Nat.log 2 b := Nat.pow_le_pow_right (by decide) (le_log hb')
        _ ≤ nat p b := pow_log_le_nat hb' hp
  · have ha' : 2 ^ p ≤ a := Nat.not_lt.mp ha
    have hlog : Nat.log 2 a ≤ Nat.log 2 b := Nat.log_mono_right hab
    rcases Nat.lt_or_eq_of_le hlog with hlt | heq
    · -- a smaller exponent rounds to at most the power of two that starts the larger one
      calc nat p a ≤ 2 ^ (Nat.log 2 a + 1) := nat_le_pow_succ_log ha'
        _ ≤ 2 ^ Nat.log 2 b := Nat.pow_le_pow_right (by decide) hlt
        _ ≤ nat p b := pow_log_le_nat (Nat.le_trans ha' hab) hp
    · exact nat_mono_of_log_eq ha' hab heq

theorem int_of_natAbs_lt {n : Int} (h : n.natAbs < 2 ^ p) : int p n = n := by
  unfold int
  split
  · rw [nat_of_lt (by omega)]
    omega
  · rw [nat_of_lt h]
    omega

/-- **Rounding an integer keeps the order**: magnitudes round in order, and the sign is
kept. -/
theorem int_mono (hp : 0 < p) : Monotone (int p) := by
  intro a b hab
  unfold int
  split <;> split
  · exact Int.ofNat_le.mpr (nat_mono hp (by omega))
  · omega
  · omega
  · have := nat_mono hp (show b.natAbs ≤ a.natAbs by omega)
    omega

/-- A number without digits to drop is kept. -/
theorem nat_of_mod_eq_zero (h : m % 2 ^ shift p m = 0) : nat p m = m := by
  unfold nat
  split
  · rfl
  · have hup : roundsUp (shift p m) (m / 2 ^ shift p m) (m % 2 ^ shift p m) = false := by
      have hpos := Nat.two_pow_pos (shift p m)
      simp only [roundsUp, h, Nat.mul_zero, Bool.or_eq_false_iff, decide_eq_false_iff_not,
        Bool.and_eq_false_imp, decide_eq_true_eq]
      omega
    rw [hup, if_neg Bool.false_ne_true, Nat.add_zero]
    exact Nat.div_mul_cancel (Nat.dvd_of_mod_eq_zero h)

theorem nat_two_pow (hp : 0 < p) : nat p (2 ^ p) = 2 ^ p := by
  apply nat_of_mod_eq_zero
  rw [shift, Nat.log_pow (by decide), show p + 1 - p = 1 by omega, Nat.pow_one]
  exact Nat.two_pow_mod_two_eq_zero.mpr hp

/-- One past a power of two is a tie between it and the next number kept, and goes to it. -/
theorem nat_two_pow_add_one (hp : 2 ≤ p) : nat p (2 ^ p + 1) = 2 ^ p := by
  have hhalf : 2 ^ (p - 1) * 2 = 2 ^ p := Nat.two_pow_pred_mul_two (by omega)
  have hlog : Nat.log 2 (2 ^ p + 1) = p := by
    rw [Nat.log_eq_iff (Or.inl (by omega))]
    have : 2 ^ (p + 1) = 2 ^ p + 2 ^ p := by rw [Nat.pow_succ]; omega
    have : 1 < 2 ^ p := Nat.one_lt_two_pow (by omega)
    omega
  have hs : shift p (2 ^ p + 1) = 1 := by rw [shift, hlog]; omega
  have hq : (2 ^ p + 1) / 2 = 2 ^ (p - 1) := by omega
  -- the one digit dropped is half of two, and the part kept is even: no rounding up
  have hup : roundsUp 1 (2 ^ (p - 1)) ((2 ^ p + 1) % 2) = false := by
    have hodd : (2 ^ p + 1) % 2 = 1 := by omega
    have heven : 2 ^ (p - 1) % 2 = 0 := Nat.two_pow_mod_two_eq_zero.mpr (by omega)
    simp [roundsUp, hodd, heven]
  rw [nat, if_neg (by omega), hs, Nat.pow_one, hq, hup, if_neg Bool.false_ne_true, Nat.add_zero,
    hhalf]

end Rounding
