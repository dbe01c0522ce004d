import Mathlib.Data.Nat.Digits.Lemmas

/-!
# Big-endian digit strings

A number written most significant digit first, as a parser reads it: `valueBE b l` folds the
digits of `l` from the left, multiplying by the base at each step.  It is `Nat.ofDigits` of
the reversed list (`valueBE_eq_ofDigits`), so Mathlib's `Nat.digits`, reversed, is the
canonical way to write a number (`valueBE_digits`).
-/

namespace Nat

variable {b : ℕ}

/-- The value of the digits `l` in base `b`, most significant first. -/
def valueBE (b : ℕ) (l : List ℕ) : ℕ := l.foldl (fun n d => b * n + d) 0

/-- The fold from any start: the start moves up by one place for each digit. -/
theorem foldl_valueBE (l : List ℕ) (n : ℕ) :
    l.foldl (fun n d => b * n + d) n = n * b ^ l.length + valueBE b l := by
  induction l generalizing n with
  | nil => simp [valueBE]
  | cons d l ih =>
    have hv : valueBE b (d :: l) = d * b ^ l.length + valueBE b l := by
      rw [valueBE, List.foldl_cons, ih]
      simp
    rw [List.foldl_cons, ih, hv, List.length_cons]
    ring

@[simp] theorem valueBE_nil : valueBE b [] = 0 := rfl

@[simp] theorem valueBE_append_singleton (l : List ℕ) (d : ℕ) :
    valueBE b (l ++ [d]) = b * valueBE b l + d := by
  simp [valueBE, List.foldl_append]

theorem valueBE_append (l₁ l₂ : List ℕ) :
    valueBE b (l₁ ++ l₂) = valueBE b l₁ * b ^ l₂.length + valueBE b l₂ := by
  rw [valueBE, List.foldl_append, ← valueBE, foldl_valueBE]

theorem valueBE_eq_ofDigits (l : List ℕ) : valueBE b l = ofDigits b l.reverse := by
  induction l using List.reverseRecOn with
  | nil => rfl
  | append_singleton l d ih =>
    rw [valueBE_append_singleton, ih, List.reverse_append, List.reverse_singleton,
      List.singleton_append, ofDigits_cons]
    ring

theorem valueBE_lt (hb : 1 < b) {l : List ℕ} (hl : ∀ d ∈ l, d < b) :
    valueBE b l < b ^ l.length := by
  rw [valueBE_eq_ofDigits, ← List.length_reverse]
  exact ofDigits_lt_base_pow_length hb fun d hd => hl d (List.mem_reverse.mp hd)

@[simp] theorem valueBE_digits (n : ℕ) : valueBE b (b.digits n).reverse = n := by
  rw [valueBE_eq_ofDigits, List.reverse_reverse, ofDigits_digits]

end Nat
