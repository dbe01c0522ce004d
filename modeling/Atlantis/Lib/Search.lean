import Mathlib.Order.Basic

/-!
# Bisection over a monotone predicate

Go's `sort.Search(n, f)`: the smallest index of `[0, n)` at which `f` holds, or `n` when
there is none, found by halving the interval `[i, j)` that holds the answer.  The loop here
carries a fuel argument; every round shrinks the interval, so fuel `n` lets it run to its
end.  When `f` is monotone on `[0, n)` the result is the first index at which `f` holds,
and any index with that property is the result (`search_eq`).
-/

namespace Search

/-- The loop of `sort.Search` over the interval `[i, j)`. -/
def loop (f : Nat → Bool) : Nat → Nat → Nat → Nat
  | 0, i, _ => i
  | fuel + 1, i, j =>
    if i < j then
      let h := (i + j) / 2
      if !f h then loop f fuel (h + 1) j else loop f fuel i h
    else i

/-- `sort.Search`. -/
def search (n : Nat) (f : Nat → Bool) : Nat :=
  loop f n 0 n

/-- `r` is the first index of `[0, n)` at which `f` holds, or `n`. -/
structure IsFirst (n : Nat) (f : Nat → Bool) (r : Nat) : Prop where
  le : r ≤ n
  before : ∀ k < r, f k = false
  at_ : r < n → f r = true

variable {n : Nat} {f : Nat → Bool}

/-- `f` holds from some index of `[0, n)` on. -/
def MonotoneBelow (n : Nat) (f : Nat → Bool) : Prop :=
  ∀ a b, a ≤ b → b < n → f a = true → f b = true

/-- The invariant of the loop: the answer lies in `[i, j]`, and the fuel covers the
interval. -/
theorem loop_isFirst (hf : MonotoneBelow n f) :
    ∀ fuel i j, j - i ≤ fuel → i ≤ j → j ≤ n → (∀ k < i, f k = false) →
      (j < n → f j = true) → IsFirst n f (loop f fuel i j)
  | 0, i, j, hfuel, hij, hj, hlo, hhi => by
    have hji : j = i := by omega
    subst hji
    exact ⟨hj, hlo, hhi⟩
  | fuel + 1, i, j, hfuel, hij, hj, hlo, hhi => by
    unfold loop
    split
    · next hlt =>
      dsimp only
      split
      · -- `f` fails at the midpoint: the answer lies above it
        next hmid =>
        refine loop_isFirst hf fuel _ j (by omega) (by omega) hj (fun k hk => ?_) hhi
        -- at and below the midpoint `f` fails, since it is monotone
        cases hfk : f k
        · rfl
        · have := hf k ((i + j) / 2) (by omega) (by omega) hfk
          simp [this] at hmid
      · -- `f` holds at the midpoint: the answer lies at or below it
        next hmid =>
        refine loop_isFirst hf fuel i _ (by omega) (by omega) (by omega) hlo fun _ => ?_
        simpa using hmid
    · next hge =>
      have hji : j = i := by omega
      subst hji
      exact ⟨hj, hlo, hhi⟩

/-- **`sort.Search` finds the first index at which a monotone predicate holds.** -/
theorem search_isFirst (hf : MonotoneBelow n f) : IsFirst n f (search n f) :=
  loop_isFirst hf n 0 n (by omega) (by omega) (Nat.le_refl n) (fun _ hk => absurd hk (Nat.not_lt_zero _))
    fun h => absurd h (Nat.lt_irrefl n)

/-- There is at most one first index. -/
theorem IsFirst.unique {r r' : Nat} (h : IsFirst n f r) (h' : IsFirst n f r') : r = r' := by
  rcases Nat.lt_trichotomy r r' with hlt | heq | hgt
  · have := h'.before r hlt
    rw [h.at_ (by have := h'.le; omega)] at this
    cases this
  · exact heq
  · have := h.before r' hgt
    rw [h'.at_ (by have := h.le; omega)] at this
    cases this

/-- The result of `sort.Search` is any first index of a monotone predicate. -/
theorem search_eq (hf : MonotoneBelow n f) {r : Nat} (hr : IsFirst n f r) : search n f = r :=
  (search_isFirst hf).unique hr

end Search
