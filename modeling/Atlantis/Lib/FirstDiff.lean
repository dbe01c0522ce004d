import Mathlib.Order.Basic

/-!
# Where two sequences first differ

`FirstDiffFrom lo N x y k`: from `lo` on, `x` and `y` first differ at `k < N`, or they agree
up to `N` and `k = N`.  Read from `0` (`IsFirstDiff`), `k` is the length of the common
prefix of `x` and `y` below `N`.  On bit strings it is a proximity order, and an ultrametric:
where `x` leaves `y` before `y` leaves `z`, `x` leaves `z` there too (`trans_of_lt`), and
two strings that leave a third at one place agree up to it (`agree_of_same`); over `Bool`
they agree at that place as well, so their own first difference is later
(`lt_of_same`).
-/

variable {α : Type*}

/-- From `lo` on, `x` and `y` first differ at `k < N`, or agree up to `N` and `k = N`. -/
structure FirstDiffFrom (lo N : ℕ) (x y : ℕ → α) (k : ℕ) : Prop where
  ge : lo ≤ k
  le : k ≤ N
  agree : ∀ j, lo ≤ j → j < k → x j = y j
  differ : k < N → x k ≠ y k

/-- `x` and `y` first differ at `k < N`, or agree below `N` and `k = N`. -/
abbrev IsFirstDiff (N : ℕ) (x y : ℕ → α) (k : ℕ) : Prop := FirstDiffFrom 0 N x y k

namespace FirstDiffFrom

variable {lo lo' N k m : ℕ} {x y z : ℕ → α}

theorem unique (h : FirstDiffFrom lo N x y k) (h' : FirstDiffFrom lo N x y m) : k = m := by
  by_contra hne
  rcases Nat.lt_or_gt_of_ne hne with hlt | hlt
  · exact h.differ (by have := h'.le; omega) (h'.agree k h.ge hlt)
  · exact h'.differ (by have := h.le; omega) (h.agree m h'.ge hlt)

theorem symm (h : FirstDiffFrom lo N x y k) : FirstDiffFrom lo N y x k :=
  ⟨h.ge, h.le, fun j hj hjk => (h.agree j hj hjk).symm, fun hk => (h.differ hk).symm⟩

/-- Agreeing on `[lo, lo')`, the first difference from `lo'` is the first one from `lo`. -/
theorem of_agree (h : FirstDiffFrom lo' N x y k) (hle : lo ≤ lo')
    (hagree : ∀ j, lo ≤ j → j < lo' → x j = y j) : FirstDiffFrom lo N x y k where
  ge := Nat.le_trans hle h.ge
  le := h.le
  agree j hj hjk := if hjl : j < lo' then hagree j hj hjl else h.agree j (by omega) hjk
  differ := h.differ

/-- Agreeing below `lo`, the first difference from `lo` is the first difference. -/
theorem isFirstDiff (h : FirstDiffFrom lo N x y k) (hlo : ∀ j < lo, x j = y j) :
    IsFirstDiff N x y k :=
  h.of_agree (Nat.zero_le _) fun j _ hj => hlo j hj

end FirstDiffFrom

namespace IsFirstDiff

variable {N k m : ℕ} {x y z : ℕ → α}

theorem symm (h : IsFirstDiff N x y k) : IsFirstDiff N y x k := FirstDiffFrom.symm h

/-- Where `x` leaves `y` before `y` leaves `z`, `x` leaves `z`. -/
theorem trans_of_lt (hxy : IsFirstDiff N x y k) (hyz : IsFirstDiff N y z m) (hkm : k < m) :
    IsFirstDiff N x z k where
  ge := Nat.zero_le _
  le := hxy.le
  agree j _ hj := (hxy.agree j (Nat.zero_le _) hj).trans (hyz.agree j (Nat.zero_le _) (by omega))
  differ hk := by
    rw [← hyz.agree k (Nat.zero_le _) hkm]
    exact hxy.differ hk

/-- A string that agrees with `y` below `N` leaves `z` where `y` does. -/
theorem congr_left (hxy : IsFirstDiff N x y N) (hyz : IsFirstDiff N y z m) :
    IsFirstDiff N x z m where
  ge := Nat.zero_le _
  le := hyz.le
  agree j _ hj :=
    (hxy.agree j (Nat.zero_le _) (by have := hyz.le; omega)).trans (hyz.agree j (Nat.zero_le _) hj)
  differ hm := by
    rw [hxy.agree m (Nat.zero_le _) hm]
    exact hyz.differ hm

/-- Two strings that leave `x` at `k` and at `m` agree below both. -/
theorem agree_of_same (hxy : IsFirstDiff N x y k) (hxz : IsFirstDiff N x z m) :
    ∀ j < min k m, y j = z j := fun j hj =>
  (hxy.agree j (Nat.zero_le _) (by omega)).symm.trans (hxz.agree j (Nat.zero_le _) (by omega))

/-- Two bit strings that leave `x` at one place `k < N` agree up to it: their own first
difference is later. -/
theorem lt_of_same {x y z : ℕ → Bool} (hxy : IsFirstDiff N x y k) (hxz : IsFirstDiff N x z k)
    (hk : k < N) (hyz : IsFirstDiff N y z m) : k < m := by
  by_contra hmk
  have hagree := agree_of_same hxy hxz
  rcases Nat.lt_or_ge m k with hlt | hge
  · exact hyz.differ (by omega) (hagree m (by omega))
  · -- at `k` both differ from `x`, so they agree
    have hm : m = k := by omega
    subst hm
    have hy := hxy.differ hk
    have hz := hxz.differ hk
    exact hyz.differ hk (by cases hxm : x m <;> simp_all)

end IsFirstDiff
