import Mathlib

/-!
# Binary heaps in an array

Go's `container/heap` over an array whose first `n` entries form the heap, the entry at `k`
being `a k`; the parent of `j` is `(j - 1) / 2`.  The order is a key into a linear order:
`Less(i, j)` is `key (a i) < key (a j)`.  `up` and `down` are the two sifts, each a loop of
swaps, and the operations `Init`, `Push`, `Pop`, `Remove` and `Fix` are built from them as
the package builds them.

Each sift restores the order from a start where only the moving entry is out of place:
`UpInv` for `up`, `DownInv` for `down`, and `HoleInv` for the sift of `Remove` and `Fix`, which
tries `down` and then `up`.  `DownInv` carries a lower bound below which nothing is asked, for
the bottom-up loop of `Init`.  Every sift only swaps entries below its bound, so it permutes
the heap (`perm_swap`) and leaves the entries past the bound alone.
-/

open List

namespace ArrayHeap

variable {α β : Type*} [LinearOrder β] (key : α → β)

/-- The parent of entry `j`; the root is its own parent, as Go's `(0 - 1) / 2` is `0`. -/
def parent (j : ℕ) : ℕ := (j - 1) / 2

/-- `Swap(i, j)`. -/
def swap (a : ℕ → α) (i j : ℕ) : ℕ → α := a ∘ Equiv.swap i j

/-- `Less(i, j)`. -/
def less (a : ℕ → α) (i j : ℕ) : Bool := decide (key (a i) < key (a j))

/-- `up(h, j)`: swap the entry at `j` with its parent while it is less than the parent. -/
def up (a : ℕ → α) (j : ℕ) : ℕ → α :=
  if parent j = j ∨ less key a j (parent j) = false then a
  else up (swap a (parent j) j) (parent j)
termination_by j
decreasing_by
  unfold parent at *
  omega

/-- The child `down` compares with: the left one, or the right one when it is inside the
bound and less than the left one. -/
def child (a : ℕ → α) (i n : ℕ) : ℕ :=
  if 2 * i + 2 < n ∧ less key a (2 * i + 2) (2 * i + 1) = true then 2 * i + 2 else 2 * i + 1

/-- The loop of `down(h, i0, n)`: the array, and where the entry it moves comes to rest. -/
def downLoop (a : ℕ → α) (i n : ℕ) : (ℕ → α) × ℕ :=
  if n ≤ 2 * i + 1 then (a, i)
  else if less key a (child key a i n) i = false then (a, i)
  else downLoop (swap a i (child key a i n)) (child key a i n) n
termination_by n - i
decreasing_by
  unfold child
  split_ifs <;> omega

/-- `down(h, i0, n)`: the array, and whether the entry moved. -/
def down (a : ℕ → α) (i0 n : ℕ) : (ℕ → α) × Bool :=
  ((downLoop key a i0 n).1, decide (i0 < (downLoop key a i0 n).2))

/-- `if !down(h, i, n) { up(h, i) }`, the sift of `Remove` and of `Fix`. -/
def sift (a : ℕ → α) (i n : ℕ) : ℕ → α :=
  if (down key a i n).2 then (down key a i n).1 else up key (down key a i n).1 i

end ArrayHeap

/-- A heap array: the entries `a 0`, ..., `a (n - 1)`; what lies past them is not read. -/
structure ArrayHeap (α : Type*) where
  a : ℕ → α
  n : ℕ

namespace ArrayHeap

variable {α β : Type*} [LinearOrder β] (key : α → β)

/-- The entries of the heap, in the order of the array. -/
def toList (h : ArrayHeap α) : List α := (List.range h.n).map h.a

/-- `heap.Init`: `down` from each entry with children, the last first. -/
def Init (h : ArrayHeap α) : ArrayHeap α :=
  { h with a := (List.range (h.n / 2)).reverse.foldl (fun a i => (down key a i h.n).1) h.a }

/-- `heap.Push`: the new entry at the end, then `up`. -/
def Push (h : ArrayHeap α) (x : α) : ArrayHeap α :=
  ⟨up key (Function.update h.a h.n x) h.n, h.n + 1⟩

/-- `heap.Pop`: the root swapped with the last entry, `down` from the root within the others,
then the last entry taken off. -/
def Pop (h : ArrayHeap α) : ArrayHeap α × α :=
  let a := (down key (swap h.a 0 (h.n - 1)) 0 (h.n - 1)).1
  (⟨a, h.n - 1⟩, a (h.n - 1))

/-- `heap.Remove`: entry `i` swapped with the last one and sifted within the others, then
the last entry taken off. -/
def Remove (h : ArrayHeap α) (i : ℕ) : ArrayHeap α × α :=
  let a := if h.n - 1 ≠ i then sift key (swap h.a i (h.n - 1)) i (h.n - 1) else h.a
  (⟨a, h.n - 1⟩, a (h.n - 1))

/-- `heap.Fix`: entry `i` sifted after a change of its value. -/
def Fix (h : ArrayHeap α) (i : ℕ) : ArrayHeap α := ⟨sift key h.a i h.n, h.n⟩

/-! ## Positions -/

theorem parent_lt {j : ℕ} (hj : 0 < j) : parent j < j := by
  unfold parent
  omega

theorem parent_eq_self_iff {j : ℕ} : parent j = j ↔ j = 0 := by
  unfold parent
  omega

theorem parent_child_left (i : ℕ) : parent (2 * i + 1) = i := by
  unfold parent
  omega

theorem parent_child_right (i : ℕ) : parent (2 * i + 2) = i := by
  unfold parent
  omega

/-- The children of `i` are `2 i + 1` and `2 i + 2`. -/
theorem eq_child_of_parent_eq {c i : ℕ} (hc : 0 < c) (h : parent c = i) :
    c = 2 * i + 1 ∨ c = 2 * i + 2 := by
  unfold parent at h
  omega

@[simp] theorem swap_apply_left (a : ℕ → α) (i j : ℕ) : swap a i j i = a j := by
  simp [swap]

@[simp] theorem swap_apply_right (a : ℕ → α) (i j : ℕ) : swap a i j j = a i := by
  simp [swap]

theorem swap_apply_of_ne (a : ℕ → α) {i j k : ℕ} (hi : k ≠ i) (hj : k ≠ j) :
    swap a i j k = a k := by
  simp [swap, Equiv.swap_apply_of_ne_of_ne hi hj]

/-! ## Permutations -/

/-- Swapping two entries of the first `n` permutes them. -/
theorem perm_swap (a : ℕ → α) {n i j : ℕ} (hi : i < n) (hj : j < n) :
    (List.range n).map (swap a i j) ~ (List.range n).map a := by
  have hr : (List.range n).map (Equiv.swap i j) ~ List.range n := by
    refine (List.perm_ext_iff_of_nodup
      (List.Nodup.map (Equiv.swap i j).injective List.nodup_range) List.nodup_range).mpr fun k => ?_
    simp only [List.mem_map, List.mem_range]
    constructor
    · rintro ⟨m, hm, rfl⟩
      rw [Equiv.swap_apply_def]
      split_ifs <;> omega
    · intro hk
      refine ⟨Equiv.swap i j k, ?_, Equiv.swap_apply_self i j k⟩
      rw [Equiv.swap_apply_def]
      split_ifs <;> omega
  have := hr.map a
  rwa [List.map_map] at this

/-! ## The order -/

/-- Every entry of the first `n` whose parent is at `lo` or after is not less than it. -/
def OrderedFrom (a : ℕ → α) (n lo : ℕ) : Prop :=
  ∀ c, 0 < c → c < n → lo ≤ parent c → ¬ key (a c) < key (a (parent c))

/-- The heap order on the first `n` entries. -/
def Ordered (a : ℕ → α) (n : ℕ) : Prop := OrderedFrom key a n 0

variable {key}

theorem Ordered.le {a : ℕ → α} {n c : ℕ} (ho : Ordered key a n) (hc : 0 < c) (hcn : c < n) :
    key (a (parent c)) ≤ key (a c) :=
  not_lt.mp (ho c hc hcn (Nat.zero_le _))

/-- The root is not after any entry. -/
theorem Ordered.root_le {a : ℕ → α} {n : ℕ} (ho : Ordered key a n) :
    ∀ k, k < n → key (a 0) ≤ key (a k) := by
  intro k
  induction k using Nat.strongRecOn with
  | ind k ih =>
    intro hk
    rcases Nat.eq_zero_or_pos k with rfl | hpos
    · exact le_rfl
    · calc key (a 0) ≤ key (a (parent k)) := ih (parent k) (parent_lt hpos) (by
            have := parent_lt hpos
            omega)
        _ ≤ key (a k) := ho.le hpos hk

theorem OrderedFrom.mono {a : ℕ → α} {n m lo : ℕ} (ho : OrderedFrom key a n lo) (hm : m ≤ n) :
    OrderedFrom key a m lo :=
  fun c hc hcm hlo => ho c hc (by omega) hlo

/-! ## `up` -/

variable (key) in
/-- What `up` from `j` needs: every entry but the one at `j` is in order with its parent, and
the children of `j` are not less than the parent of `j`. -/
structure UpInv (a : ℕ → α) (n j : ℕ) : Prop where
  lt : j < n
  except : ∀ c, 0 < c → c < n → c ≠ j → ¬ key (a c) < key (a (parent c))
  grand : 0 < j → ∀ c, 0 < c → c < n → parent c = j → ¬ key (a c) < key (a (parent j))

/-- One swap of `up`: the entry and its parent change places, and the parent's place is the
one out of order now. -/
theorem UpInv.step {a : ℕ → α} {n j : ℕ} (o : UpInv key a n j) (hj : 0 < j)
    (hlt : key (a j) < key (a (parent j))) : UpInv key (swap a (parent j) j) n (parent j) := by
  have hpj := parent_lt hj
  refine ⟨by have := o.lt; omega, fun c hc hcn hcp => ?_, fun hp c hc hcn hpc => ?_⟩
  · by_cases hcj : c = j
    · -- the entry moved down: its new parent is the entry itself
      subst hcj
      rw [swap_apply_right, swap_apply_left]
      exact lt_asymm hlt
    by_cases hpc : parent c = j
    · -- a child of `j`: its new parent is the old parent of `j`
      have hcp' : c ≠ parent j := by
        have := parent_lt hc
        omega
      rw [hpc, swap_apply_right, swap_apply_of_ne _ hcp' hcj]
      exact o.grand hj c hc hcn hpc
    by_cases hpcp : parent c = parent j
    · -- a sibling of `j`: its new parent is the entry, which was less than the old one
      rw [hpcp, swap_apply_left, swap_apply_of_ne _ hcp hcj]
      have hc' := o.except c hc hcn hcj
      rw [hpcp] at hc'
      exact fun h => hc' (h.trans hlt)
    · rw [swap_apply_of_ne _ hcp hcj, swap_apply_of_ne _ hpcp hpc]
      exact o.except c hc hcn hcj
  · -- the children of the parent's place, against the grandparent, which stays
    have hpp := parent_lt hp
    rw [swap_apply_of_ne _ hpp.ne (by omega)]
    have hpar := o.except (parent j) hp (by have := o.lt; omega) (by omega)
    by_cases hcj : c = j
    · subst hcj
      rw [swap_apply_right]
      exact hpar
    · have hcp : c ≠ parent j := by
        rintro rfl
        exact absurd hpc (parent_lt hc).ne
      rw [swap_apply_of_ne _ hcp hcj]
      have hc' := o.except c hc hcn hcj
      rw [hpc] at hc'
      exact fun h => hpar (lt_of_le_of_lt (not_lt.mp hc') h)

/-- Where `up` stops, the array is in order. -/
theorem UpInv.ordered {a : ℕ → α} {n j : ℕ} (o : UpInv key a n j)
    (hstop : 0 < j → ¬ key (a j) < key (a (parent j))) : Ordered key a n := by
  intro c hc hcn _
  by_cases hcj : c = j
  · subst hcj
    exact hstop hc
  · exact o.except c hc hcn hcj

/-- **`up` restores the order.** -/
theorem UpInv.up_ordered {n : ℕ} (j : ℕ) :
    ∀ {a : ℕ → α}, UpInv key a n j → Ordered key (up key a j) n := by
  induction j using Nat.strongRecOn with
  | ind j ih =>
    intro a o
    rw [up]
    split_ifs with hstop
    · refine o.ordered fun hj => ?_
      rcases hstop with h | h
      · exact absurd (parent_eq_self_iff.mp h) hj.ne'
      · simpa [less] using h
    · push Not at hstop
      have hj : 0 < j := Nat.pos_of_ne_zero fun h => hstop.1 (parent_eq_self_iff.mpr h)
      exact ih (parent j) (parent_lt hj) (o.step hj (by simpa [less] using hstop.2))

/-- `up` on an ordered array leaves it. -/
theorem up_of_ordered {a : ℕ → α} {n j : ℕ} (ho : Ordered key a n) (hj : j < n) :
    up key a j = a := by
  rw [up, if_pos]
  rcases Nat.eq_zero_or_pos j with rfl | hpos
  · exact Or.inl rfl
  · exact Or.inr (by simpa [less] using ho j hpos hj (Nat.zero_le _))

variable (key) in
theorem up_perm {n : ℕ} (j : ℕ) :
    ∀ {a : ℕ → α}, j < n → (List.range n).map (up key a j) ~ (List.range n).map a := by
  induction j using Nat.strongRecOn with
  | ind j ih =>
    intro a hj
    rw [up]
    split_ifs with hstop
    · exact List.Perm.refl _
    · have hpos : 0 < j := Nat.pos_of_ne_zero fun h => hstop (Or.inl (parent_eq_self_iff.mpr h))
      have hp := parent_lt hpos
      exact (ih (parent j) hp (by omega)).trans (perm_swap a (by omega) hj)

variable (key) in
/-- `up` from `j` leaves the entries after `j`. -/
theorem up_frame (j : ℕ) : ∀ {a : ℕ → α} {k : ℕ}, j < k → up key a j k = a k := by
  induction j using Nat.strongRecOn with
  | ind j ih =>
    intro a k hk
    rw [up]
    split_ifs with hstop
    · rfl
    · have hpos : 0 < j := Nat.pos_of_ne_zero fun h => hstop (Or.inl (parent_eq_self_iff.mpr h))
      have hp := parent_lt hpos
      rw [ih (parent j) hp (by omega), swap_apply_of_ne _ (by omega) (by omega)]

/-! ## `down` -/

variable (key) in
theorem child_eq (a : ℕ → α) (i n : ℕ) :
    child key a i n = 2 * i + 1 ∨ child key a i n = 2 * i + 2 := by
  unfold child
  split_ifs <;> simp

variable (key) in
theorem parent_child (a : ℕ → α) (i n : ℕ) : parent (child key a i n) = i := by
  rcases child_eq key a i n with h | h <;>
    simp [h, parent_child_left, parent_child_right]

theorem child_lt {a : ℕ → α} {i n : ℕ} (hn : 2 * i + 1 < n) : child key a i n < n := by
  unfold child
  split_ifs with h
  · exact h.1
  · exact hn

/-- `down` moves to the least child inside the bound. -/
theorem child_min {a : ℕ → α} {i n c : ℕ} (hc : 0 < c) (hcn : c < n) (hpc : parent c = i) :
    ¬ key (a c) < key (a (child key a i n)) := by
  unfold child
  rcases eq_child_of_parent_eq hc hpc with rfl | rfl
  · split_ifs with h
    · exact lt_asymm (by simpa [less] using h.2)
    · exact lt_irrefl _
  · split_ifs with h
    · exact lt_irrefl _
    · simpa [less, hcn] using h

variable (key) in
/-- What `down` from `i` within the bound `n` needs: every entry whose parent is at `lo` or
after, and not at `i`, is in order with its parent, and, below `lo`, the children of `i` are
not less than the parent of `i`. -/
structure DownInv (a : ℕ → α) (n lo i : ℕ) : Prop where
  le : lo ≤ i
  except : ∀ c, 0 < c → c < n → lo ≤ parent c → parent c ≠ i → ¬ key (a c) < key (a (parent c))
  grand : lo < i → ∀ c, 0 < c → c < n → parent c = i → ¬ key (a c) < key (a (parent i))

/-- One swap of `down`: the entry and its least child change places, and the child's place
is the one out of order now. -/
theorem DownInv.step {a : ℕ → α} {n lo i : ℕ} (o : DownInv key a n lo i) (hn : 2 * i + 1 < n)
    (hlt : key (a (child key a i n)) < key (a i)) :
    DownInv key (swap a i (child key a i n)) n lo (child key a i n) := by
  have hpj := parent_child key a i n
  have hij : i < child key a i n := by
    rcases child_eq key a i n with h | h <;> omega
  have hjn : child key a i n < n := child_lt hn
  set j := child key a i n with hj
  refine ⟨by have := o.le; omega, fun c hc hcn hlo hcj => ?_, fun _ c hc hcn hpc => ?_⟩
  · by_cases hcj' : c = j
    · -- the entry moved down: its new parent is the least child
      subst hcj'
      rw [hpj, swap_apply_right, swap_apply_left]
      exact lt_asymm hlt
    by_cases hpc : parent c = i
    · -- a sibling of the least child: not less than it
      have hci : c ≠ i := by
        have := parent_lt hc
        omega
      rw [hpc, swap_apply_left, swap_apply_of_ne _ hci hcj']
      exact child_min hc hcn hpc
    by_cases hci : c = i
    · -- the least child in the entry's place, against the entry's parent
      subst hci
      have hpi := parent_lt hc
      rw [swap_apply_left, swap_apply_of_ne _ hpi.ne (by omega)]
      exact o.grand (by omega) j (by omega) hjn hpj
    · rw [swap_apply_of_ne _ hci hcj', swap_apply_of_ne _ hpc hcj]
      exact o.except c hc hcn hlo hpc
  · -- the children of the least child, against the entry now in its place
    have hjc := parent_lt hc
    rw [hpj, swap_apply_left, swap_apply_of_ne _ (by omega) (by omega)]
    have hc' := o.except c hc hcn (by have := o.le; omega) (by omega)
    rw [hpc] at hc'
    exact hc'

/-- Where `down` stops, the entries from `lo` on are in order. -/
theorem DownInv.orderedFrom {a : ℕ → α} {n lo i : ℕ} (o : DownInv key a n lo i)
    (hstop : 2 * i + 1 < n → ¬ key (a (child key a i n)) < key (a i)) :
    OrderedFrom key a n lo := by
  intro c hc hcn hlo
  by_cases hpc : parent c = i
  · have h1 : 2 * i + 1 < n := by
      rcases eq_child_of_parent_eq hc hpc with h | h <;> omega
    rw [hpc]
    exact fun h => hstop h1 (lt_of_le_of_lt (not_lt.mp (child_min hc hcn hpc)) h)
  · exact o.except c hc hcn hlo hpc

/-- **`down` restores the order from `lo` on.** -/
theorem DownInv.downLoop_orderedFrom {a : ℕ → α} {n lo i : ℕ} (o : DownInv key a n lo i) :
    OrderedFrom key (downLoop key a i n).1 n lo := by
  rw [downLoop]
  split_ifs with h1 h2
  · exact o.orderedFrom fun h => absurd h (by omega)
  · exact o.orderedFrom fun _ => by simpa [less] using h2
  · exact (o.step (by omega) (by simpa [less] using h2)).downLoop_orderedFrom
termination_by n - i
decreasing_by
  have := child_eq key a i n
  omega

variable (key) in
theorem downLoop_perm (a : ℕ → α) (i n : ℕ) :
    (List.range n).map (downLoop key a i n).1 ~ (List.range n).map a := by
  rw [downLoop]
  split_ifs with h1 h2
  · exact List.Perm.refl _
  · exact List.Perm.refl _
  · exact (downLoop_perm _ _ n).trans (perm_swap a (by omega) (child_lt (by omega)))
termination_by n - i
decreasing_by
  have := child_eq key a i n
  omega

variable (key) in
/-- `down` within the bound `n` leaves the entries past it. -/
theorem downLoop_frame (a : ℕ → α) (i n : ℕ) {k : ℕ} (hk : n ≤ k) :
    (downLoop key a i n).1 k = a k := by
  rw [downLoop]
  split_ifs with h1 h2
  · rfl
  · rfl
  · have hj : child key a i n < n := child_lt (by omega)
    rw [downLoop_frame _ _ n hk, swap_apply_of_ne _ (by omega) (by omega)]
termination_by n - i
decreasing_by
  have := child_eq key a i n
  omega

/-- `down` that cannot move leaves the array. -/
theorem downLoop_of_stop {a : ℕ → α} {i n : ℕ}
    (h : 2 * i + 1 < n → ¬ key (a (child key a i n)) < key (a i)) : downLoop key a i n = (a, i) := by
  rw [downLoop]
  split_ifs with h1 h2
  · rfl
  · rfl
  · exact absurd (by simpa [less] using h2) (h (by omega))

variable (key) in
/-- Where `down` stops is at or below where it started. -/
theorem le_downLoop_snd (a : ℕ → α) (i n : ℕ) : i ≤ (downLoop key a i n).2 := by
  rw [downLoop]
  split_ifs with h1 h2
  · exact le_rfl
  · exact le_rfl
  · have := le_downLoop_snd (swap a i (child key a i n)) (child key a i n) n
    have := child_eq key a i n
    omega
termination_by n - i
decreasing_by
  have := child_eq key a i n
  omega

/-! ## The sift of `Remove` and `Fix` -/

variable (key) in
/-- What the sift at `i` needs: every entry not at `i` and not a child of `i` is in order with
its parent, and the children of `i` are not less than the parent of `i`.  The entry at `i`
may go either way. -/
structure HoleInv (a : ℕ → α) (n i : ℕ) : Prop where
  lt : i < n
  except : ∀ c, 0 < c → c < n → c ≠ i → parent c ≠ i → ¬ key (a c) < key (a (parent c))
  grand : 0 < i → ∀ c, 0 < c → c < n → parent c = i → ¬ key (a c) < key (a (parent i))

/-- **The sift restores the order**: an entry less than its parent cannot be after its
children, so `down` leaves it and `up` takes it; otherwise `down` does, and `up` has nothing
left to do. -/
theorem HoleInv.sift_ordered {a : ℕ → α} {n i : ℕ} (o : HoleInv key a n i) :
    Ordered key (sift key a i n) n := by
  by_cases hup : 0 < i ∧ key (a i) < key (a (parent i))
  · -- the children of `i` are not less than its parent, so not less than the entry
    have hkids : ∀ c, 0 < c → c < n → parent c = i → ¬ key (a c) < key (a i) :=
      fun c hc hcn hpc h => o.grand hup.1 c hc hcn hpc (h.trans hup.2)
    have hstay : downLoop key a i n = (a, i) := downLoop_of_stop fun hn =>
      hkids _ (by have := child_eq key a i n; omega)
        (child_lt hn) (parent_child key a i n)
    have hui : UpInv key a n i := by
      refine ⟨o.lt, fun c hc hcn hci => ?_, o.grand⟩
      by_cases hpc : parent c = i
      · rw [hpc]
        exact hkids c hc hcn hpc
      · exact o.except c hc hcn hci hpc
    rw [sift, down, hstay, if_neg (by simp)]
    exact hui.up_ordered
  · -- the entry is not less than its parent: `down` alone restores the order
    have hdi : DownInv key a n 0 i := by
      refine ⟨Nat.zero_le _, fun c hc hcn _ hpc => ?_, fun hi => o.grand hi⟩
      by_cases hci : c = i
      · subst hci
        exact fun h => hup ⟨hc, h⟩
      · exact o.except c hc hcn hci hpc
    have hord : Ordered key (downLoop key a i n).1 n := hdi.downLoop_orderedFrom
    unfold sift down
    split_ifs with hmoved
    · exact hord
    · rw [up_of_ordered hord o.lt]
      exact hord

variable (key) in
theorem sift_perm (a : ℕ → α) {i n : ℕ} (hi : i < n) :
    (List.range n).map (sift key a i n) ~ (List.range n).map a := by
  unfold sift down
  split_ifs
  · exact downLoop_perm key a i n
  · exact (up_perm key i hi).trans (downLoop_perm key a i n)

variable (key) in
/-- The sift within the bound `n` leaves the entries past it. -/
theorem sift_frame (a : ℕ → α) {i n k : ℕ} (hi : i < n) (hk : n ≤ k) : sift key a i n k = a k := by
  unfold sift down
  split_ifs
  · exact downLoop_frame key a i n hk
  · rw [up_frame key i (by omega), downLoop_frame key a i n hk]

/-! ## The operations -/

theorem map_range_succ (a : ℕ → α) (n : ℕ) :
    (List.range (n + 1)).map a = (List.range n).map a ++ [a n] := by
  rw [List.range_succ, List.map_append, List.map_singleton]

/-- The bottom-up loop of `Init` orders the heap, from a start where every entry whose parent
is at `m` or after is in order. -/
theorem orderedFrom_foldl_down {n : ℕ} (m : ℕ) :
    ∀ {a : ℕ → α}, OrderedFrom key a n m →
      OrderedFrom key ((List.range m).reverse.foldl (fun a i => (down key a i n).1) a) n 0 := by
  induction m with
  | zero =>
    intro a ho
    exact ho
  | succ m ih =>
    intro a ho
    rw [List.range_succ, List.reverse_append, List.reverse_singleton, List.singleton_append,
      List.foldl_cons]
    apply ih
    -- `down` from `m`, below which everything is in order
    have hdi : DownInv key a n m m :=
      ⟨le_rfl, fun c hc hcn hlo hpc => ho c hc hcn (by omega), fun h => absurd h (lt_irrefl m)⟩
    exact hdi.downLoop_orderedFrom

variable (key) in
theorem perm_foldl_down (n : ℕ) :
    ∀ (l : List ℕ) (a : ℕ → α),
      (List.range n).map (l.foldl (fun a i => (down key a i n).1) a) ~ (List.range n).map a
  | [], _ => List.Perm.refl _
  | i :: l, a => (perm_foldl_down n l _).trans (downLoop_perm key a i n)

/-- **`Init` orders the heap and keeps its entries.** -/
theorem Init_spec (h : ArrayHeap α) :
    Ordered key (Init key h).a (Init key h).n ∧ (Init key h).toList ~ h.toList := by
  refine ⟨orderedFrom_foldl_down _ fun c hc hcn hlo => ?_, perm_foldl_down key h.n _ h.a⟩
  -- no entry has a parent in the second half
  unfold parent at hlo
  omega

/-- **`Push` keeps the order and adds the entry.** -/
theorem Push_spec {h : ArrayHeap α} (ho : Ordered key h.a h.n) (x : α) :
    Ordered key (Push key h x).a (Push key h x).n ∧ (Push key h x).toList ~ h.toList ++ [x] := by
  have hui : UpInv key (Function.update h.a h.n x) (h.n + 1) h.n := by
    refine ⟨Nat.lt_succ_self _, fun c hc hcn hcj => ?_, fun _ c hc hcn hpc => ?_⟩
    · have hp := parent_lt hc
      rw [Function.update_of_ne hcj, Function.update_of_ne (by omega)]
      exact ho c hc (by omega) (Nat.zero_le _)
    · have hp := parent_lt hc
      omega
  refine ⟨hui.up_ordered, (up_perm key h.n (Nat.lt_succ_self _)).trans ?_⟩
  have hrest : (List.range h.n).map (Function.update h.a h.n x) = (List.range h.n).map h.a :=
    List.map_congr_left fun k hk => Function.update_of_ne (List.mem_range.mp hk).ne _ _
  rw [map_range_succ, Function.update_self, hrest]
  rfl

/-- **`Pop` keeps the order and takes off the root**, one of the least entries. -/
theorem Pop_spec {h : ArrayHeap α} (ho : Ordered key h.a h.n) (hn : 0 < h.n) :
    Ordered key (Pop key h).1.a (Pop key h).1.n ∧ (Pop key h).2 = h.a 0 ∧
      h.toList ~ (Pop key h).1.toList ++ [(Pop key h).2] := by
  obtain ⟨m, hm⟩ : ∃ m, h.n = m + 1 := ⟨h.n - 1, by omega⟩
  -- the last entry at the root, and `down` from it within the others
  have hdi : DownInv key (swap h.a 0 m) m 0 0 := by
    refine ⟨le_rfl, fun c hc hcn _ hpc => ?_, fun h0 => absurd h0 (lt_irrefl 0)⟩
    have hp := parent_lt hc
    rw [swap_apply_of_ne _ (by omega) (by omega), swap_apply_of_ne _ hpc (by omega)]
    exact ho c hc (by omega) (Nat.zero_le _)
  have hlast : (downLoop key (swap h.a 0 m) 0 m).1 m = h.a 0 := by
    rw [downLoop_frame key _ 0 m le_rfl, swap_apply_right]
  simp only [Pop, down, hm, Nat.add_sub_cancel]
  refine ⟨hdi.downLoop_orderedFrom, hlast, ?_⟩
  rw [toList, toList, hm, hlast]
  calc (List.range (m + 1)).map h.a
      ~ (List.range (m + 1)).map (swap h.a 0 m) := (perm_swap h.a (by omega) (by omega)).symm
    _ = (List.range m).map (swap h.a 0 m) ++ [h.a 0] := by
      rw [map_range_succ, swap_apply_right]
    _ ~ (List.range m).map (downLoop key (swap h.a 0 m) 0 m).1 ++ [h.a 0] :=
      (downLoop_perm key _ 0 m).symm.append_right _

example : (Pop id (Init id (⟨fun k => [5, 3, 8, 1, 9, 2].getD k 0, 6⟩ : ArrayHeap ℕ))).2 = 1 := by
  decide +kernel

/-- **`Remove` keeps the order and takes off the entry at `i`.** -/
theorem Remove_spec {h : ArrayHeap α} (ho : Ordered key h.a h.n) {i : ℕ} (hi : i < h.n) :
    Ordered key (Remove key h i).1.a (Remove key h i).1.n ∧ (Remove key h i).2 = h.a i ∧
      h.toList ~ (Remove key h i).1.toList ++ [(Remove key h i).2] := by
  obtain ⟨m, hm⟩ : ∃ m, h.n = m + 1 := ⟨h.n - 1, by omega⟩
  simp only [Remove, hm, Nat.add_sub_cancel]
  by_cases him : m = i
  · -- the last entry: nothing moves
    subst him
    rw [if_neg (fun h => h rfl)]
    refine ⟨OrderedFrom.mono ho (by omega), rfl, ?_⟩
    rw [toList, toList, hm, map_range_succ]
  · -- the last entry in the place of `i`, sifted within the others
    have hhole : HoleInv key (swap h.a i m) m i := by
      refine ⟨by omega, fun c hc hcn hci hpc => ?_, fun hi0 c hc hcn hpc => ?_⟩
      · have hp := parent_lt hc
        rw [swap_apply_of_ne _ hci (by omega), swap_apply_of_ne _ hpc (by omega)]
        exact ho c hc (by omega) (Nat.zero_le _)
      · have hp := parent_lt hc
        have hpi := parent_lt hi0
        rw [swap_apply_of_ne _ (by omega) (by omega), swap_apply_of_ne _ (by omega) (by omega)]
        have h₁ := ho.le hc (show c < h.n by omega)
        have h₂ := ho.le hi0 (show i < h.n by omega)
        rw [hpc] at h₁
        exact not_lt.mpr (h₂.trans h₁)
    have hlast : sift key (swap h.a i m) i m m = h.a i := by
      rw [sift_frame key _ (by omega) le_rfl, swap_apply_right]
    rw [if_pos him]
    refine ⟨hhole.sift_ordered, hlast, ?_⟩
    rw [toList, toList, hm, hlast]
    calc (List.range (m + 1)).map h.a
        ~ (List.range (m + 1)).map (swap h.a i m) := (perm_swap h.a (by omega) (by omega)).symm
      _ = (List.range m).map (swap h.a i m) ++ [h.a i] := by
        rw [map_range_succ, swap_apply_right]
      _ ~ (List.range m).map (sift key (swap h.a i m) i m) ++ [h.a i] :=
        (sift_perm key _ (by omega)).symm.append_right _

/-- **`Fix` restores the order** after the entry at `i` changed, and keeps the entries. -/
theorem Fix_spec {h : ArrayHeap α} {i : ℕ} (o : HoleInv key h.a h.n i) :
    Ordered key (Fix key h i).a (Fix key h i).n ∧ (Fix key h i).toList ~ h.toList :=
  ⟨o.sift_ordered, sift_perm key h.a o.lt⟩

/-- A new root in an ordered heap leaves only the root out of place. -/
theorem Ordered.holeInv_update_zero {a : ℕ → α} {n : ℕ} (ho : Ordered key a n) (hn : 0 < n)
    (x : α) : HoleInv key (Function.update a 0 x) n 0 := by
  refine ⟨hn, fun c hc hcn hc0 hpc => ?_, fun h0 => absurd h0 (lt_irrefl 0)⟩
  rw [Function.update_of_ne hc0, Function.update_of_ne hpc]
  exact ho c hc hcn (Nat.zero_le _)

/-! ## Heaps built from lists -/

/-- The heap array of a list, as Go builds one by appending to an empty slice; the entries
past the list are never read. -/
def ofList [Inhabited α] (l : List α) : ArrayHeap α := ⟨fun k => l.getD k default, l.length⟩

theorem toList_ofList [Inhabited α] (l : List α) : (ofList l).toList = l := by
  refine List.ext_getElem (by simp [toList, ofList]) fun k _ hk => ?_
  simp [toList, ofList, List.getElem?_eq_getElem hk]

/-- The root first, then the other entries in the order of the array. -/
theorem toList_eq_cons {h : ArrayHeap α} (hn : 0 < h.n) : h.toList = h.a 0 :: h.toList.tail := by
  obtain ⟨m, hm⟩ : ∃ m, h.n = m + 1 := ⟨h.n - 1, by omega⟩
  rw [toList, hm, List.range_succ_eq_map, List.map_cons, List.tail_cons]

@[simp] theorem length_toList (h : ArrayHeap α) : h.toList.length = h.n := by
  simp [toList]

theorem mem_toList {h : ArrayHeap α} {x : α} : x ∈ h.toList ↔ ∃ k < h.n, h.a k = x := by
  simp [toList]

theorem root_mem_toList {h : ArrayHeap α} (hn : 0 < h.n) : h.a 0 ∈ h.toList :=
  mem_toList.mpr ⟨0, hn, rfl⟩

/-- The root of an ordered heap is not after anything in it. -/
theorem root_le_of_mem {h : ArrayHeap α} (ho : Ordered key h.a h.n) {x : α} (hx : x ∈ h.toList) :
    key (h.a 0) ≤ key x := by
  obtain ⟨k, hk, rfl⟩ := mem_toList.mp hx
  exact ho.root_le k hk

/-- What `Pop` takes off an ordered heap is not after anything it leaves. -/
theorem Pop_le {h : ArrayHeap α} (ho : Ordered key h.a h.n) (hn : 0 < h.n) :
    ∀ y ∈ (Pop key h).1.toList, key (Pop key h).2 ≤ key y := by
  obtain ⟨-, hx, hp⟩ := Pop_spec ho hn
  intro y hy
  rw [hx]
  exact root_le_of_mem ho (hp.symm.subset (List.mem_append_left _ hy))

/-- A new root leaves the other entries. -/
theorem tail_toList_update_zero (h : ArrayHeap α) (x : α) :
    (⟨Function.update h.a 0 x, h.n⟩ : ArrayHeap α).toList.tail = h.toList.tail := by
  obtain ⟨m, hm⟩ | hm : (∃ m, h.n = m + 1) ∨ h.n = 0 :=
    (Nat.eq_zero_or_pos h.n).elim Or.inr fun hn => Or.inl ⟨h.n - 1, by omega⟩
  · simp only [toList, hm, List.range_succ_eq_map, List.map_cons, List.tail_cons, List.map_map]
    exact List.map_congr_left fun k _ => Function.update_of_ne (Nat.succ_ne_zero k) _ _
  · simp [toList, hm]

end ArrayHeap
