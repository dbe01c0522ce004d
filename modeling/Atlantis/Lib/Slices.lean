import Mathlib

/-!
# A slice and its prefix over one array

Go code that keeps a second slice `cases := all[:n]` over the array of `all` and edits the
array in place has two operations to reason about: swapping an element to the end of the
prefix and shrinking the prefix by one, and deleting an element of the whole slice by
copying the rest down (`append(all[:i], all[i+1:]...)`, here `eraseIdx`).  What the prefix
holds after each, up to order, is what a loop over the prefix relies on:
`take_swapIdx_last` and `take_eraseIdx_of_lt` (the element leaves the prefix),
`take_eraseIdx_eq_take_of_le` from the library (it was past the prefix).
-/

namespace List

variable {α : Type*}

/-- `l[i], l[j] = l[j], l[i]`, when both are in range. -/
def swapIdx (l : List α) (i j : ℕ) : List α :=
  if h : i < l.length ∧ j < l.length then (l.set i l[j]).set j l[i] else l

@[simp] theorem length_swapIdx (l : List α) (i j : ℕ) : (l.swapIdx i j).length = l.length := by
  unfold swapIdx
  split <;> simp

/-- Swapping two positions is a permutation. -/
theorem swapIdx_perm [DecidableEq α] (l : List α) (i j : ℕ) : l.swapIdx i j ~ l := by
  unfold swapIdx
  split
  · rename_i h
    obtain ⟨hi, hj⟩ := h
    by_cases hij : i = j
    · -- a swap of a position with itself changes nothing
      subst hij
      rw [set_getElem_self, set_getElem_self]
    · rw [perm_iff_count]
      intro b
      have hj' : j < (l.set i l[j]).length := by simpa using hj
      rw [count_set hj', count_set hi]
      simp only [getElem_set, hij, if_false]
      -- `l[i]` leaves and comes back, `l[j]` comes and leaves
      by_cases hb : (l[i] == b) = true
      · have hc : 0 < count b l := count_pos_iff.mpr (beq_iff_eq.mp hb ▸ getElem_mem hi)
        simp only [hb, if_true]
        split <;> omega
      · simp only [hb, Bool.false_eq_true, if_false]
        split <;> omega
  · exact Perm.refl l

theorem getElem?_swapIdx_right {l : List α} {i j : ℕ} (hi : i < l.length) (hj : j < l.length) :
    (l.swapIdx i j)[j]? = some l[i] := by
  simp [swapIdx, hi, hj]

/-- Inside a prefix, a swap is a swap of the prefix. -/
theorem take_swapIdx {l : List α} {i j n : ℕ} (hi : i < n) (hj : j < n) :
    (l.swapIdx i j).take n = (l.take n).swapIdx i j := by
  unfold swapIdx
  by_cases h : i < l.length ∧ j < l.length
  · have h' : i < (l.take n).length ∧ j < (l.take n).length := by simp [hi, hj, h.1, h.2]
    rw [dif_pos h, dif_pos h', take_set, take_set, getElem_take, getElem_take]
  · have h' : ¬ (i < (l.take n).length ∧ j < (l.take n).length) := by
      simp only [length_take]
      omega
    rw [dif_neg h, dif_neg h']

/-- `deactivate`: swapping position `k` of the prefix of length `n` to the prefix's end and
shrinking it by one leaves the prefix without its `k`-th element, up to order. -/
theorem take_swapIdx_last [DecidableEq α] {l : List α} {k n : ℕ} (hk : k < n) (hn : n ≤ l.length) :
    (l.swapIdx k (n - 1)).take (n - 1) ++ [l[k]] ~ l.take n := by
  have hlast : n - 1 < n := by omega
  set S := (l.take n).swapIdx k (n - 1) with hS
  have hSlen : S.length = n := by simp [hS, hn]
  have hSn : n - 1 < S.length := by omega
  have hSlast : S[n - 1] = l[k] := by
    have h := getElem?_swapIdx_right (l := l.take n) (i := k) (j := n - 1) (by simp; omega)
      (by simp; omega)
    rw [getElem_take, ← hS, getElem?_eq_getElem hSn, Option.some.injEq] at h
    exact h
  -- the swapped prefix is its first `n - 1` elements followed by `l[k]`
  have hsplit : S.take (n - 1) ++ [l[k]] = S := by
    rw [← hSlast, take_concat_get' S (n - 1) hSn, Nat.sub_add_cancel (by omega),
      take_of_length_le (by omega)]
  have htake : (l.swapIdx k (n - 1)).take (n - 1) = S.take (n - 1) := by
    rw [hS, ← take_swapIdx hk hlast, take_take, Nat.min_eq_left (by omega)]
  rw [htake, hsplit]
  exact swapIdx_perm _ _ _

/-- Deleting position `i` inside the prefix of length `n` shrinks the prefix by that element. -/
theorem take_eraseIdx_of_lt {l : List α} {i n : ℕ} (hi : i < n) :
    (l.eraseIdx i).take (n - 1) = (l.take n).eraseIdx i := by
  rw [eraseIdx_eq_take_drop_succ, eraseIdx_eq_take_drop_succ, take_take, Nat.min_eq_left hi.le,
    drop_take]
  by_cases hil : i ≤ l.length
  · rw [take_append, take_take, length_take, Nat.min_eq_left hil,
      Nat.min_eq_right (by omega : i ≤ n - 1), Nat.sub_sub, Nat.add_comm 1 i]
  · -- past the end of the slice nothing is deleted
    have hd : drop (i + 1) l = [] := drop_eq_nil_of_le (by omega)
    have h1 : take i l = l := take_of_length_le (by omega)
    simp only [hd, h1, take_nil, append_nil]
    exact take_of_length_le (by omega)

/-- The element deleted from inside the prefix, with the shrunken prefix, is the prefix. -/
theorem perm_take_eraseIdx_of_lt {l : List α} {i n : ℕ} (hi : i < n) (hn : n ≤ l.length) :
    l[i] :: (l.eraseIdx i).take (n - 1) ~ l.take n := by
  rw [take_eraseIdx_of_lt hi]
  have h := getElem_cons_eraseIdx_perm (l := l.take n) (n := i) (by simp; omega)
  rwa [getElem_take] at h

/-- Deleting the first occurrence found by `idxOf?` is `erase`. -/
theorem eraseIdx_of_idxOf?_eq_some [BEq α] [LawfulBEq α] {l : List α} {a : α} {i : ℕ}
    (h : l.idxOf? a = some i) : l.eraseIdx i = l.erase a := by
  rw [← eraseIdx_idxOf_eq_erase, idxOf_eq_getD_idxOf?, h, Option.getD_some]

/-- What `idxOf?` finds is in the list. -/
theorem mem_of_idxOf?_eq_some [BEq α] [LawfulBEq α] {l : List α} {a : α} {i : ℕ}
    (h : l.idxOf? a = some i) : a ∈ l := by
  obtain ⟨hi, rfl, -⟩ := idxOf?_eq_some_iff.mp h
  exact getElem_mem hi

/-! ### Counting over positions

A list of threads' program counters is read through counts: how many hold a lock, how many
wait on a channel.  A step sets one position; these lemmas say what that does to a count. -/

/-- Setting position `i` from `a` to `b` trades `a`'s share of a count for `b`'s. -/
theorem countP_set_add {p : α → Bool} {l : List α} {i : ℕ} {a b : α} (h : l[i]? = some a) :
    (l.set i b).countP p + (if p a then 1 else 0) = l.countP p + (if p b then 1 else 0) := by
  obtain ⟨hi, rfl⟩ := getElem?_eq_some_iff.mp h
  rw [countP_set hi]
  by_cases hp : p l[i] = true
  · have hpos : 0 < l.countP p := countP_pos_iff.mpr ⟨l[i], getElem_mem hi, hp⟩
    simp only [hp, if_true]
    omega
  · simp only [hp, Bool.false_eq_true, if_false]
    omega

/-- A count of at most one pins down the position of an element it counts. -/
theorem eq_of_countP_le_one {p : α → Bool} {l : List α} (h : l.countP p ≤ 1) {i j : ℕ} {a b : α}
    (ha : l[i]? = some a) (hpa : p a) (hb : l[j]? = some b) (hpb : p b) : i = j := by
  induction l generalizing i j with
  | nil => simp at ha
  | cons x xs ih =>
    rw [countP_cons] at h
    -- a counted element in the tail leaves no room for the head to be counted
    have htail : ∀ {k : ℕ} {c : α}, xs[k]? = some c → p c → p x = false := by
      intro k c hk hc
      have : 0 < xs.countP p := countP_pos_iff.mpr ⟨c, mem_of_getElem? hk, hc⟩
      by_contra hx
      simp only [Bool.not_eq_false] at hx
      simp only [hx, if_true] at h
      omega
    cases i with
    | zero =>
      cases j with
      | zero => rfl
      | succ j =>
        simp only [getElem?_cons_zero, Option.some.injEq] at ha
        subst ha
        simp [htail hb hpb] at hpa
    | succ i =>
      cases j with
      | zero =>
        simp only [getElem?_cons_zero, Option.some.injEq] at hb
        subst hb
        simp [htail ha hpa] at hpb
      | succ j =>
        have h' : xs.countP p ≤ 1 := by
          split at h <;> omega
        simpa using ih h' ha hb

/-- An element of an appended list is one of the list's or the one appended. -/
theorem getElem?_concat_eq_some {l : List α} {a b : α} {j : ℕ} (h : (l ++ [a])[j]? = some b) :
    l[j]? = some b ∨ b = a := by
  rw [getElem?_append] at h
  split at h
  · exact .inl h
  · rw [getElem?_singleton] at h
    split at h
    · exact .inr (Option.some.inj h).symm
    · cases h

/-- An element of a list with one position set is the one set there, or the old one elsewhere. -/
theorem getElem?_set_eq_some {l : List α} {i j : ℕ} {a b : α} (h : (l.set i a)[j]? = some b) :
    (j = i ∧ b = a) ∨ (j ≠ i ∧ l[j]? = some b) := by
  rw [getElem?_set] at h
  split at h
  · split at h
    · exact .inl ⟨by omega, (Option.some.inj h).symm⟩
    · cases h
  · exact .inr ⟨by omega, h⟩

/-! ### Folds that can fail

A loop of Go code that can panic in its body is a fold in `Option`.  What it keeps is stated
of the state and the part of the list still to be visited. -/

/-- A fold in `Option` succeeds and keeps `P`, indexed by what is left of the list, when each
step does from every state it can be at. -/
theorem foldlM_some_of_step {β : Type*} {f : β → α → Option β} {P : List α → β → Prop}
    (hf : ∀ a l b, P (a :: l) b → ∃ b', f b a = some b' ∧ P l b') (l : List α) {b : β}
    (h : P l b) : ∃ b', l.foldlM f b = some b' ∧ P [] b' := by
  induction l generalizing b with
  | nil => exact ⟨b, rfl, h⟩
  | cons a l ih =>
    obtain ⟨b₁, hb₁, h₁⟩ := hf a l b h
    obtain ⟨b', hb', h'⟩ := ih h₁
    exact ⟨b', by rw [foldlM_cons, hb₁]; exact hb', h'⟩

/-- Writing a value at the key of each element, in turn: a key holds a value afterwards exactly
when it held one before or some element wrote it. -/
theorem isSome_foldl_update {κ β γ : Type*} [DecidableEq β] (g : κ → β) (v : κ → γ) (l : List κ)
    (f : β → Option γ) (b : β) :
    ((l.foldl (fun f k => Function.update f (g k) (some (v k))) f) b).isSome ↔
      (f b).isSome ∨ ∃ k ∈ l, g k = b := by
  induction l generalizing f with
  | nil => simp
  | cons k l ih =>
    rw [foldl_cons, ih]
    by_cases hb : g k = b
    · subst hb
      simp
    · rw [Function.update_of_ne (Ne.symm hb)]
      simp [hb]

end List
