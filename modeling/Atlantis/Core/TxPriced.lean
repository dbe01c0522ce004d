import Atlantis.Core.TxByPrice
import Atlantis.Lib.AList
import Atlantis.Lib.Heap

/-!
# The priced list of the pool

`core/tx_list.go`: `txPricedList`, the heap of the pool's transactions by price, from which the
pool takes the cheapest ones to drop: those below a new minimum price (`Cap`, called by
`SetGasPrice`) and, when the pool is full, enough of them to make room for a new transaction
(`Discard`, called by `add` once `Underpriced` has let the new one in).  The heap is
`ArrayHeap` under `priceHeap.Less`: the cheaper first, and of two at one price the one with the
higher nonce.

The heap is not told which transactions leave the pool.  Its stale entries, those whose hash
the lookup `all` no longer finds, stay until a pop meets them; `Removed` only counts them, and
rebuilds the heap from `all` once the count passes a quarter of the heap.  The pool keeps its
side at the call sites of `core/tx_pool.go`: a transaction that enters `all` is `Put`, and one
that leaves it is counted by `Removed`, except the ones `Cap` and `Discard` have popped already,
which `removeTx` drops with `outofbound` false.  `PricedPool` is the pool as the priced list
sees it (the lookup, the list and the local accounts), and `Reachable` runs those call sites in
any order.

Each loop of the list pops the cheapest entry, and what a run of pops took off is recorded
once, in `Pops`.  In every reachable state (`Inv`) the heap holds every pooled transaction and
the count of stale entries is at least the heap's size less the pool's, so it never goes below
zero.  From there `Cap` finds every remote transaction below the threshold, so `SetGasPrice`
keeps exactly the local transactions and those at or above the new price; `Underpriced` never
meets an empty heap in a non-empty pool and tells whether the new transaction pays no more than
every pooled one; and the room `add` makes is taken from remote transactions no dearer than any
remote one it keeps.  These read transactions by hash, as the pool does: they hold where no two
transactions of the run share one (`HashInj`).
-/

open scoped List

namespace Atlantis.Core

variable {Address : Type}

/-- `priceHeap.Less` as a key: the cheaper transaction first, and of two at one price the one
with the higher nonce. -/
def priceHeapKey (tx : Transaction Address) : Lex (ℕ × ℕᵒᵈ) :=
  toLex (tx.gasPrice, OrderDual.toDual tx.nonce)

/-- The heap's order is first of all the order of the prices. -/
theorem gasPrice_le_of_priceHeapKey_le {a b : Transaction Address}
    (h : priceHeapKey a ≤ priceHeapKey b) : a.gasPrice ≤ b.gasPrice := by
  rcases Prod.Lex.toLex_le_toLex.mp h with h | ⟨h, -⟩
  · exact Nat.le_of_lt h
  · exact Nat.le_of_eq h

/-- The pool's `txLookup`: every transaction under its hash. -/
abbrev txLookup (Address : Type) := AList fun _ : Hash => Transaction Address

/-- The transactions of the lookup, in the order its `Range` visits them (the source's map
visits them in an unspecified order). -/
def rangeTxs (all : txLookup Address) : List (Transaction Address) := all.entries.map Sigma.snd

theorem mem_rangeTxs {all : txLookup Address} {t : Transaction Address} :
    t ∈ rangeTxs all ↔ ∃ h, all.lookup h = some t := by
  simp only [rangeTxs, List.mem_map]
  constructor
  · rintro ⟨⟨h, t'⟩, he, rfl⟩
    exact ⟨h, AList.mem_lookup_iff.mpr he⟩
  · rintro ⟨h, hl⟩
    exact ⟨⟨h, t⟩, AList.mem_lookup_iff.mp hl, rfl⟩

/-- `txPricedList`: the heap of the pool's transactions by price, stale entries included, and
the number of stale entries it counts.  The lookup `all` it points to is the pool's, an argument
of the operations that read it. -/
structure txPricedList (Address : Type) where
  items : ArrayHeap (Transaction Address)
  stales : ℤ

variable [Inhabited Address] in
/-- `newTxPricedList`: an empty heap, nothing stale. -/
def newTxPricedList : txPricedList Address := ⟨ArrayHeap.ofList [], 0⟩

namespace txPricedList

/-- `heap.Pop(l.items)`: the list without its cheapest entry, and the entry. -/
def pop (l : txPricedList Address) : txPricedList Address × Transaction Address :=
  ({ l with items := (ArrayHeap.Pop priceHeapKey l.items).1 }, (ArrayHeap.Pop priceHeapKey l.items).2)

/-- `Put`: `heap.Push`. -/
def Put (l : txPricedList Address) (tx : Transaction Address) : txPricedList Address :=
  { l with items := ArrayHeap.Push priceHeapKey l.items tx }

section Ops

variable [DecidableEq Address] (all : txLookup Address) (locals : List Address)

variable [Inhabited Address] in
/-- `Removed`: one more stale entry; past a quarter of the heap, the heap is rebuilt from the
transactions of `all` and none is stale. -/
def Removed (l : txPricedList Address) : txPricedList Address :=
  if l.stales + 1 ≤ ((l.items.n / 4 : ℕ) : ℤ) then { l with stales := l.stales + 1 }
  else ⟨ArrayHeap.Init priceHeapKey (ArrayHeap.ofList (rangeTxs all)), 0⟩

/-- The loop of `Cap`: pop the cheapest entry; a stale one is counted off and skipped, one at or
above the threshold is saved and ends the loop, and of the others a local one is saved and a
remote one dropped.  The fuel is the number of entries left. -/
def capLoop (threshold : ℕ) :
    ℕ → txPricedList Address → List (Transaction Address) → List (Transaction Address) →
      txPricedList Address × List (Transaction Address) × List (Transaction Address)
  | 0, l, save, drop => (l, save, drop)
  | fuel + 1, l, save, drop =>
    if l.items.n = 0 then (l, save, drop)
    else if all.lookup l.pop.2.hash = none then
      capLoop threshold fuel { l.pop.1 with stales := l.stales - 1 } save drop
    else if threshold ≤ l.pop.2.gasPrice then (l.pop.1, save ++ [l.pop.2], drop)
    else if l.pop.2.sender ∈ locals then capLoop threshold fuel l.pop.1 (save ++ [l.pop.2]) drop
    else capLoop threshold fuel l.pop.1 save (drop ++ [l.pop.2])

/-- `Cap`: the transactions below `threshold` popped off, the remote ones returned for the pool
to drop and the saved ones pushed back. -/
def Cap (l : txPricedList Address) (threshold : ℕ) :
    txPricedList Address × List (Transaction Address) :=
  ((capLoop all locals threshold l.items.n l [] []).2.1.foldl Put
      (capLoop all locals threshold l.items.n l [] []).1,
    (capLoop all locals threshold l.items.n l [] []).2.2)

/-- The loop at the start of `Underpriced`: pop the cheapest entry while it is stale. -/
def dropStale : ℕ → txPricedList Address → txPricedList Address
  | 0, l => l
  | fuel + 1, l =>
    if l.items.n ≠ 0 ∧ all.lookup (l.items.a 0).hash = none then
      dropStale fuel { l.pop.1 with stales := l.stales - 1 }
    else l

/-- `Underpriced`: a local transaction never is; otherwise, past the stale entries, whether the
cheapest pooled transaction costs no less than `tx`.  An empty heap answers `false`, where the
source logs an error it says cannot happen. -/
def Underpriced (l : txPricedList Address) (tx : Transaction Address) :
    Bool × txPricedList Address :=
  if tx.sender ∈ locals then (false, l)
  else if (dropStale all l.items.n l).items.n = 0 then (false, dropStale all l.items.n l)
  else (decide (tx.gasPrice ≤ ((dropStale all l.items.n l).items.a 0).gasPrice),
    dropStale all l.items.n l)

/-- The loop of `Discard`: while entries and `count` are left, pop the cheapest; a stale one is
counted off, a local one saved, and a remote one dropped and counted. -/
def discardLoop :
    ℕ → ℕ → txPricedList Address → List (Transaction Address) → List (Transaction Address) →
      txPricedList Address × List (Transaction Address) × List (Transaction Address)
  | 0, _, l, save, drop => (l, save, drop)
  | fuel + 1, count, l, save, drop =>
    if l.items.n = 0 ∨ count = 0 then (l, save, drop)
    else if all.lookup l.pop.2.hash = none then
      discardLoop fuel count { l.pop.1 with stales := l.stales - 1 } save drop
    else if l.pop.2.sender ∈ locals then discardLoop fuel count l.pop.1 (save ++ [l.pop.2]) drop
    else discardLoop fuel (count - 1) l.pop.1 save (drop ++ [l.pop.2])

/-- `Discard`: up to `count` of the cheapest remote transactions popped and returned, the local
ones met on the way pushed back. -/
def Discard (l : txPricedList Address) (count : ℕ) :
    txPricedList Address × List (Transaction Address) :=
  ((discardLoop all locals l.items.n count l [] []).2.1.foldl Put
      (discardLoop all locals l.items.n count l [] []).1,
    (discardLoop all locals l.items.n count l [] []).2.2)

end Ops

@[simp] theorem pop_fst_items (l : txPricedList Address) :
    l.pop.1.items = (ArrayHeap.Pop priceHeapKey l.items).1 := rfl

@[simp] theorem pop_fst_stales (l : txPricedList Address) : l.pop.1.stales = l.stales := rfl

@[simp] theorem Put_stales (l : txPricedList Address) (tx : Transaction Address) :
    (l.Put tx).stales = l.stales := rfl

/-- What one pop does: the heap stays ordered and loses its root, which is no dearer than
anything left. -/
theorem pop_spec {l : txPricedList Address}
    (ho : ArrayHeap.Ordered priceHeapKey l.items.a l.items.n) (hn : l.items.n ≠ 0) :
    ArrayHeap.Ordered priceHeapKey l.pop.1.items.a l.pop.1.items.n ∧
      l.items.toList ~ l.pop.1.items.toList ++ [l.pop.2] ∧
      l.pop.2 = l.items.a 0 ∧
      ∀ y ∈ l.pop.1.items.toList, priceHeapKey l.pop.2 ≤ priceHeapKey y := by
  obtain ⟨ho', hx, hp⟩ := ArrayHeap.Pop_spec ho (Nat.pos_of_ne_zero hn)
  exact ⟨ho', hp, hx, ArrayHeap.Pop_le ho (Nat.pos_of_ne_zero hn)⟩

/-- `Put` of each transaction in turn keeps the order and adds them to the heap. -/
theorem foldl_Put {l : txPricedList Address}
    (ho : ArrayHeap.Ordered priceHeapKey l.items.a l.items.n) (txs : List (Transaction Address)) :
    ArrayHeap.Ordered priceHeapKey (txs.foldl Put l).items.a (txs.foldl Put l).items.n ∧
      (txs.foldl Put l).items.toList ~ l.items.toList ++ txs ∧
      (txs.foldl Put l).stales = l.stales := by
  induction txs generalizing l with
  | nil => exact ⟨ho, by simp, rfl⟩
  | cons tx txs ih =>
    obtain ⟨ho', hp⟩ := ArrayHeap.Push_spec ho tx
    obtain ⟨h₁, h₂, h₃⟩ := ih (l := l.Put tx) ho'
    refine ⟨h₁, h₂.trans ?_, h₃⟩
    -- the pushed entry comes before the rest of the list
    simpa [Put] using hp.append_right txs

/-! ### Runs of pops -/

section Pops

variable (all : txLookup Address)

/-- What a run of pops took off the heap of `l` to leave that of `l'`: the entries `st` it found
stale and counted off, and the live ones `sv` it kept aside and `dr` it dropped, each of these no
dearer than anything left. -/
structure Pops (l l' : txPricedList Address) (st sv dr : List (Transaction Address)) : Prop where
  ordered : ArrayHeap.Ordered priceHeapKey l'.items.a l'.items.n
  perm : l.items.toList ~ l'.items.toList ++ st ++ sv ++ dr
  stale : ∀ x ∈ st, all.lookup x.hash = none
  live : ∀ x ∈ sv ++ dr, all.lookup x.hash ≠ none
  stales : l'.stales = l.stales - st.length
  le : ∀ x ∈ sv ++ dr, ∀ y ∈ l'.items.toList, priceHeapKey x ≤ priceHeapKey y

/-- What pops and pushes left of the heap of `l` in `l'`, as the pool sees it: the heap is in
order and has lost the stale entries `st`, counted off `stales`, and the entries `dr` it returns
for the pool to drop. -/
structure Popped (l l' : txPricedList Address) (st dr : List (Transaction Address)) : Prop where
  ordered : ArrayHeap.Ordered priceHeapKey l'.items.a l'.items.n
  perm : l.items.toList ~ l'.items.toList ++ st ++ dr
  stale : ∀ x ∈ st, all.lookup x.hash = none
  stales : l'.stales = l.stales - st.length

variable {all}

theorem Pops.refl {l : txPricedList Address}
    (ho : ArrayHeap.Ordered priceHeapKey l.items.a l.items.n) : Pops all l l [] [] [] :=
  ⟨ho, by simp, by simp, by simp, by simp, by simp⟩

theorem Popped.refl {l : txPricedList Address}
    (ho : ArrayHeap.Ordered priceHeapKey l.items.a l.items.n) : Popped all l l [] [] :=
  ⟨ho, by simp, by simp, by simp⟩

variable {l l' : txPricedList Address} {st sv dr : List (Transaction Address)}

/-- Stale entries popped first, then more pops: the stale entries add up. -/
theorem Popped.trans {l₀ : txPricedList Address} {st₀ : List (Transaction Address)}
    (h₀ : Popped all l₀ l st₀ []) (h : Popped all l l' st dr) : Popped all l₀ l' (st ++ st₀) dr := by
  refine ⟨h.ordered, ?_, fun x hx => ?_, ?_⟩
  · calc l₀.items.toList ~ l.items.toList ++ st₀ := by simpa using h₀.perm
      _ ~ l'.items.toList ++ st ++ dr ++ st₀ := h.perm.append_right st₀
      _ ~ l'.items.toList ++ (st ++ st₀) ++ dr := by
        simp only [List.append_assoc]
        exact .append_left _ (.append_left _ List.perm_append_comm)
  · rcases List.mem_append.mp hx with hx | hx
    · exact h.stale x hx
    · exact h₀.stale x hx
  · rw [h.stales, h₀.stales, List.length_append]
    push_cast
    ring

theorem Popped.mem_left (h : Popped all l l' st dr) {x : Transaction Address}
    (hx : x ∈ l'.items.toList) : x ∈ l.items.toList :=
  h.perm.symm.subset (List.mem_append_left _ (List.mem_append_left _ hx))

theorem Popped.mem_right (h : Popped all l l' st dr) {x : Transaction Address} (hx : x ∈ dr) :
    x ∈ l.items.toList :=
  h.perm.symm.subset (List.mem_append_right _ hx)

/-- Moving the popped root to one of the three lists keeps the record of the run. -/
theorem Pops.perm_pop (h : Pops all l l' st sv dr) (hn : l'.items.n ≠ 0) :
    l.items.toList ~ l'.pop.1.items.toList ++ [l'.pop.2] ++ st ++ sv ++ dr :=
  h.perm.trans ((((pop_spec h.ordered hn).2.1.append_right st).append_right sv).append_right dr)

/-- Entries left after the pop were left before it. -/
theorem Pops.mem_of_pop (h : Pops all l l' st sv dr) (hn : l'.items.n ≠ 0) {y : Transaction Address}
    (hy : y ∈ l'.pop.1.items.toList) : y ∈ l'.items.toList :=
  (pop_spec h.ordered hn).2.1.symm.subset (List.mem_append_left _ hy)

variable [DecidableEq Address]

/-- A stale root is counted off. -/
theorem Pops.popStale (h : Pops all l l' st sv dr) (hn : l'.items.n ≠ 0)
    (hs : all.lookup l'.pop.2.hash = none) :
    Pops all l { l'.pop.1 with stales := l'.stales - 1 } (st ++ [l'.pop.2]) sv dr := by
  obtain ⟨ho, -, -, -⟩ := pop_spec h.ordered hn
  refine ⟨ho, (h.perm_pop hn).trans (List.perm_iff_count.mpr fun a => ?_), ?_, h.live, ?_,
    fun x hx y hy => h.le x hx y (h.mem_of_pop hn hy)⟩
  · simp only [List.count_append]
    omega
  · intro x hx
    rcases List.mem_append.mp hx with hx | hx
    · exact h.stale x hx
    · rw [List.mem_singleton.mp hx]
      exact hs
  · show l'.stales - 1 = l.stales - ((st ++ [l'.pop.2]).length : ℤ)
    rw [h.stales, List.length_append, List.length_singleton]
    push_cast
    ring

/-- A live root kept aside. -/
theorem Pops.popSave (h : Pops all l l' st sv dr) (hn : l'.items.n ≠ 0)
    (hl : all.lookup l'.pop.2.hash ≠ none) : Pops all l l'.pop.1 st (sv ++ [l'.pop.2]) dr := by
  obtain ⟨ho, -, -, hle⟩ := pop_spec h.ordered hn
  refine ⟨ho, (h.perm_pop hn).trans (List.perm_iff_count.mpr fun a => ?_), h.stale, ?_, h.stales,
    ?_⟩
  · simp only [List.count_append]
    omega
  · intro x hx
    simp only [List.mem_append, List.mem_singleton] at hx
    rcases hx with (hx | rfl) | hx
    · exact h.live x (List.mem_append_left _ hx)
    · exact hl
    · exact h.live x (List.mem_append_right _ hx)
  · intro x hx y hy
    simp only [List.mem_append, List.mem_singleton] at hx
    rcases hx with (hx | rfl) | hx
    · exact h.le x (List.mem_append_left _ hx) y (h.mem_of_pop hn hy)
    · exact hle y hy
    · exact h.le x (List.mem_append_right _ hx) y (h.mem_of_pop hn hy)

/-- A live root dropped. -/
theorem Pops.popDrop (h : Pops all l l' st sv dr) (hn : l'.items.n ≠ 0)
    (hl : all.lookup l'.pop.2.hash ≠ none) : Pops all l l'.pop.1 st sv (dr ++ [l'.pop.2]) := by
  obtain ⟨ho, -, -, hle⟩ := pop_spec h.ordered hn
  refine ⟨ho, (h.perm_pop hn).trans (List.perm_iff_count.mpr fun a => ?_), h.stale, ?_, h.stales,
    ?_⟩
  · simp only [List.count_append]
    omega
  · intro x hx
    simp only [List.mem_append, List.mem_singleton] at hx
    rcases hx with hx | hx | rfl
    · exact h.live x (List.mem_append_left _ hx)
    · exact h.live x (List.mem_append_right _ hx)
    · exact hl
  · intro x hx y hy
    simp only [List.mem_append, List.mem_singleton] at hx
    rcases hx with hx | hx | rfl
    · exact h.le x (List.mem_append_left _ hx) y (h.mem_of_pop hn hy)
    · exact h.le x (List.mem_append_right _ hx) y (h.mem_of_pop hn hy)
    · exact hle y hy

end Pops

/-! ### The loops -/

/-- A heap of no entries leaves nothing to read. -/
theorem not_mem_toList_of_n_eq_zero {l : txPricedList Address} (h : l.items.n = 0)
    {y : Transaction Address} : y ∉ l.items.toList := by
  simp [ArrayHeap.toList, h]

section Loops

variable [DecidableEq Address] (all : txLookup Address) (locals : List Address)

/-- **The loop of `Cap`.**  From a run of pops whose kept entries are local or at the threshold
and whose dropped ones are remote and below it, the loop ends with such a run, and what it
leaves in the heap is at the threshold or above. -/
theorem capLoop_spec (threshold fuel : ℕ) {l₀ l : txPricedList Address}
    {st save drop : List (Transaction Address)} (hn : l.items.n ≤ fuel)
    (hp : Pops all l₀ l st save drop) (hsave : ∀ x ∈ save, x.sender ∈ locals ∨ threshold ≤ x.gasPrice)
    (hdrop : ∀ x ∈ drop, x.sender ∉ locals ∧ x.gasPrice < threshold) :
    ∃ st', Pops all l₀ (capLoop all locals threshold fuel l save drop).1 st'
        (capLoop all locals threshold fuel l save drop).2.1
        (capLoop all locals threshold fuel l save drop).2.2 ∧
      (∀ x ∈ (capLoop all locals threshold fuel l save drop).2.1,
        x.sender ∈ locals ∨ threshold ≤ x.gasPrice) ∧
      (∀ x ∈ (capLoop all locals threshold fuel l save drop).2.2,
        x.sender ∉ locals ∧ x.gasPrice < threshold) ∧
      ∀ y ∈ (capLoop all locals threshold fuel l save drop).1.items.toList, threshold ≤ y.gasPrice := by
  induction fuel generalizing l st save drop with
  | zero =>
    -- the fuel runs out only with the heap
    have h0 : l.items.n = 0 := by omega
    exact ⟨st, hp, hsave, hdrop, fun y hy => absurd hy (not_mem_toList_of_n_eq_zero h0)⟩
  | succ fuel ih =>
    rw [capLoop]
    by_cases h0 : l.items.n = 0
    · rw [if_pos h0]
      exact ⟨st, hp, hsave, hdrop, fun y hy => absurd hy (not_mem_toList_of_n_eq_zero h0)⟩
    rw [if_neg h0]
    have hn' : l.pop.1.items.n ≤ fuel := by
      show l.items.n - 1 ≤ fuel
      omega
    by_cases hs : all.lookup l.pop.2.hash = none
    · rw [if_pos hs]
      exact ih hn' (hp.popStale h0 hs) hsave hdrop
    rw [if_neg hs]
    by_cases ht : threshold ≤ l.pop.2.gasPrice
    · -- the first live entry at the threshold is kept and ends the loop
      rw [if_pos ht]
      refine ⟨st, hp.popSave h0 hs, fun x hx => ?_, hdrop, fun y hy => ?_⟩
      · rcases List.mem_append.mp hx with hx | hx
        · exact hsave x hx
        · rw [List.mem_singleton.mp hx]
          exact .inr ht
      · exact ht.trans (gasPrice_le_of_priceHeapKey_le ((pop_spec hp.ordered h0).2.2.2 y hy))
    rw [if_neg ht]
    by_cases hl : l.pop.2.sender ∈ locals
    · rw [if_pos hl]
      refine ih hn' (hp.popSave h0 hs) (fun x hx => ?_) hdrop
      rcases List.mem_append.mp hx with hx | hx
      · exact hsave x hx
      · rw [List.mem_singleton.mp hx]
        exact .inl hl
    · rw [if_neg hl]
      refine ih hn' (hp.popDrop h0 hs) hsave (fun x hx => ?_)
      rcases List.mem_append.mp hx with hx | hx
      · exact hdrop x hx
      · rw [List.mem_singleton.mp hx]
        exact ⟨hl, by omega⟩

/-- **The loop of `Discard`.**  What it keeps aside is local and what it drops is remote. -/
theorem discardLoop_spec (fuel count : ℕ) {l₀ l : txPricedList Address}
    {st save drop : List (Transaction Address)} (hn : l.items.n ≤ fuel)
    (hp : Pops all l₀ l st save drop) (hsave : ∀ x ∈ save, x.sender ∈ locals)
    (hdrop : ∀ x ∈ drop, x.sender ∉ locals) :
    ∃ st', Pops all l₀ (discardLoop all locals fuel count l save drop).1 st'
        (discardLoop all locals fuel count l save drop).2.1
        (discardLoop all locals fuel count l save drop).2.2 ∧
      (∀ x ∈ (discardLoop all locals fuel count l save drop).2.1, x.sender ∈ locals) ∧
      ∀ x ∈ (discardLoop all locals fuel count l save drop).2.2, x.sender ∉ locals := by
  induction fuel generalizing count l st save drop with
  | zero => exact ⟨st, hp, hsave, hdrop⟩
  | succ fuel ih =>
    rw [discardLoop]
    by_cases h0 : l.items.n = 0 ∨ count = 0
    · rw [if_pos h0]
      exact ⟨st, hp, hsave, hdrop⟩
    rw [if_neg h0]
    have hne : l.items.n ≠ 0 := fun h => h0 (.inl h)
    have hn' : l.pop.1.items.n ≤ fuel := by
      show l.items.n - 1 ≤ fuel
      omega
    by_cases hs : all.lookup l.pop.2.hash = none
    · rw [if_pos hs]
      exact ih count hn' (hp.popStale hne hs) hsave hdrop
    rw [if_neg hs]
    by_cases hl : l.pop.2.sender ∈ locals
    · rw [if_pos hl]
      refine ih count hn' (hp.popSave hne hs) (fun x hx => ?_) hdrop
      rcases List.mem_append.mp hx with hx | hx
      · exact hsave x hx
      · rw [List.mem_singleton.mp hx]
        exact hl
    · rw [if_neg hl]
      refine ih (count - 1) hn' (hp.popDrop hne hs) hsave (fun x hx => ?_)
      rcases List.mem_append.mp hx with hx | hx
      · exact hdrop x hx
      · rw [List.mem_singleton.mp hx]
        exact hl

/-- **The loop of `Underpriced`.**  It pops only stale entries, and leaves the heap empty or with
a live root. -/
theorem dropStale_spec (fuel : ℕ) {l₀ l : txPricedList Address} {st : List (Transaction Address)}
    (hn : l.items.n ≤ fuel) (hp : Pops all l₀ l st [] []) :
    ∃ st', Pops all l₀ (dropStale all fuel l) st' [] [] ∧
      ((dropStale all fuel l).items.n = 0 ∨
        all.lookup ((dropStale all fuel l).items.a 0).hash ≠ none) := by
  induction fuel generalizing l st with
  | zero =>
    have h0 : l.items.n = 0 := by omega
    exact ⟨st, hp, .inl h0⟩
  | succ fuel ih =>
    rw [dropStale]
    by_cases hs : l.items.n ≠ 0 ∧ all.lookup (l.items.a 0).hash = none
    · rw [if_pos hs]
      have hn' : l.pop.1.items.n ≤ fuel := by
        show l.items.n - 1 ≤ fuel
        omega
      -- the root popped is the stale one just read
      have hroot : all.lookup l.pop.2.hash = none := by
        rw [(pop_spec hp.ordered hs.1).2.2.1]
        exact hs.2
      exact ih hn' (hp.popStale hs.1 hroot)
    · rw [if_neg hs]
      refine ⟨st, hp, ?_⟩
      by_cases h0 : l.items.n = 0
      · exact .inl h0
      · exact .inr fun h => hs ⟨h0, h⟩

variable {all} in
/-- The entries a run of pops kept aside, pushed back, and the ones it dropped, with the stale
ones, make up the heap it started from. -/
theorem Pops.pushBack {l₀ l : txPricedList Address} {st sv dr : List (Transaction Address)}
    (hp : Pops all l₀ l st sv dr) : Popped all l₀ (sv.foldl Put l) st dr := by
  obtain ⟨ho, hperm, hst⟩ := foldl_Put hp.ordered sv
  refine ⟨ho, hp.perm.trans ?_, hp.stale, hst.trans hp.stales⟩
  calc l.items.toList ++ st ++ sv ++ dr
      ~ l.items.toList ++ sv ++ st ++ dr := List.perm_iff_count.mpr fun a => by
        simp only [List.count_append]
        omega
    _ ~ (sv.foldl Put l).items.toList ++ st ++ dr := (hperm.symm.append_right st).append_right dr

/-- **`Cap`.**  The heap stays ordered; besides stale entries it loses exactly the transactions
`Cap` returns, each live, remote and below the threshold, and each entry it keeps is local or at
the threshold and above. -/
theorem Cap_spec {l : txPricedList Address}
    (ho : ArrayHeap.Ordered priceHeapKey l.items.a l.items.n) (threshold : ℕ) :
    (∃ st, Popped all l (l.Cap all locals threshold).1 st (l.Cap all locals threshold).2) ∧
      (∀ x ∈ (l.Cap all locals threshold).2,
        all.lookup x.hash ≠ none ∧ x.sender ∉ locals ∧ x.gasPrice < threshold) ∧
      ∀ y ∈ (l.Cap all locals threshold).1.items.toList,
        y.sender ∈ locals ∨ threshold ≤ y.gasPrice := by
  obtain ⟨st, hp, hsave, hdrop, hleft⟩ :=
    capLoop_spec all locals threshold l.items.n le_rfl (Pops.refl ho)
      (by simp) (by simp)
  refine ⟨⟨st, hp.pushBack⟩, fun x hx => ⟨hp.live x (List.mem_append_right _ hx), hdrop x hx⟩,
    fun y hy => ?_⟩
  -- what is left is the rest of the loop's heap and the entries it kept aside
  rcases List.mem_append.mp ((foldl_Put hp.ordered _).2.1.subset hy) with hy | hy
  · exact .inr (hleft y hy)
  · exact hsave y hy

/-- **`Discard`.**  The heap stays ordered; besides stale entries it loses exactly the
transactions `Discard` returns, each live and remote and no dearer than any remote entry
left. -/
theorem Discard_spec {l : txPricedList Address}
    (ho : ArrayHeap.Ordered priceHeapKey l.items.a l.items.n) (count : ℕ) :
    (∃ st, Popped all l (l.Discard all locals count).1 st (l.Discard all locals count).2) ∧
      ∀ x ∈ (l.Discard all locals count).2, all.lookup x.hash ≠ none ∧ x.sender ∉ locals ∧
        ∀ y ∈ (l.Discard all locals count).1.items.toList, y.sender ∉ locals →
          priceHeapKey x ≤ priceHeapKey y := by
  obtain ⟨st, hp, hsave, hdrop⟩ :=
    discardLoop_spec all locals l.items.n count le_rfl (Pops.refl ho)
      (by simp) (by simp)
  refine ⟨⟨st, hp.pushBack⟩, fun x hx =>
    ⟨hp.live x (List.mem_append_right _ hx), hdrop x hx, fun y hy hyl => ?_⟩⟩
  -- a remote entry left was left by the loop, not kept aside
  rcases List.mem_append.mp ((foldl_Put hp.ordered _).2.1.subset hy) with hy | hy
  · exact hp.le x (List.mem_append_right _ hx) y hy
  · exact absurd (hsave y hy) hyl

variable {all locals} in
/-- `Underpriced` of a remote transaction: the stale entries at the root popped, then the
comparison with the root, if any. -/
theorem Underpriced_of_not_mem {l : txPricedList Address} {tx : Transaction Address}
    (hl : tx.sender ∉ locals) :
    l.Underpriced all locals tx =
      (decide ((dropStale all l.items.n l).items.n ≠ 0 ∧
        tx.gasPrice ≤ ((dropStale all l.items.n l).items.a 0).gasPrice),
        dropStale all l.items.n l) := by
  unfold Underpriced
  rw [if_neg hl]
  split_ifs with h0 <;> simp [h0]

/-- **`Underpriced`.**  It only pops stale entries; for a remote transaction it leaves the heap
empty or with a live root, and answers whether that root costs no less than the transaction. -/
theorem Underpriced_spec {l : txPricedList Address}
    (ho : ArrayHeap.Ordered priceHeapKey l.items.a l.items.n) (tx : Transaction Address) :
    (∃ st, Popped all l (l.Underpriced all locals tx).2 st []) ∧
      (tx.sender ∉ locals → (l.Underpriced all locals tx).2.items.n = 0 ∨
        all.lookup ((l.Underpriced all locals tx).2.items.a 0).hash ≠ none) ∧
      ((l.Underpriced all locals tx).1 = true ↔ tx.sender ∉ locals ∧
        (l.Underpriced all locals tx).2.items.n ≠ 0 ∧
        tx.gasPrice ≤ ((l.Underpriced all locals tx).2.items.a 0).gasPrice) := by
  by_cases hl : tx.sender ∈ locals
  · -- a local transaction: nothing is popped
    have hu : l.Underpriced all locals tx = (false, l) := by
      unfold Underpriced
      rw [if_pos hl]
    rw [hu]
    exact ⟨⟨[], Popped.refl ho⟩, fun h => absurd hl h, by simp [hl]⟩
  obtain ⟨st, hp, hroot⟩ := dropStale_spec all l.items.n le_rfl (Pops.refl ho)
  rw [Underpriced_of_not_mem hl]
  exact ⟨⟨st, hp.pushBack⟩, fun _ => hroot, by simp [hl]⟩

end Loops

end txPricedList

/-- The pool as its priced list sees it: the lookup `all`, the priced list, and the local
accounts (the `accountSet`, a list here). -/
structure PricedPool (Address : Type) where
  all : txLookup Address
  priced : txPricedList Address
  locals : List Address

namespace PricedPool

section Events

variable [DecidableEq Address] [Inhabited Address]

/-- A transaction entering the pool, in `enqueueTx`, `promoteTx` and the replacement of a
pending transaction in `add`: `pool.all.Add(tx)` and `pool.priced.Put(tx)`, unless `all` has its
hash already. -/
def insert (p : PricedPool Address) (tx : Transaction Address) : PricedPool Address :=
  if p.all.lookup tx.hash = none then
    { p with all := p.all.insert tx.hash tx, priced := p.priced.Put tx }
  else p

/-- A transaction dropped where the pool pairs `pool.all.Remove(hash)` with
`pool.priced.Removed()`: a replaced or outbid one in `add`, `enqueueTx` and `promoteTx`, and
those `promoteExecutables` and `demoteUnexecutables` filter out. -/
def discarded (p : PricedPool Address) (hash : Hash) : PricedPool Address :=
  { p with all := p.all.erase hash, priced := p.priced.Removed (p.all.erase hash) }

/-- `removeTx(hash, outofbound)` on the lookup and the priced list: nothing for a hash the pool
does not know; otherwise the transaction leaves `all`, and is counted stale when
`outofbound`. -/
def removeTx (p : PricedPool Address) (hash : Hash) (outofbound : Bool) : PricedPool Address :=
  if p.all.lookup hash = none then p
  else if outofbound then p.discarded hash
  else { p with all := p.all.erase hash }

/-- `SetGasPrice`: `Cap` at the new price, then `removeTx(hash, false)` of each transaction it
returns. -/
def SetGasPrice (p : PricedPool Address) (price : ℕ) : PricedPool Address :=
  (p.priced.Cap p.all p.locals price).2.foldl (fun p tx => p.removeTx tx.hash false)
    { p with priced := (p.priced.Cap p.all p.locals price).1 }

/-- The part of `add` that makes room when the pool holds `slots = GlobalSlots + GlobalQueue`
transactions or more: a remote transaction that `Underpriced` finds no dearer than the cheapest
is refused (`false`, for `ErrUnderpriced`); otherwise `Discard` picks the cheapest remote ones
to leave room for it, and each is dropped with `removeTx(hash, false)`. -/
def makeRoom (p : PricedPool Address) (tx : Transaction Address) (isLocal : Bool) (slots : ℕ) :
    Bool × PricedPool Address :=
  if slots ≤ p.all.entries.length then
    let u := if isLocal then (false, p.priced) else p.priced.Underpriced p.all p.locals tx
    if u.1 then (false, { p with priced := u.2 })
    else
      let d := u.2.Discard p.all p.locals (p.all.entries.length + 1 - slots)
      (true, d.2.foldl (fun p tx => p.removeTx tx.hash false) { p with priced := d.1 })
  else (true, p)

/-- The states the pool's calls into the priced list reach from `NewTxPool`, every transaction
it takes in satisfying `T`. -/
inductive Reachable (T : Transaction Address → Prop) : PricedPool Address → Prop
  | init (locals : List Address) : Reachable T ⟨∅, newTxPricedList, locals⟩
  | insert {p : PricedPool Address} (tx : Transaction Address) (hT : T tx) :
      Reachable T p → Reachable T (p.insert tx)
  | discarded {p : PricedPool Address} (hash : Hash) :
      Reachable T p → Reachable T (p.discarded hash)
  | removeTx {p : PricedPool Address} (hash : Hash) :
      Reachable T p → Reachable T (p.removeTx hash true)
  | setGasPrice {p : PricedPool Address} (price : ℕ) :
      Reachable T p → Reachable T (p.SetGasPrice price)
  | makeRoom {p : PricedPool Address} (tx : Transaction Address) (isLocal : Bool) (slots : ℕ) :
      Reachable T p → Reachable T (p.makeRoom tx isLocal slots).2
  | addLocal {p : PricedPool Address} (addr : Address) :
      Reachable T p → Reachable T { p with locals := p.locals.insert addr }

end Events

/-- The pool tells transactions apart by their hashes: no two transactions of `T` share one. -/
def HashInj (T : Transaction Address → Prop) : Prop :=
  ∀ a b, T a → T b → a.hash = b.hash → a = b

/-! ### The invariant -/

variable {T : Transaction Address → Prop}

/-- What the pool keeps of its priced list in every reachable state. -/
structure Inv (T : Transaction Address → Prop) (p : PricedPool Address) : Prop where
  /-- the heap is in order -/
  ordered : ArrayHeap.Ordered priceHeapKey p.priced.items.a p.priced.items.n
  /-- every pooled transaction is held under its own hash -/
  keyed : ∀ h t, p.all.lookup h = some t → t.hash = h
  /-- every pooled transaction has an entry in the heap -/
  covered : ∀ h t, p.all.lookup h = some t → t ∈ p.priced.items.toList
  /-- the heap has at most `stales` entries beyond the pool's transactions -/
  stales : (p.priced.items.n : ℤ) - p.all.entries.length ≤ p.priced.stales
  heapT : ∀ x ∈ p.priced.items.toList, T x
  allT : ∀ h t, p.all.lookup h = some t → T t

/-- The pool's transactions, each once, are among the heap's entries. -/
theorem Inv.rangeTxs_subperm {p : PricedPool Address} (hp : Inv T p) :
    (rangeTxs p.all).Subperm (p.priced.items.toList.filter fun x => (p.all.lookup x.hash).isSome) := by
  refine List.Nodup.subperm ?_ fun t ht => ?_
  · -- two entries with one transaction have one key, its hash
    refine List.Nodup.map_on (fun e he e' he' heq => ?_) p.all.nodupKeys.nodup
    have hk := hp.keyed e.1 e.2 (AList.mem_lookup_iff.mpr he)
    have hk' := hp.keyed e'.1 e'.2 (AList.mem_lookup_iff.mpr he')
    exact Sigma.ext (hk.symm.trans (heq ▸ hk')) (heq_of_eq heq)
  · obtain ⟨h, hl⟩ := mem_rangeTxs.mp ht
    rw [List.mem_filter, hp.keyed h t hl, hl]
    exact ⟨hp.covered h t hl, rfl⟩

/-- Under hashes that tell transactions apart, a heap entry whose hash the pool holds is the
pooled transaction itself. -/
theorem Inv.eq_of_lookup {p : PricedPool Address} (hp : Inv T p) (hT : HashInj T)
    {x t : Transaction Address} (hx : x ∈ p.priced.items.toList) (hl : p.all.lookup x.hash = some t) :
    x = t :=
  hT x t (hp.heapT x hx) (hp.allT _ t hl) (hp.keyed _ t hl).symm

theorem Inv.insert {p : PricedPool Address} (hp : Inv T p) {tx : Transaction Address}
    (hT : T tx) : Inv T (p.insert tx) := by
  unfold PricedPool.insert
  split_ifs with h0
  · obtain ⟨ho, hperm⟩ := ArrayHeap.Push_spec hp.ordered tx
    have hmem : ∀ x, x ∈ (p.priced.Put tx).items.toList ↔ x ∈ p.priced.items.toList ∨ x = tx := by
      intro x
      rw [show (p.priced.Put tx).items = ArrayHeap.Push priceHeapKey p.priced.items tx from rfl,
        hperm.mem_iff, List.mem_append, List.mem_singleton]
    refine ⟨ho, fun h t hl => ?_, fun h t hl => ?_, ?_, fun x hx => ?_, fun h t hl => ?_⟩
    · rcases AList.lookup_insert_eq_some hl with ⟨rfl, rfl⟩ | ⟨-, hl⟩
      · rfl
      · exact hp.keyed h t hl
    · rcases AList.lookup_insert_eq_some hl with ⟨-, rfl⟩ | ⟨-, hl⟩
      · exact (hmem _).mpr (.inr rfl)
      · exact (hmem _).mpr (.inl (hp.covered h t hl))
    · -- one more entry in the heap and one more transaction in the pool
      have := hp.stales
      rw [AList.length_insert_of_lookup_eq_none h0]
      show ((p.priced.items.n + 1 : ℕ) : ℤ) - ((p.all.entries.length + 1 : ℕ) : ℤ) ≤ p.priced.stales
      push_cast
      omega
    · rcases (hmem x).mp hx with hx | rfl
      · exact hp.heapT x hx
      · exact hT
    · rcases AList.lookup_insert_eq_some hl with ⟨-, rfl⟩ | ⟨-, hl⟩
      · exact hT
      · exact hp.allT h t hl
  · exact hp

section Removal

variable [Inhabited Address]

/-- `removeTx(hash, false)` only takes the hash out of the lookup. -/
theorem removeTx_false (p : PricedPool Address) (hash : Hash) :
    p.removeTx hash false = { p with all := p.all.erase hash } := by
  unfold removeTx
  by_cases h0 : p.all.lookup hash = none
  · rw [if_pos h0, AList.erase_of_lookup_eq_none h0]
  · rw [if_neg h0, if_neg Bool.false_ne_true]

/-- The drops that follow `Cap` and `Discard` take each returned hash out of the lookup. -/
theorem foldl_removeTx_false (txs : List (Transaction Address)) (p : PricedPool Address) :
    txs.foldl (fun p tx => p.removeTx tx.hash false) p =
      { p with all := txs.foldl (fun a tx => a.erase tx.hash) p.all } := by
  induction txs generalizing p with
  | nil => rfl
  | cons tx txs ih => rw [List.foldl_cons, ih, removeTx_false, List.foldl_cons]

theorem Inv.init (locals : List Address) : Inv T ⟨∅, newTxPricedList, locals⟩ where
  ordered := fun c _ hc => absurd hc (by simp [newTxPricedList, ArrayHeap.ofList])
  keyed := by simp
  covered := by simp
  stales := by simp [newTxPricedList, ArrayHeap.ofList]
  heapT := by simp [newTxPricedList, ArrayHeap.ofList, ArrayHeap.toList]
  allT := by simp

/-- `discarded`: the hash leaves the lookup and `Removed` counts it, or rebuilds the heap. -/
theorem Inv.discarded {p : PricedPool Address} (hp : Inv T p) (hash : Hash) :
    Inv T (p.discarded hash) := by
  have hkeyed : ∀ h t, (p.all.erase hash).lookup h = some t → t.hash = h :=
    fun h t hl => hp.keyed h t (AList.lookup_erase_eq_some hl).2
  have hallT : ∀ h t, (p.all.erase hash).lookup h = some t → T t :=
    fun h t hl => hp.allT h t (AList.lookup_erase_eq_some hl).2
  unfold PricedPool.discarded txPricedList.Removed
  split_ifs with hq
  · -- one more stale entry counted
    refine ⟨hp.ordered, hkeyed, fun h t hl => hp.covered h t (AList.lookup_erase_eq_some hl).2,
      ?_, hp.heapT, hallT⟩
    have := hp.stales
    have := AList.length_le_length_erase_add_one (s := p.all) (a := hash)
    show (p.priced.items.n : ℤ) - (p.all.erase hash).entries.length ≤ p.priced.stales + 1
    omega
  · -- the heap rebuilt from the pool's transactions
    obtain ⟨ho, hperm⟩ := @ArrayHeap.Init_spec _ _ _ priceHeapKey
      (ArrayHeap.ofList (rangeTxs (p.all.erase hash)))
    rw [ArrayHeap.toList_ofList] at hperm
    refine ⟨ho, hkeyed, fun h t hl => hperm.mem_iff.mpr (mem_rangeTxs.mpr ⟨h, hl⟩), ?_,
      fun x hx => ?_, hallT⟩
    · show ((rangeTxs (p.all.erase hash)).length : ℤ) - (p.all.erase hash).entries.length ≤ 0
      simp [rangeTxs]
    · obtain ⟨h, hl⟩ := mem_rangeTxs.mp (hperm.mem_iff.mp hx)
      exact hallT h x hl

/-- `removeTx(hash, true)`: `discarded` for a hash the pool knows. -/
theorem Inv.removeTx {p : PricedPool Address} (hp : Inv T p) (hash : Hash) :
    Inv T (p.removeTx hash true) := by
  unfold PricedPool.removeTx
  by_cases h0 : p.all.lookup hash = none
  · rw [if_pos h0]
    exact hp
  · rw [if_neg h0, if_pos rfl]
    exact hp.discarded hash

/-- The lookup after the drops that follow `Cap` and `Discard`. -/
theorem lookup_foldl_removeTx_false (txs : List (Transaction Address)) (p : PricedPool Address)
    (h : Hash) : (txs.foldl (fun p tx => p.removeTx tx.hash false) p).all.lookup h =
      if h ∈ txs.map Transaction.hash then none else p.all.lookup h := by
  rw [foldl_removeTx_false]
  exact AList.lookup_foldl_erase Transaction.hash txs p.all h

section Popped

/- The priced list `l` is what pops off the pool's heap left (`Popped`): the stale entries `st`
and the entries `dr` that the pool goes on to drop. -/
variable {p : PricedPool Address} {l : txPricedList Address} {st dr : List (Transaction Address)}

omit [Inhabited Address] in
/-- A pooled transaction is left in the heap or is one of those to drop. -/
theorem Inv.mem_of_popped (hp : Inv T p) (hq : txPricedList.Popped p.all p.priced l st dr)
    {h : Hash} {t : Transaction Address} (hl : p.all.lookup h = some t) :
    t ∈ l.items.toList ∨ t ∈ dr := by
  rcases List.mem_append.mp (hq.perm.subset (hp.covered h t hl)) with ht | ht
  · rcases List.mem_append.mp ht with ht | ht
    · exact .inl ht
    · -- a stale entry is not in the pool, and `t` is
      have hs := hq.stale t ht
      rw [hp.keyed h t hl, hl] at hs
      cases hs
  · exact .inr ht

omit [Inhabited Address] in
/-- A pooled transaction whose hash is not among those to drop is left in the heap. -/
theorem Inv.mem_left_of_popped (hp : Inv T p) (hq : txPricedList.Popped p.all p.priced l st dr)
    {h : Hash} {t : Transaction Address} (hl : p.all.lookup h = some t)
    (hd : h ∉ dr.map Transaction.hash) : t ∈ l.items.toList := by
  refine (hp.mem_of_popped hq hl).resolve_right fun ht => hd ?_
  rw [← hp.keyed h t hl]
  exact List.mem_map_of_mem ht

omit [Inhabited Address] in
/-- Under hashes that tell transactions apart, a pooled transaction whose hash is among those to
drop is one of them. -/
theorem Inv.mem_dropped_of_popped (hp : Inv T p) (hT : HashInj T)
    (hq : txPricedList.Popped p.all p.priced l st dr) {h : Hash} {t : Transaction Address}
    (hl : p.all.lookup h = some t) (hd : h ∈ dr.map Transaction.hash) : t ∈ dr := by
  obtain ⟨x, hx, rfl⟩ := List.mem_map.mp hd
  rw [← hp.eq_of_lookup hT (hq.mem_right hx) hl]
  exact hx

/-- **Pops, then drops.**  What `Cap` and `Discard` leave, once the pool has dropped what they
return, keeps the invariant. -/
theorem Inv.popped (hp : Inv T p) (hq : txPricedList.Popped p.all p.priced l st dr) :
    Inv T (dr.foldl (fun p tx => p.removeTx tx.hash false) { p with priced := l }) := by
  have hlookup := lookup_foldl_removeTx_false dr { p with priced := l }
  rw [foldl_removeTx_false] at hlookup ⊢
  refine ⟨hq.ordered, fun h t hl => ?_, fun h t hl => ?_, ?_, fun x hx => ?_, fun h t hl => ?_⟩
  · rw [hlookup] at hl
    split_ifs at hl
    exact hp.keyed h t hl
  · rw [hlookup] at hl
    split_ifs at hl with hdr
    exact hp.mem_left_of_popped hq hl hdr
  · -- the heap lost `st` and `dr`, the count `st`, and the pool at most `dr`
    have h₁ := hp.stales
    have h₂ : p.all.entries.length ≤
        (dr.foldl (fun a tx => a.erase tx.hash) p.all).entries.length + dr.length :=
      AList.length_foldl_erase Transaction.hash dr p.all
    have h₃ := hq.perm.length_eq
    have h₄ := hq.stales
    simp only [List.length_append, ArrayHeap.length_toList] at h₃
    show (l.items.n : ℤ) - ((dr.foldl (fun a tx => a.erase tx.hash) p.all).entries.length : ℤ) ≤
      l.stales
    omega
  · exact hp.heapT x (hq.mem_left hx)
  · rw [hlookup] at hl
    split_ifs at hl
    exact hp.allT h t hl

end Popped

end Removal

section Steps

variable [DecidableEq Address] [Inhabited Address]

/-- `SetGasPrice`: `Cap`, then the drops. -/
theorem Inv.setGasPrice {p : PricedPool Address} (hp : Inv T p) (price : ℕ) :
    Inv T (p.SetGasPrice price) := by
  obtain ⟨⟨st, hq⟩, -⟩ := txPricedList.Cap_spec p.all p.locals hp.ordered price
  exact hp.popped hq

omit [Inhabited Address] in
/-- The check `add` makes before `Discard` (none for a local transaction, `Underpriced`
otherwise) only pops stale entries. -/
theorem Inv.underpriced {p : PricedPool Address} (hp : Inv T p) (tx : Transaction Address)
    (isLocal : Bool) : ∃ st, txPricedList.Popped p.all p.priced
      (if isLocal then (false, p.priced) else p.priced.Underpriced p.all p.locals tx).2 st [] := by
  cases isLocal
  · obtain ⟨hq, -⟩ := txPricedList.Underpriced_spec p.all p.locals hp.ordered tx
    exact hq
  · exact ⟨[], txPricedList.Popped.refl hp.ordered⟩

/-- `makeRoom`: the check, then `Discard` and the drops. -/
theorem Inv.makeRoom {p : PricedPool Address} (hp : Inv T p) (tx : Transaction Address)
    (isLocal : Bool) (slots : ℕ) : Inv T (p.makeRoom tx isLocal slots).2 := by
  obtain ⟨st, hq⟩ := hp.underpriced tx isLocal
  unfold PricedPool.makeRoom
  generalize (if isLocal then (false, p.priced) else p.priced.Underpriced p.all p.locals tx) = u
    at hq ⊢
  dsimp only
  split_ifs with hslots hu
  · -- refused: only stale entries left the heap
    exact hp.popped hq
  · obtain ⟨⟨st', hq'⟩, -⟩ :=
      txPricedList.Discard_spec p.all p.locals hq.ordered (p.all.entries.length + 1 - slots)
    exact hp.popped (hq.trans hq')
  · exact hp

/-- **The run lemma.**  Every state the pool reaches keeps the invariant. -/
theorem Reachable.inv {p : PricedPool Address} (h : Reachable T p) : Inv T p := by
  induction h with
  | init locals => exact Inv.init locals
  | insert tx hT _ ih => exact ih.insert hT
  | discarded hash _ ih => exact ih.discarded hash
  | removeTx hash _ ih => exact ih.removeTx hash
  | setGasPrice price _ ih => exact ih.setGasPrice price
  | makeRoom tx isLocal slots _ ih => exact ih.makeRoom tx isLocal slots
  | addLocal addr _ ih => exact { ih with }

/-- Transactions taken in one after another keep the pool reachable. -/
theorem Reachable.foldl_insert {p : PricedPool Address} (hp : Reachable T p)
    {txs : List (Transaction Address)} (hT : ∀ tx ∈ txs, T tx) : Reachable T (txs.foldl PricedPool.insert p) := by
  induction txs generalizing p with
  | nil => exact hp
  | cons tx txs ih =>
    exact ih (.insert tx (hT tx List.mem_cons_self) hp) fun t ht => hT t (List.mem_cons_of_mem _ ht)

end Steps

/-! ### What the priced list gives the pool -/

section Results

variable [DecidableEq Address] [Inhabited Address]

/-- Three transactions: a remote one at price 5, a remote one at price 1, and one at price 1
from the local account `2`. -/
def threeTxs : List (Transaction ℕ) :=
  [⟨Hash.ofBytes [1], 0, 21000, 5, 0, 1⟩, ⟨Hash.ofBytes [2], 0, 21000, 1, 0, 3⟩,
    ⟨Hash.ofBytes [3], 0, 21000, 1, 0, 2⟩]

/-- The pool that takes them in, in that order, with `2` its local account. -/
def threeTxsPool : PricedPool ℕ := threeTxs.foldl PricedPool.insert ⟨∅, newTxPricedList, [2]⟩

theorem threeTxs_hashInj : HashInj (· ∈ threeTxs) := fun a b ha hb h =>
  List.inj_on_of_nodup_map (by decide) ha hb h

theorem threeTxsPool_reachable : Reachable (· ∈ threeTxs) threeTxsPool :=
  Reachable.foldl_insert (.init [2]) fun _ h => h

/-- **The stale count.**  In every state the pool reaches, each of its transactions has an entry
in the heap, and the entries that stand for no pooled transaction are at most `stales`: the
count `Removed` compares with a quarter of the heap before it rebuilds it never falls short. -/
theorem stales_cover {p : PricedPool Address} (hr : Reachable T p) :
    (∀ h t, p.all.lookup h = some t → t ∈ p.priced.items.toList) ∧
      ((p.priced.items.toList.filter fun x => (p.all.lookup x.hash).isNone).length : ℤ) ≤
        p.priced.stales := by
  have hp := hr.inv
  refine ⟨hp.covered, ?_⟩
  have h₁ := hp.stales
  -- the live entries are at least the pool's transactions, each once
  have h₂ := hp.rangeTxs_subperm.length_le
  have h₃ := List.length_eq_length_filter_add (l := p.priced.items.toList)
    fun x => (p.all.lookup x.hash).isSome
  simp only [rangeTxs, List.length_map, ArrayHeap.length_toList] at h₂ h₃
  simp only [← Option.not_isSome]
  omega

theorem stales_cover_threeTxs :
    Reachable (· ∈ threeTxs) threeTxsPool ∧
      (∀ h t, threeTxsPool.all.lookup h = some t → t ∈ threeTxsPool.priced.items.toList) ∧
      ((threeTxsPool.priced.items.toList.filter
          fun x => (threeTxsPool.all.lookup x.hash).isNone).length : ℤ) ≤
        threeTxsPool.priced.stales :=
  ⟨threeTxsPool_reachable, stales_cover threeTxsPool_reachable⟩

/-- **`SetGasPrice` keeps exactly the local transactions and those at the price.**  In every
state the pool reaches, with hashes that tell transactions apart, the pool holds a hash after
`SetGasPrice(price)` exactly when it held it before for a transaction from a local account or
paying at least `price`, whatever stale entries and repeated entries the heap holds. -/
theorem SetGasPrice_lookup (hT : HashInj T) {p : PricedPool Address} (hr : Reachable T p)
    (price : ℕ) (h : Hash) :
    (p.SetGasPrice price).all.lookup h =
      (p.all.lookup h).filter fun t => decide (t.sender ∈ p.locals ∨ price ≤ t.gasPrice) := by
  have hp := hr.inv
  obtain ⟨⟨st, hq⟩, hdrop, hkeep⟩ := txPricedList.Cap_spec p.all p.locals hp.ordered price
  unfold SetGasPrice
  rw [lookup_foldl_removeTx_false]
  dsimp only
  cases hl : p.all.lookup h with
  | none => simp
  | some t =>
    by_cases hd : h ∈ (p.priced.Cap p.all p.locals price).2.map Transaction.hash
    · -- `Cap` returned `t`: it is remote and below the price
      obtain ⟨-, hrem, hlt⟩ := hdrop t (hp.mem_dropped_of_popped hT hq hl hd)
      rw [if_pos hd, Option.filter_some]
      simp [hrem, Nat.not_le.mpr hlt]
    · -- `t` is still in the heap: local or at the price
      rw [if_neg hd, Option.filter_some]
      simp [hkeep t (hp.mem_left_of_popped hq hl hd)]

theorem SetGasPrice_lookup_threeTxs :
    HashInj (· ∈ threeTxs) ∧ Reachable (· ∈ threeTxs) threeTxsPool ∧
      (threeTxsPool.SetGasPrice 3).all.lookup (Hash.ofBytes [2]) =
        (threeTxsPool.all.lookup (Hash.ofBytes [2])).filter
          fun t => decide (t.sender ∈ threeTxsPool.locals ∨ 3 ≤ t.gasPrice) :=
  ⟨threeTxs_hashInj, threeTxsPool_reachable,
    SetGasPrice_lookup threeTxs_hashInj threeTxsPool_reachable 3 (Hash.ofBytes [2])⟩

/-- **`Underpriced` compares with the cheapest pooled transaction.**  In every state the pool
reaches, with hashes that tell transactions apart and a pool that is not empty, the check never
finds the heap empty, and it refuses a transaction exactly when its sender is not local and it
pays no more than every pooled transaction, the local ones included. -/
theorem Underpriced_cheapest (hT : HashInj T) {p : PricedPool Address} (hr : Reachable T p)
    (hne : p.all.entries ≠ []) (tx : Transaction Address) :
    (p.priced.Underpriced p.all p.locals tx).2.items.n ≠ 0 ∧
      ((p.priced.Underpriced p.all p.locals tx).1 = true ↔
        tx.sender ∉ p.locals ∧ ∀ h t, p.all.lookup h = some t → tx.gasPrice ≤ t.gasPrice) := by
  have hp := hr.inv
  obtain ⟨⟨st, hq⟩, hroot, hiff⟩ := txPricedList.Underpriced_spec p.all p.locals hp.ordered tx
  set U := (p.priced.Underpriced p.all p.locals tx).2
  -- only stale entries were popped, so every pooled transaction is still in the heap
  have hmem : ∀ h t, p.all.lookup h = some t → t ∈ U.items.toList := fun h t hl =>
    hp.mem_left_of_popped hq hl (by simp)
  have hn : U.items.n ≠ 0 := by
    obtain ⟨e, he⟩ := List.exists_mem_of_ne_nil _ hne
    exact fun h0 => txPricedList.not_mem_toList_of_n_eq_zero h0
      (hmem e.1 e.2 (AList.mem_lookup_iff.mpr he))
  refine ⟨hn, hiff.trans ⟨fun ⟨hl, _, hle⟩ => ⟨hl, fun h t ht => ?_⟩, fun ⟨hl, hle⟩ => ⟨hl, hn, ?_⟩⟩⟩
  · -- the root is not dearer than any entry
    exact hle.trans (gasPrice_le_of_priceHeapKey_le
      (ArrayHeap.root_le_of_mem hq.ordered (hmem h t ht)))
  · -- the root is live, so it is a pooled transaction
    obtain ⟨t, ht⟩ := Option.ne_none_iff_exists'.mp ((hroot hl).resolve_left hn)
    rw [hp.eq_of_lookup hT (hq.mem_left (ArrayHeap.root_mem_toList (Nat.pos_of_ne_zero hn))) ht]
    exact hle _ t ht

theorem Underpriced_cheapest_threeTxs :
    HashInj (· ∈ threeTxs) ∧ Reachable (· ∈ threeTxs) threeTxsPool ∧
      threeTxsPool.all.entries ≠ [] ∧
      (threeTxsPool.priced.Underpriced threeTxsPool.all threeTxsPool.locals
          ⟨Hash.ofBytes [4], 0, 21000, 1, 0, 5⟩).2.items.n ≠ 0 ∧
      ((threeTxsPool.priced.Underpriced threeTxsPool.all threeTxsPool.locals
          ⟨Hash.ofBytes [4], 0, 21000, 1, 0, 5⟩).1 = true ↔
        (5 : ℕ) ∉ threeTxsPool.locals ∧
          ∀ h t, threeTxsPool.all.lookup h = some t → 1 ≤ t.gasPrice) :=
  ⟨threeTxs_hashInj, threeTxsPool_reachable, by decide +kernel,
    Underpriced_cheapest threeTxs_hashInj threeTxsPool_reachable (by decide +kernel)
      ⟨Hash.ofBytes [4], 0, 21000, 1, 0, 5⟩⟩

/-- **`makeRoom` drops the cheapest remote transactions.**  In every state the pool reaches,
with hashes that tell transactions apart, each transaction that `add` drops to make room is
remote and pays no more than any remote transaction the pool keeps. -/
theorem makeRoom_drops_cheapest (hT : HashInj T) {p : PricedPool Address} (hr : Reachable T p)
    (tx : Transaction Address) (isLocal : Bool) (slots : ℕ) (h : Hash) (t : Transaction Address)
    (hl : p.all.lookup h = some t) (hgone : (p.makeRoom tx isLocal slots).2.all.lookup h = none) :
    t.sender ∉ p.locals ∧ ∀ h' t', (p.makeRoom tx isLocal slots).2.all.lookup h' = some t' →
      t'.sender ∉ p.locals → t.gasPrice ≤ t'.gasPrice := by
  have hp := hr.inv
  obtain ⟨st, hq⟩ := hp.underpriced tx isLocal
  unfold PricedPool.makeRoom at hgone ⊢
  generalize (if isLocal then (false, p.priced) else p.priced.Underpriced p.all p.locals tx) = u
    at hq hgone ⊢
  dsimp only at hgone ⊢
  split_ifs at hgone ⊢ with hslots hu
  · -- refused: nothing left the pool
    rw [hl] at hgone
    cases hgone
  · obtain ⟨⟨st', hq'⟩, hdrop⟩ :=
      txPricedList.Discard_spec p.all p.locals hq.ordered (p.all.entries.length + 1 - slots)
    have hqq := hq.trans hq'
    rw [lookup_foldl_removeTx_false] at hgone
    dsimp only at hgone
    rw [hl] at hgone
    split_ifs at hgone with hd
    -- `t` is the entry `Discard` returned under its hash
    obtain ⟨-, hrem, hle⟩ := hdrop t (hp.mem_dropped_of_popped hT hqq hl hd)
    refine ⟨hrem, fun h' t' hl' hrem' => ?_⟩
    rw [lookup_foldl_removeTx_false] at hl'
    dsimp only at hl'
    split_ifs at hl' with hd'
    -- a kept transaction was not returned, so it is still in the heap
    exact gasPrice_le_of_priceHeapKey_le (hle t' (hp.mem_left_of_popped hqq hl' hd') hrem')
  · rw [hl] at hgone
    cases hgone

theorem makeRoom_drops_cheapest_threeTxs :
    HashInj (· ∈ threeTxs) ∧ Reachable (· ∈ threeTxs) threeTxsPool ∧
      threeTxsPool.all.lookup (Hash.ofBytes [2]) = some ⟨Hash.ofBytes [2], 0, 21000, 1, 0, 3⟩ ∧
      (threeTxsPool.makeRoom ⟨Hash.ofBytes [4], 0, 21000, 10, 0, 5⟩ false 3).2.all.lookup
        (Hash.ofBytes [2]) = none ∧
      (3 : ℕ) ∉ threeTxsPool.locals ∧
      ∀ h' t', (threeTxsPool.makeRoom ⟨Hash.ofBytes [4], 0, 21000, 10, 0, 5⟩ false 3).2.all.lookup
          h' = some t' → t'.sender ∉ threeTxsPool.locals → 1 ≤ t'.gasPrice :=
  ⟨threeTxs_hashInj, threeTxsPool_reachable, by decide +kernel, by decide +kernel,
    makeRoom_drops_cheapest threeTxs_hashInj threeTxsPool_reachable
      ⟨Hash.ofBytes [4], 0, 21000, 10, 0, 5⟩ false 3 (Hash.ofBytes [2])
      ⟨Hash.ofBytes [2], 0, 21000, 1, 0, 3⟩ (by decide +kernel) (by decide +kernel)⟩

end Results

end PricedPool

end Atlantis.Core
