import Atlantis.Core.TxList
import Atlantis.Lib.Heap
import Mathlib.Data.List.Sort
import Mathlib.Data.List.Nodup

/-!
# The representation of the nonce-sorted map

`core/tx_list.go` keeps a `txSortedMap` as three parts: the map `items` from nonces to
transactions, the heap `index` of the nonces (Go's `container/heap`, here `ArrayHeap`), and
`cache`, the transactions in nonce order once `Flatten` has sorted them, or nil.  Module
`TxList` models the same type by the one list the three parts stand for (`TxSortedMap`).  This
module models the parts themselves, each operation as the source writes it, and proves that
the parts refine that list (`Refines`): the map holds exactly its transactions, each under its
nonce; the heap holds exactly their nonces, once each, in heap order; and the cache is nil or
the list itself.

The map is the list of its entries, in the order a `range` over it visits them; the source's
order is random, and the lemmas hold for every order.  A transaction the map would lack where
the source reads it (a nil pointer in Go) is dropped from the result: `Refines` shows the map
has every nonce of the heap, so this never happens.  `Cap` takes a `Nat`: the source slices
the heap at the threshold, which panics for a negative one.
-/

namespace Atlantis.Core

open List

variable {Address : Type}

/-! ## The map from nonces -/

/-- `m.items[nonce]`: the transaction under a nonce. -/
def lookup (items : List (Nat × Transaction Address)) (nonce : Nat) : Option (Transaction Address) :=
  (items.find? fun p => p.1 = nonce).map Prod.snd

/-- `delete(m.items, nonce)`. -/
def delete (items : List (Nat × Transaction Address)) (nonce : Nat) : List (Nat × Transaction Address) :=
  items.filter fun p => p.1 ≠ nonce

/-- `m.items[nonce] = tx`: in place of the entry of the nonce, or as a new entry. -/
def insert (items : List (Nat × Transaction Address)) (nonce : Nat) (tx : Transaction Address) :
    List (Nat × Transaction Address) :=
  if (lookup items nonce).isSome then items.map fun p => if p.1 = nonce then (nonce, tx) else p
  else items ++ [(nonce, tx)]

/-- The order of the nonce heap, `nonceHeap.Less`. -/
abbrev nonceKey : Nat → Nat := id

/-- A heap array holding the nonces of a list, in its order, as the source builds one by
appending to an empty slice. -/
def heapOf (nonces : List Nat) : ArrayHeap Nat := ⟨fun k => nonces.getD k 0, nonces.length⟩

/-- `txSortedMap`: the map, the nonce heap, and the cache of the sorted transactions. -/
structure txSortedMap (Address : Type) where
  items : List (Nat × Transaction Address)
  index : ArrayHeap Nat
  cache : Option (List (Transaction Address))

namespace txSortedMap

/-- `newTxSortedMap`. -/
def newTxSortedMap : txSortedMap Address := ⟨[], heapOf [], none⟩

/-- `Get`. -/
def Get (m : txSortedMap Address) (nonce : Nat) : Option (Transaction Address) :=
  lookup m.items nonce

/-- `Put`: a new nonce goes on the heap; the transaction goes in the map; the cache goes. -/
def Put (m : txSortedMap Address) (tx : Transaction Address) : txSortedMap Address :=
  let index := if (lookup m.items tx.nonce).isNone then ArrayHeap.Push nonceKey m.index tx.nonce
    else m.index
  ⟨insert m.items tx.nonce tx, index, none⟩

/-- The loop of `Forward`: pop the heap while its least nonce is below the threshold, taking
the transaction of each nonce out of the map.  It pops at most as often as the heap has
entries, the `fuel`. -/
def forwardLoop (threshold : Nat) :
    Nat → txSortedMap Address → List (Transaction Address) →
      List (Transaction Address) × txSortedMap Address
  | 0, m, removed => (removed, m)
  | fuel + 1, m, removed =>
    if 0 < m.index.n ∧ m.index.a 0 < threshold then
      let popped := ArrayHeap.Pop nonceKey m.index
      forwardLoop threshold fuel ⟨delete m.items popped.2, popped.1, m.cache⟩
        (removed ++ (lookup m.items popped.2).toList)
    else (removed, m)

/-- `Forward`: the transactions below the threshold, popped off the heap; the cache loses as
many from its front. -/
def Forward (m : txSortedMap Address) (threshold : Nat) :
    List (Transaction Address) × txSortedMap Address :=
  let r := forwardLoop threshold m.index.n m []
  (r.1, { r.2 with cache := r.2.cache.map (·.drop r.1.length) })

/-- `Filter`: the transactions `filter` holds of leave the map; if there are any, the heap is
rebuilt from the nonces left and the cache goes. -/
def Filter (m : txSortedMap Address) (filter : Transaction Address → Bool) :
    List (Transaction Address) × txSortedMap Address :=
  let removed := (m.items.filter fun p => filter p.2).map Prod.snd
  let items := m.items.filter fun p => !filter p.2
  if 0 < removed.length then
    (removed, ⟨items, ArrayHeap.Init nonceKey (heapOf (items.map Prod.fst)), none⟩)
  else (removed, ⟨items, m.index, m.cache⟩)

/-- `Cap`: the heap sorted; the nonces past the threshold, highest first, leave the map; the
heap keeps the first `threshold` and is rebuilt; the cache loses as many from its back. -/
def Cap (m : txSortedMap Address) (threshold : Nat) :
    List (Transaction Address) × txSortedMap Address :=
  if m.items.length ≤ threshold then ([], m)
  else
    let sorted := m.index.toList.mergeSort fun a b => decide (a ≤ b)
    -- `(*m.index)[size-1]` for `size` from `len(m.items)` down to `threshold + 1`
    let dropped := ((sorted.take m.items.length).drop threshold).reverse
    let drops := dropped.filterMap (lookup m.items)
    (drops, ⟨dropped.foldl delete m.items,
      ArrayHeap.Init nonceKey (heapOf (sorted.take threshold)),
      m.cache.map fun c => c.take (c.length - drops.length)⟩)

/-- `Remove`: if the map has the nonce, the first heap entry of it is removed from the heap,
the transaction from the map, and the cache goes. -/
def Remove (m : txSortedMap Address) (nonce : Nat) : Bool × txSortedMap Address :=
  if (lookup m.items nonce).isNone then (false, m)
  else
    let index := match (List.range m.index.n).find? (fun i => m.index.a i = nonce) with
      | some i => (ArrayHeap.Remove nonceKey m.index i).1
      | none => m.index
    (true, ⟨delete m.items nonce, index, none⟩)

/-- The loop of `Ready`: pop the heap while its least nonce is `next`, the next one of the
run, taking the transaction out of the map. -/
def readyLoop :
    Nat → Nat → txSortedMap Address → List (Transaction Address) →
      List (Transaction Address) × txSortedMap Address
  | 0, _, m, ready => (ready, m)
  | fuel + 1, next, m, ready =>
    if 0 < m.index.n ∧ m.index.a 0 = next then
      readyLoop fuel (next + 1) ⟨delete m.items next, (ArrayHeap.Pop nonceKey m.index).1, m.cache⟩
        (ready ++ (lookup m.items next).toList)
    else (ready, m)

/-- `Ready`: nothing if the heap is empty or its least nonce is above `start`; otherwise the
run of consecutive nonces from the least one, and the cache goes. -/
def Ready (m : txSortedMap Address) (start : Nat) :
    List (Transaction Address) × txSortedMap Address :=
  if m.index.n = 0 ∨ start < m.index.a 0 then ([], m)
  else
    let r := readyLoop m.index.n (m.index.a 0) m []
    (r.1, { r.2 with cache := none })

/-- `Len`. -/
def Len (m : txSortedMap Address) : Nat := m.items.length

/-- `Flatten`: the cache, sorted from the map by nonce if it was nil. -/
def Flatten (m : txSortedMap Address) : List (Transaction Address) × txSortedMap Address :=
  let cache := match m.cache with
    | some c => c
    | none => (m.items.map Prod.snd).mergeSort fun a b => decide (a.nonce ≤ b.nonce)
  (cache, { m with cache := some cache })

end txSortedMap

/-! ## The map holds a list -/

/-- Nonce order of transactions: what `TxSortedMap` keeps. -/
abbrev NonceLt (a b : Transaction Address) : Prop := a.nonce < b.nonce

/-- The map holds the transactions of `l`, each under its nonce. -/
structure Holds (items : List (Nat × Transaction Address)) (l : List (Transaction Address)) :
    Prop where
  keys : ∀ p ∈ items, p.1 = p.2.nonce
  perm : items.map Prod.snd ~ l

section Holds

variable {items : List (Nat × Transaction Address)} {l : List (Transaction Address)}

/-- The nonces of a nonce-sorted list are distinct. -/
theorem nodup_map_nonce (hl : l.Pairwise NonceLt) : (l.map Transaction.nonce).Nodup :=
  List.pairwise_map.mpr (hl.imp fun h => h.ne)

theorem Holds.keys_perm (h : Holds items l) : items.map Prod.fst ~ l.map Transaction.nonce := by
  have hk : items.map Prod.fst = (items.map Prod.snd).map Transaction.nonce := by
    rw [List.map_map]
    exact List.map_congr_left fun p hp => h.keys p hp
  rw [hk]
  exact h.perm.map _

theorem Holds.mem_iff (h : Holds items l) {p : Nat × Transaction Address} :
    p ∈ items ↔ p.2 ∈ l ∧ p.1 = p.2.nonce := by
  constructor
  · intro hp
    exact ⟨h.perm.subset (List.mem_map_of_mem hp), h.keys p hp⟩
  · rintro ⟨hl, hk⟩
    obtain ⟨q, hq, hqp⟩ := List.mem_map.mp (h.perm.symm.subset hl)
    have hqk := h.keys q hq
    have : q = p := Prod.ext (by rw [hqk, hk, hqp]) hqp
    exact this ▸ hq

/-- The map finds a transaction under a nonce exactly when the list has it. -/
theorem Holds.lookup_eq_some (h : Holds items l) (hl : l.Pairwise NonceLt) {n : Nat}
    {t : Transaction Address} : lookup items n = some t ↔ t ∈ l ∧ t.nonce = n := by
  constructor
  · intro ht
    obtain ⟨p, hp, rfl⟩ := Option.map_eq_some_iff.mp ht
    have hmem := List.mem_of_find?_eq_some hp
    have hn : p.1 = n := by simpa using List.find?_some hp
    exact ⟨h.perm.subset (List.mem_map_of_mem hmem), (h.keys p hmem).symm.trans hn⟩
  · rintro ⟨htl, rfl⟩
    have hmem : (t.nonce, t) ∈ items := h.mem_iff.mpr ⟨htl, rfl⟩
    have hsome : (items.find? fun p => decide (p.1 = t.nonce)).isSome :=
      List.find?_isSome.mpr ⟨(t.nonce, t), hmem, by simp⟩
    obtain ⟨q, hq⟩ := Option.isSome_iff_exists.mp hsome
    have hqmem := List.mem_of_find?_eq_some hq
    have hqn : q.1 = t.nonce := by simpa using List.find?_some hq
    -- one transaction of the list has that nonce
    have hq2 : q.2 = t := List.inj_on_of_nodup_map (nodup_map_nonce hl)
      (h.perm.subset (List.mem_map_of_mem hqmem)) htl ((h.keys q hqmem).symm.trans hqn)
    rw [lookup, hq, Option.map_some, hq2]

theorem Holds.lookup_eq_none (h : Holds items l) {n : Nat} :
    lookup items n = none ↔ ∀ t ∈ l, t.nonce ≠ n := by
  simp only [lookup, Option.map_eq_none_iff, List.find?_eq_none, decide_eq_true_eq]
  constructor
  · intro hn t ht htn
    exact hn (t.nonce, t) (h.mem_iff.mpr ⟨ht, rfl⟩) htn
  · intro hn p hp hpn
    exact hn p.2 (h.mem_iff.mp hp).1 ((h.mem_iff.mp hp).2 ▸ hpn)

theorem Holds.filter (h : Holds items l) (f : Transaction Address → Bool) :
    Holds (items.filter fun p => f p.2) (l.filter f) := by
  refine ⟨fun p hp => h.keys p (List.mem_filter.mp hp).1, ?_⟩
  have := h.perm.filter f
  rwa [List.filter_map] at this

theorem Holds.delete (h : Holds items l) (n : Nat) :
    Holds (delete items n) (l.filter fun t => t.nonce ≠ n) := by
  have hf : Core.delete items n = items.filter fun p => decide (p.2.nonce ≠ n) := by
    refine List.filter_congr fun p hp => ?_
    rw [h.keys p hp]
  rw [hf]
  exact h.filter fun t => decide (t.nonce ≠ n)

theorem Holds.foldl_delete (h : Holds items l) (ns : List Nat) :
    Holds (ns.foldl Core.delete items) (l.filter fun t => t.nonce ∉ ns) := by
  induction ns generalizing items l with
  | nil => simpa using h
  | cons n ns ih =>
    rw [List.foldl_cons]
    have := ih (h.delete n)
    rw [List.filter_filter] at this
    have hf : (l.filter fun t => decide (t.nonce ∉ n :: ns)) =
        l.filter fun t => decide (t.nonce ∉ ns) && decide (t.nonce ≠ n) := by
      refine List.filter_congr fun t _ => ?_
      simp only [List.mem_cons, not_or, Bool.decide_and, Bool.and_comm]
    rwa [hf]

end Holds

/-! ## Nonce-sorted lists -/

section Sorted

variable {l : List (Transaction Address)}

/-- Two nonce-sorted lists of the same transactions are equal. -/
theorem eq_of_perm_of_nonceLt {l₁ l₂ : List (Transaction Address)} (hp : l₁ ~ l₂)
    (h₁ : l₁.Pairwise NonceLt) (h₂ : l₂.Pairwise NonceLt) : l₁ = l₂ := by
  exact hp.eq_of_pairwise (fun _ _ _ _ h h' => absurd (h.trans h') (lt_irrefl _)) h₁ h₂

/-- Sorting the transactions of a nonce-sorted list by nonce gives the list. -/
theorem mergeSort_eq_of_perm {l' : List (Transaction Address)} (hp : l' ~ l)
    (hl : l.Pairwise NonceLt) : l'.mergeSort (fun a b => decide (a.nonce ≤ b.nonce)) = l := by
  have hperm := (List.mergeSort_perm l' fun a b => decide (a.nonce ≤ b.nonce)).trans hp
  have hle : (l'.mergeSort fun a b => decide (a.nonce ≤ b.nonce)).Pairwise
      (fun a b => decide (a.nonce ≤ b.nonce) = true) :=
    List.pairwise_mergeSort (fun a b c hab hbc => by simp only [decide_eq_true_eq] at *; omega)
      (fun a b => by simp only [Bool.or_eq_true, decide_eq_true_eq]; omega) l'
  refine eq_of_perm_of_nonceLt hperm ?_ hl
  have hnd' : ((l'.mergeSort fun a b => decide (a.nonce ≤ b.nonce)).map Transaction.nonce).Nodup :=
    (hperm.map _).nodup_iff.mpr (nodup_map_nonce hl)
  refine (hle.and (List.pairwise_map.mp hnd')).imp fun ⟨h₁, h₂⟩ => ?_
  simp only [decide_eq_true_eq] at h₁
  exact lt_of_le_of_ne h₁ h₂

/-- The front of a nonce-sorted list while a property of lower nonces holds is the part of
the list that has it. -/
theorem takeWhile_nonce_lt (hl : l.Pairwise NonceLt) (t : Nat) :
    l.takeWhile (fun x => x.nonce < t) = l.filter (fun x => x.nonce < t) := by
  induction l with
  | nil => rfl
  | cons x l ih =>
    rw [List.pairwise_cons] at hl
    by_cases hx : x.nonce < t
    · rw [List.takeWhile_cons_of_pos (by simpa using hx), List.filter_cons_of_pos (by simpa using hx),
        ih hl.2]
    · rw [List.takeWhile_cons_of_neg (by simpa using hx), List.filter_cons_of_neg (by simpa using hx),
        eq_comm, List.filter_eq_nil_iff]
      intro y hy
      have := hl.1 y hy
      simp only [decide_eq_true_eq]
      omega

theorem dropWhile_nonce_lt (hl : l.Pairwise NonceLt) (t : Nat) :
    l.dropWhile (fun x => x.nonce < t) = l.filter (fun x => ¬ x.nonce < t) := by
  induction l with
  | nil => rfl
  | cons x l ih =>
    rw [List.pairwise_cons] at hl
    by_cases hx : x.nonce < t
    · rw [List.dropWhile_cons_of_pos (by simpa using hx), List.filter_cons_of_neg (by simpa using hx),
        ih hl.2]
    · rw [List.dropWhile_cons_of_neg (by simpa using hx), List.filter_cons_of_pos (by simpa using hx),
        List.filter_eq_self.mpr]
      intro y hy
      have := hl.1 y hy
      simp only [decide_eq_true_eq]
      omega

theorem drop_length_takeWhile (p : Transaction Address → Bool) (l : List (Transaction Address)) :
    l.drop (l.takeWhile p).length = l.dropWhile p := by
  calc l.drop (l.takeWhile p).length
      = (l.takeWhile p ++ l.dropWhile p).drop (l.takeWhile p).length := by
        rw [List.takeWhile_append_dropWhile]
    _ = l.dropWhile p := List.drop_left

/-- Taking out the one transaction of a nonce: what is left, with that nonce in front, has
the same nonces. -/
theorem perm_cons_filter_ne (hl : l.Pairwise NonceLt) {t : Transaction Address} (ht : t ∈ l) :
    l.map Transaction.nonce ~ t.nonce :: (l.filter fun x => x.nonce ≠ t.nonce).map Transaction.nonce := by
  have hnd := nodup_map_nonce hl
  refine (List.perm_ext_iff_of_nodup hnd ?_).mpr fun n => ?_
  · refine List.nodup_cons.mpr ⟨?_, (nodup_map_nonce (hl.filter _))⟩
    simp
  · simp only [List.mem_map, List.mem_cons, List.mem_filter, decide_eq_true_eq]
    constructor
    · rintro ⟨x, hx, rfl⟩
      by_cases hxt : x.nonce = t.nonce
      · exact Or.inl hxt
      · exact Or.inr ⟨x, ⟨hx, hxt⟩, rfl⟩
    · rintro (rfl | ⟨x, ⟨hx, -⟩, rfl⟩)
      · exact ⟨t, ht, rfl⟩
      · exact ⟨x, hx, rfl⟩

/-- Over a nonce it holds, `putItem` puts `tx` in place of the transaction of that nonce. -/
theorem putItem_eq_map {tx : Transaction Address} (hl : l.Pairwise NonceLt)
    (hm : ∃ t ∈ l, t.nonce = tx.nonce) :
    putItem tx l = l.map fun x => if x.nonce = tx.nonce then tx else x := by
  induction l with
  | nil => simp at hm
  | cons t ts ih =>
    rw [List.pairwise_cons] at hl
    unfold putItem
    split_ifs with hlt heq
    · -- every nonce of the list is above `tx.nonce`
      exfalso
      obtain ⟨x, hx, hxn⟩ := hm
      rcases List.mem_cons.mp hx with rfl | hx
      · omega
      · have := hl.1 x hx
        omega
    · have hts : ts.map (fun x => if x.nonce = tx.nonce then tx else x) = ts := by
        refine (List.map_congr_left fun x hx => ?_).trans (List.map_id ts)
        have := hl.1 x hx
        rw [if_neg (by omega), id]
      rw [List.map_cons, if_pos heq.symm, hts]
    · have hts : ∃ x ∈ ts, x.nonce = tx.nonce := by
        obtain ⟨x, hx, hxn⟩ := hm
        rcases List.mem_cons.mp hx with rfl | hx
        · exact absurd hxn.symm heq
        · exact ⟨x, hx, hxn⟩
      rw [List.map_cons, if_neg (Ne.symm heq), ih hl.2 hts]

/-- Over a nonce it does not hold, `putItem` adds `tx`. -/
theorem putItem_perm_cons {tx : Transaction Address} (hn : ∀ t ∈ l, t.nonce ≠ tx.nonce) :
    putItem tx l ~ tx :: l := by
  induction l with
  | nil => exact List.Perm.refl _
  | cons t ts ih =>
    unfold putItem
    split_ifs with hlt heq
    · exact List.Perm.refl _
    · exact absurd heq.symm (hn t (List.mem_cons_self ..))
    · exact ((ih fun x hx => hn x (List.mem_cons_of_mem t hx)).cons t).trans (List.Perm.swap tx t ts)

/-- The first transaction of a nonce-sorted list is the one of its nonce. -/
theorem filter_nonce_ne_head {t : Transaction Address} {ts : List (Transaction Address)}
    (hl : (t :: ts).Pairwise NonceLt) : (t :: ts).filter (fun x => x.nonce ≠ t.nonce) = ts := by
  rw [List.filter_cons_of_neg (by simp), List.filter_eq_self]
  intro x hx
  simpa using (List.rel_of_pairwise_cons hl hx).ne'

/-- Taking out the transactions of the nonces past the first `k` leaves the first `k`. -/
theorem filter_not_mem_drop (hl : l.Pairwise NonceLt) (k : Nat) :
    (l.filter fun x => x.nonce ∉ ((l.drop k).map Transaction.nonce).reverse) = l.take k := by
  have hnd := nodup_map_nonce hl
  rw [← List.take_append_drop k l, List.map_append, List.nodup_append] at hnd
  generalize hd : ((l.drop k).map Transaction.nonce).reverse = d
  have hmem : ∀ n, n ∈ d ↔ n ∈ (l.drop k).map Transaction.nonce := by
    rw [← hd]
    simp
  conv_lhs => rw [← List.take_append_drop k l]
  rw [List.filter_append, List.filter_eq_self.mpr, List.filter_eq_nil_iff.mpr, List.append_nil]
  · intro x hx
    simpa [hmem] using List.mem_map_of_mem hx
  · intro x hx
    simp only [hmem, decide_eq_true_eq]
    exact fun hd => hnd.2.2 _ (List.mem_map_of_mem hx) _ hd rfl

end Sorted

/-- Taking `x` off a list whose entries are `x` and `c` leaves `c`. -/
theorem perm_of_perm_append_singleton {α : Type} {a b c : List α} {x : α} (hp : a ~ b ++ [x])
    (ha : a ~ x :: c) : b ~ c :=
  (List.perm_cons x).mp ((List.perm_append_singleton x b).symm.trans (hp.symm.trans ha))

/-! ## The heap holds the nonces -/

theorem toList_heapOf (nonces : List Nat) : (heapOf nonces).toList = nonces := by
  refine List.ext_getElem (by simp [ArrayHeap.toList, heapOf]) fun k h₁ h₂ => ?_
  simp [ArrayHeap.toList, heapOf, List.getElem?_eq_getElem h₂]

/-- The root of a heap of the nonces of a nonce-sorted list is the first nonce. -/
theorem root_eq_head {h : ArrayHeap Nat} {t : Transaction Address} {ts : List (Transaction Address)}
    (hp : h.toList ~ (t :: ts).map Transaction.nonce) (ho : ArrayHeap.Ordered nonceKey h.a h.n)
    (hl : (t :: ts).Pairwise NonceLt) : 0 < h.n ∧ h.a 0 = t.nonce := by
  have hn : 0 < h.n := by
    have := hp.length_eq
    simp [ArrayHeap.toList] at this
    omega
  refine ⟨hn, le_antisymm ?_ ?_⟩
  · -- the first nonce is in the heap, so not below the root
    obtain ⟨k, hk, hkt⟩ := List.mem_map.mp (hp.symm.subset (List.mem_cons_self (a := t.nonce)))
    rw [← hkt]
    exact ho.root_le k (List.mem_range.mp hk)
  · -- the root is a nonce of the list, so not below the first
    obtain ⟨x, hx, hxr⟩ := List.mem_map.mp (hp.subset (List.mem_map_of_mem (List.mem_range.mpr hn)))
    rw [← hxr]
    rcases List.mem_cons.mp hx with rfl | hx
    · exact le_rfl
    · exact (List.rel_of_pairwise_cons hl hx).le

/-! ## The refinement -/

/-- The map and the heap stand for `l`: the map holds its transactions under their nonces, and
the heap holds their nonces in heap order. -/
structure Rep (m : txSortedMap Address) (l : List (Transaction Address)) : Prop where
  holds : Holds m.items l
  index : m.index.toList ~ l.map Transaction.nonce
  ordered : ArrayHeap.Ordered nonceKey m.index.a m.index.n

/-- The three parts stand for `s`: the map and the heap as `Rep` says, and the cache is nil or
the list itself. -/
structure Refines (m : txSortedMap Address) (s : TxSortedMap Address) : Prop where
  rep : Rep m s.items
  cache : ∀ c, m.cache = some c → c = s.items

section Rep

variable {m : txSortedMap Address} {l : List (Transaction Address)}

theorem Rep.n_eq (h : Rep m l) : m.index.n = l.length := by
  simpa [ArrayHeap.toList] using h.index.length_eq

theorem Rep.length_items (h : Rep m l) : m.items.length = l.length := by
  simpa using h.holds.perm.length_eq

/-- The heap's root is the least nonce: popping it takes the first transaction off the list. -/
theorem Rep.pop {t : Transaction Address} {ts : List (Transaction Address)} (h : Rep m (t :: ts))
    (hl : (t :: ts).Pairwise NonceLt) (c : Option (List (Transaction Address))) :
    (ArrayHeap.Pop nonceKey m.index).2 = t.nonce ∧ lookup m.items t.nonce = some t ∧
      Rep ⟨delete m.items t.nonce, (ArrayHeap.Pop nonceKey m.index).1, c⟩ ts := by
  obtain ⟨hn, hroot⟩ := root_eq_head h.index h.ordered hl
  obtain ⟨ho, hx, hp⟩ := ArrayHeap.Pop_spec h.ordered hn
  have hx' : (ArrayHeap.Pop nonceKey m.index).2 = t.nonce := hx.trans hroot
  refine ⟨hx', (h.holds.lookup_eq_some hl).mpr ⟨List.mem_cons_self .., rfl⟩, ⟨?_, ?_, ho⟩⟩
  · have := h.holds.delete t.nonce
    rwa [filter_nonce_ne_head hl] at this
  · rw [hx'] at hp
    exact perm_of_perm_append_singleton hp h.index

/-- **The loop of `Forward`** takes off the front of the list below the threshold, in order,
when it has fuel for every entry; the cache is left to `Forward`. -/
theorem forwardLoop_spec (threshold : Nat) :
    ∀ (fuel : Nat) (m : txSortedMap Address) (l removed : List (Transaction Address)),
      Rep m l → l.Pairwise NonceLt → l.length ≤ fuel →
      (txSortedMap.forwardLoop threshold fuel m removed).1 =
          removed ++ l.takeWhile (fun x => x.nonce < threshold) ∧
        Rep (txSortedMap.forwardLoop threshold fuel m removed).2
          (l.dropWhile fun x => x.nonce < threshold) ∧
        (txSortedMap.forwardLoop threshold fuel m removed).2.cache = m.cache
  | 0, m, l, removed, h, _, hlen => by
    obtain rfl := List.length_eq_zero_iff.mp (Nat.le_zero.mp hlen)
    exact ⟨by simp [txSortedMap.forwardLoop], h, rfl⟩
  | _ + 1, m, [], removed, h, _, _ => by
    -- an empty heap stops the loop
    have hn : m.index.n = 0 := h.n_eq
    simp only [txSortedMap.forwardLoop, hn, lt_irrefl, false_and, if_false]
    exact ⟨by simp, h, trivial⟩
  | fuel + 1, m, t :: ts, removed, h, hl, hlen => by
    obtain ⟨hn, hroot⟩ := root_eq_head h.index h.ordered hl
    by_cases ht : t.nonce < threshold
    · -- the root is the first nonce: pop it and go on with the rest
      obtain ⟨hx, hlook, hrep⟩ := h.pop hl m.cache
      have ih := forwardLoop_spec threshold fuel _ ts (removed ++ [t]) hrep
        (List.pairwise_cons.mp hl).2 (by simp at hlen; omega)
      simp only [txSortedMap.forwardLoop, hroot, hn, ht, and_self, if_true, hx, hlook,
        Option.toList_some]
      rw [List.takeWhile_cons_of_pos (by simpa using ht), List.dropWhile_cons_of_pos (by simpa using ht)]
      simpa using ih
    · simp only [txSortedMap.forwardLoop, hroot, ht, and_false, if_false]
      rw [List.takeWhile_cons_of_neg (by simpa using ht), List.dropWhile_cons_of_neg (by simpa using ht)]
      exact ⟨by simp, h, trivial⟩

/-- **The loop of `Ready`** takes off the run of consecutive nonces from `next`, in order,
when it has fuel for every entry. -/
theorem readyLoop_spec :
    ∀ (fuel next : Nat) (m : txSortedMap Address) (l ready : List (Transaction Address)),
      Rep m l → l.Pairwise NonceLt → l.length ≤ fuel →
      (txSortedMap.readyLoop fuel next m ready).1 = ready ++ l.take (readyLen next l) ∧
        Rep (txSortedMap.readyLoop fuel next m ready).2 (l.drop (readyLen next l)) ∧
        (txSortedMap.readyLoop fuel next m ready).2.cache = m.cache
  | 0, next, m, l, ready, h, _, hlen => by
    obtain rfl := List.length_eq_zero_iff.mp (Nat.le_zero.mp hlen)
    exact ⟨by simp [txSortedMap.readyLoop], h, rfl⟩
  | _ + 1, next, m, [], ready, h, _, _ => by
    have hn : m.index.n = 0 := h.n_eq
    simp only [txSortedMap.readyLoop, hn, lt_irrefl, false_and, if_false]
    exact ⟨by simp [readyLen], h, trivial⟩
  | fuel + 1, next, m, t :: ts, ready, h, hl, hlen => by
    obtain ⟨hn, hroot⟩ := root_eq_head h.index h.ordered hl
    by_cases ht : t.nonce = next
    · -- the root is `next`: pop it and look for `next + 1`
      subst ht
      obtain ⟨-, hlook, hrep⟩ := h.pop hl m.cache
      have ih := readyLoop_spec fuel (t.nonce + 1) _ ts (ready ++ [t]) hrep
        (List.pairwise_cons.mp hl).2 (by simp at hlen; omega)
      simp only [txSortedMap.readyLoop, hroot, hn, and_self, if_true, hlook, Option.toList_some]
      rw [readyLen, if_pos rfl, List.take_succ_cons, List.drop_succ_cons]
      simpa using ih
    · simp only [txSortedMap.readyLoop, hroot, ht, and_false, if_false]
      rw [readyLen, if_neg ht]
      exact ⟨by simp, h, trivial⟩

/-- Sorted, the heap is the list's nonces. -/
theorem mergeSort_index (h : Rep m l) (hl : l.Pairwise NonceLt) :
    m.index.toList.mergeSort (fun a b => decide (a ≤ b)) = l.map Transaction.nonce := by
  have hle : (m.index.toList.mergeSort fun a b => decide (a ≤ b)).Pairwise
      (fun a b => decide (a ≤ b) = true) :=
    List.pairwise_mergeSort (fun a b c hab hbc => by simp only [decide_eq_true_eq] at *; omega)
      (fun a b => by simp only [Bool.or_eq_true, decide_eq_true_eq]; omega) m.index.toList
  refine ((List.mergeSort_perm _ _).trans h.index).eq_of_pairwise (fun a b _ _ hab hba => ?_) hle ?_
  · simp only [decide_eq_true_eq] at hab hba
    omega
  · exact List.pairwise_map.mpr (hl.imp fun hab => decide_eq_true hab.le)

end Rep

/-! ## Each operation refines the list's -/

theorem refines_newTxSortedMap :
    Refines (txSortedMap.newTxSortedMap : txSortedMap Address) ⟨[], List.Pairwise.nil⟩ := by
  refine ⟨⟨⟨(fun _ hp => nomatch hp), List.Perm.refl _⟩, List.Perm.refl _, ?_⟩, fun _ hc => by cases hc⟩
  -- the empty heap has no entries to order
  intro c _ hc
  simp [txSortedMap.newTxSortedMap, heapOf] at hc

namespace Refines

variable {m : txSortedMap Address} {s : TxSortedMap Address}

theorem Get (h : Refines m s) (nonce : Nat) : m.Get nonce = s.Get nonce := by
  unfold txSortedMap.Get TxSortedMap.Get
  cases hf : s.items.find? (fun t => t.nonce = nonce) with
  | none =>
    refine h.rep.holds.lookup_eq_none.mpr fun t ht htn => List.find?_eq_none.mp hf t ht ?_
    simpa using htn
  | some t =>
    refine (h.rep.holds.lookup_eq_some s.sorted).mpr ⟨List.mem_of_find?_eq_some hf, ?_⟩
    simpa using List.find?_some hf

theorem Len (h : Refines m s) : m.Len = s.Len := h.rep.length_items

theorem Put (h : Refines m s) (tx : Transaction Address) : Refines (m.Put tx) (s.Put tx) := by
  refine ⟨?_, fun _ hc => by cases hc⟩
  by_cases hm : ∃ t ∈ s.items, t.nonce = tx.nonce
  · -- the nonce is taken: the map entry changes, the heap stays
    obtain ⟨t, ht, htn⟩ := hm
    have hlook := (h.rep.holds.lookup_eq_some s.sorted).mpr ⟨ht, htn⟩
    have hput := putItem_eq_map s.sorted ⟨t, ht, htn⟩
    simp only [txSortedMap.Put, insert, hlook, Option.isSome_some, Option.isNone_some,
      Bool.false_eq_true, if_true, if_false]
    refine ⟨⟨fun p hp => ?_, ?_⟩, ?_, h.rep.ordered⟩
    · obtain ⟨q, hq, rfl⟩ := List.mem_map.mp hp
      split_ifs with hqn
      · rfl
      · exact h.rep.holds.keys q hq
    · show _ ~ putItem tx s.items
      rw [hput, List.map_map]
      refine List.Perm.trans ?_ (h.rep.holds.perm.map _)
      rw [List.map_map]
      refine (List.map_congr_left fun q hq => ?_).subst (motive := fun l => l ~ _) (List.Perm.refl _)
      have := h.rep.holds.keys q hq
      simp only [Function.comp, this]
      split_ifs <;> rfl
    · show _ ~ (putItem tx s.items).map _
      rw [hput, List.map_map]
      refine (List.map_congr_left fun x _ => ?_).subst (motive := fun l => _ ~ l) h.rep.index
      simp only [Function.comp]
      split_ifs with hx
      · exact hx
      · rfl
  · -- a new nonce: a new map entry, and the nonce goes on the heap
    have hn : ∀ t ∈ s.items, t.nonce ≠ tx.nonce := fun t ht htn => hm ⟨t, ht, htn⟩
    have hlook := h.rep.holds.lookup_eq_none.mpr hn
    have hput := putItem_perm_cons hn
    obtain ⟨ho, hp⟩ := ArrayHeap.Push_spec h.rep.ordered tx.nonce
    simp only [txSortedMap.Put, insert, hlook, Option.isSome_none, Option.isNone_none,
      Bool.false_eq_true, if_true, if_false]
    refine ⟨⟨fun p hp => ?_, ?_⟩, ?_, ho⟩
    · rcases List.mem_append.mp hp with hp | hp
      · exact h.rep.holds.keys p hp
      · rw [List.mem_singleton.mp hp]
    · show _ ~ putItem tx s.items
      rw [List.map_append]
      exact ((h.rep.holds.perm.append_right _).trans (List.perm_append_singleton _ _)).trans hput.symm
    · show _ ~ (putItem tx s.items).map _
      exact (hp.trans ((h.rep.index.append_right _).trans (List.perm_append_singleton _ _))).trans
        (hput.map _).symm

theorem Forward (h : Refines m s) (threshold : Nat) :
    (m.Forward threshold).1 = (s.Forward threshold).1 ∧
      Refines (m.Forward threshold).2 (s.Forward threshold).2 := by
  obtain ⟨hout, hrep, hcache⟩ :=
    forwardLoop_spec threshold m.index.n m s.items [] h.rep s.sorted h.rep.n_eq.ge
  refine ⟨by simpa [txSortedMap.Forward, TxSortedMap.Forward] using hout,
    ⟨⟨hrep.holds, hrep.index, hrep.ordered⟩, fun c hc => ?_⟩⟩
  -- the cache loses its front, the transactions below the threshold
  simp only [txSortedMap.Forward, hcache, Option.map_eq_some_iff] at hc
  obtain ⟨c', hc', rfl⟩ := hc
  rw [h.cache c' hc', hout, List.nil_append, drop_length_takeWhile]
  rfl

theorem Filter (h : Refines m s) (f : Transaction Address → Bool) :
    (m.Filter f).1 ~ (s.Filter f).1 ∧ Refines (m.Filter f).2 (s.Filter f).2 := by
  have hrem := (h.rep.holds.filter f).perm
  have hkeep := h.rep.holds.filter fun t => !f t
  simp only [txSortedMap.Filter]
  split_ifs with hpos
  · -- the heap is rebuilt from the nonces left
    refine ⟨hrem, ⟨hkeep, ?_, (ArrayHeap.Init_spec _).1⟩, fun _ hc => by cases hc⟩
    refine (ArrayHeap.Init_spec _).2.trans ?_
    rw [toList_heapOf]
    exact hkeep.keys_perm
  · -- nothing went: the list keeps all its transactions
    have hnil : s.items.filter f = [] :=
      List.length_eq_zero_iff.mp (by have := hrem.length_eq; omega)
    have hall : (s.Filter f).2.items = s.items := by
      refine List.filter_eq_self.mpr fun t ht => ?_
      simpa using List.filter_eq_nil_iff.mp hnil t ht
    refine ⟨hrem, ⟨hkeep, ?_, h.rep.ordered⟩, ?_⟩
    · rw [hall]
      exact h.rep.index
    · rw [hall]
      exact h.cache

theorem Cap (h : Refines m s) (threshold : Nat) :
    (m.Cap threshold).1 = (s.Cap threshold).1 ∧ Refines (m.Cap threshold).2 (s.Cap threshold).2 := by
  unfold txSortedMap.Cap TxSortedMap.Cap
  rw [h.rep.length_items]
  split_ifs with hle
  · exact ⟨rfl, h⟩
  -- sorted, the heap is the list's nonces: the drops are the list past the threshold
  have hdropped : (((s.items.map Transaction.nonce).take s.items.length).drop threshold).reverse =
      ((s.items.drop threshold).map Transaction.nonce).reverse := by
    rw [List.take_of_length_le (by simp), List.map_drop]
  have hdrops : (((s.items.drop threshold).map Transaction.nonce).reverse).filterMap (lookup m.items) =
      (s.items.drop threshold).reverse := by
    rw [← List.map_reverse, List.filterMap_map]
    refine (List.filterMap_congr fun x hx => ?_).trans List.filterMap_some
    exact (h.rep.holds.lookup_eq_some s.sorted).mpr
      ⟨List.mem_of_mem_drop (List.mem_reverse.mp hx), rfl⟩
  simp only [mergeSort_index h.rep s.sorted, hdropped, hdrops, true_and]
  refine ⟨⟨?_, ?_, (ArrayHeap.Init_spec _).1⟩, fun c hc => ?_⟩
  · have := h.rep.holds.foldl_delete ((s.items.drop threshold).map Transaction.nonce).reverse
    rwa [filter_not_mem_drop s.sorted] at this
  · refine (ArrayHeap.Init_spec _).2.trans ?_
    rw [toList_heapOf, ← List.map_take]
  · -- the cache loses as many from its back
    obtain ⟨c', hc', rfl⟩ := Option.map_eq_some_iff.mp hc
    rw [h.cache c' hc', List.length_reverse, List.length_drop]
    congr 1
    omega

theorem Remove (h : Refines m s) (nonce : Nat) :
    (m.Remove nonce).1 = (s.Remove nonce).1 ∧ Refines (m.Remove nonce).2 (s.Remove nonce).2 := by
  unfold txSortedMap.Remove TxSortedMap.Remove
  by_cases hx : ∃ t ∈ s.items, t.nonce = nonce
  · obtain ⟨t, ht, rfl⟩ := hx
    have hlook := (h.rep.holds.lookup_eq_some s.sorted).mpr ⟨ht, rfl⟩
    have hany : s.items.any (fun x => x.nonce = t.nonce) = true :=
      List.any_eq_true.mpr ⟨t, ht, by simp⟩
    -- the first position of the nonce in the heap
    obtain ⟨k, hk, hkt⟩ := List.mem_map.mp (h.rep.index.symm.subset (List.mem_map_of_mem ht))
    have hsome : ((List.range m.index.n).find? fun i => m.index.a i = t.nonce).isSome :=
      List.find?_isSome.mpr ⟨k, hk, by simpa using hkt⟩
    obtain ⟨i, hi⟩ := Option.isSome_iff_exists.mp hsome
    have hin : i < m.index.n := List.mem_range.mp (List.mem_of_find?_eq_some hi)
    have hai : m.index.a i = t.nonce := by simpa using List.find?_some hi
    obtain ⟨ho, hr, hp⟩ := ArrayHeap.Remove_spec h.rep.ordered hin
    simp only [hlook, Option.isNone_some, hany, hi, Bool.false_eq_true, if_true, if_false, true_and]
    refine ⟨⟨h.rep.holds.delete t.nonce, ?_, ho⟩, fun _ hc => by cases hc⟩
    rw [hr, hai] at hp
    exact perm_of_perm_append_singleton hp (h.rep.index.trans (perm_cons_filter_ne s.sorted ht))
  · have hlook := h.rep.holds.lookup_eq_none.mpr fun t ht htn => hx ⟨t, ht, htn⟩
    have hany : s.items.any (fun x => x.nonce = nonce) = false :=
      List.any_eq_false.mpr fun t ht htn => hx ⟨t, ht, by simpa using htn⟩
    simp only [hlook, Option.isNone_none, hany, Bool.false_eq_true, if_true, if_false, true_and]
    exact h

theorem Ready (h : Refines m s) (start : Nat) :
    (m.Ready start).1 = (s.Ready start).1 ∧ Refines (m.Ready start).2 (s.Ready start).2 := by
  rcases s with ⟨_ | ⟨t, ts⟩, hs⟩
  · -- an empty heap: nothing is ready
    have hn : m.index.n = 0 := h.rep.n_eq
    simp only [txSortedMap.Ready, TxSortedMap.Ready, hn, true_or, if_true, true_and]
    exact h
  · obtain ⟨hn, hroot⟩ := root_eq_head h.rep.index h.rep.ordered hs
    simp only [txSortedMap.Ready, TxSortedMap.Ready, hroot, hn.ne', false_or]
    split_ifs with hst
    · exact ⟨rfl, h⟩
    · obtain ⟨hout, hrep, -⟩ :=
        readyLoop_spec m.index.n t.nonce m (t :: ts) [] h.rep hs h.rep.n_eq.ge
      exact ⟨by simpa using hout, ⟨hrep.holds, hrep.index, hrep.ordered⟩, fun _ hc => by cases hc⟩

theorem Flatten (h : Refines m s) : m.Flatten.1 = s.Flatten ∧ Refines m.Flatten.2 s := by
  have hsort := mergeSort_eq_of_perm h.rep.holds.perm s.sorted
  unfold txSortedMap.Flatten TxSortedMap.Flatten
  cases hc : m.cache with
  | some c =>
    exact ⟨h.cache c hc, ⟨h.rep.holds, h.rep.index, h.rep.ordered⟩,
      fun _ hc' => (Option.some.inj hc').symm.trans (h.cache c hc)⟩
  | none =>
    -- a miss sorts the map by nonce
    exact ⟨hsort, ⟨h.rep.holds, h.rep.index, h.rep.ordered⟩,
      fun _ hc' => (Option.some.inj hc').symm.trans hsort⟩

end Refines

/-! ## Runs of operations -/

/-- The operations that change the map, with their arguments. -/
inductive Op (Address : Type) where
  | Put (tx : Transaction Address)
  | Forward (threshold : Nat)
  | Filter (filter : Transaction Address → Bool)
  | Cap (threshold : Nat)
  | Remove (nonce : Nat)
  | Ready (start : Nat)
  | Flatten

/-- The map after an operation. -/
def txSortedMap.apply (m : txSortedMap Address) : Op Address → txSortedMap Address
  | .Put tx => m.Put tx
  | .Forward threshold => (m.Forward threshold).2
  | .Filter filter => (m.Filter filter).2
  | .Cap threshold => (m.Cap threshold).2
  | .Remove nonce => (m.Remove nonce).2
  | .Ready start => (m.Ready start).2
  | .Flatten => m.Flatten.2

/-- The list after an operation. -/
def TxSortedMap.apply (s : TxSortedMap Address) : Op Address → TxSortedMap Address
  | .Put tx => s.Put tx
  | .Forward threshold => (s.Forward threshold).2
  | .Filter filter => (s.Filter filter).2
  | .Cap threshold => (s.Cap threshold).2
  | .Remove nonce => (s.Remove nonce).2
  | .Ready start => (s.Ready start).2
  | .Flatten => s

/-- The step: every operation keeps the refinement. -/
theorem Refines.apply {m : txSortedMap Address} {s : TxSortedMap Address} (h : Refines m s) :
    ∀ op : Op Address, Refines (m.apply op) (s.apply op)
  | .Put tx => h.Put tx
  | .Forward threshold => (h.Forward threshold).2
  | .Filter filter => (h.Filter filter).2
  | .Cap threshold => (h.Cap threshold).2
  | .Remove nonce => (h.Remove nonce).2
  | .Ready start => (h.Ready start).2
  | .Flatten => h.Flatten.2

/-- The run: from a refining pair, every sequence of operations keeps the refinement. -/
theorem Refines.run {m : txSortedMap Address} {s : TxSortedMap Address} (h : Refines m s)
    (ops : List (Op Address)) :
    Refines (ops.foldl txSortedMap.apply m) (ops.foldl TxSortedMap.apply s) := by
  induction ops generalizing m s with
  | nil => exact h
  | cons op ops ih => exact ih (h.apply op)

/-- What `Forward` and `Cap` of the list return and leave, as filters and slices. -/
theorem TxSortedMap.Forward_eq (s : TxSortedMap Address) (threshold : Nat) :
    (s.Forward threshold).1 = s.items.filter (fun x => x.nonce < threshold) ∧
      (s.Forward threshold).2.items = s.items.filter (fun x => ¬ x.nonce < threshold) :=
  ⟨takeWhile_nonce_lt s.sorted threshold, dropWhile_nonce_lt s.sorted threshold⟩

theorem TxSortedMap.Cap_eq (s : TxSortedMap Address) (threshold : Nat) :
    (s.Cap threshold).1 = (s.items.drop threshold).reverse ∧
      (s.Cap threshold).2.items = s.items.take threshold := by
  unfold TxSortedMap.Cap
  split_ifs with hle
  · -- nothing is past the threshold
    rw [List.drop_eq_nil_of_le hle, List.take_of_length_le hle]
    exact ⟨rfl, rfl⟩
  · exact ⟨rfl, rfl⟩

theorem TxSortedMap.Ready_eq (s : TxSortedMap Address) (start : Nat) :
    let k := match s.items with
      | [] => 0
      | t :: _ => if start < t.nonce then 0 else readyLen t.nonce s.items
    (s.Ready start).1 = s.items.take k ∧ (s.Ready start).2.items = s.items.drop k := by
  rcases s with ⟨_ | ⟨t, ts⟩, hs⟩
  · exact ⟨rfl, rfl⟩
  · dsimp only [TxSortedMap.Ready]
    split_ifs
    · -- the lowest nonce is above `start`
      exact ⟨rfl, rfl⟩
    · exact ⟨rfl, rfl⟩

/-- **The representation invariant and the contracts of `txSortedMap`.**  After any sequence
of operations from an empty map there is a nonce-sorted list `l` that the map holds, each
transaction under its nonce; the heap holds the map's nonces, once each, in heap order; the
cache is nil or `l`.  `Forward` returns the transactions below the threshold, in order, and
keeps the others; `Cap` returns those past the `n` lowest, highest first, and keeps the `n`
lowest; `Ready` returns and takes off the run of consecutive nonces from the lowest when that
is at most `start`, and nothing otherwise; `Flatten` returns `l`. -/
theorem txSortedMap_run_contracts (ops : List (Op Address)) :
    ∃ l : List (Transaction Address),
      let m := ops.foldl txSortedMap.apply txSortedMap.newTxSortedMap
      l.Pairwise (fun a b => a.nonce < b.nonce) ∧
      m.items.map Prod.snd ~ l ∧ (∀ p ∈ m.items, p.1 = p.2.nonce) ∧
      m.index.toList ~ m.items.map Prod.fst ∧ m.index.toList.Nodup ∧
      ArrayHeap.Ordered nonceKey m.index.a m.index.n ∧
      (∀ c, m.cache = some c → c = l) ∧
      (∀ t, (m.Forward t).1 = l.filter (fun x => x.nonce < t) ∧
        (m.Forward t).2.items.map Prod.snd ~ l.filter (fun x => ¬ x.nonce < t)) ∧
      (∀ n, (m.Cap n).1 = (l.drop n).reverse ∧ (m.Cap n).2.items.map Prod.snd ~ l.take n) ∧
      (∀ start, let k := match l with
          | [] => 0
          | t :: _ => if start < t.nonce then 0 else readyLen t.nonce l
        (m.Ready start).1 = l.take k ∧ (m.Ready start).2.items.map Prod.snd ~ l.drop k) ∧
      m.Flatten.1 = l := by
  have h := refines_newTxSortedMap.run ops
  generalize ops.foldl TxSortedMap.apply ⟨[], List.Pairwise.nil⟩ = s at h
  refine ⟨s.items, s.sorted, h.rep.holds.perm, h.rep.holds.keys,
    h.rep.index.trans h.rep.holds.keys_perm.symm, h.rep.index.nodup_iff.mpr (nodup_map_nonce s.sorted),
    h.rep.ordered, h.cache, fun t => ?_, fun n => ?_, fun start => ?_, (h.Flatten).1⟩
  · obtain ⟨hout, hrest⟩ := h.Forward t
    rw [hout, (s.Forward_eq t).1, ← (s.Forward_eq t).2]
    exact ⟨rfl, hrest.rep.holds.perm⟩
  · obtain ⟨hout, hrest⟩ := h.Cap n
    rw [hout, (s.Cap_eq n).1, ← (s.Cap_eq n).2]
    exact ⟨rfl, hrest.rep.holds.perm⟩
  · obtain ⟨hout, hrest⟩ := h.Ready start
    intro k
    rw [hout, (s.Ready_eq start).1, ← (s.Ready_eq start).2]
    exact ⟨rfl, hrest.rep.holds.perm⟩

end Atlantis.Core
