import Atlantis.Common.Types

/-!
# Nonce-sorted transaction lists

`core/tx_list.go`.  A `txSortedMap` holds the transactions of one account by nonce: a map from
nonces to transactions, a heap of its nonces and a cache of its sorted order.  A `txList` adds
the account's mode (strict for the executable transactions, whose nonces follow each other;
not strict for the future queue) and the highest cost and gas limit it has taken in.

The map, its heap and its cache hold the same transactions, so here they are one list, sorted
by strictly increasing nonce: a field of `TxSortedMap`, so that every operation keeps it.  Each
operation returns what the source returns together with the list it leaves behind.  `Filter`
returns what it removes in the order of the nonces; the source returns it in the map's
iteration order, which no caller depends on.

Every removing operation *splits* its list (`Splits`): what it leaves is a sublist of what was
there, and what it returns is exactly what it took out.  The pool's invariants are kept
through that one notion.
-/

namespace Atlantis.Core

variable {Address : Type}

/-- The part of `types.Transaction` the pool reads: its hash, nonce, gas limit, gas price and
value, and the sender the signer recovers from its signature (validated when the pool took
the transaction in). -/
structure Transaction (Address : Type) where
  hash : Hash
  nonce : Nat
  gas : Nat
  gasPrice : Nat
  value : Nat
  sender : Address
  deriving DecidableEq

/-- `Transaction.Cost`: `gasPrice * gas + value`. -/
def Transaction.Cost (tx : Transaction Address) : Nat := tx.gasPrice * tx.gas + tx.value

/-- `txSortedMap`, as the list of its transactions in increasing nonce order. -/
structure TxSortedMap (Address : Type) where
  items : List (Transaction Address)
  sorted : items.Pairwise fun a b => a.nonce < b.nonce

/-- Inserting a transaction into a nonce-sorted list, over the one of its nonce if there is
one. -/
def putItem (tx : Transaction Address) : List (Transaction Address) → List (Transaction Address)
  | [] => [tx]
  | t :: ts =>
    if tx.nonce < t.nonce then tx :: t :: ts
    else if tx.nonce = t.nonce then tx :: ts
    else t :: putItem tx ts

theorem forall_mem_putItem {P : Transaction Address → Prop} {tx : Transaction Address}
    (htx : P tx) : ∀ {l : List (Transaction Address)}, (∀ t ∈ l, P t) → ∀ t ∈ putItem tx l, P t
  | [], _ => by simpa [putItem] using htx
  | t :: ts, hl => by
    simp only [List.forall_mem_cons] at hl
    unfold putItem
    split_ifs
    · simpa [htx] using hl
    · simpa [htx] using hl.2
    · simpa [hl.1] using forall_mem_putItem htx hl.2

theorem pairwise_putItem (tx : Transaction Address) :
    ∀ {l : List (Transaction Address)}, l.Pairwise (fun a b => a.nonce < b.nonce) →
      (putItem tx l).Pairwise fun a b => a.nonce < b.nonce
  | [], _ => List.pairwise_singleton _ _
  | t :: ts, hl => by
    rw [List.pairwise_cons] at hl
    unfold putItem
    split_ifs with hlt heq
    · refine List.Pairwise.cons (fun b hb => ?_) (List.Pairwise.cons hl.1 hl.2)
      rcases List.mem_cons.mp hb with rfl | hb
      · exact hlt
      · exact hlt.trans (hl.1 b hb)
    · exact List.Pairwise.cons (fun b hb => heq ▸ hl.1 b hb) hl.2
    · refine List.Pairwise.cons (fun b hb => ?_) (pairwise_putItem tx hl.2)
      have hgt : t.nonce < tx.nonce := by omega
      exact forall_mem_putItem hgt hl.1 b hb

/-- On a sorted list, `putItem` keeps the transactions of the other nonces and adds `tx`. -/
theorem mem_putItem {tx t : Transaction Address} :
    ∀ {l : List (Transaction Address)}, l.Pairwise (fun a b => a.nonce < b.nonce) →
      (t ∈ putItem tx l ↔ t = tx ∨ t ∈ l ∧ t.nonce ≠ tx.nonce)
  | [], _ => by simp [putItem]
  | s :: ts, hl => by
    rw [List.pairwise_cons] at hl
    -- the nonces of `ts` are above `s.nonce`
    have hts : t ∈ ts → s.nonce < t.nonce := hl.1 t
    unfold putItem
    split_ifs with hlt heq
    · simp only [List.mem_cons]
      constructor
      · rintro (h | h | h)
        · exact .inl h
        · exact .inr ⟨.inl h, by subst h; omega⟩
        · exact .inr ⟨.inr h, by have := hts h; omega⟩
      · rintro (h | ⟨h | h, -⟩)
        · exact .inl h
        · exact .inr (.inl h)
        · exact .inr (.inr h)
    · simp only [List.mem_cons]
      constructor
      · rintro (h | h)
        · exact .inl h
        · exact .inr ⟨.inr h, by have := hts h; omega⟩
      · rintro (h | ⟨h | h, hn⟩)
        · exact .inl h
        · exact absurd (by subst h; omega) hn
        · exact .inr h
    · rw [List.mem_cons, mem_putItem hl.2, List.mem_cons]
      constructor
      · rintro (h | h | ⟨h, hn⟩)
        · exact .inr ⟨.inl h, by subst h; omega⟩
        · exact .inl h
        · exact .inr ⟨.inr h, hn⟩
      · rintro (h | ⟨h | h, hn⟩)
        · exact .inr (.inl h)
        · exact .inl h
        · exact .inr (.inr ⟨h, hn⟩)

/-- The length of the run of consecutive nonces from `next` at the front of a list. -/
def readyLen : Nat → List (Transaction Address) → Nat
  | _, [] => 0
  | next, t :: ts => if t.nonce = next then readyLen (next + 1) ts + 1 else 0

namespace TxSortedMap

/-- `Get`: the transaction of a nonce. -/
def Get (m : TxSortedMap Address) (nonce : Nat) : Option (Transaction Address) :=
  m.items.find? fun t => t.nonce = nonce

/-- `Put`: insert a transaction, over the one of its nonce if there is one. -/
def Put (m : TxSortedMap Address) (tx : Transaction Address) : TxSortedMap Address :=
  ⟨putItem tx m.items, pairwise_putItem tx m.sorted⟩

/-- `Forward`: remove the transactions below a nonce; the heap pops them in increasing order. -/
def Forward (m : TxSortedMap Address) (threshold : Nat) :
    List (Transaction Address) × TxSortedMap Address :=
  (m.items.takeWhile (fun t => t.nonce < threshold),
    ⟨m.items.dropWhile (fun t => t.nonce < threshold),
      m.sorted.sublist (List.dropWhile_suffix _).sublist⟩)

/-- `Filter`: remove the transactions `filter` holds of. -/
def Filter (m : TxSortedMap Address) (filter : Transaction Address → Bool) :
    List (Transaction Address) × TxSortedMap Address :=
  (m.items.filter filter, ⟨m.items.filter (fun t => !filter t), m.sorted.filter _⟩)

/-- `Cap`: keep the `threshold` lowest nonces and return the others, highest first. -/
def Cap (m : TxSortedMap Address) (threshold : Nat) :
    List (Transaction Address) × TxSortedMap Address :=
  if m.items.length ≤ threshold then ([], m)
  else ((m.items.drop threshold).reverse,
    ⟨m.items.take threshold, m.sorted.sublist (List.take_sublist _ _)⟩)

/-- `Remove`: delete the transaction of a nonce, and say whether there was one. -/
def Remove (m : TxSortedMap Address) (nonce : Nat) : Bool × TxSortedMap Address :=
  if m.items.any (fun t => t.nonce = nonce) then
    (true, ⟨m.items.filter (fun t => t.nonce ≠ nonce), m.sorted.filter _⟩)
  else (false, m)

/-- `Ready`: the run of consecutive nonces at the front, when it starts at or below `start`. -/
def Ready (m : TxSortedMap Address) (start : Nat) :
    List (Transaction Address) × TxSortedMap Address :=
  match m.items with
  | [] => ([], m)
  | t :: _ =>
    if start < t.nonce then ([], m)
    else
      let k := readyLen t.nonce m.items
      (m.items.take k, ⟨m.items.drop k, m.sorted.sublist (List.drop_sublist _ _)⟩)

/-- `Len`. -/
def Len (m : TxSortedMap Address) : Nat := m.items.length

/-- `Flatten`: the transactions in nonce order. -/
def Flatten (m : TxSortedMap Address) : List (Transaction Address) := m.items

end TxSortedMap

/-- `txList`. -/
structure TxList (Address : Type) where
  strict : Bool
  txs : TxSortedMap Address
  costcap : Nat
  gascap : Nat

/-- `newTxList`. -/
def newTxList (strict : Bool) : TxList Address := ⟨strict, ⟨[], List.Pairwise.nil⟩, 0, 0⟩

namespace TxList

/-- `Overlaps`: whether the list holds a transaction of the nonce of `tx`. -/
def Overlaps (l : TxList Address) (tx : Transaction Address) : Bool := (l.txs.Get tx.nonce).isSome

/-- `Add`: insert `tx` unless the list holds a transaction of its nonce whose gas price it
does not beat by `priceBump` percent; return whether it went in, and the transaction it
replaced. -/
def Add (l : TxList Address) (tx : Transaction Address) (priceBump : Nat) :
    Bool × Option (Transaction Address) × TxList Address :=
  let added : TxList Address :=
    { l with txs := l.txs.Put tx, costcap := max l.costcap tx.Cost, gascap := max l.gascap tx.gas }
  match l.txs.Get tx.nonce with
  | some old =>
    if tx.gasPrice ≤ old.gasPrice ∨ tx.gasPrice < old.gasPrice * (100 + priceBump) / 100 then
      (false, none, l)
    else (true, some old, added)
  | none => (true, none, added)

/-- `Forward`. -/
def Forward (l : TxList Address) (threshold : Nat) : List (Transaction Address) × TxList Address :=
  ((l.txs.Forward threshold).1, { l with txs := (l.txs.Forward threshold).2 })

/-- `Filter`: remove the transactions that cost more than `costLimit` or need more gas than
`gasLimit` (nothing when the caps show none can), and in strict mode every transaction above
the lowest removed nonce, returned apart as the invalidated ones. -/
def Filter (l : TxList Address) (costLimit gasLimit : Nat) :
    List (Transaction Address) × List (Transaction Address) × TxList Address :=
  if l.costcap ≤ costLimit ∧ l.gascap ≤ gasLimit then ([], [], l)
  else
    let costly := l.txs.Filter fun tx => costLimit < tx.Cost ∨ gasLimit < tx.gas
    let l := { l with txs := costly.2, costcap := costLimit, gascap := gasLimit }
    if l.strict ∧ costly.1 ≠ [] then
      let lowest := costly.1.foldl (fun lowest tx => min lowest tx.nonce) (2 ^ 64 - 1)
      let invalids := l.txs.Filter fun tx => lowest < tx.nonce
      (costly.1, invalids.1, { l with txs := invalids.2 })
    else (costly.1, [], l)

/-- `Cap`. -/
def Cap (l : TxList Address) (threshold : Nat) : List (Transaction Address) × TxList Address :=
  ((l.txs.Cap threshold).1, { l with txs := (l.txs.Cap threshold).2 })

/-- `Remove`: delete the transaction of the nonce of `tx`; in strict mode the transactions
above it are removed too and returned as invalidated. -/
def Remove (l : TxList Address) (tx : Transaction Address) :
    Bool × List (Transaction Address) × TxList Address :=
  let removed := l.txs.Remove tx.nonce
  if !removed.1 then (false, [], l)
  else if l.strict then
    let invalids := removed.2.Filter fun t => tx.nonce < t.nonce
    (true, invalids.1, { l with txs := invalids.2 })
  else (true, [], { l with txs := removed.2 })

/-- `Ready`. -/
def Ready (l : TxList Address) (start : Nat) : List (Transaction Address) × TxList Address :=
  ((l.txs.Ready start).1, { l with txs := (l.txs.Ready start).2 })

/-- `Len`. -/
def Len (l : TxList Address) : Nat := l.txs.Len

/-- `Empty`. -/
def Empty (l : TxList Address) : Bool := l.Len = 0

/-- `Flatten`. -/
def Flatten (l : TxList Address) : List (Transaction Address) := l.txs.Flatten

/-! ### What the operations leave -/

theorem nodup_Flatten (l : TxList Address) : l.Flatten.Nodup :=
  l.txs.sorted.imp fun h he => Nat.ne_of_lt h (congrArg Transaction.nonce he)

/-- Two transactions of a list with the same nonce are the same. -/
theorem eq_of_nonce_eq {l : TxList Address} {t t' : Transaction Address} (ht : t ∈ l.Flatten)
    (ht' : t' ∈ l.Flatten) (h : t.nonce = t'.nonce) : t = t' := by
  by_contra hne
  have : Std.Symm fun a b : Transaction Address => a.nonce ≠ b.nonce := ⟨fun _ _ h => Ne.symm h⟩
  exact (l.txs.sorted.imp fun h => Nat.ne_of_lt h).forall ht ht' hne h

theorem Len_eq (l : TxList Address) : l.Len = l.Flatten.length := rfl

/-- `l'` is `l` with `removed` taken out: the two together are a permutation of `l`, and the
mode is kept. -/
structure Splits (l l' : TxList Address) (removed : List (Transaction Address)) : Prop where
  perm : (removed ++ l'.Flatten).Perm l.Flatten
  strict : l'.strict = l.strict

namespace Splits

variable {l l' l'' : TxList Address} {removed removed' : List (Transaction Address)}

theorem mem {t : Transaction Address} (h : Splits l l' removed) (ht : t ∈ l'.Flatten) :
    t ∈ l.Flatten :=
  h.perm.mem_iff.mp (List.mem_append_right _ ht)

theorem mem_of_removed {t : Transaction Address} (h : Splits l l' removed) (ht : t ∈ removed) :
    t ∈ l.Flatten :=
  h.perm.mem_iff.mp (List.mem_append_left _ ht)

/-- What is removed is no longer there. -/
theorem not_mem_of_removed {t : Transaction Address} (h : Splits l l' removed) (ht : t ∈ removed) :
    t ∉ l'.Flatten := by
  have hnd := (h.perm.nodup_iff.mpr l.nodup_Flatten)
  exact fun ht' => (List.nodup_append.mp hnd).2.2 t ht t ht' rfl

/-- What is left of a list after taking out one transaction. -/
theorem mem_iff_single {tx t : Transaction Address} (h : Splits l l' [tx]) :
    t ∈ l'.Flatten ↔ t ∈ l.Flatten ∧ t ≠ tx := by
  constructor
  · intro ht
    exact ⟨h.mem ht, fun he => h.not_mem_of_removed (List.mem_singleton.mpr he) ht⟩
  · rintro ⟨ht, hne⟩
    rcases List.mem_append.mp (h.perm.mem_iff.mpr ht) with ht' | ht'
    · exact absurd (List.mem_singleton.mp ht') hne
    · exact ht'

theorem length (h : Splits l l' removed) : l'.Len + removed.length = l.Len := by
  have := h.perm.length_eq
  simp only [List.length_append] at this
  simp only [Len_eq]
  omega

theorem trans (h : Splits l l' removed) (h' : Splits l' l'' removed') :
    Splits l l'' (removed ++ removed') where
  perm := by
    rw [List.append_assoc]
    exact (h'.perm.append_left removed).trans h.perm
  strict := h'.strict.trans h.strict

end Splits

theorem splits_Forward (l : TxList Address) (threshold : Nat) :
    Splits l (l.Forward threshold).2 (l.Forward threshold).1 where
  perm := List.Perm.of_eq List.takeWhile_append_dropWhile
  strict := rfl

theorem splits_Cap (l : TxList Address) (threshold : Nat) :
    Splits l (l.Cap threshold).2 (l.Cap threshold).1 where
  perm := by
    simp only [Cap, TxSortedMap.Cap, Flatten, TxSortedMap.Flatten]
    split
    · exact List.Perm.refl _
    · exact ((List.reverse_perm _).append_right _).trans
        (List.perm_append_comm.trans (List.Perm.of_eq (List.take_append_drop _ _)))
  strict := rfl

theorem splits_Ready (l : TxList Address) (start : Nat) :
    Splits l (l.Ready start).2 (l.Ready start).1 where
  perm := by
    simp only [Ready, TxSortedMap.Ready, Flatten, TxSortedMap.Flatten]
    split
    · exact List.Perm.refl _
    · split
      · exact List.Perm.refl _
      · exact List.Perm.of_eq (List.take_append_drop _ _)
  strict := rfl

theorem splits_txs_Filter (l : TxList Address) (f : Transaction Address → Bool)
    (costcap gascap : Nat) :
    Splits l { l with txs := (l.txs.Filter f).2, costcap := costcap, gascap := gascap }
      (l.txs.Filter f).1 :=
  ⟨List.filter_append_perm _ _, rfl⟩

theorem splits_Filter (l : TxList Address) (costLimit gasLimit : Nat) :
    Splits l (l.Filter costLimit gasLimit).2.2
      ((l.Filter costLimit gasLimit).1 ++ (l.Filter costLimit gasLimit).2.1) := by
  unfold Filter
  split
  · exact ⟨List.Perm.refl _, rfl⟩
  · -- the costly transactions, then in strict mode the ones above the lowest of them
    dsimp only
    split
    · exact (splits_txs_Filter l _ costLimit gasLimit).trans
        (splits_txs_Filter _ _ costLimit gasLimit)
    · simpa using splits_txs_Filter l _ costLimit gasLimit

/-- Removing a transaction a list without mode holds takes out exactly that one. -/
theorem Remove_of_mem {l : TxList Address} {t : Transaction Address} (hs : l.strict = false)
    (ht : t ∈ l.Flatten) :
    ∃ l', l.Remove t = (true, [], l') ∧ Splits l l' [t] := by
  have hany : l.txs.items.any (fun t' => decide (t'.nonce = t.nonce)) = true :=
    List.any_eq_true.mpr ⟨t, ht, by simp⟩
  refine ⟨{ l with txs := (l.txs.Remove t.nonce).2 }, by simp [Remove, hany, hs, TxSortedMap.Remove],
    ?_, rfl⟩
  simp only [TxSortedMap.Remove, hany, if_true, Flatten, TxSortedMap.Flatten]
  -- both sides are without repetition and have the same members
  have hnd : l.txs.items.Nodup := l.nodup_Flatten
  rw [List.perm_ext_iff_of_nodup _ hnd]
  · intro a
    simp only [List.singleton_append, List.mem_cons, List.mem_filter, decide_eq_true_eq]
    constructor
    · rintro (rfl | ⟨ha, -⟩)
      · exact ht
      · exact ha
    · intro ha
      by_cases hn : a.nonce = t.nonce
      · exact .inl (eq_of_nonce_eq ha ht hn)
      · exact .inr ⟨ha, hn⟩
  · refine List.nodup_cons.mpr ⟨fun h => ?_, hnd.filter _⟩
    simp at h

/-- A list that holds no transaction of the nonce of `t` removes nothing. -/
theorem Remove_of_forall_ne {l : TxList Address} {t : Transaction Address}
    (h : ∀ t' ∈ l.Flatten, t'.nonce ≠ t.nonce) : l.Remove t = (false, [], l) := by
  have hany : l.txs.items.any (fun t' => decide (t'.nonce = t.nonce)) = false := by
    simpa [Flatten, TxSortedMap.Flatten] using h
  simp [Remove, TxSortedMap.Remove, hany]

/-- Adding a transaction of a nonce the list does not hold puts it in. -/
theorem Add_of_forall_ne {l : TxList Address} {tx : Transaction Address} (priceBump : Nat)
    (h : ∀ t' ∈ l.Flatten, t'.nonce ≠ tx.nonce) :
    ∃ l', l.Add tx priceBump = (true, none, l') ∧ l'.strict = l.strict ∧
      ∀ t, t ∈ l'.Flatten ↔ t = tx ∨ t ∈ l.Flatten := by
  have hget : l.txs.Get tx.nonce = none := by
    simpa [TxSortedMap.Get, Flatten, TxSortedMap.Flatten] using h
  have hadd : l.Add tx priceBump = (true, none,
      { l with txs := l.txs.Put tx, costcap := max l.costcap tx.Cost, gascap := max l.gascap tx.gas }) := by
    simp only [Add, hget]
  refine ⟨_, hadd, rfl, fun t => ?_⟩
  simp only [Flatten, TxSortedMap.Flatten, TxSortedMap.Put]
  rw [mem_putItem l.txs.sorted]
  constructor
  · rintro (h' | ⟨h', -⟩)
    · exact .inl h'
    · exact .inr h'
  · rintro (h' | h')
    · exact .inl h'
    · exact .inr ⟨h', fun hn => h t h' hn⟩

theorem Len_Cap (l : TxList Address) (threshold : Nat) :
    (l.Cap threshold).2.Len = min l.Len threshold := by
  simp only [Cap, TxSortedMap.Cap, Len, TxSortedMap.Len]
  split
  · next h => exact (Nat.min_eq_left h).symm
  · rw [List.length_take, Nat.min_comm]

end TxList

end Atlantis.Core
