import Atlantis.Core.TxList
import Atlantis.Lib.Heap
import Atlantis.Lib.Queues
import Mathlib.Data.List.AList
import Mathlib.Order.Basic

/-!
# Transactions by price and nonce

`core/types/transaction.go`: `TransactionsByPriceAndNonce`, from which the miner takes the
pending transactions of all accounts.  It keeps the next transaction of each account in a heap
ordered by price (`TxByPrice`, `container/heap` over an array: `ArrayHeap`), and the rest of
each account's nonce-sorted list in a map.  `Peek` reads the heap's root; `Shift` puts the
account's next transaction in its place; `Pop` takes the account out.

The map is an `AList`; the range over it in `NewTransactionsByPriceAndNonce` visits its entries
in the order of the list, and sees them as they were when it began.  Go may also visit an entry
that the range itself adds, which can happen only when a list is not under the account that
signed it.  The signer is the `sender` a transaction carries.  An index into an empty slice
panics in Go; here the function returns `none`.

What the set promises is stated on the transactions still to come (`Pending`): each head, then
the rest of its account.  Read by sender (`List.SameQueues`), they are the accounts' lists:
`Shift` takes the root off the front of its account's queue, and `Pop` drops that queue.  The
miner's loop (`shiftLoop`) then yields the accounts' lists interleaved, each in its order, and
each transaction at the highest price among the heads.
-/

namespace Atlantis.Core

open List

variable {Address : Type}

instance [Inhabited Address] : Inhabited (Transaction Address) := ⟨⟨default, 0, 0, 0, 0, default⟩⟩

/-- `TxByPrice.Less`: the higher price first, so the heap's key is the price, reversed. -/
def priceKey (tx : Transaction Address) : ℕᵒᵈ := OrderDual.toDual tx.gasPrice

/-- The map of `TransactionsByPriceAndNonce`: each account's transactions. -/
abbrev AccountTxs (Address : Type) := AList fun _ : Address => List (Transaction Address)

/-- `TransactionsByPriceAndNonce`: the rest of each account's list, and the heap of the
accounts' next transactions. -/
structure TransactionsByPriceAndNonce (Address : Type) where
  txs : AccountTxs Address
  heads : ArrayHeap (Transaction Address)

variable [DecidableEq Address]

/-- One entry of the range in `NewTransactionsByPriceAndNonce`: the account's first transaction
joins the heads, and the rest goes back into the map under that transaction's sender; the
entry itself goes if the sender is another account. -/
def newStep (acc : List (Transaction Address) × AccountTxs Address)
    (e : Sigma fun _ : Address => List (Transaction Address)) :
    Option (List (Transaction Address) × AccountTxs Address) :=
  match e.2 with
  | [] => none
  | tx :: rest =>
    let txs := acc.2.insert tx.sender rest
    some (acc.1 ++ [tx], if e.1 ≠ tx.sender then txs.erase e.1 else txs)

variable [Inhabited Address] in
/-- `NewTransactionsByPriceAndNonce`: the range over the map, then `heap.Init`. -/
def NewTransactionsByPriceAndNonce (txs : AccountTxs Address) :
    Option (TransactionsByPriceAndNonce Address) :=
  (txs.entries.foldlM newStep ([], txs)).map fun r =>
    ⟨r.2, ArrayHeap.Init priceKey (ArrayHeap.ofList r.1)⟩

namespace TransactionsByPriceAndNonce

/-- `Peek`: the root of the heap, or nil. -/
def Peek (t : TransactionsByPriceAndNonce Address) : Option (Transaction Address) :=
  if t.heads.n = 0 then none else some (t.heads.a 0)

/-- `Shift`: the account's next transaction in place of the root and `heap.Fix`, or, when the
account has no more, `heap.Pop`. -/
def Shift (t : TransactionsByPriceAndNonce Address) : Option (TransactionsByPriceAndNonce Address) :=
  if t.heads.n = 0 then none
  else
    let acc := (t.heads.a 0).sender
    match t.txs.lookup acc with
    | some (tx :: txs) =>
      some ⟨t.txs.insert acc txs,
        ArrayHeap.Fix priceKey ⟨Function.update t.heads.a 0 tx, t.heads.n⟩ 0⟩
    | _ => some ⟨t.txs, (ArrayHeap.Pop priceKey t.heads).1⟩

/-- `Pop`: `heap.Pop`, leaving the account's other transactions out. -/
def Pop (t : TransactionsByPriceAndNonce Address) : Option (TransactionsByPriceAndNonce Address) :=
  if t.heads.n = 0 then none else some ⟨t.txs, (ArrayHeap.Pop priceKey t.heads).1⟩

end TransactionsByPriceAndNonce

/-- The miner's loop over the set: while `Peek` gives a transaction, take it, with the set it
was read from, and `Shift`; at most `fuel` rounds. -/
def shiftLoop : Nat → TransactionsByPriceAndNonce Address →
    List (Transaction Address × TransactionsByPriceAndNonce Address)
  | 0, _ => []
  | fuel + 1, t =>
    match t.Peek, t.Shift with
    | some tx, some t' => (tx, t) :: shiftLoop fuel t'
    | _, _ => []

/-! ## The transactions still to come -/

namespace TransactionsByPriceAndNonce

variable (t : TransactionsByPriceAndNonce Address)

/-- The rest of an account's transactions, after its head. -/
def rest (a : Address) : List (Transaction Address) := (t.txs.lookup a).getD []

/-- A head, then the rest of its account. -/
def block (h : Transaction Address) : List (Transaction Address) := h :: t.rest h.sender

/-- The transactions still to come: the blocks of the heads. -/
def Pending : List (Transaction Address) := t.heads.toList.flatMap t.block

/-- What the set keeps: the heap in price order, one head for each account, and each account's
rest signed by it. -/
structure Inv : Prop where
  ordered : ArrayHeap.Ordered priceKey t.heads.a t.heads.n
  distinct : (t.heads.toList.map Transaction.sender).Nodup
  signed : ∀ a, ∀ x ∈ t.rest a, x.sender = a

variable {t}

theorem Inv.block_sender (hi : t.Inv) (h : Transaction Address) :
    ∀ y ∈ t.block h, y.sender = h.sender := by
  intro y hy
  rcases List.mem_cons.mp hy with rfl | hy
  · rfl
  · exact hi.signed _ y hy

theorem pending_eq_cons (hn : 0 < t.heads.n) :
    t.Pending =
      t.heads.a 0 :: (t.rest (t.heads.a 0).sender ++ t.heads.toList.tail.flatMap t.block) := by
  rw [Pending, ArrayHeap.toList_eq_cons hn, List.flatMap_cons]
  rfl

theorem pending_eq_nil (hn : t.heads.n = 0) : t.Pending = [] := by
  simp [Pending, ArrayHeap.toList, hn]

theorem length_pending_pos (hn : 0 < t.heads.n) : 0 < t.Pending.length := by
  rw [pending_eq_cons hn]
  simp

/-- **The root is the highest price among the heads.** -/
theorem Inv.peek_max (hi : t.Inv) {tx : Transaction Address} (ht : t.Peek = some tx) :
    ∀ h ∈ t.heads.toList, h.gasPrice ≤ tx.gasPrice := by
  unfold Peek at ht
  split_ifs at ht with hn
  cases ht
  intro h hh
  obtain ⟨k, hk, rfl⟩ := List.mem_map.mp hh
  exact hi.ordered.root_le k (List.mem_range.mp hk)

/-- `heap.Pop` takes the root's block off the transactions to come. -/
theorem Inv.popHeads (hi : t.Inv) (hn : 0 < t.heads.n) :
    Inv ⟨t.txs, (ArrayHeap.Pop priceKey t.heads).1⟩ ∧
      List.SameQueues Transaction.sender (Pending ⟨t.txs, (ArrayHeap.Pop priceKey t.heads).1⟩)
        (t.heads.toList.tail.flatMap t.block) := by
  obtain ⟨ho, hx, hp⟩ := ArrayHeap.Pop_spec hi.ordered hn
  -- the other heads are those left in the heap
  have htail : t.heads.toList.tail ~ (ArrayHeap.Pop priceKey t.heads).1.toList := by
    rw [hx] at hp
    rw [ArrayHeap.toList_eq_cons hn] at hp
    exact (List.perm_cons _).mp (hp.trans (List.perm_append_singleton _ _))
  have hnd : (t.heads.toList.tail.map Transaction.sender).Nodup := by
    have := hi.distinct
    rw [ArrayHeap.toList_eq_cons hn, List.map_cons] at this
    exact (List.nodup_cons.mp this).2
  refine ⟨⟨ho, (htail.map _).nodup_iff.mp hnd, hi.signed⟩, ?_⟩
  exact ((List.SameQueues.of_perm htail hnd).flatMap hi.block_sender).symm

theorem Shift_of_lookup (hn : 0 < t.heads.n) {x : Transaction Address}
    {r : List (Transaction Address)} (hl : t.txs.lookup (t.heads.a 0).sender = some (x :: r)) :
    t.Shift = some ⟨t.txs.insert (t.heads.a 0).sender r,
      ArrayHeap.Fix priceKey ⟨Function.update t.heads.a 0 x, t.heads.n⟩ 0⟩ := by
  simp only [Shift, if_neg (Nat.pos_iff_ne_zero.mp hn), hl]

theorem Shift_of_rest_nil (hn : 0 < t.heads.n) (hr : t.rest (t.heads.a 0).sender = []) :
    t.Shift = some ⟨t.txs, (ArrayHeap.Pop priceKey t.heads).1⟩ := by
  unfold Shift
  rw [if_neg (Nat.pos_iff_ne_zero.mp hn)]
  dsimp only
  split
  · -- the account has a next transaction: not so
    rename_i hl
    simp [rest, hl] at hr
  · rfl

/-- **`Shift` takes the root off the front of its account's queue**, and keeps the invariant. -/
theorem Inv.shift (hi : t.Inv) (hn : 0 < t.heads.n) :
    ∃ t', t.Shift = some t' ∧ t'.Inv ∧
      List.SameQueues Transaction.sender t.Pending (t.heads.a 0 :: t'.Pending) := by
  have hnd := hi.distinct
  rw [ArrayHeap.toList_eq_cons hn, List.map_cons] at hnd
  by_cases hr : ∃ x r, t.txs.lookup (t.heads.a 0).sender = some (x :: r)
  · -- the account's next transaction takes the root's place
    obtain ⟨x, r, hl⟩ := hr
    have hx : x.sender = (t.heads.a 0).sender := hi.signed _ x (by simp [rest, hl])
    have hhole : ArrayHeap.HoleInv priceKey (Function.update t.heads.a 0 x) t.heads.n 0 :=
      hi.ordered.holeInv_update_zero hn x
    obtain ⟨ho, hp⟩ := ArrayHeap.Fix_spec (h := ⟨Function.update t.heads.a 0 x, t.heads.n⟩) hhole
    let t' : TransactionsByPriceAndNonce Address :=
      ⟨t.txs.insert (t.heads.a 0).sender r,
        ArrayHeap.Fix priceKey ⟨Function.update t.heads.a 0 x, t.heads.n⟩ 0⟩
    have htxs : t'.txs = t.txs.insert (t.heads.a 0).sender r := rfl
    have hheads : t'.heads.toList ~ x :: t.heads.toList.tail := by
      have hcons := ArrayHeap.toList_eq_cons (h := ⟨Function.update t.heads.a 0 x, t.heads.n⟩) hn
      simp only [ArrayHeap.tail_toList_update_zero, Function.update_self] at hcons
      exact hp.trans (List.Perm.of_eq hcons)
    have hnd' : ((x :: t.heads.toList.tail).map Transaction.sender).Nodup := by
      rwa [List.map_cons, hx]
    -- the account's rest loses `x`; the other accounts keep theirs
    have hrest0 : t'.rest (t.heads.a 0).sender = r := by
      simp only [rest, htxs, AList.lookup_insert, Option.getD_some]
    have hrest : ∀ a, a ≠ (t.heads.a 0).sender → t'.rest a = t.rest a := by
      intro a ha
      simp only [rest, htxs, AList.lookup_insert_ne ha]
    have hsigned : ∀ a, ∀ y ∈ t'.rest a, y.sender = a := by
      intro a y hy
      by_cases ha : a = (t.heads.a 0).sender
      · subst ha
        rw [hrest0] at hy
        exact hi.signed _ y (by simp [rest, hl, hy])
      · rw [hrest a ha] at hy
        exact hi.signed a y hy
    have hi' : t'.Inv := ⟨ho, (hheads.map _).nodup_iff.mpr hnd', hsigned⟩
    refine ⟨t', Shift_of_lookup hn hl, hi', ?_⟩
    have hq : List.SameQueues Transaction.sender t'.Pending
        ((x :: t.heads.toList.tail).flatMap t'.block) :=
      (List.SameQueues.of_perm hheads ((hheads.map _).nodup_iff.mpr hnd')).flatMap hi'.block_sender
    have hblocks : (x :: t.heads.toList.tail).flatMap t'.block =
        x :: r ++ t.heads.toList.tail.flatMap t.block := by
      rw [List.flatMap_cons, block, hx, hrest0]
      congr 1
      refine List.flatMap_congr fun h hh => ?_
      have hne : h.sender ≠ (t.heads.a 0).sender :=
        fun he => (List.nodup_cons.mp hnd).1 (he ▸ List.mem_map_of_mem hh)
      rw [block, block, hrest _ hne]
    rw [hblocks] at hq
    have hrest0' : t.rest (t.heads.a 0).sender = x :: r := by simp [rest, hl]
    rw [pending_eq_cons hn, hrest0']
    exact hq.symm.cons _
  · -- the account has no more: `heap.Pop`
    have hr0 : t.rest (t.heads.a 0).sender = [] := by
      cases hl : t.txs.lookup (t.heads.a 0).sender with
      | none => simp [rest, hl]
      | some l =>
        cases l with
        | nil => simp [rest, hl]
        | cons x r => exact absurd ⟨x, r, hl⟩ hr
    obtain ⟨hi', hq⟩ := hi.popHeads hn
    refine ⟨_, Shift_of_rest_nil hn hr0, hi', ?_⟩
    rw [pending_eq_cons hn, hr0, List.nil_append]
    exact hq.symm.cons _

/-- **`Pop` drops the root's account**: what is to come is what was, less that account's. -/
theorem Inv.pop (hi : t.Inv) (hn : 0 < t.heads.n) :
    ∃ t', t.Pop = some t' ∧ t'.Inv ∧ List.SameQueues Transaction.sender t'.Pending
      (t.Pending.filter fun y => y.sender ≠ (t.heads.a 0).sender) := by
  have hnd := hi.distinct
  rw [ArrayHeap.toList_eq_cons hn, List.map_cons] at hnd
  obtain ⟨hi', hq⟩ := hi.popHeads hn
  refine ⟨_, if_neg (Nat.pos_iff_ne_zero.mp hn), hi', ?_⟩
  -- the root's block is all of its account, the others' blocks are all of theirs
  have hdrop : (t.Pending.filter fun y => y.sender ≠ (t.heads.a 0).sender) =
      t.heads.toList.tail.flatMap t.block := by
    rw [pending_eq_cons hn, List.filter_cons_of_neg (by simp), List.filter_append,
      List.filter_eq_nil_iff.mpr, List.nil_append, List.filter_eq_self.mpr]
    · intro y hy
      obtain ⟨h, hh, hyh⟩ := List.mem_flatMap.mp hy
      have hne : h.sender ≠ (t.heads.a 0).sender :=
        fun he => (List.nodup_cons.mp hnd).1 (he ▸ List.mem_map_of_mem hh)
      simpa [hi.block_sender h y hyh] using hne
    · intro y hy
      simp [hi.signed _ y hy]
  rw [hdrop]
  exact hq

end TransactionsByPriceAndNonce

open TransactionsByPriceAndNonce

/-- **The miner's loop**, with fuel for every transaction to come, yields them all, each
account's in its order; each is read at the root of a set that keeps the invariant, and what
is to come only shrinks. -/
theorem shiftLoop_spec : ∀ (fuel : Nat) (t : TransactionsByPriceAndNonce Address), t.Inv →
    t.Pending.length ≤ fuel →
    List.SameQueues Transaction.sender ((shiftLoop fuel t).map Prod.fst) t.Pending ∧
      ∀ p ∈ shiftLoop fuel t, p.2.Inv ∧ p.2.Peek = some p.1 ∧
        p.2.Pending.length ≤ t.Pending.length
  | 0, t, _, hlen => by
    -- no fuel: nothing was to come
    have hn : t.heads.n = 0 := by
      by_contra hn
      have := length_pending_pos (Nat.pos_of_ne_zero hn)
      omega
    rw [pending_eq_nil hn]
    exact ⟨List.SameQueues.refl _, fun p hp => nomatch hp⟩
  | fuel + 1, t, hi, hlen => by
    by_cases hn : t.heads.n = 0
    · have hpeek : t.Peek = none := if_pos hn
      simp only [shiftLoop, hpeek]
      rw [pending_eq_nil hn]
      exact ⟨List.SameQueues.refl _, fun p hp => nomatch hp⟩
    · obtain ⟨t', hs, hi', hq⟩ := hi.shift (Nat.pos_of_ne_zero hn)
      have hpeek : t.Peek = some (t.heads.a 0) := if_neg hn
      have hlen' : t'.Pending.length + 1 = t.Pending.length := by
        simpa using hq.perm.length_eq.symm
      obtain ⟨ih, ih'⟩ := shiftLoop_spec fuel t' hi' (by omega)
      simp only [shiftLoop, hpeek, hs, List.map_cons]
      refine ⟨(ih.cons _).trans hq.symm, fun p hp => ?_⟩
      rcases List.mem_cons.mp hp with rfl | hp
      · exact ⟨hi, hpeek, le_rfl⟩
      · obtain ⟨hpi, hpp, hpl⟩ := ih' p hp
        exact ⟨hpi, hpp, by omega⟩

/-! ## The set the constructor builds -/

/-- The range in `NewTransactionsByPriceAndNonce`, over lists that are not empty and are
signed by their accounts: the first transactions join the heads, the rests go back under
their accounts. -/
theorem foldlM_newStep (es : List (Sigma fun _ : Address => List (Transaction Address)))
    (hes : ∀ e ∈ es, e.2 ≠ [] ∧ ∀ x ∈ e.2, x.sender = e.1) :
    ∀ (heads : List (Transaction Address)) (m : AccountTxs Address),
      es.foldlM newStep (heads, m) =
        some (heads ++ es.filterMap (·.2.head?), es.foldl (fun m e => m.insert e.1 e.2.tail) m) := by
  induction es with
  | nil => intro heads m; simp
  | cons e es ih =>
    intro heads m
    obtain ⟨⟨a, l⟩, hl⟩ : ∃ e' : Sigma fun _ : Address => List (Transaction Address), e' = e :=
      ⟨e, rfl⟩
    subst hl
    obtain ⟨hne, hsig⟩ := hes ⟨a, l⟩ List.mem_cons_self
    obtain ⟨x, r, rfl⟩ := List.exists_cons_of_ne_nil hne
    -- the first transaction is signed by the account: the entry stays
    have hx : x.sender = a := hsig x List.mem_cons_self
    have hstep : newStep (heads, m) ⟨a, x :: r⟩ = some (heads ++ [x], m.insert a r) := by
      simp [newStep, hx]
    rw [List.foldlM_cons, hstep, Option.bind_eq_bind, Option.bind_some,
      ih (fun e he => hes e (List.mem_cons_of_mem _ he))]
    simp

/-- Putting each account's rest back leaves the rests of the map's lists. -/
theorem lookup_foldl_insert_tail (a : Address) :
    ∀ (es : List (Sigma fun _ : Address => List (Transaction Address))) (m : AccountTxs Address),
      es.NodupKeys →
      (es.foldl (fun m e => m.insert e.1 e.2.tail) m).lookup a =
        ((es.dlookup a).map List.tail).or (m.lookup a)
  | [], _, _ => rfl
  | ⟨k, v⟩ :: es, m, hnd => by
    rw [List.nodupKeys_cons] at hnd
    rw [List.foldl_cons, lookup_foldl_insert_tail a es _ hnd.2]
    by_cases hak : a = k
    · -- the later entries have other keys
      subst hak
      have hnone : es.dlookup a = none := List.dlookup_eq_none.mpr hnd.1
      rw [hnone, AList.lookup_insert, List.dlookup_cons_eq]
      rfl
    · rw [AList.lookup_insert_ne hak, List.dlookup_cons_ne _ _ hak]

omit [DecidableEq Address] in
theorem map_sender_filterMap_head
    (es : List (Sigma fun _ : Address => List (Transaction Address)))
    (hes : ∀ e ∈ es, e.2 ≠ [] ∧ ∀ x ∈ e.2, x.sender = e.1) :
    (es.filterMap (·.2.head?)).map Transaction.sender = es.keys := by
  induction es with
  | nil => rfl
  | cons e es ih =>
    obtain ⟨hne, hsig⟩ := hes e List.mem_cons_self
    obtain ⟨x, r, hxr⟩ := List.exists_cons_of_ne_nil hne
    rw [List.filterMap_cons, hxr, List.head?_cons, List.map_cons, List.keys_cons,
      ih fun e' he' => hes e' (List.mem_cons_of_mem _ he'), hsig x (by rw [hxr]; exact List.mem_cons_self)]

omit [DecidableEq Address] in
/-- The blocks of the first transactions, when each block is its account's list. -/
theorem flatMap_filterMap_head {g : Transaction Address → List (Transaction Address)} :
    ∀ (es : List (Sigma fun _ : Address => List (Transaction Address))),
      (∀ e ∈ es, ∀ x r, e.2 = x :: r → g x = e.2) →
      (es.filterMap (·.2.head?)).flatMap g = es.flatMap Sigma.snd
  | [], _ => rfl
  | ⟨a, l⟩ :: es, hg => by
    have ih := flatMap_filterMap_head es fun e he => hg e (List.mem_cons_of_mem _ he)
    cases l with
    | nil => rw [List.filterMap_cons_none rfl, List.flatMap_cons, List.nil_append, ih]
    | cons x r =>
      rw [List.filterMap_cons, List.head?_cons, List.flatMap_cons, List.flatMap_cons, ih,
        hg ⟨a, x :: r⟩ List.mem_cons_self x r rfl]

variable [Inhabited Address]

/-- **The constructor**, on lists that are not empty and are signed by their accounts, builds
a set that keeps the invariant and has the map's lists to come, each under its account. -/
theorem New_spec (txs : AccountTxs Address) (hne : ∀ e ∈ txs.entries, e.2 ≠ [])
    (hsigned : ∀ e ∈ txs.entries, ∀ x ∈ e.2, x.sender = e.1) :
    ∃ t, NewTransactionsByPriceAndNonce txs = some t ∧ t.Inv ∧
      List.SameQueues Transaction.sender t.Pending (txs.entries.flatMap Sigma.snd) := by
  have hes : ∀ e ∈ txs.entries, e.2 ≠ [] ∧ ∀ x ∈ e.2, x.sender = e.1 :=
    fun e he => ⟨hne e he, hsigned e he⟩
  let heads := txs.entries.filterMap (·.2.head?)
  let t : TransactionsByPriceAndNonce Address :=
    ⟨txs.entries.foldl (fun m e => m.insert e.1 e.2.tail) txs,
      ArrayHeap.Init priceKey (ArrayHeap.ofList heads)⟩
  -- each account's rest is its list without the first
  have hrest : ∀ a, t.rest a = ((txs.lookup a).getD []).tail := by
    intro a
    have hl := lookup_foldl_insert_tail a txs.entries txs txs.nodupKeys
    have hd : txs.entries.dlookup a = txs.lookup a := rfl
    simp only [rest, t, hl, hd]
    cases txs.lookup a <;> rfl
  have hsig : ∀ a, ∀ x ∈ t.rest a, x.sender = a := by
    intro a x hx
    rw [hrest a] at hx
    cases h : txs.lookup a with
    | none => simp [h] at hx
    | some l =>
      rw [h, Option.getD_some] at hx
      exact hsigned ⟨a, l⟩ (AList.mem_lookup_iff.mp h) x (List.mem_of_mem_tail hx)
  obtain ⟨ho, hp⟩ := @ArrayHeap.Init_spec _ _ _ priceKey (ArrayHeap.ofList heads)
  rw [ArrayHeap.toList_ofList] at hp
  have hnd : (heads.map Transaction.sender).Nodup := by
    rw [map_sender_filterMap_head _ hes]
    exact txs.nodupKeys
  have hi : t.Inv := ⟨ho, (hp.map _).nodup_iff.mpr hnd, hsig⟩
  refine ⟨t, ?_, hi, ?_⟩
  · simp only [NewTransactionsByPriceAndNonce, foldlM_newStep _ hes, List.nil_append,
      Option.map_some]
    rfl
  · -- the heap holds the first transactions, and the block of each is its account's list
    have hblocks : heads.flatMap t.block = txs.entries.flatMap Sigma.snd := by
      refine flatMap_filterMap_head txs.entries fun e he x r hxr => ?_
      have hx : x.sender = e.1 := hsigned e he x (by rw [hxr]; exact List.mem_cons_self)
      have hlook : txs.lookup e.1 = some e.2 := AList.mem_lookup_iff.mpr he
      rw [block, hrest, hx, hlook, Option.getD_some, hxr, List.tail_cons]
    rw [← hblocks]
    exact (List.SameQueues.of_perm hp ((hp.map _).nodup_iff.mpr hnd)).flatMap hi.block_sender

/-- **Price and nonce order.**  From a map of non-empty lists, each signed by its account, the
miner's loop of `Peek` and `Shift`, given fuel for every transaction, yields every transaction
once and each account's in its order; each at a price not below any head of its moment, the
root of its set.  Calling `Pop` there in place of `Shift` drops from what the loop yields
from then on exactly the transactions of that account. -/
theorem price_nonce_order (txs : AccountTxs Address) (hne : ∀ e ∈ txs.entries, e.2 ≠ [])
    (hsigned : ∀ e ∈ txs.entries, ∀ x ∈ e.2, x.sender = e.1) :
    ∃ t, NewTransactionsByPriceAndNonce txs = some t ∧
      ∀ fuel, (txs.entries.flatMap Sigma.snd).length ≤ fuel →
        (shiftLoop fuel t).map Prod.fst ~ txs.entries.flatMap Sigma.snd ∧
        (∀ a, ((shiftLoop fuel t).map Prod.fst).filter (fun x => x.sender = a) =
          (txs.lookup a).getD []) ∧
        (∀ p ∈ shiftLoop fuel t, p.2.Peek = some p.1 ∧
          ∀ h ∈ p.2.heads.toList, h.gasPrice ≤ p.1.gasPrice) ∧
        (∀ p ∈ shiftLoop fuel t, ∃ t', p.2.Pop = some t' ∧
          (shiftLoop fuel t').map Prod.fst ~
            ((shiftLoop fuel p.2).map Prod.fst).filter (fun x => x.sender ≠ p.1.sender)) := by
  obtain ⟨t, hnew, hi, hq⟩ := New_spec txs hne hsigned
  refine ⟨t, hnew, fun fuel hfuel => ?_⟩
  have hlen : t.Pending.length ≤ fuel := hq.perm.length_eq ▸ hfuel
  obtain ⟨hout, hsteps⟩ := shiftLoop_spec fuel t hi hlen
  have hall := hout.trans hq
  refine ⟨hall.perm, fun a => ?_, fun p hp => ?_, fun p hp => ?_⟩
  · -- read by account, the map's lists
    rw [hall a]
    exact List.filter_flatMap_entries txs.nodupKeys hsigned a
  · obtain ⟨hpi, hpp, -⟩ := hsteps p hp
    exact ⟨hpp, hpi.peek_max hpp⟩
  · obtain ⟨hpi, hpp, hpl⟩ := hsteps p hp
    -- the set has a root, the transaction read there
    have hn : 0 < p.2.heads.n := Nat.pos_of_ne_zero fun h0 => by simp [Peek, h0] at hpp
    have hroot : p.2.heads.a 0 = p.1 := by simpa [Peek, hn.ne'] using hpp
    obtain ⟨t', hpop, hi', hq'⟩ := hpi.pop hn
    rw [hroot] at hq'
    have hlen' : t'.Pending.length ≤ fuel := by
      have := (hq'.perm.length_eq).trans_le (List.length_filter_le _ _)
      omega
    refine ⟨t', hpop, ?_⟩
    have hfrom := (shiftLoop_spec fuel p.2 hpi (by omega)).1.perm
    exact ((shiftLoop_spec fuel t' hi' hlen').1.perm.trans hq'.perm).trans (hfrom.symm.filter _)

/-- Two accounts: the first with the prices 5 and then 9, the second with 7. -/
def twoAccounts : AccountTxs ℕ :=
  ⟨[⟨1, [⟨default, 0, 21000, 5, 0, 1⟩, ⟨default, 1, 21000, 9, 0, 1⟩]⟩,
    ⟨2, [⟨default, 0, 21000, 7, 0, 2⟩]⟩], show List.Nodup [1, 2] by decide⟩

theorem price_nonce_order_two_accounts :
    (∀ e ∈ twoAccounts.entries, e.2 ≠ []) ∧
    (∀ e ∈ twoAccounts.entries, ∀ x ∈ e.2, x.sender = e.1) ∧
    ∃ t, NewTransactionsByPriceAndNonce twoAccounts = some t ∧
      ∀ fuel, (twoAccounts.entries.flatMap Sigma.snd).length ≤ fuel →
        (shiftLoop fuel t).map Prod.fst ~ twoAccounts.entries.flatMap Sigma.snd ∧
        (∀ a, ((shiftLoop fuel t).map Prod.fst).filter (fun x => x.sender = a) =
          (twoAccounts.lookup a).getD []) ∧
        (∀ p ∈ shiftLoop fuel t, p.2.Peek = some p.1 ∧
          ∀ h ∈ p.2.heads.toList, h.gasPrice ≤ p.1.gasPrice) ∧
        (∀ p ∈ shiftLoop fuel t, ∃ t', p.2.Pop = some t' ∧
          (shiftLoop fuel t').map Prod.fst ~
            ((shiftLoop fuel p.2).map Prod.fst).filter (fun x => x.sender ≠ p.1.sender)) :=
  ⟨by decide, by decide, price_nonce_order twoAccounts (by decide) (by decide)⟩

/-- The second account's 7 first; the first account's 9 only after its 5. -/
example : (NewTransactionsByPriceAndNonce twoAccounts).map
    (fun t => (shiftLoop 3 t).map (·.1.gasPrice)) = some [7, 5, 9] := by
  decide +kernel

end Atlantis.Core
