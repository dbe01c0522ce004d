import Atlantis.Core.TxPool

/-!
# The invariant of the pool's lists

`promoteExecutables` relies on what the pool keeps of its lists (`Inv`): every listed
transaction is listed under its sender and found in `all` under its hash; no account has a
nonce both pending and queued; the queued lists are not strict.  Under it `removeTx` of a
queued transaction takes exactly that transaction out of its queued list
(`removeTx_of_inQueue`), where without it the hash could find a pending transaction of the
same nonce, or none.

Most steps of `promoteExecutables` only take transactions out: `Shrinks` says that a pool
keeps only transactions of another where they were, and forgets only hashes of transactions
it no longer lists.  It keeps the invariant (`Inv.shrinks`) and composes (`Shrinks.trans`).
-/

namespace Atlantis.Core.TxPool

variable {Address : Type} [DecidableEq Address]

/-- `tx` is in the queued list of `addr`. -/
def InQueue (pool : TxPool Address) (addr : Address) (tx : Transaction Address) : Prop :=
  ∃ l, pool.queue.lookup addr = some l ∧ tx ∈ l.Flatten

/-- `tx` is in the pending list of `addr`. -/
def InPending (pool : TxPool Address) (addr : Address) (tx : Transaction Address) : Prop :=
  ∃ l, pool.pending.lookup addr = some l ∧ tx ∈ l.Flatten

/-- `tx` is pending or queued for `addr`. -/
def Listed (pool : TxPool Address) (addr : Address) (tx : Transaction Address) : Prop :=
  pool.InQueue addr tx ∨ pool.InPending addr tx

/-- What the pool keeps of its lists. -/
structure Inv (pool : TxPool Address) : Prop where
  sender : ∀ {a tx}, pool.Listed a tx → tx.sender = a
  lookup : ∀ {a tx}, pool.Listed a tx → pool.all tx.hash = some tx
  disjoint : ∀ {a tx tx'}, pool.InQueue a tx → pool.InPending a tx' → tx.nonce ≠ tx'.nonce
  queue_strict : ∀ {a l}, pool.queue.lookup a = some l → l.strict = false

variable {pool pool' pool'' : TxPool Address} {a b : Address} {tx t : Transaction Address}

/-- A queued transaction is pending nowhere. -/
theorem Inv.not_inPending (hinv : pool.Inv) (h : pool.InQueue a tx) : ¬ pool.InPending b tx := by
  intro h'
  have hb : b = a := (hinv.sender (.inr h')).symm.trans (hinv.sender (.inl h))
  subst hb
  exact hinv.disjoint h h' rfl

/-! ### Pools that only take transactions out -/

/-- `pool'` keeps only transactions of `pool`, each where it was, forgets only hashes of
transactions it no longer lists, and keeps the modes of the queued lists. -/
structure Shrinks (pool pool' : TxPool Address) : Prop where
  queue : ∀ {a tx}, pool'.InQueue a tx → pool.InQueue a tx
  pending : ∀ {a tx}, pool'.InPending a tx → pool.InPending a tx
  lookup : ∀ {a tx}, pool'.Listed a tx → pool'.all tx.hash = pool.all tx.hash
  queue_strict : ∀ {a l'}, pool'.queue.lookup a = some l' →
    ∃ l, pool.queue.lookup a = some l ∧ l'.strict = l.strict

theorem Shrinks.refl (pool : TxPool Address) : Shrinks pool pool :=
  ⟨id, id, fun _ => rfl, fun h => ⟨_, h, rfl⟩⟩

theorem Shrinks.listed (h : Shrinks pool pool') : pool'.Listed a tx → pool.Listed a tx
  | .inl hq => .inl (h.queue hq)
  | .inr hp => .inr (h.pending hp)

theorem Shrinks.trans (h : Shrinks pool pool') (h' : Shrinks pool' pool'') :
    Shrinks pool pool'' where
  queue hq := h.queue (h'.queue hq)
  pending hp := h.pending (h'.pending hp)
  lookup hl := (h'.lookup hl).trans (h.lookup (h'.listed hl))
  queue_strict hl := by
    obtain ⟨l', hl', hs'⟩ := h'.queue_strict hl
    obtain ⟨l, hl, hs⟩ := h.queue_strict hl'
    exact ⟨l, hl, hs'.trans hs⟩

theorem Inv.shrinks (hinv : pool.Inv) (h : Shrinks pool pool') : pool'.Inv where
  sender hl := hinv.sender (h.listed hl)
  lookup hl := (h.lookup hl).trans (hinv.lookup (h.listed hl))
  disjoint hq hp := hinv.disjoint (h.queue hq) (h.pending hp)
  queue_strict hl := by
    obtain ⟨l, hl, hs⟩ := h.queue_strict hl
    rw [hs]
    exact hinv.queue_strict hl

/-- A shrinking pool's queued lists are no longer. -/
theorem Shrinks.queuedLen_le (h : Shrinks pool pool') (a : Address) :
    pool'.queuedLen a ≤ pool.queuedLen a := by
  unfold queuedLen
  cases hl' : pool'.queue.lookup a with
  | none => simp
  | some l' =>
    obtain ⟨l, hl, -⟩ := h.queue_strict hl'
    have hsub : l'.Flatten ⊆ l.Flatten := fun t ht => by
      obtain ⟨l₀, hl₀, ht₀⟩ := h.queue ⟨l', hl', ht⟩
      rw [hl, Option.some.injEq] at hl₀
      exact hl₀ ▸ ht₀
    simpa [hl, TxList.Len_eq] using l'.nodup_Flatten.length_le_of_subset hsub

/-- Pools with the same lists and lookup shrink alike. -/
theorem Shrinks.congr (h : Shrinks pool pool') {pool'' : TxPool Address}
    (hp : ∀ a, pool''.pending.lookup a = pool'.pending.lookup a)
    (hq : ∀ a, pool''.queue.lookup a = pool'.queue.lookup a)
    (ha : pool''.all = pool'.all) : Shrinks pool pool'' where
  queue hl := h.queue (by simpa [InQueue, hq] using hl)
  pending hl := h.pending (by simpa [InPending, hp] using hl)
  lookup hl := by
    rw [ha]
    exact h.lookup (by simpa [Listed, InQueue, InPending, hp, hq] using hl)
  queue_strict hl := h.queue_strict ((hq _).symm.trans hl)

/-! ### The steps that take transactions out -/

theorem inQueue_setQueue {l l' : TxList Address} (h : pool.queue.lookup a = some l) :
    (pool.setQueue a l').InQueue b t ↔ (b = a ∧ t ∈ l'.Flatten) ∨ (b ≠ a ∧ pool.InQueue b t) := by
  have ha : a ∈ pool.queue := AList.lookup_isSome.mp (by simp [h])
  by_cases hb : b = a
  · subst hb
    simp [InQueue, setQueue, AList.lookup_replace_self _ ha]
  · simp [InQueue, setQueue, AList.lookup_replace_of_ne _ _ hb, hb]

/-- Writing back a split queued list keeps only transactions the list had. -/
theorem shrinks_setQueue {l l' : TxList Address} {removed : List (Transaction Address)}
    (h : pool.queue.lookup a = some l) (hs : TxList.Splits l l' removed) :
    Shrinks pool (pool.setQueue a l') where
  queue hq := by
    rcases (inQueue_setQueue h).mp hq with ⟨rfl, ht⟩ | ⟨-, ht⟩
    · exact ⟨l, h, hs.mem ht⟩
    · exact ht
  pending hp := hp
  lookup _ := rfl
  queue_strict {b} l'' hl := by
    have ha : a ∈ pool.queue := AList.lookup_isSome.mp (by simp [h])
    by_cases hb : b = a
    · subst hb
      simp only [setQueue, AList.lookup_replace_self _ ha, Option.some.injEq] at hl
      exact ⟨l, h, hl ▸ hs.strict⟩
    · simp only [setQueue, AList.lookup_replace_of_ne _ _ hb] at hl
      exact ⟨l'', hl, rfl⟩

theorem shrinks_erase_queue (pool : TxPool Address) (a : Address) :
    Shrinks pool { pool with queue := pool.queue.erase a } where
  queue {b} _ hq := by
    obtain ⟨l, hl, ht⟩ := hq
    by_cases hb : b = a
    · subst hb
      simp at hl
    · exact ⟨l, by simpa [AList.lookup_erase_ne hb] using hl, ht⟩
  pending hp := hp
  lookup _ := rfl
  queue_strict {b} l' hl := by
    by_cases hb : b = a
    · subst hb
      simp at hl
    · exact ⟨l', by simpa [AList.lookup_erase_ne hb] using hl, rfl⟩

/-- Forgetting the hashes of transactions the pool no longer lists. -/
theorem shrinks_removeAll (hinv : pool.Inv) {txs : List (Transaction Address)}
    (hr : ∀ r ∈ txs, pool.all r.hash = some r ∧ ∀ b, ¬ pool.Listed b r) :
    Shrinks pool (pool.removeAll txs) where
  queue hq := hq
  pending hp := hp
  lookup {b} t hl := by
    -- a listed transaction has no hash of a forgotten one
    have hno : txs.any (fun r => decide (r.hash = t.hash)) = false := by
      rw [Bool.eq_false_iff]
      intro hany
      obtain ⟨r, hr', hrt⟩ := List.any_eq_true.mp hany
      have hrt : r.hash = t.hash := by simpa using hrt
      have := (hr r hr').1
      rw [hrt, hinv.lookup hl, Option.some.injEq] at this
      exact (hr r hr').2 b (this ▸ hl)
    simp only [removeAll, hno, Bool.false_eq_true, if_false]
  queue_strict hl := ⟨_, hl, rfl⟩

theorem inPending_setPending {l l' : TxList Address} (h : pool.pending.lookup a = some l) :
    ({ pool with pending := pool.pending.replace a l' } : TxPool Address).InPending b t ↔
      (b = a ∧ t ∈ l'.Flatten) ∨ (b ≠ a ∧ pool.InPending b t) := by
  have ha : a ∈ pool.pending := AList.lookup_isSome.mp (by simp [h])
  by_cases hb : b = a
  · subst hb
    simp [InPending, AList.lookup_replace_self _ ha]
  · simp [InPending, AList.lookup_replace_of_ne _ _ hb, hb]

/-- Writing back a split pending list keeps only transactions the list had. -/
theorem shrinks_setPending {l l' : TxList Address} {removed : List (Transaction Address)}
    (h : pool.pending.lookup a = some l) (hs : TxList.Splits l l' removed) :
    Shrinks pool { pool with pending := pool.pending.replace a l' } where
  queue hq := hq
  pending hp := by
    rcases (inPending_setPending h).mp hp with ⟨rfl, ht⟩ | ⟨-, ht⟩
    · exact ⟨l, h, hs.mem ht⟩
    · exact ht
  lookup _ := rfl
  queue_strict hl := ⟨_, hl, rfl⟩

/-- What a split pending list takes out is no longer listed, and still found under its
hash. -/
theorem Inv.removed_of_splits_pending (hinv : pool.Inv) {l l' : TxList Address}
    {removed : List (Transaction Address)} (h : pool.pending.lookup a = some l)
    (hs : TxList.Splits l l' removed) {r : Transaction Address} (hr : r ∈ removed) :
    ({ pool with pending := pool.pending.replace a l' } : TxPool Address).all r.hash = some r ∧
      ∀ b, ¬ ({ pool with pending := pool.pending.replace a l' } : TxPool Address).Listed b r := by
  have hp : pool.InPending a r := ⟨l, h, hs.mem_of_removed hr⟩
  refine ⟨hinv.lookup (.inr hp), fun b hb => ?_⟩
  rcases hb with hb | hb
  · exact hinv.not_inPending hb hp
  · rcases (inPending_setPending h).mp hb with ⟨-, ht⟩ | ⟨hba, hb⟩
    · exact hs.not_mem_of_removed hr ht
    · exact hba ((hinv.sender (.inr hb)).symm.trans (hinv.sender (.inr hp)))

/-- What a split queued list takes out is no longer listed, and still found under its hash. -/
theorem Inv.removed_of_splits (hinv : pool.Inv) {l l' : TxList Address}
    {removed : List (Transaction Address)} (h : pool.queue.lookup a = some l)
    (hs : TxList.Splits l l' removed) {r : Transaction Address} (hr : r ∈ removed) :
    (pool.setQueue a l').all r.hash = some r ∧ ∀ b, ¬ (pool.setQueue a l').Listed b r := by
  have hq : pool.InQueue a r := ⟨l, h, hs.mem_of_removed hr⟩
  refine ⟨hinv.lookup (.inl hq), fun b hb => ?_⟩
  rcases hb with hb | hb
  · rcases (inQueue_setQueue h).mp hb with ⟨-, ht⟩ | ⟨-, hb⟩
    · exact hs.not_mem_of_removed hr ht
    · have := (hinv.sender (.inl hb)).symm.trans (hinv.sender (.inl hq))
      rcases (inQueue_setQueue h).mp ‹_› with ⟨hba, _⟩ | ⟨hba, _⟩
      · exact hs.not_mem_of_removed hr (by simpa [hba] using ‹r ∈ l'.Flatten›)
      · exact hba this
  · exact hinv.not_inPending hq hb

/-- Writing back a split queued list and forgetting some of what it took out. -/
theorem Inv.shrinks_setQueue_removeAll (hinv : pool.Inv) {l l' : TxList Address}
    {removed rs : List (Transaction Address)} (h : pool.queue.lookup a = some l)
    (hs : TxList.Splits l l' removed) (hrs : rs ⊆ removed) :
    Shrinks pool ((pool.setQueue a l').removeAll rs) :=
  (shrinks_setQueue h hs).trans
    (shrinks_removeAll (hinv.shrinks (shrinks_setQueue h hs))
      fun _ hr => hinv.removed_of_splits h hs (hrs hr))

/-! ### Removing a queued transaction -/

omit [DecidableEq Address] in
/-- Forgetting one hash is `removeAll` of its transaction. -/
theorem update_all_eq_removeAll (pool : TxPool Address) (tx : Transaction Address) :
    { pool with all := Function.update pool.all tx.hash none } = pool.removeAll [tx] := by
  simp only [removeAll, List.any_cons, List.any_nil, Bool.or_false, decide_eq_true_eq]
  congr 1
  funext h
  by_cases hh : h = tx.hash
  · simp [hh]
  · simp [hh, Ne.symm hh]

/-- Under the invariant `removeTx` of a queued transaction finds it under its hash, finds no
pending transaction of its nonce, and takes it out of its queued list. -/
theorem removeTx_of_inQueue (hinv : pool.Inv) (hq : pool.InQueue a tx) :
    pool.removeTx tx.hash = (pool.removeAll [tx]).removeQueued a tx := by
  have hs : tx.sender = a := hinv.sender (.inl hq)
  have hnone : (pool.removeAll [tx]).removePending a tx = none := by
    unfold removePending
    cases hp : (pool.removeAll [tx]).pending.lookup a with
    | none => rfl
    | some pl =>
      -- the pending list of `a` holds no transaction of the nonce of `tx`
      have hne : ∀ t' ∈ pl.Flatten, t'.nonce ≠ tx.nonce := fun t' ht' =>
        (hinv.disjoint hq ⟨pl, hp, ht'⟩).symm
      simp [TxList.Remove_of_forall_ne hne]
  unfold removeTx
  rw [hinv.lookup (.inl hq)]
  simp only [update_all_eq_removeAll, hs, hnone]

/-- `removeQueued` of a transaction of a list without mode: the list without it, dropped
once empty. -/
theorem removeQueued_of_mem {l : TxList Address} (h : pool.queue.lookup a = some l)
    (hs : l.strict = false) (ht : tx ∈ l.Flatten) :
    ∃ l', TxList.Splits l l' [tx] ∧ pool.removeQueued a tx =
      if l'.Empty then { pool with queue := pool.queue.erase a } else pool.setQueue a l' := by
  obtain ⟨l', hrem, hsplit⟩ := TxList.Remove_of_mem hs ht
  exact ⟨l', hsplit, by simp [removeQueued, h, hrem, setQueue]⟩

/-- `removeTx` of a queued transaction only takes it out. -/
theorem Inv.shrinks_removeTx (hinv : pool.Inv) (hq : pool.InQueue a tx) :
    Shrinks pool (pool.removeTx tx.hash) := by
  obtain ⟨l, hl, ht⟩ := hq
  obtain ⟨l', hsplit, hrem⟩ := removeQueued_of_mem
    (show (pool.removeAll [tx]).queue.lookup a = some l from hl)
    (hinv.queue_strict hl) ht
  have hshrink := hinv.shrinks_setQueue_removeAll hl hsplit (List.Subset.refl _)
  rw [removeTx_of_inQueue hinv ⟨l, hl, ht⟩, hrem]
  split
  · -- the emptied list is dropped: the lookups of the written-back pool with `a` erased
    refine (hshrink.trans (shrinks_erase_queue _ a)).congr (fun _ => rfl) (fun b => ?_) rfl
    by_cases hb : b = a
    · subst hb
      simp [removeAll, setQueue]
    · simp [removeAll, setQueue, AList.lookup_erase_ne hb, AList.lookup_replace_of_ne _ _ hb]
  · exact hshrink.congr (fun _ => rfl) (fun _ => rfl) rfl

/-- `pool'` is `pool` with `removed` taken out of the queued list of `a`, and nothing else
changed but the lookup: the effect of the drops of the queue limit. -/
structure DropsQueued (pool pool' : TxPool Address) (a : Address)
    (removed : List (Transaction Address)) : Prop where
  inv : pool'.Inv
  shrinks : Shrinks pool pool'
  count : pool'.queuedCount + removed.length = pool.queuedCount
  inQueue : ∀ t, pool'.InQueue a t ↔ pool.InQueue a t ∧ t ∉ removed
  queue_ne : ∀ b, b ≠ a → pool'.queue.lookup b = pool.queue.lookup b
  pending : pool'.pending = pool.pending
  config : pool'.config = pool.config
  locals : pool'.locals = pool.locals

theorem DropsQueued.refl (hinv : pool.Inv) (a : Address) : DropsQueued pool pool a [] :=
  ⟨hinv, .refl _, rfl, by simp, fun _ _ => rfl, rfl, rfl, rfl⟩

theorem DropsQueued.trans {removed removed' : List (Transaction Address)}
    (h : DropsQueued pool pool' a removed) (h' : DropsQueued pool' pool'' a removed') :
    DropsQueued pool pool'' a (removed ++ removed') where
  inv := h'.inv
  shrinks := h.shrinks.trans h'.shrinks
  count := by
    have := h.count
    have := h'.count
    simp only [List.length_append]
    omega
  inQueue t := by
    rw [h'.inQueue, h.inQueue, List.mem_append, not_or, and_assoc]
  queue_ne b hb := (h'.queue_ne b hb).trans (h.queue_ne b hb)
  pending := h'.pending.trans h.pending
  config := h'.config.trans h.config
  locals := h'.locals.trans h.locals

/-- `removeTx` of a queued transaction takes exactly it out of its queued list. -/
theorem Inv.dropsQueued_removeTx (hinv : pool.Inv) (hq : pool.InQueue a tx) :
    DropsQueued pool (pool.removeTx tx.hash) a [tx] := by
  have hshrink := hinv.shrinks_removeTx hq
  obtain ⟨l, hl, ht⟩ := hq
  obtain ⟨l', hsplit, hrem⟩ := removeQueued_of_mem
    (show (pool.removeAll [tx]).queue.lookup a = some l from hl)
    (hinv.queue_strict hl) ht
  have hlen := hsplit.length
  have ha : a ∈ pool.queue := AList.lookup_isSome.mp (by simp [hl])
  have hremove := removeTx_of_inQueue hinv ⟨l, hl, ht⟩
  rw [hrem] at hremove
  refine ⟨hinv.shrinks hshrink, hshrink, ?_, fun t => ?_, fun b hb => ?_, ?_, ?_, ?_⟩ <;>
    rw [hremove] <;> split
  · -- the emptied list leaves the count
    next hempty =>
    have hsum := AList.sum_erase TxList.Len hl
    simp only [TxList.Empty, decide_eq_true_eq] at hempty
    simp only [queuedCount, removeAll, List.length_singleton] at hsum hlen ⊢
    omega
  · have hsum := AList.sum_replace TxList.Len hl l'
    simp only [queuedCount, removeAll, setQueue, List.length_singleton] at hsum hlen ⊢
    omega
  · next hempty =>
    simp only [TxList.Empty, TxList.Len_eq, decide_eq_true_eq, List.length_eq_zero_iff] at hempty
    simp only [InQueue, removeAll, AList.lookup_erase, reduceCtorEq, false_and, exists_false,
      hl, Option.some.injEq, exists_eq_left', List.mem_singleton, false_iff, not_and, not_not]
    intro ht'
    by_contra hne
    simpa [hempty] using (hsplit.mem_iff_single (t := t)).mpr ⟨ht', hne⟩
  · simp only [InQueue, removeAll, setQueue, AList.lookup_replace_self _ ha, hl,
      Option.some.injEq, exists_eq_left', List.mem_singleton]
    exact hsplit.mem_iff_single
  · simp [removeAll, AList.lookup_erase_ne hb]
  · simp [removeAll, setQueue, AList.lookup_replace_of_ne _ _ hb]
  all_goals rfl

/-- Removing queued transactions of `a` one after the other. -/
theorem Inv.dropsQueued_foldl {txs : List (Transaction Address)} (hinv : pool.Inv)
    (hnd : txs.Nodup) (hq : ∀ t ∈ txs, pool.InQueue a t) :
    DropsQueued pool (txs.foldl (fun pool tx => pool.removeTx tx.hash) pool) a txs := by
  induction txs generalizing pool with
  | nil => exact DropsQueued.refl hinv a
  | cons tx txs ih =>
    rw [List.nodup_cons] at hnd
    have h1 := hinv.dropsQueued_removeTx (hq tx List.mem_cons_self)
    -- the others are still queued
    have hq' : ∀ t ∈ txs, (pool.removeTx tx.hash).InQueue a t := fun t ht =>
      (h1.inQueue t).mpr ⟨hq t (List.mem_cons_of_mem _ ht),
        by simpa using fun he : t = tx => hnd.1 (he ▸ ht)⟩
    exact h1.trans (ih h1.inv hnd.2 hq')

/-! ### Promoting a transaction -/

@[simp] theorem promoteTx_queue (pool : TxPool Address) (a : Address) (h : Hash)
    (tx : Transaction Address) (now : Nat) : (pool.promoteTx a h tx now).2.queue = pool.queue := by
  unfold promoteTx
  dsimp only
  split
  · rfl
  · split <;> split <;> rfl

@[simp] theorem promoteTx_config (pool : TxPool Address) (a : Address) (h : Hash)
    (tx : Transaction Address) (now : Nat) :
    (pool.promoteTx a h tx now).2.config = pool.config := by
  unfold promoteTx
  dsimp only
  split
  · rfl
  · split <;> split <;> rfl

@[simp] theorem promoteTx_locals (pool : TxPool Address) (a : Address) (h : Hash)
    (tx : Transaction Address) (now : Nat) :
    (pool.promoteTx a h tx now).2.locals = pool.locals := by
  unfold promoteTx
  dsimp only
  split
  · rfl
  · split <;> split <;> rfl

/-- Promoting a transaction of `a` found under its hash, whose nonce no list of `a` holds: it
joins the pending list of `a`, and the lookup stays. -/
theorem Inv.promoteTx_fresh (hinv : pool.Inv) (now : Nat) (hall : pool.all tx.hash = some tx)
    (hs : tx.sender = a) (hn : ∀ t, pool.Listed a t → t.nonce ≠ tx.nonce) :
    (pool.promoteTx a tx.hash tx now).2.Inv ∧ (pool.promoteTx a tx.hash tx now).2.all = pool.all ∧
      ∀ b t, (pool.promoteTx a tx.hash tx now).2.InPending b t ↔
        pool.InPending b t ∨ (b = a ∧ t = tx) := by
  set list := (pool.pending.lookup a).getD (newTxList true) with hlist
  -- the pending list of `a`, or the new one, has no transaction of the nonce of `tx`
  have hfree : ∀ t ∈ list.Flatten, t.nonce ≠ tx.nonce := by
    intro t ht
    cases hp : pool.pending.lookup a with
    | none => simp [hlist, hp, newTxList, TxList.Flatten, TxSortedMap.Flatten] at ht
    | some pl => exact hn t (.inr ⟨pl, hp, by simpa [hlist, hp] using ht⟩)
  obtain ⟨l', hadd, -, hmem⟩ := TxList.Add_of_forall_ne pool.config.PriceBump hfree
  have hpool : (pool.promoteTx a tx.hash tx now).2 = { pool with
      pending := pool.pending.insert a l'
      beats := Function.update pool.beats a now
      pendingNonce := Function.update pool.pendingNonce a (tx.nonce + 1) } := by
    simp [promoteTx, ← hlist, hadd, hall]
  have hpend : ∀ b t, (pool.promoteTx a tx.hash tx now).2.InPending b t ↔
      pool.InPending b t ∨ (b = a ∧ t = tx) := by
    intro b t
    rw [hpool]
    by_cases hb : b = a
    · subst hb
      cases hp : pool.pending.lookup b with
      | none =>
        have hnil : list.Flatten = [] := by
          simp [hlist, hp, newTxList, TxList.Flatten, TxSortedMap.Flatten]
        simp [InPending, hmem, hnil, hp]
      | some pl =>
        simp only [InPending, AList.lookup_insert, Option.some.injEq, exists_eq_left', hmem, hp,
          hlist, Option.getD_some, true_and]
        exact or_comm
    · simp [InPending, AList.lookup_insert_ne hb, hb]
  refine ⟨⟨fun {b t} hl => ?_, fun {b t} hl => ?_, fun {b t t'} hq hp => ?_,
    fun {b l} hl => ?_⟩, by rw [hpool], hpend⟩
  · rcases hl with hq | hp
    · exact hinv.sender (.inl (by simpa [hpool, InQueue] using hq))
    · rcases (hpend b t).mp hp with hp | ⟨rfl, rfl⟩
      · exact hinv.sender (.inr hp)
      · exact hs
  · rw [hpool]
    rcases hl with hq | hp
    · exact hinv.lookup (.inl (by simpa [hpool, InQueue] using hq))
    · rcases (hpend b t).mp hp with hp | ⟨rfl, rfl⟩
      · exact hinv.lookup (.inr hp)
      · exact hall
  · have hq₀ : pool.InQueue b t := by simpa [hpool, InQueue] using hq
    rcases (hpend b t').mp hp with hp | ⟨rfl, rfl⟩
    · exact hinv.disjoint hq₀ hp
    · exact hn t (.inl hq₀)
  · exact hinv.queue_strict (by simpa [hpool] using hl)

@[simp] theorem foldl_promoteTx_queue (a : Address) (now : Nat) (txs : List (Transaction Address))
    (pool : TxPool Address) :
    (txs.foldl (fun pool tx => (pool.promoteTx a tx.hash tx now).2) pool).queue = pool.queue := by
  induction txs generalizing pool <;> simp [*]

@[simp] theorem foldl_promoteTx_config (a : Address) (now : Nat) (txs : List (Transaction Address))
    (pool : TxPool Address) :
    (txs.foldl (fun pool tx => (pool.promoteTx a tx.hash tx now).2) pool).config = pool.config := by
  induction txs generalizing pool <;> simp [*]

@[simp] theorem foldl_promoteTx_locals (a : Address) (now : Nat) (txs : List (Transaction Address))
    (pool : TxPool Address) :
    (txs.foldl (fun pool tx => (pool.promoteTx a tx.hash tx now).2) pool).locals = pool.locals := by
  induction txs generalizing pool <;> simp [*]

/-- Promoting, one after the other, transactions of `a` of distinct nonces, each found under
its hash and of a nonce no list of `a` holds. -/
theorem Inv.foldl_promoteTx (now : Nat) {txs : List (Transaction Address)} (hinv : pool.Inv)
    (hfresh : ∀ t ∈ txs, pool.all t.hash = some t ∧ t.sender = a ∧
      ∀ t', pool.Listed a t' → t'.nonce ≠ t.nonce)
    (hnonce : txs.Pairwise fun t t' => t.nonce ≠ t'.nonce) :
    (txs.foldl (fun pool tx => (pool.promoteTx a tx.hash tx now).2) pool).Inv := by
  induction txs generalizing pool with
  | nil => exact hinv
  | cons tx txs ih =>
    rw [List.pairwise_cons] at hnonce
    obtain ⟨hall, hs, hn⟩ := hfresh tx List.mem_cons_self
    obtain ⟨hinv', hall', hpend⟩ := hinv.promoteTx_fresh now hall hs hn
    refine ih hinv' (fun t ht => ?_) hnonce.2
    obtain ⟨hall_t, hs_t, hn_t⟩ := hfresh t (List.mem_cons_of_mem _ ht)
    refine ⟨hall' ▸ hall_t, hs_t, fun t' hl => ?_⟩
    -- the pending list of `a` has gained `tx`, of another nonce
    rcases hl with hq | hp
    · exact hn_t t' (.inl (by simpa [InQueue] using hq))
    · rcases (hpend a t').mp hp with hp | ⟨-, rfl⟩
      · exact hn_t t' (.inr hp)
      · exact hnonce.1 t ht

/-! ### A turn of the loop over the accounts -/

/-- One turn of the loop of `promoteExecutables`: it keeps the invariant, changes no queued
list but the one of `a`, caps that one at `AccountQueue` unless `a` is local, and keeps the
configuration and the locals. -/
theorem Inv.promoteAccount (hinv : pool.Inv) (now : Nat) (a : Address) :
    (pool.promoteAccount now a).Inv ∧
      (∀ b, b ≠ a → (pool.promoteAccount now a).queue.lookup b = pool.queue.lookup b) ∧
      (a ∉ pool.locals → (pool.promoteAccount now a).queuedLen a ≤ pool.config.AccountQueue) ∧
      (pool.promoteAccount now a).config = pool.config ∧
      (pool.promoteAccount now a).locals = pool.locals := by
  cases hl : pool.queue.lookup a with
  | none =>
    have hp : pool.promoteAccount now a = pool := by simp [TxPool.promoteAccount, hl]
    rw [hp]
    exact ⟨hinv, fun _ _ => rfl, fun _ => by simp [queuedLen, hl], rfl, rfl⟩
  | some l =>
    have ha : a ∈ pool.queue := AList.lookup_isSome.mp (by simp [hl])
    simp only [TxPool.promoteAccount, hl]
    -- the transactions below the account's nonce
    generalize hF : l.Forward (pool.currentNonce a) = F
    have hsF : TxList.Splits l F.2 F.1 := hF ▸ l.splits_Forward _
    have h1 := hinv.shrinks_setQueue_removeAll hl hsF (List.Subset.refl _)
    generalize hp1 : (pool.setQueue a F.2).removeAll F.1 = p1 at h1
    have hl1 : p1.queue.lookup a = some F.2 := by
      rw [← hp1]
      exact AList.lookup_replace_self _ ha
    -- the ones the account cannot pay for
    generalize hD : F.2.Filter (p1.currentBalance a) p1.currentMaxGas = D
    have hsD : TxList.Splits F.2 D.2.2 (D.1 ++ D.2.1) := hD ▸ F.2.splits_Filter _ _
    have h2 := (hinv.shrinks h1).shrinks_setQueue_removeAll hl1 hsD (List.subset_append_left _ _)
    generalize hp2 : (p1.setQueue a D.2.2).removeAll D.1 = p2 at h2
    have ha1 : a ∈ p1.queue := AList.lookup_isSome.mp (by simp [hl1])
    have hl2 : p2.queue.lookup a = some D.2.2 := by
      rw [← hp2]
      exact AList.lookup_replace_self _ ha1
    have hinv2 := (hinv.shrinks h1).shrinks h2
    -- the executable ones go to the pending list
    generalize hR : D.2.2.Ready (p2.pendingNonce a) = R
    have hsR : TxList.Splits D.2.2 R.2 R.1 := hR ▸ D.2.2.splits_Ready _
    have hinv2' := hinv2.shrinks (shrinks_setQueue hl2 hsR)
    have hfresh : ∀ t ∈ R.1, (p2.setQueue a R.2).all t.hash = some t ∧ t.sender = a ∧
        ∀ t', (p2.setQueue a R.2).Listed a t' → t'.nonce ≠ t.nonce := by
      intro t ht
      have hq : p2.InQueue a t := ⟨D.2.2, hl2, hsR.mem_of_removed ht⟩
      refine ⟨hinv2.lookup (.inl hq), hinv2.sender (.inl hq), fun t' hl' => ?_⟩
      rcases hl' with hq' | hp'
      · rcases (inQueue_setQueue hl2).mp hq' with ⟨-, ht'⟩ | ⟨hne, -⟩
        · exact fun hn => hsR.not_mem_of_removed ht
            (TxList.eq_of_nonce_eq (hsR.mem ht') (hsR.mem_of_removed ht) hn ▸ ht')
        · exact absurd rfl hne
      · exact (hinv2.disjoint hq hp').symm
    have hnd : R.1.Nodup :=
      (hsR.perm.nodup_iff.mpr D.2.2.nodup_Flatten).sublist (List.sublist_append_left _ _)
    have hnonce : R.1.Pairwise fun t t' => t.nonce ≠ t'.nonce :=
      hnd.imp_of_mem fun ht ht' hne hn =>
        hne (TxList.eq_of_nonce_eq (hsR.mem_of_removed ht) (hsR.mem_of_removed ht') hn)
    have hinv3 := hinv2'.foldl_promoteTx now hfresh hnonce
    generalize hp3 : R.1.foldl (fun pool tx => (pool.promoteTx a tx.hash tx now).2)
      (p2.setQueue a R.2) = p3 at hinv3
    have ha2 : a ∈ p2.queue := AList.lookup_isSome.mp (by simp [hl2])
    have hl3 : p3.queue.lookup a = some R.2 := by
      rw [← hp3, foldl_promoteTx_queue]
      exact AList.lookup_replace_self _ ha2
    have hcfg3 : p3.config = pool.config := by
      rw [← hp3, foldl_promoteTx_config, ← hp2, ← hp1]
      rfl
    have hloc3 : p3.locals = pool.locals := by
      rw [← hp3, foldl_promoteTx_locals, ← hp2, ← hp1]
      rfl
    -- the cap of a non-local account
    generalize hC : (if a ∉ p3.locals then R.2.Cap p3.config.AccountQueue else ([], R.2)) = C
    have hsC : TxList.Splits R.2 C.2 C.1 := by
      rw [← hC]
      split
      · exact R.2.splits_Cap _
      · exact ⟨List.Perm.refl _, rfl⟩
    have h4 := hinv3.shrinks_setQueue_removeAll hl3 hsC (List.Subset.refl _)
    generalize hp4 : (p3.setQueue a C.2).removeAll C.1 = p4 at h4
    have hinv4 := hinv3.shrinks h4
    -- the queued lists of the other accounts
    have hne4 : ∀ b, b ≠ a → p4.queue.lookup b = pool.queue.lookup b := by
      intro b hb
      rw [← hp4, ← hp1] at *
      rw [← hp3, ← hp2] at *
      simp [removeAll, setQueue, AList.lookup_replace_of_ne _ _ hb]
    have hcap : a ∉ pool.locals → ∀ l', p4.queue.lookup a = some l' →
        l'.Len ≤ pool.config.AccountQueue := by
      intro hloc l' hl'
      have ha3 : a ∈ p3.queue := AList.lookup_isSome.mp (by simp [hl3])
      rw [← hp4] at hl'
      simp only [removeAll, setQueue, AList.lookup_replace_self _ ha3, Option.some.injEq] at hl'
      rw [← hl', ← hC, if_pos (hloc3 ▸ hloc), TxList.Len_Cap, hcfg3]
      exact Nat.min_le_right _ _
    have hcfg4 : p4.config = pool.config := by rw [← hp4]; exact hcfg3
    have hloc4 : p4.locals = pool.locals := by rw [← hp4]; exact hloc3
    split
    · refine ⟨hinv4.shrinks (shrinks_erase_queue p4 a), fun b hb => ?_, fun _ => ?_, hcfg4, hloc4⟩
      · simpa [AList.lookup_erase_ne hb] using hne4 b hb
      · simp [queuedLen]
    · refine ⟨hinv4, hne4, fun hloc => ?_, hcfg4, hloc4⟩
      unfold queuedLen
      cases hl4 : p4.queue.lookup a with
      | none => simp
      | some l' => simpa using hcap hloc l' hl4

/-- The loop over the accounts keeps the invariant, and leaves each non-local account it
went through at most `AccountQueue` queued transactions; the queued lists of the others stay. -/
theorem Inv.foldl_promoteAccount (hinv : pool.Inv) (now : Nat) (accounts : List Address) :
    (accounts.foldl (TxPool.promoteAccount now) pool).Inv ∧
      (∀ a ∈ accounts, a ∉ pool.locals →
        (accounts.foldl (TxPool.promoteAccount now) pool).queuedLen a ≤ pool.config.AccountQueue) ∧
      (∀ b ∉ accounts, (accounts.foldl (TxPool.promoteAccount now) pool).queue.lookup b =
        pool.queue.lookup b) ∧
      (accounts.foldl (TxPool.promoteAccount now) pool).config = pool.config ∧
      (accounts.foldl (TxPool.promoteAccount now) pool).locals = pool.locals := by
  induction accounts generalizing pool with
  | nil => exact ⟨hinv, by simp, fun _ _ => rfl, rfl, rfl⟩
  | cons a rest ih =>
    obtain ⟨hinv1, hne1, hcap1, hcfg1, hloc1⟩ := hinv.promoteAccount now a
    obtain ⟨hinv', hcap', hne', hcfg', hloc'⟩ := ih hinv1
    simp only [List.foldl_cons]
    refine ⟨hinv', fun b hb hloc => ?_, fun b hb => ?_, hcfg'.trans hcfg1, hloc'.trans hloc1⟩
    · by_cases hbr : b ∈ rest
      · simpa [hcfg1] using hcap' b hbr (hloc1 ▸ hloc)
      · -- `b` is `a`, and the rest of the loop leaves its queued list
        have hba : b = a := by simpa [hbr] using hb
        subst hba
        have := hcap1 hloc
        simpa [queuedLen, hne' b hbr] using this
    · rw [List.mem_cons, not_or] at hb
      exact (hne' b hb.2).trans (hne1 b hb.1)

end Atlantis.Core.TxPool
