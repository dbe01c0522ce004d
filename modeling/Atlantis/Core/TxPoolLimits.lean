import Atlantis.Core.TxPoolInv
import Atlantis.Lib.Loop

/-!
# The limits `promoteExecutables` enforces

The pending limit (`capPending`) works on the lengths of the pending lists alone.  The
offenders pop from the spammers' queue longest first, and each new one levels the ones before
it down to its own length, so that while the pool is over `GlobalSlots` all the offenders
popped so far have one length, no shorter than any still in the queue (`popOffenders_spec`).
Every round takes exactly one transaction from each offender, so the counter `pending` stays
the pool's count (`equalize_spec`).  The pool ends at most `GlobalSlots` pending transactions,
or with every non-local account at most `AccountSlots` (`capPending_limit`).

The queue limit (`capQueued`) drops whole queued lists, then the last transactions of one,
until `drop` is spent; under the invariant each `removeTx` takes out exactly the queued
transaction it is given, so the pool ends at most `GlobalQueue` queued transactions, or with
only local accounts queued (`capQueued_limit`).

`promoteExecutables_limits` puts the two after the promotion loop.  The per-account queue cap
is the loop's (`Inv.foldl_promoteAccount`), so it holds only for the accounts the call goes
through.  `removeTx` of a pending transaction demotes the ones after it into the queue with no
cap, and `add` runs the call for the new transaction's sender only: a queue so filled stays
over its cap (`demotingPool`).
-/

namespace Atlantis.Core.TxPool

variable {Address : Type} [DecidableEq Address]

variable {pool pool' pool'' : TxPool Address} {a b : Address}

/-! ### One offender's drop -/

/-- The forgetting loop of `dropPending` forgets the hashes of what it is given, and keeps the
lists, the configuration and the locals. -/
theorem foldl_forget (addr : Address) (txs : List (Transaction Address)) (pool : TxPool Address) :
    let pool' := txs.foldl (fun pool tx =>
      { pool with all := Function.update pool.all tx.hash none }.lowerNonce addr tx.nonce) pool
    pool'.pending = pool.pending ∧ pool'.queue = pool.queue ∧ pool'.config = pool.config ∧
      pool'.locals = pool.locals ∧ pool'.all = (pool.removeAll txs).all := by
  refine ⟨List.foldl_proj_eq TxPool.pending _ (fun p tx => ?_) txs pool,
    List.foldl_proj_eq TxPool.queue _ (fun p tx => ?_) txs pool,
    List.foldl_proj_eq TxPool.config _ (fun p tx => ?_) txs pool,
    List.foldl_proj_eq TxPool.locals _ (fun p tx => ?_) txs pool, ?_⟩
  all_goals try (unfold lowerNonce; split <;> rfl)
  -- the lookup, by induction on what is forgotten
  induction txs generalizing pool with
  | nil => simp [removeAll]
  | cons tx txs ih =>
    rw [List.foldl_cons, ih]
    funext h
    have hall : ({ pool with all := Function.update pool.all tx.hash none }.lowerNonce
        addr tx.nonce).all = Function.update pool.all tx.hash none := by
      unfold lowerNonce
      split <;> rfl
    simp only [removeAll, hall, List.any_cons, Bool.or_eq_true, decide_eq_true_eq]
    by_cases hh : h = tx.hash
    · simp [hh]
    · simp [hh, Ne.symm hh]

/-- One offender's drop: its pending list capped one below its length, the dropped
transactions forgotten. -/
theorem dropPending_of_lookup {l : TxList Address} (hl : pool.pending.lookup a = some l) :
    (pool.dropPending a).pending = pool.pending.replace a (l.Cap (l.Len - 1)).2 ∧
      (pool.dropPending a).queue = pool.queue ∧ (pool.dropPending a).config = pool.config ∧
      (pool.dropPending a).locals = pool.locals ∧
      (pool.dropPending a).all = (pool.removeAll (l.Cap (l.Len - 1)).1).all := by
  obtain ⟨hp, hq, hc, hloc, hall⟩ := foldl_forget a (l.Cap (l.Len - 1)).1
    { pool with pending := pool.pending.replace a (l.Cap (l.Len - 1)).2 }
  simp only [dropPending, hl]
  exact ⟨hp, hq, hc, hloc, hall⟩

theorem dropPending_of_none (hl : pool.pending.lookup a = none) : pool.dropPending a = pool := by
  simp [dropPending, hl]

theorem pendingLen_dropPending (a b : Address) :
    (pool.dropPending a).pendingLen b =
      if b = a then pool.pendingLen a - 1 else pool.pendingLen b := by
  cases hl : pool.pending.lookup a with
  | none =>
    rw [dropPending_of_none hl]
    split
    · next hb => subst hb; simp [pendingLen, hl]
    · rfl
  | some l =>
    have ha : a ∈ pool.pending := AList.lookup_isSome.mp (by simp [hl])
    unfold pendingLen
    rw [(dropPending_of_lookup hl).1]
    split
    · next hb =>
      subst hb
      rw [AList.lookup_replace_self _ ha, hl]
      simp only [Option.map_some, Option.getD_some, TxList.Len_Cap]
      omega
    · next hb => rw [AList.lookup_replace_of_ne _ _ hb]

/-- An offender with a pending transaction drops exactly one. -/
theorem pendingCount_dropPending (h : 0 < pool.pendingLen a) :
    (pool.dropPending a).pendingCount + 1 = pool.pendingCount := by
  cases hl : pool.pending.lookup a with
  | none => simp [pendingLen, hl] at h
  | some l =>
    have hlen : 0 < l.Len := by simpa [pendingLen, hl] using h
    have hsum := AList.sum_replace TxList.Len hl (l.Cap (l.Len - 1)).2
    rw [TxList.Len_Cap] at hsum
    unfold pendingCount
    rw [(dropPending_of_lookup hl).1]
    omega

theorem Inv.dropPending (hinv : pool.Inv) (a : Address) : (pool.dropPending a).Inv := by
  cases hl : pool.pending.lookup a with
  | none => rwa [dropPending_of_none hl]
  | some l =>
    have hs := l.splits_Cap (l.Len - 1)
    have hshrink := shrinks_setPending hl hs
    obtain ⟨hp, hq, -, -, hall⟩ := dropPending_of_lookup hl
    refine hinv.shrinks ((hshrink.trans (shrinks_removeAll (hinv.shrinks hshrink)
      fun _ hr => hinv.removed_of_splits_pending hl hs hr)).congr ?_ ?_ hall)
    · intro b
      rw [hp]
      rfl
    · intro b
      rw [hq]
      rfl

/-! ### The frame of the pending limit -/

/-- `pool'` differs from `pool` only in the pending lists of `offenders` (and in the lookup and
the pending nonces), and keeps the invariant. -/
structure PendingFrame (pool pool' : TxPool Address) (offenders : List Address) : Prop where
  queue : pool'.queue = pool.queue
  config : pool'.config = pool.config
  locals : pool'.locals = pool.locals
  lookup_ne : ∀ b ∉ offenders, pool'.pending.lookup b = pool.pending.lookup b
  inv : pool.Inv → pool'.Inv

namespace PendingFrame

variable {offenders offenders' : List Address}

theorem refl (pool : TxPool Address) (offenders : List Address) :
    PendingFrame pool pool offenders :=
  ⟨rfl, rfl, rfl, fun _ _ => rfl, id⟩

theorem trans (h : PendingFrame pool pool' offenders) (h' : PendingFrame pool' pool'' offenders) :
    PendingFrame pool pool'' offenders :=
  ⟨h'.queue.trans h.queue, h'.config.trans h.config, h'.locals.trans h.locals,
    fun b hb => (h'.lookup_ne b hb).trans (h.lookup_ne b hb), h'.inv ∘ h.inv⟩

theorem mono (h : PendingFrame pool pool' offenders) (hsub : offenders ⊆ offenders') :
    PendingFrame pool pool' offenders' :=
  ⟨h.queue, h.config, h.locals, fun b hb => h.lookup_ne b (fun hb' => hb (hsub hb')), h.inv⟩

theorem pendingLen_ne (h : PendingFrame pool pool' offenders) (hb : b ∉ offenders) :
    pool'.pendingLen b = pool.pendingLen b := by
  simp [pendingLen, h.lookup_ne b hb]

end PendingFrame

theorem pendingFrame_dropPending (pool : TxPool Address) (a : Address) :
    PendingFrame pool (pool.dropPending a) [a] := by
  cases hl : pool.pending.lookup a with
  | none => rw [dropPending_of_none hl]; exact .refl _ _
  | some l =>
    obtain ⟨hp, hq, hc, hloc, -⟩ := dropPending_of_lookup hl
    refine ⟨hq, hc, hloc, fun b hb => ?_, fun hinv => hinv.dropPending a⟩
    rw [hp, AList.lookup_replace_of_ne _ _ (by simpa using hb)]

/-! ### A round of the equalisation -/

theorem pendingFrame_dropRound (pool : TxPool Address) (n : Nat) (offenders : List Address) :
    PendingFrame pool (dropRound pool n offenders).1 offenders := by
  induction offenders generalizing pool n with
  | nil => exact .refl _ _
  | cons o os ih =>
    exact ((pendingFrame_dropPending pool o).mono (by simp)).trans ((ih _ _).mono (by simp))

theorem pendingLen_dropRound {offenders : List Address} (hnd : offenders.Nodup)
    (pool : TxPool Address) (n : Nat) (b : Address) :
    (dropRound pool n offenders).1.pendingLen b =
      if b ∈ offenders then pool.pendingLen b - 1 else pool.pendingLen b := by
  induction offenders generalizing pool n with
  | nil => simp [dropRound]
  | cons o os ih =>
    rw [List.nodup_cons] at hnd
    rw [dropRound, ih hnd.2, pendingLen_dropPending]
    by_cases hbo : b = o
    · subst hbo
      simp [hnd.1]
    · by_cases hbs : b ∈ os <;> simp [hbo, hbs]

/-- A round in which every offender has a pending transaction takes one from each. -/
theorem pendingCount_dropRound {offenders : List Address} (hnd : offenders.Nodup)
    (pool : TxPool Address) (n : Nat) (hpos : ∀ o ∈ offenders, 0 < pool.pendingLen o) :
    (dropRound pool n offenders).1.pendingCount + offenders.length = pool.pendingCount := by
  induction offenders generalizing pool n with
  | nil => rfl
  | cons o os ih =>
    rw [List.nodup_cons] at hnd
    have hpos' : ∀ o' ∈ os, 0 < (pool.dropPending o).pendingLen o' := by
      intro o' ho'
      rw [pendingLen_dropPending, if_neg (fun h : o' = o => hnd.1 (h ▸ ho'))]
      exact hpos o' (List.mem_cons_of_mem _ ho')
    have h1 := pendingCount_dropPending (hpos o List.mem_cons_self)
    have h2 := ih hnd.2 (pool.dropPending o) (n - 1) hpos'
    rw [dropRound, List.length_cons]
    omega

/-! ### The equalisation loop -/

/-- The equalisation loop from offenders all of length `L`: the counter stays the pool's count,
only the offenders' pending lists change, and they end all of one length, which is the lower
of `L` and `limit` while the pool is still over `GlobalSlots`. -/
theorem equalize_spec (limit : Nat) {offenders : List Address} {watch : Address}
    (hnd : offenders.Nodup) (hw : watch ∈ offenders) (n : Nat) :
    ∀ (pool : TxPool Address) (L : Nat), (∀ o ∈ offenders, pool.pendingLen o = L) →
      n = pool.pendingCount →
      (equalize offenders watch limit pool n).2 = (equalize offenders watch limit pool n).1.pendingCount ∧
      PendingFrame pool (equalize offenders watch limit pool n).1 offenders ∧
      ∃ L', (∀ o ∈ offenders, (equalize offenders watch limit pool n).1.pendingLen o = L') ∧
        (pool.config.GlobalSlots < (equalize offenders watch limit pool n).2 → L' = min L limit) := by
  obtain ⟨o, os, rfl⟩ := List.exists_cons_of_ne_nil (List.ne_nil_of_mem hw)
  induction n using Nat.strong_induction_on with
  | _ n ih =>
  intro pool L hL hn
  rw [equalize]
  split
  · next hc =>
    dsimp only
    -- a round: every offender is at `L`, above `limit`, so has a transaction to drop
    obtain ⟨hgs, hlim⟩ := hc
    have hwL : pool.pendingLen watch = L := hL watch hw
    have hpos : ∀ o' ∈ o :: os, 0 < pool.pendingLen o' := fun o' ho' => by
      rw [hL o' ho']
      omega
    have hcount := pendingCount_dropRound hnd pool n hpos
    have hsnd := dropRound_snd pool n (o :: os)
    have hlt : (dropRound pool n (o :: os)).2 < n := by
      rw [hsnd, List.length_cons]
      omega
    have hL' : ∀ o' ∈ o :: os, (dropRound pool n (o :: os)).1.pendingLen o' = L - 1 :=
      fun o' ho' => by rw [pendingLen_dropRound hnd, if_pos ho', hL o' ho']
    obtain ⟨hr, hframe, L', hL'', hmin⟩ := ih _ hlt _ (L - 1) hL' (by omega)
    have hround := pendingFrame_dropRound pool n (o :: os)
    refine ⟨hr, hround.trans hframe, L', hL'', fun hgt => ?_⟩
    rw [hmin (by rwa [hround.config])]
    omega
  · next hc =>
    refine ⟨hn, .refl _ _, L, hL, fun hgt => ?_⟩
    -- the loop stops with the pool still over the limit: `watch` is at most `limit`
    have hle : L ≤ limit := by
      rw [← hL watch hw]
      by_contra hlt
      exact hc ⟨hgt, by omega⟩
    exact (Nat.min_eq_left hle).symm

/-! ### The spammers' queue -/

/-- An entry of the pending map is the list of its key. -/
theorem pendingLen_of_mem_entries {e : Σ _ : Address, TxList Address}
    (he : e ∈ pool.pending.entries) : pool.pendingLen e.1 = e.2.Len := by
  have hl : pool.pending.lookup e.1 = some e.2 := AList.mem_lookup_iff.mpr he
  simp [pendingLen, hl]

theorem mem_spammers :
    a ∈ pool.spammers ↔ a ∉ pool.locals ∧ pool.config.AccountSlots < pool.pendingLen a := by
  simp only [spammers, List.mem_map, List.mem_mergeSort, List.mem_filter, decide_eq_true_eq]
  constructor
  · rintro ⟨e, ⟨he, hloc, hlen⟩, rfl⟩
    exact ⟨hloc, (pendingLen_of_mem_entries he).symm ▸ hlen⟩
  · rintro ⟨hloc, hlen⟩
    cases hl : pool.pending.lookup a with
    | none => simp [pendingLen, hl] at hlen
    | some l =>
      refine ⟨⟨a, l⟩, ⟨AList.mem_lookup_iff.mp hl, hloc, ?_⟩, rfl⟩
      simpa [pendingLen, hl] using hlen

theorem nodup_spammers : pool.spammers.Nodup := by
  have hkeys : (pool.pending.entries.map Sigma.fst).Nodup := pool.pending.nodupKeys
  exact ((List.mergeSort_perm _ _).map _).nodup_iff.mpr (hkeys.sublist (List.filter_sublist.map _))

/-- The queue pops the longest pending list first. -/
theorem spammers_sorted :
    pool.spammers.Pairwise fun x y => pool.pendingLen y ≤ pool.pendingLen x := by
  unfold spammers
  rw [List.pairwise_map]
  have hs := @List.pairwise_mergeSort _
    (fun e f : Σ _ : Address, TxList Address => decide (f.2.Len ≤ e.2.Len))
    (fun _ _ _ h h' => by simp only [decide_eq_true_eq] at h h' ⊢; omega)
    (fun _ _ => by simp only [Bool.or_eq_true, decide_eq_true_eq]; omega)
    (pool.pending.entries.filter fun e => decide (e.1 ∉ pool.locals ∧
      pool.config.AccountSlots < e.2.Len))
  refine hs.imp_of_mem fun he hf h => ?_
  have he' := (List.mem_filter.mp (List.mem_mergeSort.mp he)).1
  have hf' := (List.mem_filter.mp (List.mem_mergeSort.mp hf)).1
  rw [pendingLen_of_mem_entries he', pendingLen_of_mem_entries hf']
  simpa using h

/-! ### The loop that pops the offenders -/

/-- The loop that pops the offenders, from offenders of one length no shorter than any spammer
still queued: the counter stays the pool's count, only the offenders' and the popped spammers'
pending lists change, and while the pool is still over `GlobalSlots` every spammer has been
popped and all the offenders have one length. -/
theorem popOffenders_spec (pool₀ : TxPool Address) (rest : List Address) :
    ∀ (offenders : List Address) (pool : TxPool Address) (n : Nat),
      n = pool.pendingCount → PendingFrame pool₀ pool offenders → (offenders ++ rest).Nodup →
      rest.Pairwise (fun x y => pool₀.pendingLen y ≤ pool₀.pendingLen x) →
      (pool.config.GlobalSlots < n → offenders ≠ [] → ∃ L,
        (∀ o ∈ offenders, pool.pendingLen o = L) ∧ ∀ r ∈ rest, pool₀.pendingLen r ≤ L) →
      (popOffenders pool n offenders rest).2.1 = (popOffenders pool n offenders rest).1.pendingCount ∧
      PendingFrame pool₀ (popOffenders pool n offenders rest).1 (offenders ++ rest) ∧
      (pool₀.config.GlobalSlots < (popOffenders pool n offenders rest).2.1 →
        (popOffenders pool n offenders rest).2.2 = offenders ++ rest ∧ ∃ L,
          ∀ o ∈ (popOffenders pool n offenders rest).2.2,
            (popOffenders pool n offenders rest).1.pendingLen o = L) := by
  induction rest with
  | nil =>
    intro offenders pool n hn hframe _ _ hlevel
    refine ⟨hn, hframe.mono (by simp), fun hgt => ⟨by simp [popOffenders], ?_⟩⟩
    rw [← hframe.config] at hgt
    cases offenders with
    | nil => exact ⟨0, by simp [popOffenders]⟩
    | cons o os =>
      obtain ⟨L, hL, -⟩ := hlevel hgt (List.cons_ne_nil o os)
      exact ⟨L, hL⟩
  | cons x rest ih =>
    intro offenders pool n hn hframe hnd hsorted hlevel
    rw [List.pairwise_cons] at hsorted
    have hx : x ∉ offenders := fun hx =>
      (List.nodup_append.mp hnd).2.2 x hx x List.mem_cons_self rfl
    have hlenx : pool.pendingLen x = pool₀.pendingLen x := hframe.pendingLen_ne hx
    have hnd' : (offenders ++ [x] ++ rest).Nodup := by simpa using hnd
    unfold popOffenders
    split
    · next hgt =>
      have hgt₀ : pool₀.config.GlobalSlots < n := hframe.config ▸ hgt
      rw [show offenders ++ x :: rest = offenders ++ [x] ++ rest by simp]
      cases offenders with
      | nil =>
        -- the first offender: nothing to level
        refine ih [x] pool n hn (hframe.mono (by simp)) (by simpa using hnd') hsorted.2
          fun _ _ => ⟨pool.pendingLen x, by simp, fun r hr => hlenx ▸ hsorted.1 r hr⟩
      | cons o os =>
        -- the offenders so far drop to the length of `x`
        obtain ⟨L, hL, hrest⟩ := hlevel hgt (List.cons_ne_nil o os)
        have hndo : (o :: os).Nodup := (List.nodup_append.mp hnd).1
        obtain ⟨hr, hframe', L', hL', hmin⟩ := equalize_spec (pool.pendingLen x) hndo
          (List.getLast_mem (List.cons_ne_nil o os)) n pool L hL hn
        have hxL : pool₀.pendingLen x ≤ L := hrest x List.mem_cons_self
        refine ih _ _ _ hr ((hframe.trans hframe').mono (by simp)) hnd' hsorted.2
          fun hgt' _ => ⟨pool₀.pendingLen x, fun o' ho' => ?_, hsorted.1⟩
        rcases List.mem_append.mp ho' with ho' | ho'
        · rw [hL' o' ho', hmin (hframe'.config ▸ hgt'), hlenx]
          exact Nat.min_eq_right hxL
        · rw [List.mem_singleton.mp ho', hframe'.pendingLen_ne hx, hlenx]
    · next hle =>
      exact ⟨hn, hframe.mono (by simp), fun hgt => absurd (hframe.config ▸ hgt) hle⟩

/-! ### The pending limit -/

/-- A non-local account that is not a spammer holds at most `AccountSlots` pending
transactions. -/
theorem pendingLen_le_of_not_spammer (hloc : a ∉ pool.locals) (hs : a ∉ pool.spammers) :
    pool.pendingLen a ≤ pool.config.AccountSlots := by
  by_contra h
  exact hs (mem_spammers.mpr ⟨hloc, by omega⟩)

/-- **The pending limit.**  After `capPending` the pool holds at most `GlobalSlots` pending
transactions, or every non-local account holds at most `AccountSlots`; only the spammers'
pending lists change. -/
theorem capPending_limit (pool : TxPool Address) :
    (pool.capPending.pendingCount ≤ pool.config.GlobalSlots ∨
      ∀ a ∉ pool.locals, pool.capPending.pendingLen a ≤ pool.config.AccountSlots) ∧
    PendingFrame pool pool.capPending pool.spammers := by
  unfold capPending
  dsimp only
  split
  · next hover =>
    obtain ⟨hcount, hframe, hend⟩ := popOffenders_spec pool pool.spammers [] pool
      pool.pendingCount rfl (.refl _ _) (by simpa using nodup_spammers) spammers_sorted
      (fun _ h => absurd rfl h)
    simp only [List.nil_append] at hframe hend
    generalize popOffenders pool pool.pendingCount [] pool.spammers = popped at hcount hframe hend
    -- every account outside the spammers keeps its pending list
    have hothers : ∀ {pool' : TxPool Address}, PendingFrame pool pool' pool.spammers →
        ∀ a ∉ pool.locals, a ∉ pool.spammers → pool'.pendingLen a ≤ pool.config.AccountSlots :=
      fun hf a hloc hs => (hf.pendingLen_ne hs).symm ▸ pendingLen_le_of_not_spammer hloc hs
    cases hofs : popped.2.2 with
    | nil =>
      dsimp only
      refine ⟨?_, hframe⟩
      by_cases hgs : pool.config.GlobalSlots < popped.2.1
      · -- every spammer was popped, and there were none
        have hnil : pool.spammers = [] := ((hend hgs).1.symm.trans hofs)
        exact .inr fun a hloc => hothers hframe a hloc (by simp [hnil])
      · exact .inl (by omega)
    | cons o os =>
      dsimp only
      split
      · next hgs =>
        obtain ⟨hspam, L, hL⟩ := hend hgs
        rw [hofs] at hspam hL
        have hnd : (o :: os).Nodup := hspam ▸ nodup_spammers
        obtain ⟨hr, hframe', L', hL', hmin⟩ := equalize_spec pool.config.AccountSlots hnd
          (List.getLast_mem (List.cons_ne_nil o os)) popped.2.1 popped.1 L hL hcount
        have hframe'' := hframe.trans (hframe'.mono (hspam ▸ List.Subset.refl _))
        refine ⟨?_, hframe''⟩
        by_cases hgs' : pool.config.GlobalSlots < (equalize (o :: os)
            ((o :: os).getLast (List.cons_ne_nil o os)) pool.config.AccountSlots popped.1
            popped.2.1).2
        · -- the offenders were levelled down to `AccountSlots`
          refine .inr fun a hloc => ?_
          by_cases ha : a ∈ pool.spammers
          · rw [hL' a (hspam ▸ ha), hmin (by rwa [hframe.config])]
            exact Nat.min_le_right _ _
          · exact hothers hframe'' a hloc ha
        · exact .inl (by omega)
      · next hgs => exact ⟨.inl (by omega), hframe⟩
  · next hunder => exact ⟨.inl (by omega), .refl _ _⟩

/-! ### The frame of the queue limit -/

/-- `pool'` is `pool` with only queued transactions of `addresses` taken out, and keeps the
invariant. -/
structure QueueFrame (pool pool' : TxPool Address) (addresses : List Address) : Prop where
  inv : pool'.Inv
  shrinks : Shrinks pool pool'
  pending : pool'.pending = pool.pending
  lookup_ne : ∀ b ∉ addresses, pool'.queue.lookup b = pool.queue.lookup b
  config : pool'.config = pool.config
  locals : pool'.locals = pool.locals

namespace QueueFrame

variable {addresses addresses' : List Address}

theorem refl (hinv : pool.Inv) (addresses : List Address) : QueueFrame pool pool addresses :=
  ⟨hinv, .refl _, rfl, fun _ _ => rfl, rfl, rfl⟩

theorem trans (h : QueueFrame pool pool' addresses) (h' : QueueFrame pool' pool'' addresses) :
    QueueFrame pool pool'' addresses :=
  ⟨h'.inv, h.shrinks.trans h'.shrinks, h'.pending.trans h.pending,
    fun b hb => (h'.lookup_ne b hb).trans (h.lookup_ne b hb), h'.config.trans h.config,
    h'.locals.trans h.locals⟩

theorem mono (h : QueueFrame pool pool' addresses) (hsub : addresses ⊆ addresses') :
    QueueFrame pool pool' addresses' :=
  ⟨h.inv, h.shrinks, h.pending, fun b hb => h.lookup_ne b (fun hb' => hb (hsub hb')), h.config,
    h.locals⟩

theorem of_dropsQueued {removed : List (Transaction Address)}
    (h : DropsQueued pool pool' a removed) : QueueFrame pool pool' [a] :=
  ⟨h.inv, h.shrinks, h.pending, fun b hb => h.queue_ne b (by simpa using hb), h.config, h.locals⟩

end QueueFrame

/-! ### The queue limit -/

/-- The partial drop removes the first `drop` of `txs`. -/
theorem dropTail_eq : ∀ (txs : List (Transaction Address)) (drop : Nat) (pool : TxPool Address),
    drop ≤ txs.length →
      dropTail txs drop pool = ((txs.take drop).foldl (fun pool tx => pool.removeTx tx.hash) pool, 0)
  | [], drop, pool, h => by
    obtain rfl : drop = 0 := by simpa using h
    rfl
  | tx :: txs, 0, pool, _ => rfl
  | tx :: txs, drop + 1, pool, h => by
    rw [dropTail, if_pos (Nat.succ_pos drop), Nat.add_sub_cancel,
      dropTail_eq txs drop _ (by simpa using h)]
    rfl

theorem dropQueued_zero : ∀ (addresses : List Address) (pool : TxPool Address),
    dropQueued addresses 0 pool = pool
  | [], _ => rfl
  | _ :: _, _ => rfl

/-- The queued list `dropQueued` reads for an account: all of its queued transactions. -/
theorem inQueue_getD (h : pool.InQueue a tx) :
    tx ∈ ((pool.queue.lookup a).getD (newTxList false)).Flatten := by
  obtain ⟨l, hl, ht⟩ := h
  simpa [hl] using ht

/-- The loop of the queue limit, while the pool is `drop` over `GlobalQueue` and every non-local
account with a queued transaction is still to come: it ends at most `GlobalQueue` queued
transactions, or with only local accounts queued. -/
theorem dropQueued_spec (GlobalQueue : Nat) (addresses : List Address) :
    ∀ (drop : Nat) (pool : TxPool Address), pool.Inv →
      pool.queuedCount = GlobalQueue + drop → (∀ a ∈ addresses, a ∉ pool.locals) →
      (∀ a t, pool.InQueue a t → a ∉ pool.locals → a ∈ addresses) →
      QueueFrame pool (dropQueued addresses drop pool) addresses ∧
      ((dropQueued addresses drop pool).queuedCount ≤ GlobalQueue ∨
        ∀ a t, (dropQueued addresses drop pool).InQueue a t → a ∈ pool.locals) := by
  induction addresses with
  | nil =>
    intro drop pool hinv _ _ hcover
    refine ⟨.refl hinv _, .inr fun a t ht => ?_⟩
    by_contra hloc
    simpa using hcover a t ht hloc
  | cons a rest ih =>
    intro drop pool hinv hcount hnonlocal hcover
    unfold dropQueued
    split
    · next hpos =>
      dsimp only
      set list := (pool.queue.lookup a).getD (newTxList false) with hlist
      have hq : ∀ t ∈ list.Flatten, pool.InQueue a t := by
        intro t ht
        cases hl : pool.queue.lookup a with
        | none => simp [hlist, hl, newTxList, TxList.Flatten, TxSortedMap.Flatten] at ht
        | some l => exact ⟨l, hl, by simpa [hlist, hl] using ht⟩
      split
      · next hle =>
        -- the whole list of `a` goes
        have hdrop := hinv.dropsQueued_foldl (TxList.nodup_Flatten _) hq
        have hcount' := hdrop.count
        rw [← TxList.Len_eq] at hcount'
        have hnone : ∀ t, ¬ (list.Flatten.foldl (fun pool tx => pool.removeTx tx.hash)
            pool).InQueue a t := fun t ht =>
          ((hdrop.inQueue t).mp ht).2 (inQueue_getD ((hdrop.inQueue t).mp ht).1)
        obtain ⟨hframe, hlimit⟩ := ih (drop - list.Len) _ hdrop.inv (by omega)
          (fun b hb => hdrop.locals ▸ hnonlocal b (List.mem_cons_of_mem _ hb))
          (fun b t ht hloc => by
            have hba : b ≠ a := fun hba => hnone t (hba ▸ ht)
            have ht' : pool.InQueue b t := by
              obtain ⟨l, hl, hmem⟩ := ht
              exact ⟨l, (hdrop.queue_ne b hba).symm.trans hl, hmem⟩
            have hb := hcover b t ht' (hdrop.locals ▸ hloc)
            exact (List.mem_cons.mp hb).resolve_left hba)
        refine ⟨((QueueFrame.of_dropsQueued hdrop).mono (by simp)).trans
          (hframe.mono (by simp)), ?_⟩
        rwa [hdrop.locals] at hlimit
      · next hgt =>
        -- the last `drop` transactions of `a` go, and with them the whole overflow
        have hle : drop ≤ list.Flatten.reverse.length := by
          rw [List.length_reverse, ← TxList.Len_eq]
          omega
        rw [dropTail_eq _ _ _ hle]
        dsimp only
        rw [dropQueued_zero]
        have hdrop : DropsQueued pool ((list.Flatten.reverse.take drop).foldl
            (fun pool tx => pool.removeTx tx.hash) pool) a (list.Flatten.reverse.take drop) :=
          hinv.dropsQueued_foldl
            ((List.nodup_reverse.mpr (TxList.nodup_Flatten _)).sublist (List.take_sublist _ _))
            (fun t ht => hq t (List.mem_reverse.mp (List.mem_of_mem_take ht)))
        have hcount' := hdrop.count
        rw [List.length_take, List.length_reverse, Nat.min_eq_left (by
          rw [← TxList.Len_eq]; omega)] at hcount'
        exact ⟨(QueueFrame.of_dropsQueued hdrop).mono (by simp), .inl (by omega)⟩
    · next hzero => exact ⟨.refl hinv _, .inl (by omega)⟩

/-- **The queue limit.**  Under the invariant, after `capQueued` the pool holds at most
`GlobalQueue` queued transactions, or only local accounts have queued ones; only queued
transactions of non-local accounts are taken out. -/
theorem capQueued_limit (hinv : pool.Inv) :
    (pool.capQueued.queuedCount ≤ pool.config.GlobalQueue ∨
      ∀ a t, pool.capQueued.InQueue a t → a ∈ pool.locals) ∧
    QueueFrame pool pool.capQueued (pool.queue.keys.filter fun a => a ∉ pool.locals) := by
  unfold capQueued
  dsimp only
  split
  · next hover =>
    have hmem : ∀ a, a ∈ ((pool.queue.keys.filter fun a => a ∉ pool.locals).mergeSort
        fun a b => pool.beats a ≤ pool.beats b).reverse ↔
          a ∈ pool.queue.keys.filter fun a => a ∉ pool.locals := by
      intro a
      rw [List.mem_reverse, List.mem_mergeSort]
    obtain ⟨hframe, hlimit⟩ := dropQueued_spec pool.config.GlobalQueue _
      (pool.queuedCount - pool.config.GlobalQueue) pool hinv (by omega)
      (fun a ha => by simpa using (List.mem_filter.mp ((hmem a).mp ha)).2)
      (fun a t ht hloc => by
        obtain ⟨l, hl, -⟩ := ht
        refine (hmem a).mpr (List.mem_filter.mpr ⟨?_, by simpa using hloc⟩)
        exact AList.mem_keys.mp (AList.lookup_isSome.mp (by simp [hl])))
    exact ⟨hlimit, hframe.mono fun a ha => (hmem a).mp ha⟩
  · next hunder => exact ⟨.inl (by omega), .refl hinv _⟩

/-! ### `promoteExecutables` -/

/-- **The limits of `promoteExecutables`.**  From a pool that keeps its invariant: at most
`GlobalSlots` pending transactions, or every non-local account at most `AccountSlots`; at most
`GlobalQueue` queued ones, or only local accounts queued; every non-local account the call
goes through at most `AccountQueue` queued ones; and the two limits leave the lists of a local
account as the promotion loop left them. -/
theorem promoteExecutables_limits (pool : TxPool Address) (hinv : pool.Inv)
    (accounts : Option (List Address)) (now : Nat) :
    ((pool.promoteExecutables accounts now).pendingCount ≤ pool.config.GlobalSlots ∨
      ∀ a ∉ pool.locals,
        (pool.promoteExecutables accounts now).pendingLen a ≤ pool.config.AccountSlots) ∧
    ((pool.promoteExecutables accounts now).queuedCount ≤ pool.config.GlobalQueue ∨
      ∀ a tx, (pool.promoteExecutables accounts now).InQueue a tx → a ∈ pool.locals) ∧
    (∀ a ∈ accounts.getD pool.queue.keys, a ∉ pool.locals →
      (pool.promoteExecutables accounts now).queuedLen a ≤ pool.config.AccountQueue) ∧
    (∀ a ∈ pool.locals,
      (pool.promoteExecutables accounts now).pending.lookup a =
        ((accounts.getD pool.queue.keys).foldl (promoteAccount now) pool).pending.lookup a ∧
      (pool.promoteExecutables accounts now).queue.lookup a =
        ((accounts.getD pool.queue.keys).foldl (promoteAccount now) pool).queue.lookup a) := by
  unfold promoteExecutables
  obtain ⟨hinv₁, hcap₁, -, hcfg₁, hloc₁⟩ :=
    hinv.foldl_promoteAccount now (accounts.getD pool.queue.keys)
  generalize (accounts.getD pool.queue.keys).foldl (TxPool.promoteAccount now) pool = pool₁
    at hinv₁ hcap₁ hcfg₁ hloc₁ ⊢
  -- the pending limit, then the queue limit on what it leaves
  obtain ⟨hpending, hframe₂⟩ := capPending_limit pool₁
  obtain ⟨hqueued, hframe₃⟩ := capQueued_limit (hframe₂.inv hinv₁)
  have hcfg₂ : pool₁.capPending.config = pool.config := hframe₂.config.trans hcfg₁
  have hloc₂ : pool₁.capPending.locals = pool.locals := hframe₂.locals.trans hloc₁
  have hlen₃ : ∀ a, pool₁.capPending.capQueued.pendingLen a = pool₁.capPending.pendingLen a :=
    fun a => by simp only [pendingLen, hframe₃.pending]
  refine ⟨?_, ?_, fun a ha hloc => ?_, fun a hloc => ⟨?_, ?_⟩⟩
  · have hcount : pool₁.capPending.capQueued.pendingCount = pool₁.capPending.pendingCount := by
      simp only [pendingCount, hframe₃.pending]
    rcases hpending with h | h
    · exact .inl (hcount ▸ hcfg₁ ▸ h)
    · exact .inr fun a ha => (hlen₃ a).trans_le (hcfg₁ ▸ h a (hloc₁ ▸ ha))
  · rwa [hcfg₂, hloc₂] at hqueued
  · calc pool₁.capPending.capQueued.queuedLen a
        ≤ pool₁.capPending.queuedLen a := hframe₃.shrinks.queuedLen_le a
      _ = pool₁.queuedLen a := by simp only [queuedLen, hframe₂.queue]
      _ ≤ pool.config.AccountQueue := hcap₁ a ha hloc
  · -- a local account is no spammer, and `capQueued` never visits it
    have hspam : a ∉ pool₁.spammers := fun h => (mem_spammers.mp h).1 (hloc₁ ▸ hloc)
    rw [hframe₃.pending, hframe₂.lookup_ne a hspam]
  · have hdrop : a ∉ pool₁.capPending.queue.keys.filter fun a => a ∉ pool₁.capPending.locals :=
      fun h => by simpa [hloc₂, hloc] using (List.mem_filter.mp h).2
    rw [hframe₃.lookup_ne a hdrop, hframe₂.queue]

/-- Two queued transactions of account `1`, of nonces 5 and 7: neither is executable on a
current nonce of 0. -/
def gappedQueue : TxList Nat :=
  ⟨false, ⟨[⟨Hash.ofBytes [1], 5, 21000, 1, 0, 1⟩, ⟨Hash.ofBytes [2], 7, 21000, 1, 0, 1⟩],
    by decide⟩, 21000, 21000⟩

/-- A pool that queues at most one transaction an account and holds `gappedQueue` for
account `1`, one over the cap, as `removeTx` leaves an account whose pending transactions it
demotes. -/
def overfullPool : TxPool Nat where
  config := ⟨10, 16, 4096, 1, 1024⟩
  currentNonce _ := 0
  currentBalance _ := 1000000
  currentMaxGas := 8000000
  pendingNonce _ := 0
  locals := []
  pending := ∅
  queue := AList.insert 1 gappedQueue ∅
  beats _ := 0
  all h := gappedQueue.Flatten.find? fun tx => tx.hash = h

theorem lookup_overfullPool_queue (a : Nat) :
    overfullPool.queue.lookup a = if a = 1 then some gappedQueue else none := by
  by_cases ha : a = 1
  · subst ha
    simp only [overfullPool, AList.lookup_insert, if_true]
  · simp only [overfullPool, AList.lookup_insert_ne ha, AList.lookup_empty, ha, if_false]

theorem inQueue_overfullPool {a : Nat} {tx : Transaction Nat} :
    overfullPool.InQueue a tx ↔ a = 1 ∧ tx ∈ gappedQueue.Flatten := by
  simp only [InQueue, lookup_overfullPool_queue]
  split_ifs with ha
  · simp [ha]
  · simp [ha]

theorem overfullPool_inv : overfullPool.Inv := by
  have hpending : ∀ {a tx}, ¬ overfullPool.InPending a tx := by
    rintro a tx ⟨l, hl, -⟩
    simp [overfullPool] at hl
  have hsender : ∀ tx ∈ gappedQueue.Flatten, tx.sender = 1 := by decide
  have hall : ∀ tx ∈ gappedQueue.Flatten, overfullPool.all tx.hash = some tx := by decide
  refine ⟨fun hl => ?_, fun hl => ?_, fun _ h => absurd h hpending, fun {a l} hl => ?_⟩
  · rcases hl with hq | hp
    · obtain ⟨rfl, ht⟩ := inQueue_overfullPool.mp hq
      exact hsender _ ht
    · exact absurd hp hpending
  · rcases hl with hq | hp
    · exact hall _ (inQueue_overfullPool.mp hq).2
    · exact absurd hp hpending
  · rw [lookup_overfullPool_queue] at hl
    split_ifs at hl
    cases hl
    rfl

theorem promoteExecutables_limits_overfullPool :
    ((overfullPool.promoteExecutables none 0).pendingCount ≤ overfullPool.config.GlobalSlots ∨
      ∀ a ∉ overfullPool.locals,
        (overfullPool.promoteExecutables none 0).pendingLen a ≤
          overfullPool.config.AccountSlots) ∧
    ((overfullPool.promoteExecutables none 0).queuedCount ≤ overfullPool.config.GlobalQueue ∨
      ∀ a tx, (overfullPool.promoteExecutables none 0).InQueue a tx → a ∈ overfullPool.locals) ∧
    (∀ a ∈ (none : Option (List Nat)).getD overfullPool.queue.keys, a ∉ overfullPool.locals →
      (overfullPool.promoteExecutables none 0).queuedLen a ≤ overfullPool.config.AccountQueue) ∧
    (∀ a ∈ overfullPool.locals,
      (overfullPool.promoteExecutables none 0).pending.lookup a =
        (overfullPool.queue.keys.foldl (promoteAccount 0) overfullPool).pending.lookup a ∧
      (overfullPool.promoteExecutables none 0).queue.lookup a =
        (overfullPool.queue.keys.foldl (promoteAccount 0) overfullPool).queue.lookup a) :=
  promoteExecutables_limits overfullPool overfullPool_inv none 0

/-- Three pending transactions of account `1`, of nonces 0, 1 and 2, in a strict list. -/
def threePending : TxList Nat :=
  ⟨true, ⟨[⟨Hash.ofBytes [1], 0, 21000, 1, 0, 1⟩, ⟨Hash.ofBytes [2], 1, 21000, 1, 0, 1⟩,
    ⟨Hash.ofBytes [3], 2, 21000, 1, 0, 1⟩], by decide⟩, 21000, 21000⟩

/-- A pool that queues at most one transaction an account, with `threePending` pending for
account `1` and nothing queued. -/
def demotingPool : TxPool Nat where
  config := ⟨10, 16, 4096, 1, 1024⟩
  currentNonce _ := 0
  currentBalance _ := 1000000
  currentMaxGas := 8000000
  pendingNonce a := if a = 1 then 3 else 0
  locals := []
  pending := AList.insert 1 threePending ∅
  queue := ∅
  beats _ := 0
  all h := threePending.Flatten.find? fun tx => tx.hash = h

theorem lookup_demotingPool_pending (a : Nat) :
    demotingPool.pending.lookup a = if a = 1 then some threePending else none := by
  by_cases ha : a = 1
  · subst ha
    simp only [demotingPool, AList.lookup_insert, if_true]
  · simp only [demotingPool, AList.lookup_insert_ne ha, AList.lookup_empty, ha, if_false]

theorem inPending_demotingPool {a : Nat} {tx : Transaction Nat} :
    demotingPool.InPending a tx ↔ a = 1 ∧ tx ∈ threePending.Flatten := by
  simp only [InPending, lookup_demotingPool_pending]
  split_ifs with ha
  · simp [ha]
  · simp [ha]

theorem demotingPool_inv : demotingPool.Inv := by
  have hqueue : ∀ {a tx}, ¬ demotingPool.InQueue a tx := by
    rintro a tx ⟨l, hl, -⟩
    simp [demotingPool] at hl
  have hsender : ∀ tx ∈ threePending.Flatten, tx.sender = 1 := by decide
  have hall : ∀ tx ∈ threePending.Flatten, demotingPool.all tx.hash = some tx := by decide
  refine ⟨fun hl => ?_, fun hl => ?_, fun h _ => absurd h hqueue, fun {a l} hl => ?_⟩
  · rcases hl with hq | hp
    · exact absurd hq hqueue
    · obtain ⟨rfl, ht⟩ := inPending_demotingPool.mp hp
      exact hsender _ ht
  · rcases hl with hq | hp
    · exact absurd hq hqueue
    · exact hall _ (inPending_demotingPool.mp hp).2
  · simp [demotingPool] at hl

/-- `add` makes room by discarding the cheapest transactions through `removeTx`, whoever sent
them, and then runs `promoteExecutables` for the new transaction's sender only.  Discarding the
nonce-0 transaction of account `1` demotes its two successors into its queue, with no cap on
the way, and the call for account `0` leaves them there: two queued, where `AccountQueue` is
one. -/
theorem promoteExecutables_removeTx_overfull :
    demotingPool.Inv ∧ 1 ∉ demotingPool.locals ∧ demotingPool.queuedLen 1 = 0 ∧
      demotingPool.config.AccountQueue = 1 ∧
      ((demotingPool.removeTx (Hash.ofBytes [1])).promoteExecutables (some [0]) 0).queuedLen 1 =
        2 :=
  ⟨demotingPool_inv, by decide, by decide, rfl, by decide⟩

/-- Going through every queued account, as the pool's reset does, caps it. -/
example :
    ((demotingPool.removeTx (Hash.ofBytes [1])).promoteExecutables none 0).queuedLen 1 = 1 := by
  decide

end Atlantis.Core.TxPool
