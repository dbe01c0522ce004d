import Atlantis.Pot.Pot
import Atlantis.Lib.FirstDiff
import Atlantis.Lib.Bits
import Mathlib.Data.List.Perm.Basic

/-!
# Iterating a pot from a target

`each` and `eachNeighbour` of `swarm/pot/pot.go`.  `each` visits the bins of a node in order
and then its pin; `eachNeighbour` visits every value of the pot in decreasing proximity
order to a target `val`.  It first recurses into the bin of the pin's proximity order to
`val` (found by `getPos`), then visits the pin and the deeper bins, all at that order, and
last the shallower bins from the deepest, each at its own order.

The callback `f func(Val, int) bool` may keep state, as the tests' counting callbacks do: it
is a function of a state, returning whether to go on.  Both iterators stop at the first
`false` (`Continue`), so an iteration is a run of the callback over a list of calls
(`runCalls`).

The proximity order of two keys is where their bits first differ (`proximityOrder_spec`,
over `Lib/FirstDiff`).  That order is an ultrametric, and it is why the iteration is right:
the values of the bin at the pin's order to `val` are closer to `val`, those of the deeper
bins are at that order from it, and those of a shallower bin at the bin's order
(`neighbours_spec`).
-/

namespace Atlantis.Swarm

open List

/-! ## Proximity order as the first differing bit -/

/-- Bit `k` of a key, the most significant bit of each byte first; zero past the end. -/
def bitAt (a : List UInt8) (k : Nat) : Bool := (a.getD (k / 8) 0).toNat.testBit (7 - k % 8)

theorem firstBit_some {oxo : UInt8} {start j : Nat} (h : firstBit oxo start = some j) :
    start ≤ j ∧ j < 8 ∧ oxo.toNat.testBit (7 - j) = true ∧
      ∀ i, start ≤ i → i < j → oxo.toNat.testBit (7 - i) = false := by
  rw [firstBit, List.find?_range'_eq_some, List.mem_range'_1] at h
  obtain ⟨hp, ⟨hs, hj⟩, hbefore⟩ := h
  refine ⟨hs, by omega, ?_, fun i hsi hij => ?_⟩
  · rwa [UInt8.shiftRight_and_one_ne_zero oxo (by omega)] at hp
  · have hi := hbefore i hsi hij
    rw [UInt8.shiftRight_and_one_ne_zero oxo (by omega)] at hi
    simpa using hi

theorem firstBit_none {oxo : UInt8} {start : Nat} (h : firstBit oxo start = none) :
    ∀ i, start ≤ i → i < 8 → oxo.toNat.testBit (7 - i) = false := by
  rw [firstBit, List.find?_range'_eq_none] at h
  intro i hsi hi
  have hi' := h i hsi (by omega)
  rw [UInt8.shiftRight_and_one_ne_zero oxo (by omega)] at hi'
  simpa using hi'

/-- The bits of byte `i`, read through the key's suffix from `i`. -/
theorem bitAt_of_drop {l : List UInt8} {i j : Nat} (hj : j / 8 = i) :
    bitAt l j = ((l.drop i).headD 0).toNat.testBit (7 - j % 8) := by
  rw [bitAt, hj, List.getD_eq_getElem?_getD]
  cases hd : l.drop i with
  | nil =>
    rw [List.drop_eq_nil_iff] at hd
    rw [List.getElem?_eq_none hd]
    rfl
  | cons a rest =>
    have ha : l[i]? = some a := by
      rw [← List.head?_drop, hd]
      rfl
    rw [ha]
    rfl

/-- `r` is what `proximityOrder` returns from `lo` on: where the bits of `one` and `other`
first differ, and whether they agree to the end. -/
def IsPo (one other : List UInt8) (lo : Nat) (r : Nat × Bool) : Prop :=
  FirstDiffFrom lo (8 * one.length) (bitAt one) (bitAt other) r.1 ∧ r.2 = (r.1 == 8 * one.length)

/-- Agreeing on `[lo, lo')`, a result from `lo'` is one from `lo`. -/
theorem IsPo.of_agree {one other : List UInt8} {lo lo' : Nat} {r : Nat × Bool}
    (h : IsPo one other lo' r) (hle : lo ≤ lo')
    (hagree : ∀ j, lo ≤ j → j < lo' → bitAt one j = bitAt other j) : IsPo one other lo r :=
  ⟨h.1.of_agree hle hagree, h.2⟩

/-- **The loop of `proximityOrder` finds the first differing bit** from byte `i` on (from
`pos` in the byte of `pos`); `k` bytes are left. -/
theorem proximityOrderLoop_spec (one other : List UInt8) (pos : Nat)
    (hpos : pos ≤ 8 * one.length) : ∀ k i, one.length - i = k → pos / 8 ≤ i →
      i ≤ one.length → IsPo one other (max pos (8 * i))
        (proximityOrderLoop one.length pos i (one.drop i) (other.drop i)) := by
  intro k
  induction k with
  | zero =>
    -- no byte left: the keys agree to the end
    intro i hk hi hlen
    obtain rfl : i = one.length := by omega
    rw [List.drop_length, proximityOrderLoop]
    exact ⟨⟨by omega, by omega, fun j hj hj' => by omega, fun h => by omega⟩,
      by simp [Nat.mul_comm]⟩
  | succ k ih =>
    intro i hk hi hlen
    have hlt : i < one.length := by omega
    have hnext := ih (i + 1) (by omega) (by omega) (by omega)
    -- the bits of byte `i` are those of its two bytes
    have hbits : ∀ j, j / 8 = i → bitAt one j = one[i].toNat.testBit (7 - j % 8) ∧
        bitAt other j = ((other.drop i).headD 0).toNat.testBit (7 - j % 8) := by
      intro j hj
      rw [bitAt_of_drop hj, bitAt_of_drop hj, List.drop_eq_getElem_cons hlt]
      exact ⟨rfl, rfl⟩
    -- agreeing on byte `i` from where the search starts, the next byte decides
    have hlift : (∀ j, max pos (8 * i) ≤ j → j < 8 * i + 8 → bitAt one j = bitAt other j) →
        IsPo one other (max pos (8 * i)) (proximityOrderLoop one.length pos (i + 1)
          (one.drop (i + 1)) (other.drop (i + 1))) := fun hagree =>
      hnext.of_agree (by omega) fun j hj hj' => hagree j hj (by omega)
    rw [List.drop_eq_getElem_cons hlt, proximityOrderLoop]
    dsimp only
    rw [List.tail_drop]
    by_cases hab : one[i] = (other.drop i).headD 0
    · -- equal bytes
      rw [if_pos hab]
      refine hlift fun j hj hj' => ?_
      rw [(hbits j (by omega)).1, (hbits j (by omega)).2, hab]
    rw [if_neg hab]
    -- the search in byte `i` starts at `pos` in the byte of `pos`, else at its first bit
    have hstart : ∀ j, max pos (8 * i) ≤ j → j < 8 * i + 8 →
        (if i = pos / 8 then pos % 8 else 0) ≤ j % 8 := by
      intro j hj hj'
      split <;> omega
    split
    · next j hfirst =>
      obtain ⟨hsj, hj8, hset, hbefore⟩ := firstBit_some hfirst
      have hsj' : (if i = pos / 8 then pos % 8 else 0) ≤ j := hsj
      refine ⟨⟨by split at hsj' <;> omega, by omega, fun j' hj' hj'' => ?_, fun _ => ?_⟩,
        (beq_eq_false_iff_ne.mpr (by omega)).symm⟩
      · obtain ⟨h1, h2⟩ := hbits j' (by omega)
        rw [h1, h2, ← UInt8.testBit_xor_eq_false]
        have hj'8 : j' % 8 = j' - 8 * i := by omega
        exact hbefore (j' % 8) (hstart j' hj' (by omega)) (by omega)
      · obtain ⟨h1, h2⟩ := hbits (i * 8 + j) (by omega)
        have hmod : (i * 8 + j) % 8 = j := by omega
        rw [h1, h2, hmod]
        intro heq
        rw [← UInt8.testBit_xor_eq_false] at heq
        rw [heq] at hset
        exact absurd hset (by decide)
    · next hnone =>
      refine hlift fun j hj hj' => ?_
      obtain ⟨h1, h2⟩ := hbits j (by omega)
      rw [h1, h2, ← UInt8.testBit_xor_eq_false]
      exact firstBit_none hnone (j % 8) (hstart j hj hj') (by omega)

/-- **`proximityOrder` is where the keys first differ** from `pos` on. -/
theorem proximityOrder_spec (one other : List UInt8) (pos : Nat)
    (hpos : pos ≤ 8 * one.length) :
    IsPo one other pos (proximityOrder one other pos) := by
  have h := proximityOrderLoop_spec one other pos hpos _ (pos / 8) rfl (Nat.le_refl _)
    (by omega)
  rwa [show max pos (8 * (pos / 8)) = pos by omega] at h

/-- Over keys of `n` bytes, `DefaultPof (8 * n)` is `proximityOrder`: the cap is never
below it. -/
theorem DefaultPof_eq {V : Type} (address : V → List UInt8) {n : Nat} {v w : V}
    (hv : (address v).length = n) (pos : Nat) (hpos : pos ≤ 8 * n) :
    DefaultPof address (8 * n) (some v) (some w) pos =
      proximityOrder (address v) (address w) pos := by
  obtain ⟨hfd, heq⟩ := proximityOrder_spec (address v) (address w) pos (by omega)
  rw [hv] at hfd heq
  -- capped only where the keys agree to the end, and then it says so already
  have hcap : ∀ r : Nat × Bool, r.1 ≤ 8 * n → r.2 = (r.1 == 8 * n) →
      (if r.1 ≥ 8 * n then (8 * n, true) else (r.1, r.2)) = r := by
    rintro ⟨po, eq⟩ hle heq
    simp only at hle heq ⊢
    split_ifs with hge
    · have hpo : po = 8 * n := by omega
      simp [hpo, heq]
    · rfl
  simp only [DefaultPof, ToBytes]
  exact hcap _ hfd.le heq

/-! ## Iterators that stop at the first `false` -/

section Iterate

variable {σ α : Type}

/-- Go's `next = …; if !next { return false }`: go on with `k` when the step says so. -/
def Continue (r : Bool × σ) (k : σ → Bool × σ) : Bool × σ :=
  if r.1 then k r.2 else (false, r.2)

/-- A callback run over calls in order, up to the first that returns false. -/
def runCalls (f : σ → α → Bool × σ) : List α → σ → Bool × σ
  | [], s => (true, s)
  | c :: cs, s => Continue (f s c) (runCalls f cs)

@[simp] theorem Continue_true (s : σ) (k : σ → Bool × σ) : Continue (true, s) k = k s := rfl

@[simp] theorem Continue_false (s : σ) (k : σ → Bool × σ) : Continue (false, s) k = (false, s) :=
  rfl

theorem Continue_assoc (r : Bool × σ) (k k' : σ → Bool × σ) :
    Continue (Continue r k) k' = Continue r fun s => Continue (k s) k' := by
  obtain ⟨b, s⟩ := r
  cases b <;> rfl

theorem Continue_pure (r : Bool × σ) : Continue r (fun s => (true, s)) = r := by
  obtain ⟨b, s⟩ := r
  cases b <;> rfl

theorem runCalls_singleton (f : σ → α → Bool × σ) (c : α) (s : σ) : runCalls f [c] s = f s c :=
  Continue_pure (f s c)

theorem runCalls_append (f : σ → α → Bool × σ) (l m : List α) (s : σ) :
    runCalls f (l ++ m) s = Continue (runCalls f l s) (runCalls f m) := by
  induction l generalizing s with
  | nil => rfl
  | cons c l ih =>
    simp only [List.cons_append, runCalls, Continue_assoc]
    congr 1
    funext s'
    exact ih s'

theorem runCalls_map {β : Type} (f : σ → α → Bool × σ) (g : β → α) (l : List β) (s : σ) :
    runCalls f (l.map g) s = runCalls (fun s c => f s (g c)) l s := by
  induction l generalizing s with
  | nil => rfl
  | cons c l ih =>
    simp only [List.map_cons, runCalls]
    congr 1
    funext s'
    exact ih s'

/-- **A call that says stop is the last**: the run returns false, in the state that call
left. -/
theorem runCalls_of_stop (f : σ → α → Bool × σ) (l : List α) {i : Nat} (hi : i < l.length)
    {s s' : σ} (hpre : runCalls f (l.take i) s = (true, s')) (hstop : (f s' l[i]).1 = false) :
    runCalls f l s = (false, (f s' l[i]).2) := by
  have hsplit : l.take i ++ l[i] :: l.drop (i + 1) = l := by
    rw [← List.drop_eq_getElem_cons hi, List.take_append_drop]
  generalize l[i] = c at hstop hsplit ⊢
  rw [← hsplit, runCalls_append, hpre, Continue_true, runCalls]
  rcases hf : f s' c with ⟨b, s''⟩
  rw [hf] at hstop
  simp only at hstop
  subst hstop
  rfl

end Iterate

/-! ## `each` and `eachNeighbour` -/

variable {V σ : Type}

/-- `getPos`: the bin at proximity order `po` and its index, or none and the index of the
first bin of larger order. -/
def getPos (po : Nat) : List (Pot V) → Option (Pot V) × Nat
  | [] => (none, 0)
  | n :: ns =>
    if po > n.po then ((getPos po ns).1, (getPos po ns).2 + 1)
    else if po < n.po then (none, 0)
    else (some n, 0)

theorem getPos_mem {po : Nat} :
    ∀ {bins : List (Pot V)} {n : Pot V} {il : Nat}, getPos po bins = (some n, il) → n ∈ bins
  | [], _, _, h => by simp [getPos] at h
  | b :: bins, n, il, h => by
    simp only [getPos] at h
    split_ifs at h with hgt hlt
    · -- found further on
      have h' : getPos po bins = (some n, (getPos po bins).2) := by
        rw [Prod.mk.injEq] at h
        rw [← h.1]
      exact List.mem_cons_of_mem b (getPos_mem h')
    · simp at h
    · simp only [Prod.mk.injEq, Option.some.injEq] at h
      rw [← h.1]
      exact List.mem_cons_self

mutual

/-- `each`: the bins in order, then the pin at the node's own order; false at the first
false of the callback, or at an empty node. -/
def each (f : σ → Option V → Nat → Bool × σ) : Pot V → σ → Bool × σ
  | ⟨pin, bins, size, po⟩, s =>
    Continue (eachBins f bins s) fun s => if size = 0 then (false, s) else f s pin po

/-- The loop of `each` over the bins. -/
def eachBins (f : σ → Option V → Nat → Bool × σ) : List (Pot V) → σ → Bool × σ
  | [], s => (true, s)
  | n :: ns, s => Continue (each f n s) (eachBins f ns)

end

/-- A loop of `eachNeighbour` over bins: `each` of every bin, with the callback the bin
gives. -/
def binsLoop (g : Pot V → σ → Option V → Nat → Bool × σ) : List (Pot V) → σ → Bool × σ
  | [], s => (true, s)
  | n :: ns, s => Continue (each (g n) n s) (binsLoop g ns)

/-- `eachNeighbour` after the bin at the pin's order `po` from the target: the pin, then the
bins from `lo` on from the last, every value at `po`, then the bins below `il` from the
last, every value at its bin's order. -/
def neighbourRest (f : σ → Option V → Nat → Bool × σ) (pin : Option V) (bins : List (Pot V))
    (po lo il : Nat) (s : σ) : Bool × σ :=
  Continue (f s pin po) fun s =>
    Continue (binsLoop (fun _ s v _ => f s v po) (bins.drop lo).reverse s)
      (binsLoop (fun n s v _ => f s v n.po) (bins.take il).reverse)

/-- `eachNeighbour`: where the pin is not `val`, the bin at its order from `val` goes
first; where there is none, the bins from the place it would take are at that order. -/
def eachNeighbour (val : V) (pof : Pof V) (f : σ → Option V → Nat → Bool × σ) :
    Pot V → σ → Bool × σ
  | ⟨pin, bins, size, tpo⟩, s =>
    if size = 0 then (false, s)
    else
      let r := pof pin (some val) tpo
      if r.2 then neighbourRest f pin bins r.1 bins.length bins.length s
      else
        match hg : getPos r.1 bins with
        | (some n, il) =>
          Continue (eachNeighbour val pof f n s) (neighbourRest f pin bins r.1 (il + 1) il)
        | (none, il) => neighbourRest f pin bins r.1 il il s
termination_by t _ => sizeOf t
decreasing_by
  have hmem := List.sizeOf_lt_of_mem (getPos_mem hg)
  simp only [Pot.mk.sizeOf_spec]
  omega

/-- `EachNeighbour`. -/
def EachNeighbour (t : Pot V) (val : V) (pof : Pof V) (f : σ → Option V → Nat → Bool × σ)
    (s : σ) : Bool × σ :=
  eachNeighbour val pof f t s

/-! ## The calls of `each` -/

mutual

/-- The calls `each` makes when the callback goes on: the bins' calls in order, then the pin
at the node's order. -/
def eachCalls : Pot V → List (Option V × Nat)
  | ⟨pin, bins, _, po⟩ => binsCalls bins ++ [(pin, po)]

/-- The calls of `each` over a list of bins. -/
def binsCalls : List (Pot V) → List (Option V × Nat)
  | [] => []
  | n :: ns => eachCalls n ++ binsCalls ns

end

/-- The structural invariant of a pot over keys of `n` bytes, as far as the iterators read
it.  A node with a pin is not empty and has a key of `n` bytes; its bins are nodes with pins
in increasing order of proximity order, and every value of a bin is at the bin's order from
the pin. -/
inductive Wf (address : V → List UInt8) (n : Nat) : Pot V → Prop
  | empty (po : Nat) : Wf address n ⟨none, [], 0, po⟩
  | node {pin : V} {bins : List (Pot V)} {size : Int} {po : Nat}
      (hkey : (address pin).length = n) (hsize : size ≠ 0)
      (hsorted : (bins.map Pot.po).Pairwise (· < ·))
      (hbins : ∀ b ∈ bins, Wf address n b)
      (hpins : ∀ b ∈ bins, b.pin.isSome)
      (hpo : ∀ b ∈ bins, ∀ v ∈ values b,
        IsFirstDiff (8 * n) (bitAt (address pin)) (bitAt (address v)) b.po) :
      Wf address n ⟨some pin, bins, size, po⟩

variable {address : V → List UInt8} {n : Nat}

theorem mem_values_of_pin {t : Pot V} {q : V} (hq : t.pin = some q) : q ∈ values t := by
  obtain ⟨pin, bins, size, po⟩ := t
  simp only at hq
  simp [values, hq]

theorem Wf.key_of_pin {t : Pot V} (hwf : Wf address n t) {p : V} (hp : t.pin = some p) :
    (address p).length = n := by
  cases hwf with
  | empty => simp at hp
  | node hkey =>
    simp only [Option.some.injEq] at hp
    exact hp ▸ hkey

theorem binsValues_eq_flatMap : ∀ bins : List (Pot V), binsValues bins = bins.flatMap values
  | [] => rfl
  | b :: bins => by rw [binsValues, binsValues_eq_flatMap bins, List.flatMap_cons]

theorem binsCalls_eq_flatMap : ∀ bins : List (Pot V), binsCalls bins = bins.flatMap eachCalls
  | [] => rfl
  | b :: bins => by rw [binsCalls, binsCalls_eq_flatMap bins, List.flatMap_cons]

/-- **`each` is the run of its calls**, on a pot of non-empty nodes. -/
theorem Wf.each_eq {t : Pot V} (hwf : Wf address n t) (hpin : t.pin.isSome)
    (f : σ → Option V → Nat → Bool × σ) (s : σ) :
    each f t s = runCalls (fun s c => f s c.1 c.2) (eachCalls t) s := by
  induction hwf generalizing s with
  | empty po => simp at hpin
  | @node p bins size po hkey hsize hsorted hbins hpins hpo ih =>
    -- the loop over the bins is the run of their calls, bin by bin
    have hloop : ∀ bs : List (Pot V), (∀ b ∈ bs, b ∈ bins) → ∀ s,
        eachBins f bs s = runCalls (fun s c => f s c.1 c.2) (binsCalls bs) s := by
      intro bs
      induction bs with
      | nil => intro _ s; rfl
      | cons b bs ihbs =>
        intro hsub s
        have hb := hsub b List.mem_cons_self
        rw [eachBins, binsCalls, runCalls_append, ih b hb (hpins b hb)]
        congr 1
        funext s'
        exact ihbs (fun b' hb' => hsub b' (List.mem_cons_of_mem b hb')) s'
    rw [each, eachCalls, runCalls_append, hloop bins (fun _ hb => hb) s]
    congr 1
    funext s'
    rw [if_neg hsize, runCalls_singleton]

/-- The calls of `each` are on the values of the pot, each once. -/
theorem Wf.eachCalls_perm {t : Pot V} (hwf : Wf address n t) (hpin : t.pin.isSome) :
    (eachCalls t).map Prod.fst ~ (values t).map some := by
  induction hwf with
  | empty po => simp at hpin
  | @node p bins size po hkey hsize hsorted hbins hpins hpo ih =>
    have hbinsPerm : (binsCalls bins).map Prod.fst ~ (binsValues bins).map some := by
      rw [binsCalls_eq_flatMap, binsValues_eq_flatMap, List.map_flatMap, List.map_flatMap]
      exact List.Perm.flatMap_left _ fun b hb => ih b hb (hpins b hb)
    rw [eachCalls, values, List.map_append, List.map_append]
    simp only [List.map_cons, List.map_nil, Option.toList_some]
    exact (List.perm_append_comm.trans (List.Perm.cons _ hbinsPerm))

/-! ## The calls of `eachNeighbour` -/

/-- The calls of `each` over bins, with every value of a bin `b` at `k b`. -/
def blockCalls (k : Pot V → Nat) (bins : List (Pot V)) : List (Option V × Nat) :=
  bins.flatMap fun b => (eachCalls b).map fun c => (c.1, k b)

/-- The calls of `neighbourRest`: the pin, the bins from `lo` on from the last at `po`, and the
bins below `il` from the last at their own order. -/
def restCalls (pin : Option V) (bins : List (Pot V)) (po lo il : Nat) : List (Option V × Nat) :=
  (pin, po) :: (blockCalls (fun _ => po) (bins.drop lo).reverse ++
    blockCalls Pot.po (bins.take il).reverse)

theorem binsLoop_eq (f : σ → Option V → Nat → Bool × σ) (k : Pot V → Nat) :
    ∀ bins : List (Pot V), (∀ b ∈ bins, Wf address n b ∧ b.pin.isSome) → ∀ s,
      binsLoop (fun b s v _ => f s v (k b)) bins s =
        runCalls (fun s c => f s c.1 c.2) (blockCalls k bins) s
  | [], _, _ => rfl
  | b :: bins, hwf, s => by
    have hb := hwf b List.mem_cons_self
    rw [binsLoop, blockCalls, List.flatMap_cons, runCalls_append, hb.1.each_eq hb.2,
      runCalls_map]
    congr 1
    funext s'
    exact binsLoop_eq f k bins (fun b' hb' => hwf b' (List.mem_cons_of_mem b hb')) s'

/-- **`neighbourRest` is the run of its calls.** -/
theorem neighbourRest_eq (f : σ → Option V → Nat → Bool × σ) (pin : Option V)
    {bins : List (Pot V)} (hwf : ∀ b ∈ bins, Wf address n b ∧ b.pin.isSome) (po lo il : Nat)
    (s : σ) : neighbourRest f pin bins po lo il s =
      runCalls (fun s c => f s c.1 c.2) (restCalls pin bins po lo il) s := by
  have hdrop : ∀ b ∈ (bins.drop lo).reverse, Wf address n b ∧ b.pin.isSome := fun b hb =>
    hwf b (List.mem_of_mem_drop (List.mem_reverse.mp hb))
  have htake : ∀ b ∈ (bins.take il).reverse, Wf address n b ∧ b.pin.isSome := fun b hb =>
    hwf b (List.mem_of_mem_take (List.mem_reverse.mp hb))
  rw [neighbourRest, restCalls, runCalls]
  congr 1
  funext s'
  rw [runCalls_append, binsLoop_eq f (fun _ => po) _ hdrop s']
  congr 1
  funext s''
  exact binsLoop_eq f Pot.po _ htake s''

theorem map_fst_blockCalls (k : Pot V → Nat) (bins : List (Pot V)) :
    (blockCalls k bins).map Prod.fst = (binsCalls bins).map Prod.fst := by
  rw [blockCalls, binsCalls_eq_flatMap, List.map_flatMap, List.map_flatMap]
  congr 1
  funext b
  rw [List.map_map]
  rfl

/-- The calls over bins are on their values, each once. -/
theorem blockCalls_perm (k : Pot V → Nat) {bins : List (Pot V)}
    (hwf : ∀ b ∈ bins, Wf address n b ∧ b.pin.isSome) :
    (blockCalls k bins).map Prod.fst ~ (bins.flatMap values).map some := by
  rw [map_fst_blockCalls, binsCalls_eq_flatMap, List.map_flatMap, List.map_flatMap]
  exact List.Perm.flatMap_left _ fun b hb => (hwf b hb).1.eachCalls_perm (hwf b hb).2

theorem snd_of_mem_blockCalls {k : Pot V → Nat} {bins : List (Pot V)} {c : Option V × Nat}
    (hc : c ∈ blockCalls k bins) : ∃ b ∈ bins, c.2 = k b := by
  rw [blockCalls, List.mem_flatMap] at hc
  obtain ⟨b, hb, hc⟩ := hc
  obtain ⟨c', _, rfl⟩ := List.mem_map.mp hc
  exact ⟨b, hb, rfl⟩

theorem mem_blockCalls {k : Pot V → Nat} {bins : List (Pot V)}
    (hwf : ∀ b ∈ bins, Wf address n b ∧ b.pin.isSome) {c : Option V × Nat}
    (hc : c ∈ blockCalls k bins) : ∃ b ∈ bins, c.2 = k b ∧ ∃ v ∈ values b, c.1 = some v := by
  rw [blockCalls, List.mem_flatMap] at hc
  obtain ⟨b, hb, hc⟩ := hc
  obtain ⟨c', hc', rfl⟩ := List.mem_map.mp hc
  have hfst : c'.1 ∈ (values b).map some :=
    ((hwf b hb).1.eachCalls_perm (hwf b hb).2).subset (List.mem_map_of_mem hc')
  obtain ⟨v, hv, hvc⟩ := List.mem_map.mp hfst
  exact ⟨b, hb, rfl, v, hv, hvc.symm⟩

/-- Bins in decreasing order give calls in decreasing order. -/
theorem pairwise_blockCalls (k : Pot V → Nat) {bins : List (Pot V)}
    (hdec : (bins.map k).Pairwise (· ≥ ·)) :
    ((blockCalls k bins).map Prod.snd).Pairwise (· ≥ ·) := by
  rw [blockCalls, List.map_flatMap, List.pairwise_flatMap]
  simp only [List.map_map, Function.comp_def]
  rw [List.pairwise_map] at hdec
  refine ⟨fun b _ => ?_, hdec.imp fun hab x hx y hy => ?_⟩
  · -- one bin: all its calls at one order
    exact List.pairwise_of_forall_mem_list fun x hx y hy => by
      obtain ⟨_, _, rfl⟩ := List.mem_map.mp hx
      obtain ⟨_, _, rfl⟩ := List.mem_map.mp hy
      exact Nat.le_refl _
  · obtain ⟨_, _, rfl⟩ := List.mem_map.mp hx
    obtain ⟨_, _, rfl⟩ := List.mem_map.mp hy
    exact hab

/-- **`getPos` on bins in increasing order**: the bins before its index are shallower; the
bin it returns is at the index; where it returns none, the bins from the index on are
deeper. -/
theorem getPos_spec (po : Nat) : ∀ {bins : List (Pot V)}, (bins.map Pot.po).Pairwise (· < ·) →
    (getPos po bins).2 ≤ bins.length ∧
      (∀ b ∈ bins.take (getPos po bins).2, b.po < po) ∧
      (∀ b, (getPos po bins).1 = some b →
        bins.drop (getPos po bins).2 = b :: bins.drop ((getPos po bins).2 + 1) ∧ b.po = po) ∧
      ((getPos po bins).1 = none → ∀ b ∈ bins.drop (getPos po bins).2, po < b.po)
  | [], _ => ⟨Nat.le_refl _, by simp, by simp [getPos], fun _ b hb => by simp at hb⟩
  | b :: bins, hsorted => by
    rw [List.map_cons, List.pairwise_cons] at hsorted
    have hdeeper : ∀ b' ∈ bins, b.po < b'.po := fun b' hb' =>
      hsorted.1 b'.po (List.mem_map_of_mem hb')
    obtain ⟨hle, htake, hsome, hnone⟩ := getPos_spec po hsorted.2
    by_cases hgt : po > b.po
    · -- `b` is shallower: the search goes on
      have hg : getPos po (b :: bins) = ((getPos po bins).1, (getPos po bins).2 + 1) := by
        simp [getPos, hgt]
      rw [hg]
      refine ⟨by simp only [List.length_cons]; omega, fun b' hb' => ?_, fun b' hb' => ?_,
        fun hn b' hb' => hnone hn b' hb'⟩
      · rw [List.take_succ_cons, List.mem_cons] at hb'
        rcases hb' with rfl | hb'
        · exact hgt
        · exact htake b' hb'
      · exact hsome b' hb'
    by_cases hlt : po < b.po
    · -- `b` is deeper: no bin at `po`
      have hg : getPos po (b :: bins) = (none, 0) := by simp [getPos, hgt, hlt]
      rw [hg]
      refine ⟨Nat.zero_le _, by simp, by simp, fun _ b' hb' => ?_⟩
      rw [List.drop_zero, List.mem_cons] at hb'
      rcases hb' with rfl | hb'
      · exact hlt
      · exact Nat.lt_trans hlt (hdeeper b' hb')
    · -- `b` is at `po`
      have hg : getPos po (b :: bins) = (some b, 0) := by simp [getPos, hgt, hlt]
      rw [hg]
      refine ⟨Nat.zero_le _, by simp, fun b' hb' => ?_, by simp⟩
      simp only [Option.some.injEq] at hb'
      subst hb'
      exact ⟨rfl, by omega⟩

section Rest

variable {p val : V} {bins : List (Pot V)} {k lo il : Nat}

theorem restCalls_perm (hwf : ∀ b ∈ bins, Wf address n b ∧ b.pin.isSome) :
    (restCalls (some p) bins k lo il).map Prod.fst ~
      some p :: ((bins.drop lo ++ bins.take il).flatMap values).map some := by
  have hdropWf : ∀ b ∈ (bins.drop lo).reverse, Wf address n b ∧ b.pin.isSome := fun b hb =>
    hwf b (List.mem_of_mem_drop (List.mem_reverse.mp hb))
  have htakeWf : ∀ b ∈ (bins.take il).reverse, Wf address n b ∧ b.pin.isSome := fun b hb =>
    hwf b (List.mem_of_mem_take (List.mem_reverse.mp hb))
  have hdrop := blockCalls_perm (fun _ => k) hdropWf
  have htake := blockCalls_perm Pot.po htakeWf
  rw [restCalls, List.map_cons, List.map_append, List.flatMap_append, List.map_append]
  refine List.Perm.cons _ (List.Perm.append (hdrop.trans ?_) (htake.trans ?_))
  · exact ((List.reverse_perm _).flatMap_right values).map some
  · exact ((List.reverse_perm _).flatMap_right values).map some

/-- The calls of `neighbourRest` are at the values' orders to `val`, given those of the pin,
of the deeper bins, and of the shallower ones. -/
theorem restCalls_po (hwf : ∀ b ∈ bins, Wf address n b ∧ b.pin.isSome)
    (hpin : IsFirstDiff (8 * n) (bitAt (address val)) (bitAt (address p)) k)
    (hdeep : ∀ b ∈ bins.drop lo, ∀ v ∈ values b,
      IsFirstDiff (8 * n) (bitAt (address val)) (bitAt (address v)) k)
    (hshallow : ∀ b ∈ bins.take il, ∀ v ∈ values b,
      IsFirstDiff (8 * n) (bitAt (address val)) (bitAt (address v)) b.po) :
    ∀ c ∈ restCalls (some p) bins k lo il, ∃ v, c.1 = some v ∧
      IsFirstDiff (8 * n) (bitAt (address val)) (bitAt (address v)) c.2 := by
  intro c hc
  rw [restCalls, List.mem_cons, List.mem_append] at hc
  rcases hc with rfl | hc | hc
  · exact ⟨p, rfl, hpin⟩
  · -- a deeper bin: at the pin's order
    have hb : ∀ b ∈ (bins.drop lo).reverse, Wf address n b ∧ b.pin.isSome := fun b hb =>
      hwf b (List.mem_of_mem_drop (List.mem_reverse.mp hb))
    obtain ⟨b, hb', hc2, v, hv, hc1⟩ := mem_blockCalls hb hc
    rw [hc2]
    exact ⟨v, hc1, hdeep b (List.mem_reverse.mp hb') v hv⟩
  · -- a shallower bin: at its own order
    have hb : ∀ b ∈ (bins.take il).reverse, Wf address n b ∧ b.pin.isSome := fun b hb =>
      hwf b (List.mem_of_mem_take (List.mem_reverse.mp hb))
    obtain ⟨b, hb', hc2, v, hv, hc1⟩ := mem_blockCalls hb hc
    rw [hc2]
    exact ⟨v, hc1, hshallow b (List.mem_reverse.mp hb') v hv⟩

/-- No call of `neighbourRest` is above the pin's order. -/
theorem restCalls_le (hle : ∀ b ∈ bins.take il, b.po ≤ k) :
    ∀ c ∈ restCalls (some p) bins k lo il, c.2 ≤ k := by
  intro c hc
  rw [restCalls, List.mem_cons, List.mem_append] at hc
  rcases hc with rfl | hc | hc
  · exact Nat.le_refl _
  · obtain ⟨b, _, hcb⟩ := snd_of_mem_blockCalls hc
    exact Nat.le_of_eq hcb
  · obtain ⟨b, hb, hcb⟩ := snd_of_mem_blockCalls hc
    rw [hcb]
    exact hle b (List.mem_reverse.mp hb)

theorem restCalls_sorted (hsorted : (bins.map Pot.po).Pairwise (· < ·))
    (hle : ∀ b ∈ bins.take il, b.po ≤ k) :
    ((restCalls (some p) bins k lo il).map Prod.snd).Pairwise (· ≥ ·) := by
  have hall : ∀ c ∈ restCalls (some p) bins k lo il, c.2 ≤ k := restCalls_le hle
  rw [restCalls, List.map_cons, List.pairwise_cons, List.map_append, List.pairwise_append]
  refine ⟨fun x hx => ?_, pairwise_blockCalls _ ?_, pairwise_blockCalls _ ?_, fun x hx y hy => ?_⟩
  · -- the pin comes first, at the highest order of the rest
    rw [← List.map_append] at hx
    obtain ⟨c, hc, rfl⟩ := List.mem_map.mp hx
    exact hall c (List.mem_cons_of_mem _ hc)
  · exact List.pairwise_of_forall_mem_list fun x hx y hy => by
      obtain ⟨_, _, rfl⟩ := List.mem_map.mp hx
      obtain ⟨_, _, rfl⟩ := List.mem_map.mp hy
      exact Nat.le_refl _
  · -- the shallower bins from the last: decreasing orders
    rw [List.map_reverse, List.pairwise_reverse]
    exact ((hsorted.sublist ((List.take_sublist il bins).map Pot.po)).imp Nat.le_of_lt)
  · obtain ⟨c, hc, rfl⟩ := List.mem_map.mp hx
    obtain ⟨c', hc', rfl⟩ := List.mem_map.mp hy
    obtain ⟨b, _, hcx⟩ := snd_of_mem_blockCalls hc
    rw [hcx]
    exact hall c' (List.mem_cons_of_mem _ (List.mem_append_right _ hc'))

end Rest

/-- `eachNeighbour` at a node that is not empty. -/
theorem eachNeighbour_node (val : V) (pof : Pof V) (f : σ → Option V → Nat → Bool × σ) (p : V)
    (bins : List (Pot V)) {size : Int} (tpo : Nat) (hsize : size ≠ 0) (s : σ) :
    eachNeighbour val pof f ⟨some p, bins, size, tpo⟩ s =
      if (pof (some p) (some val) tpo).2 then
        neighbourRest f (some p) bins (pof (some p) (some val) tpo).1 bins.length bins.length s
      else
        match getPos (pof (some p) (some val) tpo).1 bins with
        | (some b, il) => Continue (eachNeighbour val pof f b s)
            (neighbourRest f (some p) bins (pof (some p) (some val) tpo).1 (il + 1) il)
        | (none, il) => neighbourRest f (some p) bins (pof (some p) (some val) tpo).1 il il s := by
  rw [eachNeighbour, if_neg hsize]
  dsimp only
  split_ifs
  · rfl
  · split
    · next b il heq => rw [heq]
    · next il heq => rw [heq]

/-- What the calls of `eachNeighbour` from `val` are: every value of the pot once, at its
proximity order to `val`, in decreasing order. -/
structure NeighbourCalls (address : V → List UInt8) (n : Nat) (val : V) (t : Pot V)
    (L : List (Option V × Nat)) : Prop where
  perm : L.map Prod.fst ~ (values t).map some
  po : ∀ c ∈ L, ∃ v, c.1 = some v ∧
    IsFirstDiff (8 * n) (bitAt (address val)) (bitAt (address v)) c.2
  sorted : (L.map Prod.snd).Pairwise (· ≥ ·)

/-- **The calls of `eachNeighbour`**, at a node whose pin agrees with `val` below the node's
order.  The induction follows the recursion into the bin at the pin's order to `val`. -/
theorem Wf.eachNeighbour_spec {t : Pot V} (hwf : Wf address n t) {val : V} :
    (∀ p, t.pin = some p →
      t.po ≤ 8 * n ∧ ∀ j < t.po, bitAt (address p) j = bitAt (address val) j) →
    ∃ L, NeighbourCalls address n val t L ∧ (L = [] ↔ t.pin = none) ∧
      ∀ (σ : Type) (f : σ → Option V → Nat → Bool × σ) (s : σ),
        eachNeighbour val (DefaultPof address (8 * n)) f t s =
          if L = [] then (false, s) else runCalls (fun s c => f s c.1 c.2) L s := by
  induction hwf with
  | empty po =>
    intro _
    refine ⟨[], ⟨by simp [values, binsValues], by simp, by simp⟩, by simp, fun σ f s => ?_⟩
    simp [eachNeighbour]
  | @node p bins size tpo hkey hsize hsorted hbins hpins hpo ih =>
    intro hspan
    obtain ⟨htpo, hagree⟩ := hspan p rfl
    have hwfb : ∀ b ∈ bins, Wf address n b ∧ b.pin.isSome := fun b hb => ⟨hbins b hb, hpins b hb⟩
    have hvalues : values (⟨some p, bins, size, tpo⟩ : Pot V) = p :: bins.flatMap values := by
      rw [values, binsValues_eq_flatMap]
      rfl
    -- the pin's order to `val`, read from `tpo` on, is its order: they agree below `tpo`
    have hpof := DefaultPof_eq address hkey (w := val) tpo htpo
    obtain ⟨hfd₀, hflag⟩ := proximityOrder_spec (address p) (address val) tpo
      (by rw [hkey]; exact htpo)
    rw [hkey] at hfd₀ hflag
    set k := (proximityOrder (address p) (address val) tpo).1 with hk
    have hfd : IsFirstDiff (8 * n) (bitAt (address p)) (bitAt (address val)) k :=
      hfd₀.isFirstDiff hagree
    -- a value of a bin shallower than `k` is at the bin's order from `val`
    have hshallow : ∀ b ∈ bins, b.po < k → ∀ v ∈ values b,
        IsFirstDiff (8 * n) (bitAt (address val)) (bitAt (address v)) b.po := fun b hb hlt v hv =>
      ((hpo b hb v hv).symm.trans_of_lt hfd hlt).symm
    -- and one of a deeper bin at `k`
    have hdeep : ∀ b ∈ bins, k < b.po → ∀ v ∈ values b,
        IsFirstDiff (8 * n) (bitAt (address val)) (bitAt (address v)) k := fun b hb hlt v hv =>
      hfd.symm.trans_of_lt (hpo b hb v hv) hlt
    have hrest : ∀ lo il, restCalls (some p) bins k lo il ≠ [] := fun _ _ => List.cons_ne_nil _ _
    by_cases hr2 : (proximityOrder (address p) (address val) tpo).2 = true
    · -- `val` is the pin: the pin, then every bin from the last at its own order
      have hkn : k = 8 * n := by simpa using hflag.symm.trans hr2
      refine ⟨restCalls (some p) bins k bins.length bins.length, ⟨?_, ?_, ?_⟩,
        by simp [hrest], fun σ f s => ?_⟩
      · refine (restCalls_perm hwfb).trans ?_
        rw [hvalues, List.drop_length, List.take_length, List.nil_append]
        rfl
      · refine restCalls_po hwfb hfd.symm (by simp) fun b hb v hv => ?_
        rw [List.take_length] at hb
        have hfull : IsFirstDiff (8 * n) (bitAt (address p)) (bitAt (address val)) (8 * n) :=
          hkn ▸ hfd
        exact hfull.symm.congr_left (hpo b hb v hv)
      · refine restCalls_sorted hsorted fun b hb => ?_
        rw [List.take_length] at hb
        obtain ⟨q, hq⟩ := Option.isSome_iff_exists.mp (hpins b hb)
        rw [hkn]
        exact (hpo b hb q (mem_values_of_pin hq)).le
      · rw [eachNeighbour_node _ _ _ _ _ _ hsize, hpof, if_pos hr2, if_neg (hrest _ _),
          neighbourRest_eq f _ hwfb]
    have hkn : k < 8 * n := by
      have hne : k ≠ 8 * n := by
        intro h
        rw [h] at hflag
        exact hr2 (by simpa using hflag)
      exact Nat.lt_of_le_of_ne hfd.le hne
    obtain ⟨_, htake, hsome, hnone⟩ := getPos_spec k hsorted
    have htakeLt : ∀ b ∈ bins.take (getPos k bins).2, b.po < k := htake
    rcases hgp : getPos k bins with ⟨_ | b0, il⟩
    · -- no bin at `k`: the pin, the deeper bins at `k`, the shallower at their orders
      rw [hgp] at htakeLt hnone
      have hdeepIl : ∀ b ∈ bins.drop il, k < b.po := hnone rfl
      refine ⟨restCalls (some p) bins k il il, ⟨?_, ?_, ?_⟩, by simp [hrest], fun σ f s => ?_⟩
      · refine (restCalls_perm hwfb).trans ?_
        rw [hvalues, List.map_cons]
        exact ((List.perm_append_comm.trans (by rw [List.take_append_drop])).flatMap_right
          values |>.map some).cons _
      · exact restCalls_po hwfb hfd.symm
          (fun b hb => hdeep b (List.mem_of_mem_drop hb) (hdeepIl b hb))
          (fun b hb => hshallow b (List.mem_of_mem_take hb) (htakeLt b hb))
      · exact restCalls_sorted hsorted fun b hb => Nat.le_of_lt (htakeLt b hb)
      · rw [eachNeighbour_node _ _ _ _ _ _ hsize, hpof, if_neg hr2, ← hk, hgp]
        dsimp only
        rw [if_neg (hrest _ _), neighbourRest_eq f _ hwfb]
    · -- the bin at `k` first, then the rest as above without it
      rw [hgp] at htakeLt hsome
      obtain ⟨hdrop, hb0po⟩ := hsome b0 rfl
      have hb0 : b0 ∈ bins := getPos_mem hgp
      have hbins : bins = bins.take il ++ b0 :: bins.drop (il + 1) := by
        rw [← hdrop, List.take_append_drop]
      have hdeepIl : ∀ b ∈ bins.drop (il + 1), k < b.po := by
        have hs := hsorted.sublist ((List.drop_sublist il bins).map Pot.po)
        rw [hdrop, List.map_cons, List.pairwise_cons] at hs
        intro b hb
        rw [← hb0po]
        exact hs.1 b.po (List.mem_map_of_mem hb)
      -- the bin's pin agrees with `val` below `k`: both leave `p` there
      obtain ⟨L0, hL0, hL0nil, hL0eq⟩ := ih b0 hb0 fun q hq => ⟨by rw [hb0po]; exact hkn.le,
        fun j hj => IsFirstDiff.agree_of_same
          (hpo b0 hb0 q (mem_values_of_pin hq)) (hb0po ▸ hfd) j (by omega)⟩
      have hL0ne : L0 ≠ [] := fun h => by
        have hpin := hpins b0 hb0
        rw [hL0nil.mp h] at hpin
        simp at hpin
      refine ⟨L0 ++ restCalls (some p) bins k (il + 1) il, ⟨?_, ?_, ?_⟩, by simp [hrest],
        fun σ f s => ?_⟩
      · -- the bin's values, the pin, and the other bins
        rw [List.map_append]
        refine (hL0.perm.append (restCalls_perm hwfb)).trans (List.perm_middle.trans ?_)
        rw [hvalues, List.map_cons]
        refine List.Perm.cons _ ?_
        conv_rhs => rw [hbins]
        rw [← List.map_append, List.flatMap_append, List.flatMap_append, List.flatMap_cons,
          ← List.append_assoc]
        exact List.perm_append_comm.map some
      · intro c hc
        rcases List.mem_append.mp hc with hc | hc
        · exact hL0.po c hc
        · exact restCalls_po hwfb hfd.symm
            (fun b hb => hdeep b (List.mem_of_mem_drop hb) (hdeepIl b hb))
            (fun b hb => hshallow b (List.mem_of_mem_take hb) (htakeLt b hb)) c hc
      · rw [List.map_append, List.pairwise_append]
        refine ⟨hL0.sorted, restCalls_sorted hsorted fun b hb => Nat.le_of_lt (htakeLt b hb),
          fun x hx y hy => ?_⟩
        -- the bin's values are closer to `val` than `k`, the rest are not
        obtain ⟨c, hc, rfl⟩ := List.mem_map.mp hx
        obtain ⟨c', hc', rfl⟩ := List.mem_map.mp hy
        obtain ⟨v, hcv, hvfd⟩ := hL0.po c hc
        have hv : v ∈ values b0 := by
          have hmem := hL0.perm.subset (List.mem_map_of_mem hc)
          rw [hcv] at hmem
          simpa using hmem
        have hlt := IsFirstDiff.lt_of_same (hb0po ▸ hpo b0 hb0 v hv) hfd hkn hvfd.symm
        exact Nat.le_of_lt (Nat.lt_of_le_of_lt
          (restCalls_le (fun b hb => Nat.le_of_lt (htakeLt b hb)) c' hc') hlt)
      · rw [eachNeighbour_node _ _ _ _ _ _ hsize, hpof, if_neg hr2, ← hk, hgp]
        dsimp only
        rw [hL0eq σ f s, if_neg hL0ne, if_neg (by simp [hrest]), runCalls_append]
        congr 1
        funext s'
        exact neighbourRest_eq f _ hwfb _ _ _ s'

/-- **`EachNeighbour` with `DefaultPof` over keys of `n` bytes calls the callback once for every
value of the pot, at the value's proximity order to `val`, in non-increasing order; the first
call that returns false is the last, and `EachNeighbour` then returns false.**  `val` is in
the pot's span: it agrees with the pin below the pot's order, as every target does for a
pot of order zero. -/
theorem EachNeighbour_calls (address : V → List UInt8) (n : Nat) (t : Pot V)
    (ht : Wf address n t) (val : V) (hval : (address val).length = n)
    (hspan : ∀ p, t.pin = some p → t.po ≤ (proximityOrder (address p) (address val) 0).1) :
    ∃ L : List (Option V × Nat),
      (∀ (σ : Type) (f : σ → Option V → Nat → Bool × σ) (s : σ),
        EachNeighbour t val (DefaultPof address (8 * n)) f s =
          if L = [] then (false, s) else runCalls (fun s c => f s c.1 c.2) L s) ∧
      L.map Prod.fst ~ (values t).map some ∧
      (∀ c ∈ L, ∃ v, c.1 = some v ∧ c.2 = (proximityOrder (address val) (address v) 0).1) ∧
      (L.map Prod.snd).Pairwise (· ≥ ·) ∧
      ∀ (σ : Type) (f : σ → Option V → Nat → Bool × σ) (s s' : σ) (i : Nat)
        (hi : i < L.length), runCalls (fun s c => f s c.1 c.2) (L.take i) s = (true, s') →
        (f s' L[i].1 L[i].2).1 = false →
        EachNeighbour t val (DefaultPof address (8 * n)) f s = (false, (f s' L[i].1 L[i].2).2) := by
  -- below the pot's order the pin and `val` agree, as they do below their own order
  have hagree : ∀ p, t.pin = some p →
      t.po ≤ 8 * n ∧ ∀ j < t.po, bitAt (address p) j = bitAt (address val) j := by
    intro p hp
    have hkey := ht.key_of_pin hp
    obtain ⟨hfd, -⟩ := proximityOrder_spec (address p) (address val) 0 (Nat.zero_le _)
    rw [hkey] at hfd
    have hle := hspan p hp
    exact ⟨Nat.le_trans hle hfd.le, fun j hj => hfd.agree j (Nat.zero_le _) (by omega)⟩
  obtain ⟨L, hL, _, heq⟩ := ht.eachNeighbour_spec hagree
  refine ⟨L, heq, hL.perm, fun c hc => ?_, hL.sorted, fun σ f s s' i hi hpre hstop => ?_⟩
  · -- the order of the first differing bit is what `proximityOrder` returns
    obtain ⟨v, hcv, hfd⟩ := hL.po c hc
    obtain ⟨hfd', -⟩ := proximityOrder_spec (address val) (address v) 0 (Nat.zero_le _)
    rw [hval] at hfd'
    exact ⟨v, hcv, hfd.unique hfd'⟩
  · rw [EachNeighbour, heq σ f s, if_neg (List.ne_nil_of_length_pos (by omega))]
    exact runCalls_of_stop _ L hi hpre hstop

/-- The pot of `0x00` with `0x80` added: `0x80` in the bin of order zero. -/
def twoPot : Pot (List UInt8) := ⟨some [0x00], [⟨some [0x80], [], 1, 0⟩], 2, 0⟩

theorem EachNeighbour_calls_twoPot :
    Wf id 1 twoPot ∧ (id [0x40] : List UInt8).length = 1 ∧
      (∀ p, twoPot.pin = some p → twoPot.po ≤ (proximityOrder (id p) (id [0x40]) 0).1) ∧
      ∃ L : List (Option (List UInt8) × Nat),
        (∀ (σ : Type) (f : σ → Option (List UInt8) → Nat → Bool × σ) (s : σ),
          EachNeighbour twoPot [0x40] (DefaultPof id (8 * 1)) f s =
            if L = [] then (false, s) else runCalls (fun s c => f s c.1 c.2) L s) ∧
        L.map Prod.fst ~ (values twoPot).map some ∧
        (∀ c ∈ L, ∃ v, c.1 = some v ∧ c.2 = (proximityOrder (id [0x40]) (id v) 0).1) ∧
        (L.map Prod.snd).Pairwise (· ≥ ·) ∧
        ∀ (σ : Type) (f : σ → Option (List UInt8) → Nat → Bool × σ) (s s' : σ) (i : Nat)
          (hi : i < L.length), runCalls (fun s c => f s c.1 c.2) (L.take i) s = (true, s') →
          (f s' L[i].1 L[i].2).1 = false →
          EachNeighbour twoPot [0x40] (DefaultPof id (8 * 1)) f s =
            (false, (f s' L[i].1 L[i].2).2) := by
  have hleaf : Wf id 1 (⟨some [0x80], [], 1, 0⟩ : Pot (List UInt8)) :=
    Wf.node rfl (by decide) List.Pairwise.nil (by simp) (by simp) (by simp)
  have hwf : Wf id 1 twoPot := by
    refine Wf.node rfl (by decide) (List.pairwise_singleton _ _) (fun b hb => ?_)
      (fun b hb => ?_) (fun b hb v hv => ?_)
    · rw [List.mem_singleton.mp hb]
      exact hleaf
    · rw [List.mem_singleton.mp hb]
      rfl
    · -- `0x00` and `0x80` differ in the first bit
      rw [List.mem_singleton.mp hb] at hv ⊢
      simp only [values, binsValues, Option.toList_some, List.append_nil,
        List.mem_singleton] at hv
      subst hv
      exact ⟨Nat.le_refl _, by decide, fun j _ hj => absurd hj (Nat.not_lt_zero j),
        fun _ => by decide⟩
  have hspan : ∀ p, twoPot.pin = some p → twoPot.po ≤ (proximityOrder (id p) (id [0x40]) 0).1 :=
    fun _ _ => Nat.zero_le _
  exact ⟨hwf, rfl, hspan, EachNeighbour_calls id 1 twoPot hwf [0x40] rfl hspan⟩

/-- Outside the span the calls are wrong: the one-value pot of `0x00` at order one and the
target `0x80`.  `DefaultPof` counts from the pot's order, past the one bit where the two keys
differ, finds them equal, and the pin is reported at the key length, 8, where its proximity
order to the target is 0. -/
theorem EachNeighbour_outside_span :
    Wf id 1 (NewPot (some [0x00]) 1) ∧ (id [0x80] : List UInt8).length = 1 ∧
      EachNeighbour (NewPot (some [0x00]) 1) [0x80] (DefaultPof id (8 * 1))
          (fun (s : List (Option (List UInt8) × Nat)) v po => (true, s ++ [(v, po)])) [] =
        (true, [(some [0x00], 8)]) ∧
      (proximityOrder (id [0x80]) (id [0x00]) 0).1 = 0 := by
  refine ⟨Wf.node rfl (by decide) List.Pairwise.nil (by simp) (by simp) (by simp), rfl, ?_,
    by decide⟩
  rw [NewPot, EachNeighbour, eachNeighbour_node _ _ _ _ _ _ (by decide)]
  decide

end Atlantis.Swarm
