import Mathlib

/-!
# Stream intervals

`swarm/network/stream/intervals/intervals.go`: the ranges of values a stream has received,
above a lower bound `start`, each range `(start, end)` with both ends included.  `add` merges
a new range into the list in one pass.  The pass looks for the first range that the new one
reaches from the left (`minStartJ`) and the last one it reaches on the right (`maxEndJ`).  When
it finds neither, it inserts the new range at the index where it stopped.

Both tests of the pass look at the ends of each range.  Neither looks for a range that holds
the new one strictly inside, so such a range is met by neither test.  The new range then goes
in after it as a range of its own (`add_inside_overlaps`).  The list stops being disjoint,
and `Next` reports a gap that ends below its start.

Values are `UInt64`, with the source's wrapping `+ 1` and `- 1`.  The mutex is left out.
-/

namespace Atlantis.Stream

/-- `Intervals`: the lower bound and the ranges. -/
structure Intervals where
  start : UInt64
  ranges : List (UInt64 × UInt64)
  deriving DecidableEq, Repr

/-- `NewIntervals`. -/
def NewIntervals (start : UInt64) : Intervals := ⟨start, []⟩

/-- The state of the pass of `add`: the range being added as it grows (`stop` is the source's
`end`), and the first and the last index it merges with (the source's `-1` is `none`). -/
structure AddState where
  start : UInt64
  stop : UInt64
  minStartJ : Option Nat
  maxEndJ : Option Nat

/-- One round of the loop of `add`, at index `j` over the range `r`, and whether the loop
breaks after it.  The second test sees the start the first one may have lowered. -/
def addStep (j : Nat) (r : UInt64 × UInt64) (s : AddState) : AddState × Bool :=
  let s :=
    if s.minStartJ = none ∧ ((s.start ≤ r.1 ∧ s.stop + 1 ≥ r.1) ∨
        (s.start ≤ r.2 + 1 ∧ s.stop + 1 ≥ r.2)) then
      { s with start := if r.1 < s.start then r.1 else s.start, minStartJ := some j }
    else s
  let s :=
    if (s.start ≤ r.2 ∧ s.stop + 1 ≥ r.2) ∨ (s.start ≤ r.1 ∧ s.stop + 1 ≥ r.1) then
      { s with stop := if r.2 > s.stop then r.2 else s.stop, maxEndJ := some j }
    else s
  (s, s.stop + 1 ≤ r.1)

/-- The loop of `add` from index `j`: the state it ends in and the index it stops at, the
length of the list when it does not break. -/
def addLoop : Nat → List (UInt64 × UInt64) → AddState → AddState × Nat
  | j, [], s => (s, j)
  | j, r :: rs, s =>
    match addStep j r s with
    | (s', true) => (s', j)
    | (s', false) => addLoop (j + 1) rs s'

/-- `Intervals.add`: clip the range to `start`, run the pass, then insert the range, or widen
the ranges it met and splice out those between them. -/
def Intervals.add (i : Intervals) (start stop : UInt64) : Intervals :=
  let start := if start < i.start then i.start else start
  if stop < i.start then i
  else
    match addLoop 0 i.ranges ⟨start, stop, none, none⟩ with
    | (⟨start, stop, none, none⟩, j) =>
      { i with ranges := i.ranges.take j ++ (start, stop) :: i.ranges.drop j }
    | (⟨start, stop, minStartJ, maxEndJ⟩, _) =>
      let ranges := match minStartJ with
        | some k => i.ranges.modify k fun r => (start, r.2)
        | none => i.ranges
      let ranges := match maxEndJ with
        | some k => ranges.modify k fun r => (r.1, stop)
        | none => ranges
      match minStartJ, maxEndJ with
      | some k, some k' =>
        if k ≠ k' then
          let ranges := ranges.modify k' fun r => (start, r.2)
          { i with ranges := ranges.take k ++ ranges.drop k' }
        else { i with ranges := ranges }
      | _, _ => { i with ranges := ranges }

/-- `Intervals.Merge`: `add` each range of `m`. -/
def Intervals.Merge (i m : Intervals) : Intervals :=
  m.ranges.foldl (fun i r => i.add r.1 r.2) i

/-- `Intervals.Next`: the first gap, from `start` or from the end of the first range, to the
value before the next range, or `0` when no range follows. -/
def Intervals.Next (i : Intervals) : UInt64 × UInt64 :=
  match i.ranges with
  | [] => (i.start, 0)
  | r :: rest =>
    if r.1 ≠ i.start then (i.start, r.1 - 1)
    else
      match rest with
      | [] => (r.2 + 1, 0)
      | r' :: _ => (r.2 + 1, r'.1 - 1)

/-- What the ranges should keep: each is at or above `start` and not empty, and each ends
more than one value before any later one begins, so they are sorted, disjoint and not
adjacent. -/
structure Intervals.Wf (i : Intervals) : Prop where
  bounds : ∀ r ∈ i.ranges, i.start ≤ r.1 ∧ r.1 ≤ r.2
  apart : i.ranges.Pairwise fun r r' => r.2.toNat + 1 < r'.1.toNat

-- the bounds are checked along the list: with all of Mathlib, `∀ r ∈ l` would be decided
-- over every pair of `UInt64`s, which form a `Fintype`
instance (i : Intervals) : Decidable i.Wf :=
  decidable_of_iff ((i.ranges.all fun r => i.start ≤ r.1 && r.1 ≤ r.2) ∧
      i.ranges.Pairwise fun r r' => r.2.toNat + 1 < r'.1.toNat)
    (by
      simp only [List.all_eq_true, Bool.and_eq_true, decide_eq_true_eq]
      exact ⟨fun h => ⟨h.1, h.2⟩, fun h => ⟨h.bounds, h.apart⟩⟩)

/-! ## A range inside another -/

section Inside

variable {a b : UInt64}

/-- The pass as it starts for the range `(a, b)`. -/
abbrev fresh (a b : UInt64) : AddState := ⟨a, b, none, none⟩

/-- A range that ends more than one before `a` is met by neither test, unless `b + 1` wraps
to `0` and breaks the pass. -/
theorem addStep_below (j : Nat) {r : UInt64 × UInt64} (hab : a ≤ b) (hb : b.toNat + 1 < 2 ^ 64)
    (hr : r.1 ≤ r.2) (hbelow : r.2.toNat + 1 < a.toNat) :
    addStep j r (fresh a b) = (fresh a b, false) := by
  rw [UInt64.le_iff_toNat_le] at hab hr
  have ha := UInt64.toNat_lt a
  simp only [addStep, ge_iff_le, UInt64.le_iff_toNat_le, UInt64.lt_iff_toNat_lt,
    UInt64.toNat_add, UInt64.toNat_one]
  split_ifs <;> simp_all <;> omega

/-- A range that holds `(a, b)` strictly inside, with more than one value after `b`, is met
by neither test. -/
theorem addStep_inside (j : Nat) {r : UInt64 × UInt64} (hab : a ≤ b) (hlt : r.1 < a)
    (hin : b.toNat + 1 < r.2.toNat) : addStep j r (fresh a b) = (fresh a b, false) := by
  rw [UInt64.le_iff_toNat_le] at hab
  rw [UInt64.lt_iff_toNat_lt] at hlt
  have hy := UInt64.toNat_lt r.2
  simp only [addStep, ge_iff_le, UInt64.le_iff_toNat_le, UInt64.lt_iff_toNat_lt,
    UInt64.toNat_add, UInt64.toNat_one]
  split_ifs <;> simp_all <;> omega

/-- A range that begins more than one after `b` stops the pass. -/
theorem addStep_above (j : Nat) {r : UInt64 × UInt64} (hab : a ≤ b) (hr : r.1 ≤ r.2)
    (habove : b.toNat + 1 < r.1.toNat) : addStep j r (fresh a b) = (fresh a b, true) := by
  rw [UInt64.le_iff_toNat_le] at hab hr
  have hv := UInt64.toNat_lt r.2
  simp only [addStep, ge_iff_le, UInt64.le_iff_toNat_le, UInt64.lt_iff_toNat_lt,
    UInt64.toNat_add, UInt64.toNat_one]
  split_ifs <;> simp_all <;> omega

/-- Ranges that no test meets leave the pass as it was. -/
theorem addLoop_append_of_skip {s : AddState} {rest : List (UInt64 × UInt64)} :
    ∀ (L : List (UInt64 × UInt64)) (j : Nat), (∀ r ∈ L, ∀ k, addStep k r s = (s, false)) →
      addLoop j (L ++ rest) s = addLoop (j + L.length) rest s
  | [], j, _ => rfl
  | r :: L, j, h => by
    rw [List.cons_append, addLoop, h r List.mem_cons_self j]
    dsimp only
    rw [addLoop_append_of_skip L (j + 1) fun r' hr' => h r' (List.mem_cons_of_mem _ hr'),
      List.length_cons, Nat.add_right_comm, Nat.add_assoc]

/-- The pass meets nothing from a range that holds `(a, b)` strictly inside: it stops right
after it. -/
theorem addLoop_inside {L R : List (UInt64 × UInt64)} {x y : UInt64}
    (hw : (L ++ (x, y) :: R).Pairwise fun r r' => r.2.toNat + 1 < r'.1.toNat)
    (hne : ∀ r ∈ L ++ (x, y) :: R, r.1 ≤ r.2) (hxa : x < a) (hab : a ≤ b)
    (hby : b.toNat + 1 < y.toNat) :
    addLoop 0 (L ++ (x, y) :: R) (fresh a b) = (fresh a b, L.length + 1) := by
  have hxa' := UInt64.lt_iff_toNat_lt.mp hxa
  -- every range of `L` ends before `x`, so more than one before `a`
  have hL : ∀ r ∈ L, ∀ k, addStep k r (fresh a b) = (fresh a b, false) := by
    intro r hr k
    have hrx : r.2.toNat + 1 < x.toNat :=
      (List.pairwise_append.mp hw).2.2 r hr (x, y) List.mem_cons_self
    exact addStep_below k hab (by have := UInt64.toNat_lt y; omega)
      (hne r (List.mem_append_left _ hr)) (by omega)
  rw [addLoop_append_of_skip L 0 hL, Nat.zero_add, addLoop,
    addStep_inside L.length hab hxa hby]
  dsimp only
  cases R with
  | nil => rfl
  | cons r R =>
    have hyr : y.toNat + 1 < r.1.toNat :=
      List.rel_of_pairwise_cons (List.pairwise_append.mp hw).2.1 List.mem_cons_self
    rw [addLoop, addStep_above (L.length + 1) hab (hne r (by simp)) (by omega)]

/-- **A range strictly inside another is inserted as a range of its own.**  For ranges that
keep `Wf`, a range `(a, b)` that lies inside a stored `(x, y)` with `x < a` and more than one
value of `(x, y)` after `b` goes in right after `(x, y)`, and the ranges no longer keep
`Wf`. -/
theorem add_inside_overlaps (i : Intervals) (hw : i.Wf) (L R : List (UInt64 × UInt64))
    (x y a b : UInt64) (hr : i.ranges = L ++ (x, y) :: R) (hxa : x < a) (hab : a ≤ b)
    (hby : b.toNat + 1 < y.toNat) :
    (i.add a b).ranges = L ++ (x, y) :: (a, b) :: R ∧ ¬ (i.add a b).Wf := by
  have hx : i.start ≤ x := (hw.bounds (x, y) (by simp [hr])).1
  have hstart : ¬ a < i.start := fun h => by
    rw [UInt64.lt_iff_toNat_lt] at h hxa
    rw [UInt64.le_iff_toNat_le] at hx
    omega
  have hstop : ¬ b < i.start := fun h => by
    rw [UInt64.lt_iff_toNat_lt] at h hxa
    rw [UInt64.le_iff_toNat_le] at hx hab
    omega
  have hloop := addLoop_inside (hr ▸ hw.apart)
    (fun r h => (hw.bounds r (hr ▸ h)).2) hxa hab hby
  have hranges : (i.add a b).ranges = L ++ (x, y) :: (a, b) :: R := by
    simp only [Intervals.add, hstart, hstop, if_false, hr, hloop]
    have htake : (L ++ (x, y) :: R).take (L.length + 1) = L ++ [(x, y)] := by
      rw [List.take_append, List.take_of_length_le (by omega)]
      simp
    have hdrop : (L ++ (x, y) :: R).drop (L.length + 1) = R := by
      simp [List.drop_append]
    rw [htake, hdrop]
    simp
  refine ⟨hranges, fun hw' => ?_⟩
  -- `(x, y)` now comes right before `(a, b)`, and `a` is not after `y`
  have happ := hw'.apart
  rw [hranges, List.pairwise_append] at happ
  have hxy : y.toNat + 1 < a.toNat :=
    List.rel_of_pairwise_cons happ.2.1 List.mem_cons_self
  rw [UInt64.le_iff_toNat_le] at hab
  omega

/-- The smallest case: from `NewIntervals(5)`, `Add(5, 10)` then `Add(6, 7)` stores
`[[5, 10], [6, 7]]`, and `Next` reports the gap `(11, 5)`. -/
theorem add_inside_overlaps_five_ten :
    ((NewIntervals 5).add 5 10).Wf ∧
      (((NewIntervals 5).add 5 10).add 6 7).ranges = [(5, 10), (6, 7)] ∧
      (((NewIntervals 5).add 5 10).add 6 7).Next = (11, 5) :=
  ⟨by decide +kernel,
    (add_inside_overlaps ((NewIntervals 5).add 5 10) (by decide +kernel) [] [] 5 10 6 7
      (by decide +kernel) (by decide +kernel) (by decide +kernel) (by decide +kernel)).1,
    by decide +kernel⟩

end Inside

end Atlantis.Stream
