import Mathlib.Data.List.Basic

/-!
# Proximity order trees

`swarm/pot/pot.go`: a pot is a trie over keys compared by proximity order, the length of
their common prefix.  A node pins a value; its bins are the subtrees of the values whose
proximity order to the pin is the bin's `po`, in increasing order of it.  The operations are
applicative: `add` and `remove` return a new pot and share the untouched bins.

`Val` is Go's empty interface: here a type `V` whose nil is `none`.  A proximity order
function (`Pof`) compares two values from a position on, and says whether they are equal;
`DefaultPof` compares the bytes of their keys bit by bit, most significant bit first.  The
pointer `*Pot` is a pot; a nil pot does not arise in the operations modelled.  A panic of the
source (an index out of range) is `none`.

`remove` pins the value it removes in place of the node's own pin when the value was not at
the pin (`remove_absent_or_pin`).
-/

namespace Atlantis.Swarm

/-- `Pot`: the pinned value, the bins, the number of values and the proximity order of the
node in its parent. -/
structure Pot (V : Type) where
  pin : Option V
  bins : List (Pot V)
  size : Int
  po : Nat
  deriving Repr

/-- `Pof`: the proximity order of two values, counted from a position on, and whether they
are equal. -/
def Pof (V : Type) := Option V → Option V → Nat → Nat × Bool

variable {V : Type}

/-! ## Proximity order of byte strings -/

/-- The first bit from `start` on that is set in a byte, most significant first. -/
def firstBit (oxo : UInt8) (start : Nat) : Option Nat :=
  (List.range' start (8 - start)).find? fun j => (oxo >>> UInt8.ofNat (7 - j)) &&& 0x01 != 0

/-- The loop of `proximityOrder` over the bytes from `i` on. -/
def proximityOrderLoop (len pos : Nat) : Nat → List UInt8 → List UInt8 → Nat × Bool
  | _, [], _ => (len * 8, true)
  | i, a :: one, other =>
    let b := other.headD 0
    if a = b then proximityOrderLoop len pos (i + 1) one other.tail
    else
      let start := if i = pos / 8 then pos % 8 else 0
      match firstBit (a ^^^ b) start with
      | some j => (i * 8 + j, false)
      | none => proximityOrderLoop len pos (i + 1) one other.tail

/-- `proximityOrder`: the index of the first bit from `pos` on where two byte strings
differ, or their length in bits and `true` when they agree from `pos` on. -/
def proximityOrder (one other : List UInt8) (pos : Nat) : Nat × Bool :=
  proximityOrderLoop one.length pos (pos / 8) (one.drop (pos / 8)) (other.drop (pos / 8))

/-- `ToBytes`: the key of a value; nil has the empty key. -/
def ToBytes (address : V → List UInt8) : Option V → List UInt8
  | none => []
  | some v => address v

/-- `DefaultPof`: proximity order of the keys, capped at `max`, where values are equal. -/
def DefaultPof (address : V → List UInt8) (max : Nat) : Pof V := fun one other pos =>
  let (po, eq) := proximityOrder (ToBytes address one) (ToBytes address other) pos
  if po ≥ max then (max, true) else (po, eq)

/-! ## The operations -/

/-- `NewPot`: a pot of one value, or empty for nil. -/
def NewPot (v : Option V) (po : Nat) : Pot V :=
  ⟨v, [], if v.isSome then 1 else 0, po⟩

mutual

/-- The values of a pot: its pin, and recursively the values of its bins. -/
def values : Pot V → List V
  | ⟨pin, bins, _, _⟩ => pin.toList ++ binsValues bins

/-- The values of a list of bins. -/
def binsValues : List (Pot V) → List V
  | [] => []
  | n :: ns => values n ++ binsValues ns

end

mutual

/-- `add`: the pot with `val` added, the proximity order of `val` to the pin, and whether a
value equal to it was there (and is replaced). -/
def add (pof : Pof V) : Pot V → V → Pot V × Nat × Bool
  | ⟨none, bins, size, tpo⟩, val => (⟨some val, bins, size + 1, tpo⟩, 0, false)
  | ⟨some pin, bins, size, tpo⟩, val =>
    let (po, found) := pof (some pin) (some val) tpo
    if found then (⟨some val, bins, size, tpo⟩, po, true)
    else
      let r := addBins pof val po size bins
      (⟨some pin, r.1, r.2.1, tpo⟩, po, r.2.2)

/-- The loop of `add` over the bins: the value goes into the bin of its proximity order, or
into a new bin placed before the first bin of larger order. -/
def addBins (pof : Pof V) (val : V) (po : Nat) (size : Int) :
    List (Pot V) → List (Pot V) × Int × Bool
  | [] => ([⟨some val, [], 1, po⟩], size + 1, false)
  | n :: ns =>
    if n.po = po then
      let r := add pof n val
      (r.1 :: ns, if r.2.2 then size else size + 1, r.2.2)
    else if n.po > po then (⟨some val, [], 1, po⟩ :: n :: ns, size + 1, false)
    else
      let r := addBins pof val po size ns
      (n :: r.1, r.2.1, r.2.2)

end

/-- How the loop of `remove` over the bins ends. -/
inductive Removed (V : Type) where
  /-- A bin of larger proximity order: the value is not in the pot, which is returned. -/
  | absent
  /-- The bins after the recursive call, the size, and the proximity order and found flag
  the call returned. -/
  | bins (bins : List (Pot V)) (size : Int) (po : Nat) (found : Bool)

mutual

/-- `remove`: the pot without `val`, the proximity order, and whether it was found.  A value
found at the pin is replaced by the pin of the last bin, whose bins join the node's. -/
def remove (pof : Pof V) : Pot V → V → Option (Pot V × Nat × Bool)
  | ⟨pin, bins, size, tpo⟩, val =>
    let (po, found) := pof pin (some val) tpo
    if found then
      if size - 1 = 0 then some (⟨none, [], 0, tpo⟩, po, true)
      else
        match bins.getLast? with
        -- t.bins[-1]: index out of range
        | none => none
        | some last => some (⟨last.pin, bins.dropLast ++ last.bins, size - 1, tpo⟩, tpo, true)
    else
      match removeBins pof val po size bins with
      | none => none
      | some .absent => some (⟨pin, bins, size, tpo⟩, po, false)
      | some (.bins bins' size' po' found') => some (⟨some val, bins', size', tpo⟩, po', found')

/-- The loop of `remove` over the bins: the value is removed from the bin of its proximity
order, and the bin is dropped when it becomes empty. -/
def removeBins (pof : Pof V) (val : V) (po : Nat) (size : Int) :
    List (Pot V) → Option (Removed V)
  | [] => some (.bins [] size po false)
  | n :: ns =>
    if n.po = po then
      (remove pof n val).map fun r =>
        .bins ((if r.1.pin.isSome then [r.1] else []) ++ ns)
          (if r.2.2 then size - 1 else size) r.2.1 r.2.2
    else if n.po > po then some .absent
    else
      (removeBins pof val po size ns).map fun
        | .absent => .absent
        | .bins bins' size' po' found' => .bins (n :: bins') size' po' found'

end

/-- `Size`. -/
def Size (t : Pot V) : Int := t.size

/-! ## Remove pins the value it removes -/

/-- **`remove` pins the value it removes.**  When the value is not at the pin, `remove`
either returns the pot as it is, or a pot whose pin is the removed value: the node's own pin
is dropped, and the value stays in the pot, whether it was there or not. -/
theorem remove_absent_or_pin (pof : Pof V) (t : Pot V) (v : V)
    (hnf : (pof t.pin (some v) t.po).2 = false) {r : Pot V × Nat × Bool}
    (h : remove pof t v = some r) :
    r = (t, (pof t.pin (some v) t.po).1, false) ∨ r.1.pin = some v := by
  obtain ⟨pin, bins, size, tpo⟩ := t
  rcases hp : pof pin (some v) tpo with ⟨po, found⟩
  simp only [hp] at hnf ⊢
  subst hnf
  simp only [remove, hp, Bool.false_eq_true, if_false] at h
  -- the loop over the bins ends in a panic, at a bin of larger order, or with new bins
  cases hb : removeBins pof v po size bins with
  | none => simp [hb] at h
  | some res =>
    cases res with
    | absent =>
      simp only [hb, Option.some.injEq] at h
      exact .inl h.symm
    | bins bins' size' po' found' =>
      simp only [hb, Option.some.injEq] at h
      exact .inr (by rw [← h])

/-- Removing `0x80` from the pot of `0x00`, where it is not: the pot now holds `0x80` only
and reports it not found. -/
theorem remove_absent_or_pin_byte :
    (DefaultPof (fun b : List UInt8 => b) 8 (some [0x00]) (some [0x80]) 0).2 = false ∧
    remove (DefaultPof (fun b => b) 8) (NewPot (some [0x00]) 0) [0x80] =
      some (⟨some [0x80], [], 1, 0⟩, 0, false) ∧
    values (NewPot (some [0x00]) 0) = [[0x00]] ∧
    values (⟨some [0x80], [], 1, 0⟩ : Pot (List UInt8)) = [[0x80]] ∧
    (((⟨some [0x80], [], 1, 0⟩, 0, false) : Pot (List UInt8) × Nat × Bool) =
        (NewPot (some [0x00]) 0, 0, false) ∨
      (⟨some [0x80], [], 1, 0⟩ : Pot (List UInt8)).pin = some [0x80]) := by
  have hnf : (DefaultPof (fun b : List UInt8 => b) 8 (some [0x00]) (some [0x80]) 0).2 = false := by
    decide
  have h : remove (DefaultPof (fun b => b) 8) (NewPot (some [0x00]) 0) [0x80] =
      some (⟨some [0x80], [], 1, 0⟩, 0, false) := by rfl
  exact ⟨hnf, h, rfl, rfl, remove_absent_or_pin _ (NewPot (some [0x00]) 0) [0x80] hnf h⟩

end Atlantis.Swarm
