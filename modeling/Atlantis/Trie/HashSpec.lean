import Atlantis.Trie.Hasher

/-!
# What the hasher computes

The hasher recurses through the trie and threads a database along; when there is none it
computes a pure function of the node.  This module states that function: `collapse` is
the collapsed form `hashChildren` builds (the children replaced by their references),
`ref` the reference `hash` returns (the cached hash, or what `store` makes of the
collapsed form), and `fill` the copy of the node with the hashes cached.  `hash_none`
shows that `hash` without a database returns exactly these.
-/

set_option linter.dupNamespace false

namespace Atlantis.Trie

/-- The hash a node is replaced by, if it is one. -/
def hashOf : CNode → Option (List UInt8)
  | .hashNode b => some b
  | _ => none

/-- The loop of `hashChildren` over the children `0..15` of a full node: each child that is
not nil is hashed, the collapsed copy gets its reference and the cached copy its cached
form. -/
theorem foldlM_children {σ : Type} (step : (Fin 17 → CNode) × (Fin 17 → MemNode) × σ →
      Fin 17 → Option ((Fin 17 → CNode) × (Fin 17 → MemNode) × σ))
    (F : Fin 17 → CNode) (G b₀ : Fin 17 → MemNode) (s : σ)
    (hstep : ∀ i, i ≠ 16 → ∀ a b, b i = b₀ i →
      step (a, b, s) i = some (Function.update a i (F i), Function.update b i (G i), s)) :
    ∀ (l : List (Fin 17)) (a : Fin 17 → CNode) (b : Fin 17 → MemNode), l.Nodup →
      (∀ i ∈ l, i ≠ 16 ∧ b i = b₀ i) →
      l.foldlM step (a, b, s) =
        some (fun i => if i ∈ l then F i else a i, fun i => if i ∈ l then G i else b i, s)
  | [], a, b, _, _ => by simp
  | i :: l, a, b, hnd, hb => by
    obtain ⟨hi16, hbi⟩ := hb i (by simp)
    rw [List.foldlM_cons, hstep i hi16 a b hbi, Option.bind_eq_bind, Option.bind_some]
    have hi : i ∉ l := (List.nodup_cons.mp hnd).1
    rw [foldlM_children step F G b₀ s hstep l _ _ (List.nodup_cons.mp hnd).2 (fun j hj => by
      have hji : j ≠ i := fun h => hi (h ▸ hj)
      rw [Function.update_of_ne hji]
      exact hb j (by simp [hj]))]
    simp only [Option.some.injEq, Prod.mk.injEq, and_true]
    constructor <;> funext j <;> by_cases hj : j = i <;> simp [hj, hi]

section Spec

variable (keccak : List UInt8 → Atlantis.Hash)

/-- What `store` returns when there is no database: a hash node for a node whose encoding
is at least 32 bytes long, or for any node when `force` (its cached hash when it has one),
and the node itself otherwise. -/
def storedRef (c : CNode) (force : Bool) : CNode :=
  match c with
  | .nil => c
  | .hashNode _ => c
  | _ =>
    if c.toItem.encode.length < 32 ∧ !force then c
    else .hashNode (c.cache.1.getD (keccak c.toItem.encode).bytes)

/-- The reference `hash` returns for a node whose collapsed form is `c`: the cached hash,
or what `store` makes of `c`. -/
def cacheRef (force : Bool) (n : MemNode) (c : CNode) : CNode :=
  match n.cache.1 with
  | some h => .hashNode h
  | none => storedRef keccak c force

/-- The reference a short node holds for its child whose collapsed form is `c`: a value
is kept as it is. -/
def shortRef (v : MemNode) (c : CNode) : CNode :=
  match v with
  | .valueNode _ => asCollapsed v
  | _ => cacheRef keccak false v c

/-- The collapsed form of a node built by `hashChildren`: the keys of short nodes in
compact form, the children replaced by their references, absent children by empty
values. -/
def collapse : MemNode → CNode
  | .shortNode k v flags =>
    let cv := shortRef keccak v (collapse v)
    .shortNode (hexToCompact k) (if cv.isNil then .valueNode [] else cv) flags
  | .fullNode cs flags =>
    .fullNode (fun i =>
      if i = 16 then (if (cs 16).isNil then .valueNode [] else asCollapsed (cs 16))
      else if (cs i).isNil then .valueNode []
      else cacheRef keccak false (cs i) (collapse (cs i))) flags
  | n => asCollapsed n

/-- The reference `hash` returns for a node. -/
def ref (force : Bool) (n : MemNode) : CNode := cacheRef keccak force n (collapse keccak n)

/-- The cached copy a short node holds for its child whose cached copy is `m`: a value is
kept as it is. -/
def shortFill (v m : MemNode) : MemNode :=
  match v with
  | .valueNode _ => v
  | _ => m

/-- The copy of a node `hash` returns when there is no database: below every node without
a cached hash, the hashes it computed are cached. -/
def fill (force : Bool) : MemNode → MemNode
  | .shortNode k v flags =>
    if flags.hash.isSome then .shortNode k v flags
    else
      .shortNode k (shortFill v (fill false v))
        { flags with hash := hashOf (ref keccak force (.shortNode k v flags)) }
  | .fullNode cs flags =>
    if flags.hash.isSome then .fullNode cs flags
    else
      .fullNode (fun i => if i = 16 ∨ (cs i).isNil then cs i else fill false (cs i))
        { flags with hash := hashOf (ref keccak force (.fullNode cs flags)) }
  | n => n

theorem storedRef_of_ne {c : CNode} (hn : c.isNil = false) (hh : ∀ b, c ≠ .hashNode b)
    (force : Bool) :
    storedRef keccak c force = if c.toItem.encode.length < 32 ∧ !force then c
      else .hashNode (c.cache.1.getD (keccak c.toItem.encode).bytes) := by
  cases c with
  | nil => simp [Node.isNil] at hn
  | hashNode b => exact absurd rfl (hh b)
  | _ => rfl

theorem shortRef_of_ne {v : MemNode} (hv : ∀ u, v ≠ .valueNode u) (c : CNode) :
    shortRef keccak v c = cacheRef keccak false v c := by
  cases v <;> first | rfl | exact absurd rfl (hv _)

theorem shortFill_of_ne {v : MemNode} (hv : ∀ u, v ≠ .valueNode u) (m : MemNode) :
    shortFill v m = m := by
  cases v <;> first | rfl | exact absurd rfl (hv _)

end Spec

/-- The nodes `hash` accepts: every short node has a child. -/
def Node.Hashable : MemNode → Prop
  | .nil => False
  | .shortNode _ v _ => v.Hashable
  | .fullNode cs _ => ∀ i, i ≠ 16 → (cs i).isNil ∨ (cs i).Hashable
  | _ => True

theorem mem_childIndices {i : Fin 17} : i ∈ childIndices ↔ i ≠ 16 := by
  revert i
  decide

theorem nodup_childIndices : childIndices.Nodup := by decide

section Spec

variable (keccak : List UInt8 → Atlantis.Hash)

/-- The children of the collapsed full node after the loop of `hashChildren` and the value
slot. -/
theorem update_children_collapse (cs : Fin 17 → MemNode) :
    Function.update (fun i => if i ∈ childIndices then
          (if (cs i).isNil then .valueNode [] else ref keccak false (cs i))
        else asCollapsed (cs i)) 16
        (if (cs 16).isNil then .valueNode [] else asCollapsed (cs 16)) =
      fun i => if i = 16 then (if (cs 16).isNil then .valueNode [] else asCollapsed (cs 16))
        else if (cs i).isNil then .valueNode []
        else cacheRef keccak false (cs i) (collapse keccak (cs i)) := by
  funext i
  by_cases hi : i = 16
  · subst hi
    simp
  · simp [hi, mem_childIndices, ref]

/-- The children of the cached full node after the loop of `hashChildren`. -/
theorem children_fill (cs : Fin 17 → MemNode) (G : MemNode → MemNode) :
    (fun i => if i ∈ childIndices then (if (cs i).isNil then cs i else G (cs i)) else cs i) =
      fun i => if i = 16 ∨ (cs i).isNil then cs i else G (cs i) := by
  funext i
  by_cases hi : i = 16
  · subst hi
    simp [mem_childIndices]
  · simp [hi, mem_childIndices]

theorem store_none (hs : Hasher) (c : CNode) (w : List (Atlantis.Hash × List UInt8))
    (force : Bool) : store keccak hs c ⟨none, w⟩ force = some (storedRef keccak c force, ⟨none, w⟩) := by
  cases c with
  | nil => rfl
  | hashNode h => rfl
  | _ =>
    simp only [store, storedRef]
    split <;> rfl

/-- Without a database the flags keep the hash of the reference, and their dirty mark. -/
theorem storedFlags_none (flags : NodeFlag) (c : CNode) (w : List (Atlantis.Hash × List UInt8)) :
    storedFlags flags c ⟨none, w⟩ = { flags with hash := hashOf c } := by
  cases c <;> rfl

/-- **Hashing without a database** computes the reference of the node and the copy with
the hashes cached, and writes nothing. -/
theorem hash_none (hs : Hasher) (w : List (Atlantis.Hash × List UInt8)) :
    ∀ (n : MemNode), n.Hashable → ∀ force,
      hash keccak hs n ⟨none, w⟩ force = some (ref keccak force n, fill keccak force n, ⟨none, w⟩)
  | .nil, h, _ => h.elim
  | .valueNode v, _, force => by
    simp [hash, store_none, ref, cacheRef, collapse, asCollapsed, Node.mapKey, Node.cache, fill]
  | .hashNode h, _, force => by
    simp [hash, store_none, ref, cacheRef, collapse, asCollapsed, Node.mapKey, Node.cache, fill,
      storedRef]
  | .shortNode k v flags, hv, force => by
    cases hh : flags.hash with
    | some b =>
      simp [hash, cacheShortcut, Node.cache, hh, ref, cacheRef, fill]
    | none =>
      -- the child is hashed first, unless it is a value
      have ih := hash_none hs w v hv false
      cases v
      case nil => exact hv.elim
      case valueNode u =>
        simp only [hash, cacheShortcut, Node.cache, hh, Option.bind_some, store_none,
          Option.map_some, ref, cacheRef, collapse, fill, storedFlags, shortRef, shortFill,
          Bool.false_eq_true, if_false, Option.isSome, hashOf]
        rfl
      all_goals
        rw [hash]
        simp only [cacheShortcut, Node.cache, hh]
        rw [ih]
        simp only [Option.bind_some, store_none, Option.map_some, ref, cacheRef, Node.cache, hh,
          collapse, fill, shortRef, shortFill, Bool.false_eq_true, if_false,
          storedFlags, Option.isSome, hashOf]
        rfl
        -- the side condition of the equation: the child is not a value
        intro _ _ h
        cases h
  | .fullNode cs flags, hcs, force => by
    cases hh : flags.hash with
    | some b =>
      simp [hash, cacheShortcut, Node.cache, hh, ref, cacheRef, fill]
    | none =>
      -- the children `0..15` are hashed in turn, by the loop of `hash` itself
      simp only [hash, cacheShortcut, Node.cache, hh]
      rw [foldlM_children _
        (fun i => if (cs i).isNil then .valueNode [] else ref keccak false (cs i))
        (fun i => if (cs i).isNil then cs i else fill keccak false (cs i)) cs (⟨none, w⟩ : HashState) ?hstep
        childIndices (fun i => asCollapsed (cs i)) cs nodup_childIndices
        (fun i hi => ⟨mem_childIndices.mp hi, rfl⟩)]
      case hstep =>
        intro i hi a b hb
        by_cases hn : (cs i).isNil
        · simp only [hn, if_true]
          congr
          rw [← hb, Function.update_eq_self]
        · simp only [hn, if_false, Bool.false_eq_true]
          rcases hcs i hi with h | h
          · exact absurd h hn
          · rw [hash_none hs w (cs i) h false]
            rfl
      simp only [Option.bind_some, store_none, Option.map_some]
      rw [update_children_collapse, children_fill]
      simp only [ref, cacheRef, Node.cache, hh, collapse, fill, storedFlags_none,
        Bool.false_eq_true, if_false, Option.isSome]

end Spec

end Atlantis.Trie
