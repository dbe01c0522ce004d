import Atlantis.Trie.Update
import Atlantis.Trie.HashSpec
import Atlantis.Trie.Frame

/-!
# History independence

A trie that only `TryUpdate` and `TryDelete` have touched holds no hash node and no cached
hash: no hasher has seen it.  On such tries the canonical form `Wf` determines a node, up to
the flags of its nodes, from the map it holds (`Wf.eraseFlags_eq`), and the root hash that
`Hash` computes does not read the flags (`rootHash_eraseFlags`).  So two runs of writes from
the empty trie that leave the same map build the same trie up to flags, with the same root
hash; and every trie they build has the shape the source's comments call canonical
(`Wf.canonical`).
-/

set_option linter.dupNamespace false

namespace Atlantis.Trie

/-! ## Nodes up to their flags -/

namespace Node

variable {κ : Type}

/-- The flag `eraseFlags` gives every node. -/
def erasedFlag : NodeFlag := ⟨none, 0, false⟩

/-- The node with the flags of all its nodes reset: its shape, keys and values. -/
def eraseFlags : Node κ → Node κ
  | .fullNode cs _ => .fullNode (fun i => (cs i).eraseFlags) erasedFlag
  | .shortNode k v _ => .shortNode k v.eraseFlags erasedFlag
  | n => n

/-- A node no hasher has seen: no hash node and no cached hash in it. -/
def Unhashed : Node κ → Prop
  | .fullNode cs flags => flags.hash = none ∧ ∀ i, (cs i).Unhashed
  | .shortNode _ v flags => flags.hash = none ∧ v.Unhashed
  | .hashNode _ => False
  | _ => True

/-- Whether the node is a short node. -/
def isShort : Node κ → Bool
  | .shortNode _ _ _ => true
  | _ => false

/-- Whether the node is a value. -/
def isValue : Node κ → Bool
  | .valueNode _ => true
  | _ => false

@[simp] theorem isNil_eraseFlags (n : Node κ) : n.eraseFlags.isNil = n.isNil := by
  cases n <;> rfl

theorem cache_eraseFlags (n : Node κ) : n.eraseFlags.cache.1 = none := by
  cases n <;> rfl

theorem Unhashed.cache {n : Node κ} (h : n.Unhashed) : n.cache.1 = none := by
  cases n <;> simp_all [Unhashed, Node.cache]

theorem eraseFlags_mapKey {κ' : Type} (f : κ → κ') (n : Node κ) :
    (n.mapKey f).eraseFlags = n.eraseFlags.mapKey f := by
  induction n with
  | fullNode cs flags ih =>
    simp only [mapKey, eraseFlags, fullNode.injEq, and_true]
    funext i
    exact ih i
  | shortNode k v flags ih => simp only [mapKey, eraseFlags, ih]
  | _ => rfl

/-- The encoding does not read the flags. -/
@[simp] theorem toItem_eraseFlags (c : CNode) : c.eraseFlags.toItem = c.toItem := by
  induction c with
  | fullNode cs flags ih => simp only [eraseFlags, toItem, ih]
  | shortNode k v flags ih => simp only [eraseFlags, toItem, ih]
  | _ => rfl

end Node

/-! ## The canonical shape -/

/-- The shape of a trie built by insertions and deletions: no hash node; a short node has a
non-empty key and no short node as its child; a full node has at least two children; and a
value sits exactly where a key ends with the terminator `16`, which occurs nowhere else. -/
def Node.Canonical : MemNode → Prop
  | .nil => True
  | .valueNode _ => True
  | .hashNode _ => False
  | .shortNode k c _ =>
    k ≠ [] ∧ c.isShort = false ∧
      (if c.isValue then KeyMap.Terminated 16 k else (16 : Nibble) ∉ k) ∧ c.Canonical
  | .fullNode cs _ =>
    (∃ i j, i ≠ j ∧ (cs i).isNil = false ∧ (cs j).isNil = false) ∧
      ((cs 16).isNil ∨ (cs 16).isValue) ∧ (∀ i, i ≠ 16 → (cs i).isValue = false) ∧
      ∀ i, (cs i).Canonical

/-- The local shape of the canonical form, which hashed tries have too: a short node has a
non-empty key, and a value sits exactly where a key ends with the terminator `16`, which
occurs nowhere else; a hash node has the length of a hash. -/
def Node.Shaped : MemNode → Prop
  | .nil => True
  | .valueNode _ => True
  | .hashNode h => h.length = HashLength
  | .shortNode k c _ =>
    k ≠ [] ∧ (if c.isValue then KeyMap.Terminated 16 k else (16 : Nibble) ∉ k) ∧ c.Shaped
  | .fullNode cs _ =>
    ((cs 16).isNil ∨ (cs 16).isValue) ∧ (∀ i, i ≠ 16 → (cs i).isValue = false) ∧
      ∀ i, (cs i).Shaped

namespace Wf

variable {db : Database}

/-- A node other than a value holds nothing at its own path: a hash node stands for a short
or full node. -/
theorem apply_nil_eq_none {n : MemNode} {m : TrieMap} (hw : Wf db n m)
    (hv : n.isValue = false) : m [] = none := by
  cases hw with
  | nil => rfl
  | valueNode _ => simp [Node.isValue] at hv
  | shortNode _ hk _ _ => exact KeyMap.prepend_eq_none _ (by simpa [List.prefix_nil] using hk)
  | fullNode _ _ _ => rfl
  | hashNode _ hres hwf =>
    obtain ⟨r, hr⟩ := Option.isSome_iff_exists.mp (hres 0)
    exact (hwf 0 r hr).apply_nil_of_isInner (Database.resolve_isInner hr)

/-- The map of a short node has a key that no other one extends. -/
theorem not_branching_of_isShort {n : MemNode} {m : TrieMap} (hw : Wf db n m)
    (hn : n.isShort) : ¬ m.Branching := by
  cases hw with
  | shortNode _ hk _ _ =>
    rename_i k _ _
    obtain ⟨a, k', rfl⟩ := List.exists_cons_of_ne_nil hk
    exact KeyMap.not_branching_prepend_cons a k' _
  | _ => simp [Node.isShort] at hn

theorem eq_single {v : List UInt8} {m : TrieMap} (hw : Wf db (.valueNode v) m) :
    m = KeyMap.single [] v := by
  cases hw
  rfl

/-- Exactly a value holds the empty key. -/
theorem isValue_iff {n : MemNode} {m : TrieMap} (hw : Wf db n m) :
    n.isValue ↔ (m []).isSome := by
  cases hv : n.isValue
  · simp [hw.apply_nil_eq_none hv]
  · cases n <;> simp [Node.isValue] at hv
    simp [hw.eq_single]

theorem isValue_eq {n₁ n₂ : MemNode} {m : TrieMap} (h₁ : Wf db n₁ m) (h₂ : Wf db n₂ m) :
    n₁.isValue = n₂.isValue :=
  Bool.eq_iff_iff.mpr (h₁.isValue_iff.trans h₂.isValue_iff.symm)

theorem isNil_eq {n₁ n₂ : MemNode} {m : TrieMap} (h₁ : Wf db n₁ m) (h₂ : Wf db n₂ m) :
    n₁.isNil = n₂.isNil :=
  Bool.eq_iff_iff.mpr (h₁.eq_empty_iff.symm.trans h₂.eq_empty_iff)

theorem isNil_eq_false {n : MemNode} {m : TrieMap} (hw : Wf db n m) (hm : m.Nonempty) :
    n.isNil = false := by
  rw [← Bool.not_eq_true, ← hw.eq_empty_iff]
  exact KeyMap.nonempty_iff_ne_empty.mp hm

/-- The key of a short node, below a path whose keys all end with the terminator, ends with
the terminator exactly when the node's child is a value, and holds it nowhere else. -/
theorem shortNode_shape {k : Nibbles} {c : MemNode} {f : NodeFlag} {m : TrieMap} {p : Nibbles}
    (hw : Wf db (.shortNode k c f) m) (hterm : KeyMap.TerminatedBelow 16 p m) :
    if c.isValue then KeyMap.Terminated 16 k else (16 : Nibble) ∉ k := by
  cases hw with
  | shortNode _ hk hc hm =>
    have hterm' := KeyMap.terminatedBelow_prepend.mp hterm
    split
    · -- a value child: the key reaching it ends with the terminator
      next hv =>
      cases c <;> simp [Node.isValue] at hv
      cases hc
      have hkt := hterm' [] (by simp)
      rw [List.append_nil] at hkt
      exact hkt.of_append_right hk
    · -- any other child: a terminator in the key would end every key below it
      next hv =>
      intro h16
      obtain ⟨x, hx⟩ := hm.1
      have hx0 : x = [] := (hterm' x hx).eq_nil_of_mem (by simp [h16])
      subst hx0
      simp [hc.apply_nil_eq_none (by simpa using hv)] at hx

/-- A full node, below a path whose keys all end with the terminator, holds a value at most
at the index `16`. -/
theorem fullNode_shape {cs : Fin 17 → MemNode} {f : NodeFlag} {m : TrieMap} {p : Nibbles}
    (hw : Wf db (.fullNode cs f) m) (hterm : KeyMap.TerminatedBelow 16 p m) :
    ((cs 16).isNil ∨ (cs 16).isValue) ∧ ∀ i, i ≠ 16 → (cs i).isValue = false := by
  cases hw with
  | fullNode _ hcs _ =>
    have hterm' := KeyMap.terminatedBelow_branch.mp hterm
    constructor
    · -- below the index 16 only the empty key is left, which only a value holds
      cases hnil : (cs 16).isNil
      · right
        obtain ⟨x, hx⟩ := (hcs 16).nonempty hnil
        have hx0 : x = [] := (hterm' 16).eq_nil_of_terminator hx
        subst hx0
        by_contra hv
        simp [(hcs 16).apply_nil_eq_none (by simpa using hv)] at hx
      · exact Or.inl rfl
    · -- a value below another index would end a key without the terminator
      intro i hi
      cases hv : (cs i).isValue
      · rfl
      · cases hci : cs i <;> simp [hci, Node.isValue] at hv
        have hms := (hci ▸ hcs i).eq_single
        have hit := hterm' i [] (by simp [hms])
        rw [List.append_nil] at hit
        exact absurd hit.eq_of_append_singleton hi

/-- **Canonical form.**  An unhashed well-formed node whose keys, below the path `p`, all end
with the terminator has the canonical shape. -/
theorem canonical {n : MemNode} {m : TrieMap} {p : Nibbles} (hw : Wf db n m) (hu : n.Unhashed)
    (hterm : KeyMap.TerminatedBelow 16 p m) : n.Canonical := by
  induction hw generalizing p with
  | nil => trivial
  | valueNode _ => trivial
  | hashNode _ _ _ _ => exact hu.elim
  | shortNode flags hk hc hm ih =>
    rename_i k c m'
    refine ⟨hk, ?_, (Wf.shortNode flags hk hc hm).shortNode_shape hterm,
      ih hu.2 (KeyMap.terminatedBelow_prepend.mp hterm)⟩
    -- a short child would absorb the key of this node
    cases hs : c.isShort
    · rfl
    · exact absurd hm (hc.not_branching_of_isShort hs)
  | fullNode flags hcs htwo ih =>
    obtain ⟨h16, hval⟩ := (Wf.fullNode flags hcs htwo).fullNode_shape hterm
    refine ⟨?_, h16, hval, fun i => ih i (hu.2 i) (KeyMap.terminatedBelow_branch.mp hterm i)⟩
    obtain ⟨i, j, hij, hi, hj⟩ := htwo
    exact ⟨i, j, hij, (hcs i).isNil_eq_false hi, (hcs j).isNil_eq_false hj⟩

/-- **The shape of hashed tries.**  A well-formed node whose keys, below the path `p`, all
end with the terminator has the local shape of the canonical form, whether hashed or not. -/
theorem shaped {n : MemNode} {m : TrieMap} {p : Nibbles} (hw : Wf db n m)
    (hterm : KeyMap.TerminatedBelow 16 p m) : n.Shaped := by
  induction hw generalizing p with
  | nil => trivial
  | valueNode _ => trivial
  | hashNode hlen _ _ _ => exact hlen
  | shortNode flags hk hc hm ih =>
    exact ⟨hk, (Wf.shortNode flags hk hc hm).shortNode_shape hterm,
      ih (KeyMap.terminatedBelow_prepend.mp hterm)⟩
  | fullNode flags hcs htwo ih =>
    obtain ⟨h16, hval⟩ := (Wf.fullNode flags hcs htwo).fullNode_shape hterm
    exact ⟨h16, hval, fun i => ih i (KeyMap.terminatedBelow_branch.mp hterm i)⟩

/-- **Uniqueness.**  Unhashed well-formed nodes holding the same map are equal up to their
flags. -/
theorem eraseFlags_eq {n₁ n₂ : MemNode} {m₁ m₂ : TrieMap} (h₁ : Wf db n₁ m₁)
    (h₂ : Wf db n₂ m₂) (hu₁ : n₁.Unhashed) (hu₂ : n₂.Unhashed) (hm : m₁ = m₂) :
    n₁.eraseFlags = n₂.eraseFlags := by
  induction h₁ generalizing n₂ m₂ with
  | nil =>
    -- only nil holds the empty map
    have hn := h₂.eq_empty_iff.mp hm.symm
    cases n₂ <;> simp [Node.isNil] at hn
    rfl
  | hashNode _ _ _ _ => exact hu₁.elim
  | valueNode hv =>
    have h₁' := @Wf.valueNode db _ hv
    cases n₂
    case valueNode w =>
      have h0 := congrFun (hm.trans h₂.eq_single) []
      simp only [KeyMap.single_apply, if_true, Option.some.injEq] at h0
      rw [h0]
    case hashNode => exact hu₂.elim
    -- any other node holds nothing at the empty key
    all_goals exact absurd (isValue_eq h₁' (hm ▸ h₂)) (by simp [Node.isValue])
  | shortNode flags hk hc hb ih =>
    have h₁' := Wf.shortNode flags hk hc hb
    cases n₂
    case shortNode k' c' f' =>
      cases h₂ with
      | shortNode _ _ hc' hb' =>
        obtain ⟨rfl, rfl⟩ := KeyMap.prepend_inj hb hb' hm
        simp only [Node.eraseFlags, ih hc' hu₁.2 hu₂.2 rfl]
    case fullNode cs f =>
      exact absurd (hm ▸ h₂.branching_fullNode) (h₁'.not_branching_of_isShort rfl)
    case hashNode => exact hu₂.elim
    case nil => exact absurd (isNil_eq h₁' (hm ▸ h₂)) (by simp [Node.isNil])
    case valueNode => exact absurd (isValue_eq h₁' (hm ▸ h₂)) (by simp [Node.isValue])
  | fullNode flags hcs htwo ih =>
    have h₁' := Wf.fullNode flags hcs htwo
    cases n₂
    case fullNode cs' f' =>
      cases h₂ with
      | fullNode _ hcs' _ =>
        have hms := KeyMap.branch_inj hm
        simp only [Node.eraseFlags, Node.fullNode.injEq, and_true]
        funext i
        exact ih i (hcs' i) (hu₁.2 i) (hu₂.2 i) (congrFun hms i)
    case shortNode k' c' f' =>
      exact absurd (hm ▸ h₁'.branching_fullNode) (h₂.not_branching_of_isShort rfl)
    case hashNode => exact hu₂.elim
    case nil => exact absurd (isNil_eq h₁' (hm ▸ h₂)) (by simp [Node.isNil])
    case valueNode => exact absurd (isValue_eq h₁' (hm ▸ h₂)) (by simp [Node.isValue])

/-- A well-formed node other than `nil` is one the hasher accepts. -/
theorem hashable {n : MemNode} {m : TrieMap} (hw : Wf db n m) (hn : n.isNil = false) :
    n.Hashable := by
  induction hw with
  | nil => simp [Node.isNil] at hn
  | shortNode _ _ hc hm ih => exact ih (hc.isNil_eq_false hm.1)
  | fullNode flags hcs htwo ih =>
    rename_i cs _
    intro i _
    cases hi : (cs i).isNil with
    | true => exact Or.inl rfl
    | false => exact Or.inr (ih i hi)
  | _ => trivial

end Wf

/-! ## Writes build unhashed nodes -/

section Frame

variable (t : Trie) (db : Database)

/-- No construction of `insert` and `delete` makes a hash node or a cached hash. -/
theorem unhashed_frameInv : FrameInv t db (fun _ n => n.Unhashed) where
  nil _ := trivial
  short _ _ _ hc := ⟨rfl, hc⟩
  full _ _ hcs := ⟨rfl, hcs⟩
  short_child _ _ _ _ h := h.2
  full_child _ _ _ i h := h.2 i
  resolve _ _ _ _ h _ := h.elim

theorem tryUpdate_unhashed {fuel : Nat} {k v : List UInt8} {t' : Trie}
    (h : t.TryUpdate fuel db k v = .ok t') (hu : t.root.Unhashed) : t'.root.Unhashed :=
  (unhashed_frameInv t db).tryUpdate_frame h hu fun _ => trivial

theorem tryDelete_unhashed {fuel : Nat} {k : List UInt8} {t' : Trie}
    (h : t.TryDelete fuel db k = .ok t') (hu : t.root.Unhashed) : t'.root.Unhashed :=
  (unhashed_frameInv t db).tryDelete_frame h hu

end Frame

/-! ## The root hash does not read the flags -/

section RootHash

variable (keccak : List UInt8 → Atlantis.Hash)

theorem cache_collapse (n : MemNode) : (collapse keccak n).cache = n.cache := by
  cases n <;> rfl

theorem storedRef_eraseFlags {c : CNode} (hc : c.cache.1 = none) (force : Bool) :
    storedRef keccak c.eraseFlags force = (storedRef keccak c force).eraseFlags := by
  cases c with
  | nil => rfl
  | hashNode _ => rfl
  | _ =>
    rw [storedRef_of_ne keccak rfl (by simp [Node.eraseFlags]), storedRef_of_ne keccak rfl (by simp),
      Node.toItem_eraseFlags, Node.cache_eraseFlags, hc]
    split_ifs <;> rfl

theorem cacheRef_eraseFlags {n : MemNode} (hn : n.Unhashed) {c : CNode} (hc : c.cache.1 = none)
    (force : Bool) :
    cacheRef keccak force n.eraseFlags c.eraseFlags = (cacheRef keccak force n c).eraseFlags := by
  simp only [cacheRef, Node.cache_eraseFlags, hn.cache, storedRef_eraseFlags keccak hc]

theorem shortRef_eraseFlags {v : MemNode} (hv : v.Unhashed) {c : CNode} (hc : c.cache.1 = none) :
    shortRef keccak v.eraseFlags c.eraseFlags = (shortRef keccak v c).eraseFlags := by
  cases v with
  | valueNode _ => rfl
  | _ => exact cacheRef_eraseFlags keccak hv hc false

/-- **The collapsed form does not read the flags** of an unhashed node. -/
theorem collapse_eraseFlags (n : MemNode) (hu : n.Unhashed) :
    collapse keccak n.eraseFlags = (collapse keccak n).eraseFlags := by
  induction n with
  | shortNode k v flags ih =>
    have hc : (collapse keccak v).cache.1 = none := by rw [cache_collapse]; exact hu.2.cache
    simp only [Node.eraseFlags, collapse, ih hu.2, shortRef_eraseFlags keccak hu.2 hc,
      Node.isNil_eraseFlags]
    split <;> rfl
  | fullNode cs flags ih =>
    simp only [Node.eraseFlags, collapse, Node.fullNode.injEq, and_true]
    funext i
    have hc : (collapse keccak (cs i)).cache.1 = none := by
      rw [cache_collapse]
      exact (hu.2 i).cache
    -- the value slot is taken as it is, the other children by their references
    by_cases h16 : i = 16
    · subst h16
      cases hnil : (cs 16).isNil <;> simp [hnil, asCollapsed, Node.eraseFlags_mapKey, Node.eraseFlags]
    · cases hnil : (cs i).isNil
      · simp [h16, hnil, ih i (hu.2 i), cacheRef_eraseFlags keccak (hu.2 i) hc]
      · simp [h16, hnil, Node.eraseFlags]
  | _ => rfl

/-- The root hash of a trie whose root is unhashed: the hash of the empty trie, or the hash
of the encoding of the collapsed root. -/
def rootHash (n : MemNode) : Atlantis.Hash :=
  if n.isNil then emptyRoot else keccak (collapse keccak n).toItem.encode

theorem rootHash_eraseFlags {n : MemNode} (hu : n.Unhashed) :
    rootHash keccak n.eraseFlags = rootHash keccak n := by
  simp only [rootHash, Node.isNil_eraseFlags, collapse_eraseFlags keccak n hu,
    Node.toItem_eraseFlags]

/-- The reference of an unhashed root is the hash of its collapsed form. -/
theorem ref_true_of_unhashed {n : MemNode} (hu : n.Unhashed) (hn : n.isNil = false) :
    ref keccak true n = .hashNode (keccak (collapse keccak n).toItem.encode).bytes := by
  cases n with
  | nil => simp [Node.isNil] at hn
  | hashNode _ => exact hu.elim
  | valueNode _ => simp [ref, cacheRef, Node.cache, storedRef, collapse, asCollapsed, Node.mapKey]
  | shortNode _ _ _ => simp [ref, cacheRef, hu.1, Node.cache, storedRef, collapse]
  | fullNode _ _ => simp [ref, cacheRef, hu.1, Node.cache, storedRef, collapse]

/-- **`Hash`** of a trie that no hasher has seen returns its root hash. -/
theorem Hash_of_unhashed (t : Trie) (hu : t.root.Unhashed)
    (hh : t.root.isNil = false → t.root.Hashable) :
    ∃ t', t.Hash keccak = some (rootHash keccak t.root, t') := by
  unfold Trie.Hash Trie.hashRoot
  cases hr : t.root with
  | nil => simp [rootHash, Node.isNil]
  | hashNode _ => rw [hr] at hu; exact hu.elim
  | _ =>
    rw [hr] at hu hh
    dsimp only
    rw [hash_none keccak _ [] _ (hh rfl) true, ref_true_of_unhashed keccak hu rfl]
    simp [rootHash, Node.isNil]

end RootHash

/-! ## Runs of writes -/

/-- A write to a trie: `TryUpdate` or `TryDelete`. -/
inductive Write where
  | update (key value : List UInt8)
  | delete (key : List UInt8)

namespace Write

/-- The key a write touches. -/
def key : Write → List UInt8
  | update k _ => k
  | delete k => k

/-- The write performed on a trie, with `fuel` for the recursions of the model. -/
def run (fuel : Nat) (db : Database) (t : Trie) : Write → Except Fault Trie
  | update k v => t.TryUpdate fuel db k v
  | delete k => t.TryDelete fuel db k

/-- What the write does to the map from keys to values: an update with an empty value
removes the key, as a delete does. -/
def apply (r : KeyMap UInt8 (List UInt8)) : Write → KeyMap UInt8 (List UInt8)
  | update k v => r.set k (storedValue v)
  | delete k => r.set k none

end Write

/-- The writes performed in turn; the first that fails ends the run. -/
def runWrites (fuel : Nat) (db : Database) (t : Trie) (ws : List Write) : Except Fault Trie :=
  ws.foldlM (Write.run fuel db) t

/-- The map the writes leave behind, starting from the empty map. -/
def contents (ws : List Write) : KeyMap UInt8 (List UInt8) := ws.foldl Write.apply KeyMap.empty

/-- The invariant of a trie that only writes have touched: its root is unhashed and in
canonical form, and holds the map `r` under the hex keys. -/
def Holds (db : Database) (t : Trie) (r : KeyMap UInt8 (List UInt8)) : Prop :=
  ∃ M, Wf db t.root M ∧ Represents M r ∧ t.root.Unhashed

theorem New_zero (db : Database) : New Hash.zero db = .ok ⟨.nil, Hash.zero, 0, 0⟩ := by
  simp [New]

theorem holds_empty (db : Database) (t : Trie) (h : t.root = .nil) : Holds db t KeyMap.empty :=
  ⟨_, h ▸ .nil, .empty, h ▸ trivial⟩

/-- One write keeps the invariant, with the map changed as the write says. -/
theorem Write.run_holds {db : Database} {t : Trie} {r : KeyMap UInt8 (List UInt8)}
    (h : Holds db t r) (w : Write) {fuel : Nat} (hfuel : 4 * w.key.length + 4 ≤ fuel) :
    ∃ root, w.run fuel db t = .ok { t with root := root } ∧
      Holds db { t with root := root } (w.apply r) := by
  obtain ⟨M, hw, hrep, hu⟩ := h
  cases w with
  | update k v =>
    obtain ⟨root, hrun, hwf⟩ := tryUpdate_spec t db hw hrep.terminatedBelow k v hfuel
    exact ⟨root, hrun, _, hwf, hrep.set k _, tryUpdate_unhashed t db hrun hu⟩
  | delete k =>
    obtain ⟨root, hrun, hwf⟩ := tryDelete_spec t db hw hrep.terminatedBelow k hfuel
    exact ⟨root, hrun, _, hwf, hrep.set k none, tryDelete_unhashed t db hrun hu⟩

/-- A run of writes keeps the invariant, with the map changed by every write in turn. -/
theorem runWrites_holds (fuel : Nat) (db : Database) :
    ∀ (ws : List Write) (t : Trie) {r : KeyMap UInt8 (List UInt8)}, Holds db t r →
      (∀ w ∈ ws, 4 * w.key.length + 4 ≤ fuel) →
      ∃ root, runWrites fuel db t ws = .ok { t with root := root } ∧
        Holds db { t with root := root } (ws.foldl Write.apply r)
  | [], t, _, h, _ => ⟨t.root, rfl, h⟩
  | w :: ws, t, _, h, hfuel => by
    obtain ⟨root, hrun, h'⟩ := w.run_holds h (hfuel w (by simp))
    obtain ⟨root', hrest, h''⟩ := runWrites_holds fuel db ws _ h'
      (fun w' hw' => hfuel w' (by simp [hw']))
    refine ⟨root', ?_, h''⟩
    rw [runWrites, List.foldlM_cons, hrun]
    exact hrest

/-- **History independence.**  Two runs of writes from the empty trie that leave the same
map from keys to values both succeed, with enough fuel for their keys, and build tries that
are equal up to the flags of their nodes, have the same root hash, and are in canonical
form. -/
theorem writes_history_independent (keccak : List UInt8 → Atlantis.Hash) (db : Database)
    (fuel : Nat) (ws₁ ws₂ : List Write) (hfuel : ∀ w ∈ ws₁ ++ ws₂, 4 * w.key.length + 4 ≤ fuel)
    (hsame : contents ws₁ = contents ws₂) :
    ∃ t₁ t₂ : Trie, (New Hash.zero db >>= fun t => runWrites fuel db t ws₁) = .ok t₁ ∧
      (New Hash.zero db >>= fun t => runWrites fuel db t ws₂) = .ok t₂ ∧
      t₁.root.eraseFlags = t₂.root.eraseFlags ∧ t₁ = { t₂ with root := t₁.root } ∧
      (t₁.Hash keccak).map Prod.fst = (t₂.Hash keccak).map Prod.fst ∧ (t₁.Hash keccak).isSome ∧
      t₁.root.Canonical ∧ t₂.root.Canonical := by
  have h₀ := holds_empty db ⟨.nil, Hash.zero, 0, 0⟩ rfl
  obtain ⟨root₁, hrun₁, M₁, hw₁, hrep₁, hu₁⟩ :=
    runWrites_holds fuel db ws₁ _ h₀ (fun w hw => hfuel w (by simp [hw]))
  obtain ⟨root₂, hrun₂, M₂, hw₂, hrep₂, hu₂⟩ :=
    runWrites_holds fuel db ws₂ _ h₀ (fun w hw => hfuel w (by simp [hw]))
  -- the same map, so the same node up to flags
  have hrep₂' : Represents M₂ (contents ws₁) := by
    rw [hsame]
    exact hrep₂
  have hM : M₁ = M₂ := hrep₁.unique hrep₂'
  have herase : root₁.eraseFlags = root₂.eraseFlags := Wf.eraseFlags_eq hw₁ hw₂ hu₁ hu₂ hM
  -- and so the same root hash
  obtain ⟨t₁', hh₁⟩ := Hash_of_unhashed keccak ⟨root₁, Hash.zero, 0, 0⟩ hu₁ hw₁.hashable
  obtain ⟨t₂', hh₂⟩ := Hash_of_unhashed keccak ⟨root₂, Hash.zero, 0, 0⟩ hu₂ hw₂.hashable
  have hroot : rootHash keccak root₁ = rootHash keccak root₂ := by
    rw [← rootHash_eraseFlags keccak hu₁, herase, rootHash_eraseFlags keccak hu₂]
  refine ⟨⟨root₁, Hash.zero, 0, 0⟩, ⟨root₂, Hash.zero, 0, 0⟩, ?_, ?_, herase, rfl, ?_, ?_,
    hw₁.canonical hu₁ hrep₁.terminatedBelow, hw₂.canonical hu₂ hrep₂.terminatedBelow⟩
  · rw [New_zero]
    exact hrun₁
  · rw [New_zero]
    exact hrun₂
  · simp only [hh₁, hh₂, Option.map_some, hroot]
  · simp [hh₁]

/-- Two updates of different keys, in either order. -/
theorem writes_history_independent_swap :
    contents [.update [1] [2], .update [3] [4]] = contents [.update [3] [4], .update [1] [2]] ∧
    ∃ t₁ t₂ : Trie,
      (New Hash.zero (Database.NewDatabase fun _ => none) >>= fun t =>
        runWrites 8 (Database.NewDatabase fun _ => none) t [.update [1] [2], .update [3] [4]]) =
          .ok t₁ ∧
      (New Hash.zero (Database.NewDatabase fun _ => none) >>= fun t =>
        runWrites 8 (Database.NewDatabase fun _ => none) t [.update [3] [4], .update [1] [2]]) =
          .ok t₂ ∧
      t₁.root.eraseFlags = t₂.root.eraseFlags ∧ t₁ = { t₂ with root := t₁.root } ∧
      (t₁.Hash fun _ => Hash.zero).map Prod.fst = (t₂.Hash fun _ => Hash.zero).map Prod.fst ∧
      (t₁.Hash fun _ => Hash.zero).isSome ∧ t₁.root.Canonical ∧ t₂.root.Canonical := by
  have hsame : contents [.update [1] [2], .update [3] [4]] =
      contents [.update [3] [4], .update [1] [2]] := by
    apply KeyMap.ext
    intro k
    simp only [contents, List.foldl, Write.apply, KeyMap.set_apply, KeyMap.empty_apply]
    split_ifs <;> simp_all
  exact ⟨hsame, writes_history_independent (fun _ => Hash.zero) (Database.NewDatabase fun _ => none)
    8 _ _ (by decide) hsame⟩

end Atlantis.Trie
