import Atlantis.Trie.Codec

/-!
# The hash cache

Every short and full node carries the hash it was last hashed to, if any, and whether it
changed since it was last committed.  The hasher trusts both: a node with a hash is not
hashed again, and a clean one is not stored again.  So the cache has to be right for `Hash`
to compute the root hash and for `Commit` to store the trie.

`Good db root clean n` is the invariant of the cache below a node `n`:
* a cached hash is the Keccak hash of the node's encoding;
* a clean node with a hash is stored under it in the database, and a clean node without one
  is embedded in its parent, its encoding being shorter than a hash;
* a dirty node with a hash is not embedded, except at the root, which is hashed with
  `force`;
* below a clean node every node is clean.

It holds of the nodes `decodeNode` reads from a database that holds only encodings of nodes
under their hashes (`DbOk`).
-/

set_option linter.dupNamespace false

namespace Atlantis.Trie

/-! ## The invariant -/

section Invariant

variable (keccak : List UInt8 → Atlantis.Hash) (db : Database)

/-- The encoding of a node as the hasher computes it. -/
def encoding (n : MemNode) : List UInt8 := (collapse keccak n).toItem.encode

/-- Whether a short or full node changed since it was last committed. -/
def Node.dirty : MemNode → Bool
  | .shortNode _ _ flags => flags.dirty
  | .fullNode _ flags => flags.dirty
  | _ => false

/-- What the flags of a short or full node promise, at the root or below it. -/
def FlagsOk (root : Bool) (n : MemNode) : Prop :=
  match n.cache.1 with
  | some h => h = (keccak (encoding keccak n)).bytes ∧
      (n.dirty = false → db.Node (Hash.ofBytes h) = some (encoding keccak n)) ∧
      (n.dirty = true → root = false → 32 ≤ (encoding keccak n).length)
  | none => n.dirty = false → (encoding keccak n).length < 32 ∧ root = false

/-- The cache invariant below a node at the root or below it, under a clean parent or not. -/
def Good (root clean : Bool) : MemNode → Prop
  | n@(.shortNode _ v flags) =>
    FlagsOk keccak db root n ∧ (clean → flags.dirty = false) ∧ Good false (!flags.dirty) v
  | n@(.fullNode cs flags) =>
    FlagsOk keccak db root n ∧ (clean → flags.dirty = false) ∧
      ∀ i, Good false (!flags.dirty) (cs i)
  | .hashNode h => h.length = HashLength
  | _ => True

/-- What the database of a trie holds: nothing on disk, the empty blob under the zero hash
of the meta-root, and under any other hash the encoding of a storable node, whose Keccak
hash it is; every blob is one that `log` records.  And the newest node of the flush-list is
cached, as `insert` needs. -/
structure DbOk (log : List (List UInt8)) (db : Database) : Prop where
  disk : ∀ k, db.diskdb k = none
  newest : db.oldest = Hash.zero ∨ db.newest ∈ db.nodes
  zero : ∀ b, db.Node Hash.zero = some b → b = []
  blobs : ∀ h b, db.Node h = some b → h ≠ Hash.zero →
    b ∈ log ∧ keccak b = h ∧ b.length < 2 ^ 64 ∧ ∃ c : CNode, c.Storable ∧ b = c.toItem.encode

end Invariant

/-- The database `db'` holds every blob `db` holds. -/
def Database.Grows (db db' : Database) : Prop :=
  ∀ h b, db.Node h = some b → db'.Node h = some b

theorem Database.Grows.refl (db : Database) : db.Grows db := fun _ _ h => h

theorem Database.Grows.trans {db₁ db₂ db₃ : Database} (h₁ : db₁.Grows db₂) (h₂ : db₂.Grows db₃) :
    db₁.Grows db₃ := fun h b hb => h₂ h b (h₁ h b hb)

section Lemmas

variable {keccak : List UInt8 → Atlantis.Hash} {db : Database}

theorem FlagsOk.congr {r : Bool} {n n' : MemNode} (h : FlagsOk keccak db r n)
    (hc : n'.cache.1 = n.cache.1) (hd : n'.dirty = n.dirty)
    (he : (collapse keccak n').toItem = (collapse keccak n).toItem) : FlagsOk keccak db r n' := by
  unfold FlagsOk encoding at *
  rw [hc, hd, he]
  exact h

theorem FlagsOk.grows {r : Bool} {n : MemNode} {db' : Database} (h : FlagsOk keccak db r n)
    (hg : db.Grows db') : FlagsOk keccak db' r n := by
  cases hh : n.cache.1 <;> simp only [FlagsOk, hh] at h ⊢
  · exact h
  · exact ⟨h.1, fun hd => hg _ _ (h.2.1 hd), h.2.2⟩

theorem Good.grows {db' : Database} (hg : db.Grows db') :
    ∀ {r c : Bool} {n : MemNode}, Good keccak db r c n → Good keccak db' r c n
  | _, _, .shortNode _ _ _, h => ⟨h.1.grows hg, h.2.1, Good.grows hg h.2.2⟩
  | _, _, .fullNode _ _, h => ⟨h.1.grows hg, h.2.1, fun i => Good.grows hg (h.2.2 i)⟩
  | _, _, .nil, _ => trivial
  | _, _, .valueNode _, _ => trivial
  | _, _, .hashNode _, h => h

/-- Below a parent that is not known to be clean less is asked. -/
theorem Good.weaken {r c : Bool} {n : MemNode} (h : Good keccak db r c n) :
    Good keccak db r false n := by
  cases n with
  | shortNode k v flags => exact ⟨h.1, by simp, h.2.2⟩
  | fullNode cs flags => exact ⟨h.1, by simp, h.2.2⟩
  | hashNode _ => exact h
  | _ => trivial

/-- A clean node may sit below any parent. -/
theorem Good.of_clean {r : Bool} {n : MemNode} (h : Good keccak db r true n) (c : Bool) :
    Good keccak db r c n := by
  cases c
  · exact h.weaken
  · exact h

/-- A clean node may sit below a clean parent. -/
theorem Good.clean {r c : Bool} {n : MemNode} (h : Good keccak db r c n) (hd : n.dirty = false) :
    Good keccak db r true n := by
  cases n with
  | shortNode k v flags => exact ⟨h.1, fun _ => hd, h.2.2⟩
  | fullNode cs flags => exact ⟨h.1, fun _ => hd, h.2.2⟩
  | _ => exact h

theorem Good.flagsOk {r c : Bool} {n : MemNode} (h : Good keccak db r c n) (hn : n.isInner) :
    FlagsOk keccak db r n := by
  cases n with
  | shortNode k v flags => exact h.1
  | fullNode cs flags => exact h.1
  | _ => simp [Node.isInner] at hn

/-- A node just made, with a fresh flag, asks nothing of its own flags. -/
theorem good_shortNode_new {r : Bool} {k : Nibbles} {v : MemNode} {gen : UInt16}
    (hv : Good keccak db false false v) : Good keccak db r false (.shortNode k v ⟨none, gen, true⟩) :=
  ⟨by simp [FlagsOk, Node.cache, Node.dirty], by simp, hv⟩

theorem good_fullNode_new {r : Bool} {cs : Fin 17 → MemNode} {gen : UInt16}
    (hcs : ∀ i, Good keccak db false false (cs i)) :
    Good keccak db r false (.fullNode cs ⟨none, gen, true⟩) :=
  ⟨by simp [FlagsOk, Node.cache, Node.dirty], by simp, hcs⟩

end Lemmas

/-! ## The encoding of a node from the references of its children -/

section Refs

variable (keccak : List UInt8 → Atlantis.Hash)

/-- The reference the encoding of a parent holds for a child, other than a value. -/
def childRef (c : MemNode) : CNode :=
  if c.isNil then .valueNode [] else cacheRef keccak false c (collapse keccak c)

/-- A short or full child with a cached hash is referenced by that hash. -/
theorem childRef_of_cache {n : MemNode} (hn : n.isInner) {h : List UInt8} (hc : n.cache.1 = some h) :
    childRef keccak n = .hashNode h := by
  cases n <;> simp [Node.isInner] at hn <;> simp [childRef, Node.isNil, cacheRef, hc]

/-- The encoding of a short node depends on its child only through the child's reference. -/
theorem item_shortNode_congr {k : Nibbles} {v v' : MemNode} (f f' : NodeFlag)
    (hv : ∀ u, v ≠ .valueNode u) (hv' : ∀ u, v' ≠ .valueNode u)
    (h : (childRef keccak v').toItem = (childRef keccak v).toItem) :
    (collapse keccak (.shortNode k v' f')).toItem = (collapse keccak (.shortNode k v f)).toItem := by
  simp only [collapse, Node.toItem]
  rw [shortRef_collapse keccak hv, shortRef_collapse keccak hv']
  exact congrArg (fun x => Rlp.Item.list [.str (hexToCompact k), x]) h

/-- The encoding of a full node depends on its children through their references and on
its value. -/
theorem item_fullNode_congr {cs cs' : Fin 17 → MemNode} (f f' : NodeFlag) (h16 : cs' 16 = cs 16)
    (h : ∀ i, i ≠ 16 → (childRef keccak (cs' i)).toItem = (childRef keccak (cs i)).toItem) :
    (collapse keccak (.fullNode cs' f')).toItem = (collapse keccak (.fullNode cs f)).toItem := by
  simp only [collapse, Node.toItem]
  congr 1
  apply List.map_congr_left
  intro i _
  by_cases hi : i = 16
  · subst hi
    simp [h16]
  · simpa [hi, childRef] using h i hi

theorem storedRef_inner {c : CNode} (hc : c.isInner) (force : Bool) :
    storedRef keccak c force = if c.toItem.encode.length < 32 ∧ !force then c
      else .hashNode (c.cache.1.getD (keccak c.toItem.encode).bytes) := by
  cases c <;> simp [Node.isInner] at hc <;> rfl

theorem toItem_storedRef_congr {c c' : CNode} (hc : c.isInner) (hc' : c'.isInner)
    (hcache : c'.cache.1 = c.cache.1) (he : c'.toItem = c.toItem) (force : Bool) :
    (storedRef keccak c' force).toItem = (storedRef keccak c force).toItem := by
  rw [storedRef_inner keccak hc, storedRef_inner keccak hc', he, hcache]
  split_ifs
  · exact he
  · rfl

theorem isNil_of_isInner {κ : Type} {x : Node κ} (hx : x.isInner) : x.isNil = false := by
  cases x <;> simp [Node.isInner] at hx <;> rfl

theorem isInner_collapse {x : MemNode} (hx : x.isInner) : (collapse keccak x).isInner := by
  cases x <;> simp [Node.isInner] at hx <;> rfl

/-- The reference to a short or full node depends on its cached hash and its encoding. -/
theorem childRef_congr {n n' : MemNode} (hn : n.isInner) (hn' : n'.isInner)
    (hcache : n'.cache.1 = n.cache.1)
    (he : (collapse keccak n').toItem = (collapse keccak n).toItem) :
    (childRef keccak n').toItem = (childRef keccak n).toItem := by
  simp only [childRef, isNil_of_isInner hn, isNil_of_isInner hn', cacheRef, hcache]
  cases hc : n.cache.1 with
  | some h => rfl
  | none =>
    exact toItem_storedRef_congr keccak (isInner_collapse keccak hn) (isInner_collapse keccak hn')
      (by rw [cache_collapse, cache_collapse, hcache]) he false

/-- The encoding of a short node after its child changed to one with the same reference,
a value only when it stayed the same. -/
theorem item_shortNode_of_ref {k : Nibbles} {v v' : MemNode} (f f' : NodeFlag)
    (hval : v'.isValue = v.isValue) (heq : v.isValue → v' = v)
    (h : (childRef keccak v').toItem = (childRef keccak v).toItem) :
    (collapse keccak (.shortNode k v' f')).toItem = (collapse keccak (.shortNode k v f)).toItem := by
  cases hv : v.isValue
  · have hnv : ∀ u, v ≠ .valueNode u := by
      intro u hu
      simp [hu, Node.isValue] at hv
    have hnv' : ∀ u, v' ≠ .valueNode u := by
      intro u hu
      simp [hu, Node.isValue] at hval
    exact item_shortNode_congr keccak f f' hnv hnv' h
  · obtain rfl := heq hv
    rfl

end Refs

/-! ## Decoded nodes -/

section Decoded

variable {keccak : List UInt8 → Atlantis.Hash} {db : Database} (gen : UInt16)

/-- What the hash a node is decoded with promises: the hash of the encoding, stored under it,
or none for a node embedded below the root. -/
def HashFor (keccak : List UInt8 → Atlantis.Hash) (db : Database) (root : Bool) (c : CNode) :
    Option (List UInt8) → Prop
  | some h => h = (keccak c.toItem.encode).bytes ∧ db.Node (Hash.ofBytes h) = some c.toItem.encode
  | none => c.toItem.encode.length < 32 ∧ root = false

/-- The flags of a decoded node: clean, with the hash it was decoded with. -/
theorem flagsOk_decoded {root : Bool} {n : MemNode} {c : CNode} {hash : Option (List UInt8)}
    (hc : n.cache.1 = hash) (hd : n.dirty = false)
    (hitem : (collapse keccak n).toItem = c.toItem) (hh : HashFor keccak db root c hash) :
    FlagsOk keccak db root n := by
  unfold FlagsOk encoding
  rw [hc, hitem]
  cases hash with
  | some h => exact ⟨hh.1, fun _ => hh.2, by simp [hd]⟩
  | none => exact fun _ => hh

theorem good_expandRef {cv : CNode} (hc : RefStorable cv.Storable cv)
    (ih : cv.Storable → ∀ root hash, HashFor keccak db root cv hash →
      Good keccak db root true (expand hash gen cv)) :
    Good keccak db false true (expandRef (expand none gen cv) cv) := by
  cases cv with
  | nil => exact absurd hc.1 (by simp [Node.Storable])
  | valueNode v => trivial
  | hashNode h => exact hc
  | shortNode k v flags => exact ih hc.1 false none ⟨hc.2, rfl⟩
  | fullNode cs flags => exact ih hc.1 false none ⟨hc.2, rfl⟩

/-- **Decoded nodes keep the invariant**: they are clean, hold the hash they were stored
under, and embed only nodes shorter than a hash. -/
theorem good_expand (c : CNode) :
    c.Storable → ∀ root hash, HashFor keccak db root c hash →
      Good keccak db root true (expand hash gen c) := by
  induction c with
  | shortNode ck cv flags ih =>
    intro hc root hash hh
    have hitem := collapse_expand keccak gen (.shortNode ck cv flags) hash hc
    obtain ⟨k, rfl, hk, hch⟩ := hc
    have hkey : (compactToHex (hexToCompact k)).getD [] = k := by
      rw [compactToHex_hexToCompact k hk]
      rfl
    have he : expand hash gen (.shortNode (hexToCompact k) cv flags) =
        .shortNode k (if hasTerm k then .valueNode cv.strOf else expandRef (expand none gen cv) cv)
          ⟨hash, gen, false⟩ := by
      simp only [expand, hkey]
    rw [he] at hitem ⊢
    refine ⟨flagsOk_decoded rfl rfl hitem hh, by simp, ?_⟩
    split
    · trivial
    · next hterm =>
      rw [if_neg hterm] at hch
      exact good_expandRef gen hch (ih · · · )
  | fullNode cs flags ih =>
    intro hc root hash hh
    have hitem := collapse_expand keccak gen (.fullNode cs flags) hash hc
    refine ⟨flagsOk_decoded rfl rfl hitem hh, by simp, fun i => ?_⟩
    dsimp only
    split
    · -- the value slot
      cases cs 16 <;> simp only [valueSlot] <;> (try split_ifs) <;> trivial
    · next hi => exact good_expandRef gen (hc.1 i hi) (ih i · · ·)
  | _ => intro hc; exact absurd hc (by simp [Node.Storable])

/-- A blob the database holds, other than the meta-root's, is a storable encoding. -/
theorem DbOk.node_storable {log : List (List UInt8)} (hdb : DbOk keccak log db)
    {h : Atlantis.Hash} {b : List UInt8} (hn : db.Node h = some b) (hne : b ≠ []) :
    b ∈ log ∧ keccak b = h ∧ b.length < 2 ^ 64 ∧ ∃ c : CNode, c.Storable ∧ b = c.toItem.encode := by
  by_cases hz : h = Hash.zero
  · subst hz
    exact absurd (hdb.zero b hn) hne
  · exact hdb.blobs h b hn hz

/-- A node resolved from the database is the node decoded from a storable encoding stored
under its hash. -/
theorem DbOk.resolve_expand {log : List (List UInt8)} (hdb : DbOk keccak log db) {h : List UInt8}
    {n : MemNode} (hres : db.resolve gen h = some n) :
    ∃ c : CNode, c.Storable ∧ db.Node (Hash.ofBytes h) = some c.toItem.encode ∧
      keccak c.toItem.encode = Hash.ofBytes h ∧ n = expand (some h) gen c := by
  cases hnode : db.Node (Hash.ofBytes h) with
  | none => simp [Database.resolve, hnode] at hres
  | some blob =>
    by_cases hne : blob = []
    · simp [Database.resolve, hnode, hne] at hres
    obtain ⟨-, hk, hsize, c, hc, rfl⟩ := hdb.node_storable hnode hne
    rw [Database.resolve_of_node gen hnode hc hsize, Option.some.injEq] at hres
    exact ⟨c, hc, rfl, hk, hres.symm⟩

/-- **Resolved nodes keep the invariant.** -/
theorem good_resolve {log : List (List UInt8)} (hdb : DbOk keccak log db) {h : List UInt8}
    (hlen : h.length = HashLength) {n : MemNode} (hres : db.resolve gen h = some n) (root : Bool) :
    Good keccak db root true n := by
  obtain ⟨c, hc, hnode, hk, rfl⟩ := hdb.resolve_expand gen hres
  exact good_expand gen c hc root (some h) ⟨by rw [hk, Hash.bytes_ofBytes hlen], hnode⟩

/-- A resolved node holds the hash it was resolved under. -/
theorem cache_resolve {log : List (List UInt8)} (hdb : DbOk keccak log db) {h : List UInt8}
    {n : MemNode} (hres : db.resolve gen h = some n) : n.cache.1 = some h := by
  obtain ⟨c, hc, -, -, rfl⟩ := hdb.resolve_expand gen hres
  cases c <;> simp [Node.Storable] at hc <;> rfl

end Decoded

/-! ## The operations keep the invariant -/

/-- `tryGet` resolves nothing below `nil` or a value. -/
theorem tryGet_leaf (t : Trie) {db : Database} {fuel : Nat} {n : MemNode} (hn : n.isNil ∨ n.isValue) {key : Nibbles}
    {pos : Nat} {r : List UInt8 × MemNode × Bool} (h : t.tryGet db fuel n key pos = .ok r) :
    r.2.2 = false := by
  cases fuel with
  | zero => simp [Trie.tryGet] at h
  | succ fuel =>
    cases n <;> simp [Node.isNil, Node.isValue] at hn <;> simp [Trie.tryGet] at h <;>
      (subst h; rfl)


section Operations

variable {keccak : List UInt8 → Atlantis.Hash} {db : Database} {log : List (List UInt8)}
  (hdb : DbOk keccak log db) (t : Trie)
include hdb

/-- The nodes `insert` and `delete` make are dirty and carry no hash, so they ask nothing
of their flags; below the root, they are under a dirty parent. -/
theorem good_frameInv : FrameInv t db (fun b n => Good keccak db b false n) where
  nil _ := trivial
  short _ _ _ hc := good_shortNode_new hc
  full _ _ hcs := good_fullNode_new hcs
  short_child _ _ _ _ h := h.2.2.weaken
  full_child _ _ _ i h := (h.2.2 i).weaken
  resolve _ _ _ _ h hres := (good_resolve t.cachegen hdb h (Trie.resolve_of_resolveHash hres) _).weaken

theorem tryUpdate_good {fuel : Nat} {k v : List UInt8} {t' : Trie}
    (h : t.TryUpdate fuel db k v = .ok t') (hroot : Good keccak db true false t.root) :
    Good keccak db true false t'.root :=
  (good_frameInv hdb t).tryUpdate_frame h hroot fun _ => trivial

theorem tryDelete_good {fuel : Nat} {k : List UInt8} {t' : Trie}
    (h : t.TryDelete fuel db k = .ok t') (hroot : Good keccak db true false t.root) :
    Good keccak db true false t'.root :=
  (good_frameInv hdb t).tryDelete_frame h hroot

/-- **`tryGet` keeps the invariant.**  The node it returns, with the nodes resolved on the
way swapped in, keeps the invariant and the reference to the node it was given, so the
flags of its parent stay right. -/
theorem tryGet_good :
    ∀ (fuel : Nat) {n : MemNode} {m : TrieMap} {p : Nibbles} (key : Nibbles) (pos : Nat)
      {b c : Bool} {r : List UInt8 × MemNode × Bool},
      Wf db n m → KeyMap.TerminatedBelow 16 p m → Good keccak db b c n →
      t.tryGet db fuel n key pos = .ok r →
      Good keccak db b c r.2.1 ∧ r.2.1.isValue = n.isValue ∧ (n.isValue → r.2.1 = n) ∧
        (childRef keccak r.2.1).toItem = (childRef keccak n).toItem
  | 0, _, _, _, _, _, _, _, _, _, _, _, h => by simp [Trie.tryGet] at h
  | fuel + 1, n, m, p, key, pos, b, c, r, hw, hterm, hg, h => by
    cases hw with
    | nil =>
      simp only [Trie.tryGet, Except.ok.injEq] at h
      subst h
      exact ⟨hg, rfl, fun _ => rfl, rfl⟩
    | valueNode hv =>
      simp only [Trie.tryGet, Except.ok.injEq] at h
      subst h
      exact ⟨hg, rfl, fun _ => rfl, rfl⟩
    | shortNode flags hk hc hm =>
      rename_i k v m'
      rw [Trie.tryGet] at h
      split at h
      · cases h
        exact ⟨hg, rfl, fun _ => rfl, rfl⟩
      · obtain ⟨⟨value, nn, d⟩, hget, rfl⟩ := except_map_eq_ok.mp h
        obtain ⟨hg', hval, heq, href⟩ :=
          tryGet_good fuel key _ hc (KeyMap.terminatedBelow_prepend.mp hterm) hg.2.2 hget
        cases d
        · exact ⟨hg, rfl, fun _ => rfl, rfl⟩
        · -- the child resolved below keeps its reference, so the node keeps its encoding
          have hitem := item_shortNode_of_ref keccak (k := k) flags
            { flags with gen := t.cachegen } hval heq href
          exact ⟨⟨hg.1.congr rfl rfl hitem, hg.2.1, hg'⟩, rfl, by simp [Node.isValue],
            childRef_congr keccak rfl rfl rfl hitem⟩
    | fullNode flags hcs htwo =>
      rename_i cs ms
      rw [Trie.tryGet] at h
      split at h
      · cases h
      · next i _ =>
        obtain ⟨⟨value, nn, d⟩, hget, rfl⟩ := except_map_eq_ok.mp h
        cases d
        · exact ⟨hg, rfl, fun _ => rfl, rfl⟩
        · by_cases h16 : i = 16
          · -- the value slot holds no hash node to resolve
            subst h16
            exact absurd (tryGet_leaf t
              ((Wf.fullNode flags hcs htwo).fullNode_shape hterm).1 hget) (by simp)
          · obtain ⟨hg', -, -, href⟩ :=
              tryGet_good fuel key _ (hcs i) (KeyMap.terminatedBelow_branch.mp hterm i) (hg.2.2 i) hget
            have hitem := @item_fullNode_congr keccak cs (Function.update cs i nn) flags
              { flags with gen := t.cachegen } (by simp [Ne.symm h16]) (fun j _ => by
                by_cases hji : j = i
                · subst hji
                  simpa using href
                · simp [hji])
            refine ⟨⟨hg.1.congr rfl rfl hitem, hg.2.1, fun j => ?_⟩, rfl, by simp [Node.isValue],
              childRef_congr keccak rfl rfl rfl hitem⟩
            by_cases hji : j = i
            · subst hji
              simpa using hg'
            · simpa [hji] using hg.2.2 j
    | hashNode hlen hres hwf =>
      rename_i hb
      obtain ⟨child, hch, h⟩ := except_bind_eq_ok.mp h
      obtain ⟨⟨value, nn, d⟩, hget, h⟩ := except_bind_eq_ok.mp h
      cases h
      -- the node resolved keeps the invariant, and its reference is the hash it was stored under
      have hres' := Trie.resolve_of_resolveHash hch
      have hin := Database.resolve_isInner hres'
      obtain ⟨hg', hval, -, href⟩ :=
        tryGet_good fuel key pos (hwf _ _ hres') hterm ((good_resolve t.cachegen hdb hg hres' b).of_clean c) hget
      refine ⟨hg', ?_, fun hv => by simp [Node.isValue] at hv, ?_⟩
      · rw [hval]
        cases child <;> simp_all [Node.isInner, Node.isValue]
      · rw [href]
        simp only [childRef, isNil_of_isInner hin, cacheRef, cache_resolve t.cachegen hdb hres']
        rfl

/-- `TryGet` keeps the invariant of the root. -/
theorem TryGet_good {fuel : Nat} {k : List UInt8} {M : TrieMap} {c : Bool}
    {r : List UInt8 × Trie} (hw : Wf db t.root M) (hterm : KeyMap.TerminatedBelow 16 [] M)
    (hroot : Good keccak db true c t.root) (h : t.TryGet fuel db k = .ok r) :
    Good keccak db true c r.2.root := by
  obtain ⟨⟨v, n, didResolve⟩, hget, rfl⟩ := except_map_eq_ok.mp h
  cases didResolve
  · exact hroot
  · exact (tryGet_good hdb t fuel _ 0 hw hterm hroot hget).1

end Operations

/-! ## Hashing keeps the invariant -/

section Fill

variable (keccak : List UInt8 → Atlantis.Hash)

/-- A node that got the hash its reference computes, with its encoding unchanged, keeps its
reference. -/
theorem childRef_rehashed {n n' : MemNode} (hn : n.isInner) (hn' : n'.isInner)
    (hc' : n'.cache.1 = hashOf (ref keccak false n))
    (hitem : (collapse keccak n').toItem = (collapse keccak n).toItem) :
    (childRef keccak n').toItem = (childRef keccak n).toItem := by
  cases hc : n.cache.1 with
  | some h =>
    -- the hash it had is the hash it keeps
    simp only [ref, cacheRef, hc, hashOf] at hc'
    rw [childRef_of_cache keccak hn hc, childRef_of_cache keccak hn' hc']
  | none =>
    have hin := isInner_collapse keccak hn
    have href : childRef keccak n = storedRef keccak (collapse keccak n) false := by
      simp only [childRef, isNil_of_isInner hn, cacheRef, hc, Bool.false_eq_true, if_false]
    simp only [ref, cacheRef, hc] at hc'
    rw [href, storedRef_inner keccak hin]
    rw [storedRef_inner keccak hin] at hc'
    by_cases hsmall : (collapse keccak n).toItem.encode.length < 32
    · -- still embedded: the node is taken as it is
      have hnone : hashOf (collapse keccak n) = none := by
        cases n <;> simp [Node.isInner] at hn <;> rfl
      rw [if_pos ⟨hsmall, rfl⟩, hnone] at hc'
      rw [if_pos ⟨hsmall, rfl⟩, ← hitem]
      have hin' := isInner_collapse keccak hn'
      simp only [childRef, isNil_of_isInner hn', cacheRef, hc', Bool.false_eq_true, if_false]
      rw [storedRef_inner keccak hin', if_pos ⟨by rw [hitem]; exact hsmall, rfl⟩]
    · -- hashed: the node is replaced by the hash it now holds
      rw [if_neg (by simp [hsmall])] at hc'
      rw [if_neg (by simp [hsmall]), childRef_of_cache keccak hn' hc']

theorem isInner_fill {force : Bool} {n : MemNode} (hn : n.isInner) :
    (fill keccak force n).isInner := by
  cases n with
  | shortNode k v flags => unfold fill; split <;> rfl
  | fullNode cs flags => unfold fill; split <;> rfl
  | _ => simp [Node.isInner] at hn

theorem isValue_fill (force : Bool) (n : MemNode) : (fill keccak force n).isValue = n.isValue := by
  cases n with
  | shortNode k v flags => unfold fill; split <;> rfl
  | fullNode cs flags => unfold fill; split <;> rfl
  | _ => rfl

/-- **Hashing keeps encodings**: the copy `fill` returns encodes as the node, and holds the
same reference. -/
theorem item_fill (n : MemNode) :
    ∀ force, (collapse keccak (fill keccak force n)).toItem = (collapse keccak n).toItem ∧
      (childRef keccak (fill keccak false n)).toItem = (childRef keccak n).toItem := by
  induction n with
  | shortNode k v flags ih =>
    intro force
    cases hh : flags.hash with
    | some h => simp [fill, hh]
    | none =>
      have hitem : ∀ f, (collapse keccak (fill keccak f (.shortNode k v flags))).toItem =
          (collapse keccak (.shortNode k v flags)).toItem := by
        intro f
        simp only [fill, hh, Option.isSome_none, Bool.false_eq_true, if_false]
        refine item_shortNode_of_ref keccak _ _ ?_ ?_ ?_
        · cases v <;> simp [shortFill, isValue_fill]
        · intro hv
          cases v <;> simp [Node.isValue] at hv
          rfl
        · cases v <;> simp only [shortFill] <;> first | rfl | exact (ih false).2
      refine ⟨hitem force, childRef_rehashed keccak rfl (isInner_fill keccak rfl) ?_ (hitem false)⟩
      simp [fill, hh, Node.cache]
  | fullNode cs flags ih =>
    intro force
    cases hh : flags.hash with
    | some h => simp [fill, hh]
    | none =>
      have hitem : ∀ f, (collapse keccak (fill keccak f (.fullNode cs flags))).toItem =
          (collapse keccak (.fullNode cs flags)).toItem := by
        intro f
        simp only [fill, hh, Option.isSome_none, Bool.false_eq_true, if_false]
        refine item_fullNode_congr keccak _ _ (by simp) fun i hi => ?_
        by_cases hnil : (cs i).isNil
        · simp [hnil]
        · simpa [hi, hnil] using (ih i false).2
      refine ⟨hitem force, childRef_rehashed keccak rfl (isInner_fill keccak rfl) ?_ (hitem false)⟩
      simp [fill, hh, Node.cache]
  | _ => intro force; exact ⟨rfl, rfl⟩

/-- A node without a hash that gets the hash its reference computes, with its encoding and
its dirty flag unchanged, keeps its flags right: a clean node without a hash is embedded
below the root, so it still gets none. -/
theorem flagsOk_rehashed {db : Database} {b : Bool} {n n' : MemNode} (hn : n.isInner)
    (hc : n.cache.1 = none) (hfl : FlagsOk keccak db b n)
    (hc' : n'.cache.1 = hashOf (ref keccak b n)) (hd : n'.dirty = n.dirty)
    (hitem : (collapse keccak n').toItem = (collapse keccak n).toItem) :
    FlagsOk keccak db b n' := by
  have hin := isInner_collapse keccak hn
  have hnc : (collapse keccak n).cache.1 = none := by rw [cache_collapse]; exact hc
  simp only [FlagsOk, hc] at hfl
  simp only [ref, cacheRef, hc, storedRef_inner keccak hin, hnc, Option.getD_none] at hc'
  unfold FlagsOk
  rw [hc', hd]
  simp only [encoding, hitem]
  split_ifs with hsmall
  · -- still embedded: no hash, and embedded only below the root
    have hnone : hashOf (collapse keccak n) = none := by
      cases n <;> simp [Node.isInner] at hn <;> rfl
    rw [hnone]
    intro _
    exact ⟨hsmall.1, by simpa using hsmall.2⟩
  · -- hashed: forced at the root, or too long to embed
    refine ⟨rfl, fun hd' => absurd ⟨(hfl hd').1, by simp [(hfl hd').2]⟩ hsmall, ?_⟩
    intro _ hb
    subst hb
    simp only [Bool.not_false, and_true, not_lt] at hsmall
    exact hsmall

/-- **Hashing keeps the invariant**: a node without a hash gets the hash of its encoding,
which below the root is the hash of an encoding too long to embed. -/
theorem good_fill {db : Database} (n : MemNode) :
    ∀ {b c : Bool}, Good keccak db b c n → Good keccak db b c (fill keccak b n) := by
  induction n with
  | shortNode k v flags ih =>
    intro b c hg
    cases hh : flags.hash with
    | some h => simpa [fill, hh] using hg
    | none =>
      have hitem := (item_fill keccak (.shortNode k v flags) b).1
      have hfill : fill keccak b (.shortNode k v flags) = .shortNode k
          (shortFill v (fill keccak false v))
          { flags with hash := hashOf (ref keccak b (.shortNode k v flags)) } := by
        simp [fill, hh]
      rw [hfill] at hitem ⊢
      refine ⟨flagsOk_rehashed keccak rfl (by simpa [Node.cache] using hh) hg.1 rfl rfl hitem,
        hg.2.1, ?_⟩
      cases v <;> first | exact hg.2.2 | exact ih hg.2.2
  | fullNode cs flags ih =>
    intro b c hg
    cases hh : flags.hash with
    | some h => simpa [fill, hh] using hg
    | none =>
      have hitem := (item_fill keccak (.fullNode cs flags) b).1
      have hfill : fill keccak b (.fullNode cs flags) = .fullNode
          (fun i => if i = 16 ∨ (cs i).isNil then cs i else fill keccak false (cs i))
          { flags with hash := hashOf (ref keccak b (.fullNode cs flags)) } := by
        simp [fill, hh]
      rw [hfill] at hitem ⊢
      refine ⟨flagsOk_rehashed keccak rfl (by simpa [Node.cache] using hh) hg.1 rfl rfl hitem,
        hg.2.1, fun i => ?_⟩
      dsimp only
      split
      · exact hg.2.2 i
      · exact ih i (hg.2.2 i)
  | _ => intro b c hg; exact hg

/-- **Hashing keeps the map**: `fill` only changes flags. -/
theorem Wf.fill {db : Database} {n : MemNode} {m : TrieMap} (hw : Wf db n m) :
    ∀ force, Wf db (fill keccak force n) m := by
  induction hw with
  | nil => exact fun _ => .nil
  | valueNode hv => exact fun _ => .valueNode hv
  | hashNode hlen hres hwf => exact fun _ => .hashNode hlen hres hwf
  | shortNode flags hk hc hm ih =>
    rename_i k c m'
    intro force
    unfold Trie.fill
    split
    · exact .shortNode flags hk hc hm
    · refine .shortNode _ hk ?_ hm
      cases c <;> first | exact hc | exact ih false
  | fullNode flags hcs htwo ih =>
    intro force
    unfold Trie.fill
    split
    · exact .fullNode flags hcs htwo
    · refine .fullNode _ (fun i => ?_) htwo
      split
      · exact hcs i
      · exact ih i false

/-- The reference the root is hashed to is a hash. -/
theorem ref_true_hashNode {n : MemNode} (hn : n.isNil = false) :
    ∃ b, ref keccak true n = .hashNode b := by
  unfold ref cacheRef
  split
  · exact ⟨_, rfl⟩
  · cases n with
    | nil => simp [Node.isNil] at hn
    | hashNode b => exact ⟨b, rfl⟩
    | valueNode v => simp [collapse, storedRef, asCollapsed, Node.mapKey]
    | shortNode k v flags => simp [collapse, storedRef]
    | fullNode cs flags => simp [collapse, storedRef]

/-- **`Hash`** returns the trie with the root replaced by its copy with the hashes cached. -/
theorem Hash_fill {db : Database} {M : TrieMap} (t : Trie) (hw : Wf db t.root M) :
    ∃ h, t.Hash keccak = some (h, { t with root := fill keccak true t.root }) := by
  by_cases hnil : t.root.isNil
  · have hr : t.root = .nil := by
      cases h : t.root <;> simp_all [Node.isNil]
    simp [Trie.Hash, Trie.hashRoot, hr, fill]
  · have hnil' := Bool.eq_false_iff.mpr hnil
    obtain ⟨b, hb⟩ := ref_true_hashNode keccak hnil'
    have hh := hash_none keccak ⟨t.cachegen, t.cachelimit, none⟩ [] t.root (hw.hashable hnil') true
    have hroot : t.hashRoot keccak none none =
        some (.hashNode b, fill keccak true t.root, ⟨none, []⟩) := by
      unfold Trie.hashRoot
      cases hr : t.root with
      | nil => simp [hr, Node.isNil] at hnil
      | _ =>
        rw [hr] at hh hb
        simp only [hh, hb]
    simp [Trie.Hash, hroot]

end Fill

end Atlantis.Trie
