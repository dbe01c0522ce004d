import Atlantis.Trie.Store

/-!
# Merkle proofs

`trie/proof.go`.  `Prove` walks the trie along a key, collects the short and full nodes on
the way (resolving hash nodes from the trie database), and writes into the proof database
the encoding of each of them that the hasher stores by its hash, and of the root, under
that hash.  `VerifyProof` starts from the root hash, decodes the node stored under it,
walks its embedded nodes along the key with `get`, and goes on with the next hash it meets,
until it finds a value or nothing.

The source's loop in `VerifyProof` has no bound: a proof database whose nodes point back to
each other makes it run forever.  The model bounds it by `fuel`.
-/

set_option linter.dupNamespace false

namespace Atlantis.Trie

/-- The proof database: `Put` when proving, `Get` when verifying. -/
abbrev ProofDb := List UInt8 → Option (List UInt8)

/-- `Put`: the value stored under the key, replacing what was there. -/
def ProofDb.Put (proofDb : ProofDb) (key value : List UInt8) : ProofDb :=
  fun k => if k = key then some value else proofDb k

/-- The loop of `Prove` collecting the nodes on the path to a key, while the key lasts and
the node is not `nil`: a short node whose key the path does not continue ends the walk. -/
def Trie.proveNodes (t : Trie) (db : Database) :
    Nat → MemNode → Nibbles → Except Fault (List MemNode)
  | 0, _, _ => .error .outOfFuel
  | fuel + 1, tn, key =>
    match key, tn with
    | [], _ => .ok []
    | _, .nil => .ok []
    | key, n@(.shortNode k v _) =>
      if key.length < k.length ∨ k ≠ key.take k.length then
        -- The trie doesn't contain the key.
        .ok [n]
      else (t.proveNodes db fuel v (key.drop k.length)).map (n :: ·)
    | i :: rest, n@(.fullNode cs _) => (t.proveNodes db fuel (cs i) rest).map (n :: ·)
    | key, .hashNode h => do
      let tn ← t.resolveHash db h []
      t.proveNodes db fuel tn key
    | _ :: _, .valueNode _ => .error .panic

section Prove

variable (keccak : List UInt8 → Atlantis.Hash)

/-- The loop of `Prove` writing the proof: each node collapsed as `hashChildren` leaves it
without a database, and written under its hash when `store` replaces it by one, the first
node always; the first `fromLevel` such nodes are skipped. -/
def proveStore : List MemNode → Bool → Nat → ProofDb → ProofDb
  | [], _, _, proofDb => proofDb
  | n :: ns, first, fromLevel, proofDb =>
    let enc := (collapse keccak n).toItem.encode
    match hashOf (storedRef keccak (collapse keccak n) false), first with
    | none, false => proveStore ns false fromLevel proofDb
    | hash, _ =>
      if fromLevel > 0 then proveStore ns false (fromLevel - 1) proofDb
      else proveStore ns false fromLevel (proofDb.Put (hash.getD (keccak enc).bytes) enc)

/-- `Prove`, with `fuel` for the walk. -/
def Trie.Prove (fuel : Nat) (t : Trie) (db : Database) (key : List UInt8) (fromLevel : Nat)
    (proofDb : ProofDb) : Except Fault ProofDb :=
  (t.proveNodes db fuel t.root (keybytesToHex key)).map fun nodes =>
    proveStore keccak nodes true fromLevel proofDb

end Prove

/-- `get`: walks the embedded nodes of a decoded node along the key, up to a hash node, a
value or nothing, with the rest of the key; `none` where the source indexes an empty key
and panics. -/
def get : MemNode → Nibbles → Option (Nibbles × MemNode)
  | .shortNode k v _, key =>
    if key.length < k.length ∨ k ≠ key.take k.length then some ([], .nil)
    else get v (key.drop k.length)
  | .fullNode cs _, i :: rest => get (cs i) rest
  | .fullNode _ _, [] => none
  | .hashNode h, key => some (key, .hashNode h)
  | .nil, key => some (key, .nil)
  | .valueNode v, _ => some ([], .valueNode v)

/-- The errors of `VerifyProof`. -/
inductive VerifyError where
  /-- "proof node %d (hash %064x) missing". -/
  | missing (i : Nat) (hash : List UInt8)
  /-- "bad proof node %d: %v". -/
  | badNode (i : Nat) (e : NodeError)
  /-- Where `get` panics. -/
  | panic
  /-- Past the fuel bound of the model. -/
  | outOfFuel

/-- The loop of `VerifyProof` at proof node `i`, looking for the node stored under
`wantHash` and the rest of the key: the value and the number of nodes read. -/
def verifyLoop (proofDb : ProofDb) :
    Nat → Nat → List UInt8 → Nibbles → Except VerifyError (List UInt8 × Nat)
  | 0, _, _, _ => .error .outOfFuel
  | fuel + 1, i, wantHash, key =>
    match proofDb wantHash with
    | none => .error (.missing i wantHash)
    | some buf =>
      match decodeNode (some wantHash) buf 0 with
      | .error e => .error (.badNode i e)
      | .ok n =>
        match get n key with
        | none => .error .panic
        | some (keyrest, .hashNode cld) => verifyLoop proofDb fuel (i + 1) cld keyrest
        | some (_, .valueNode v) => .ok (v, i + 1)
        -- `get` stops only at nothing, a hash or a value: the trie doesn't contain the key
        | some (_, _) => .ok ([], i)

/-- `VerifyProof`, with `fuel` for its loop: the value under the key (empty when the trie
does not hold it) and the number of proof nodes read. -/
def VerifyProof (fuel : Nat) (rootHash : Atlantis.Hash) (key : List UInt8) (proofDb : ProofDb) :
    Except VerifyError (List UInt8 × Nat) :=
  verifyLoop proofDb fuel 0 rootHash.bytes (keybytesToHex key)

/-! ## In-memory tries -/

section Spec

variable (keccak : List UInt8 → Atlantis.Hash)

/-- The hash cached in a node is the Keccak hash of its encoding, which below the root is at
least 32 bytes long: the node is referenced by that hash. -/
def CacheOk (root : Bool) (n : MemNode) : Prop :=
  ∀ h, n.cache.1 = some h →
    h = (keccak (encoding keccak n)).bytes ∧ (root = false → 32 ≤ (encoding keccak n).length)

/-- The in-memory tries `Prove` walks: no hash nodes, and every cached hash right, as the
hasher leaves them. -/
def HashesOk (root : Bool) : MemNode → Prop
  | n@(.shortNode _ v _) => CacheOk keccak root n ∧ HashesOk false v
  | n@(.fullNode cs _) => CacheOk keccak root n ∧ ∀ i, HashesOk false (cs i)
  | .hashNode _ => False
  | _ => True

/-- The nodes on the path to a key in an in-memory trie, as `Prove` collects them. -/
def nodesOn : MemNode → Nibbles → List MemNode
  | _, [] => []
  | n@(.shortNode k v _), key =>
    if key.length < k.length ∨ k ≠ key.take k.length then [n]
    else n :: nodesOn v (key.drop k.length)
  | n@(.fullNode cs _), i :: rest => n :: nodesOn (cs i) rest
  | _, _ => []

variable {keccak}

theorem HashesOk.cacheOk {r : Bool} {n : MemNode} (h : HashesOk keccak r n) (hn : n.isInner) :
    CacheOk keccak r n := by
  cases n <;> simp [Node.isInner] at hn
  · exact h.1
  · exact h.1

/-- Right cached hashes are 32 bytes long. -/
theorem HashesOk.hashLen {r : Bool} {n : MemNode} (h : HashesOk keccak r n) : n.HashLen := by
  induction n generalizing r with
  | shortNode k v flags ih =>
    refine ⟨fun b hb => ?_, ih h.2⟩
    rw [(h.1 b hb).1]
    exact (keccak _).length_bytes
  | fullNode cs flags ih =>
    refine ⟨fun b hb => ?_, fun i => ih i (h.2 i)⟩
    rw [(h.1 b hb).1]
    exact (keccak _).length_bytes
  | hashNode _ => exact h.elim
  | nil => trivial
  | valueNode _ => trivial

/-- A node with right cached hashes is written under the hash of its encoding, and by its
hash exactly when the encoding takes at least 32 bytes. -/
theorem storedRef_collapse {r : Bool} {n : MemNode} (hn : n.isInner) (hok : CacheOk keccak r n) :
    storedRef keccak (collapse keccak n) false =
      if (encoding keccak n).length < 32 then collapse keccak n
      else .hashNode (keccak (encoding keccak n)).bytes := by
  rw [storedRef_inner keccak (isInner_collapse keccak hn), cache_collapse]
  by_cases hs : (encoding keccak n).length < 32
  · simp only [encoding] at hs
    simp [hs, encoding]
  · simp only [encoding] at hs
    simp only [hs, false_and, if_false, encoding]
    cases hc : n.cache.1 with
    | none => rfl
    | some h => rw [Option.getD_some, (hok h hc).1, encoding]

/-- **A child below the root is referenced** by its collapsed form when small, by the hash
of its encoding otherwise. -/
theorem childRef_of_hashesOk {v : MemNode} (hv : v.isInner) (hok : CacheOk keccak false v) :
    childRef keccak v =
      if (encoding keccak v).length < 32 then collapse keccak v
      else .hashNode (keccak (encoding keccak v)).bytes := by
  rw [childRef, if_neg (by simp [isNil_of_isInner hv]), cacheRef]
  cases hc : v.cache.1 with
  | none => exact storedRef_collapse hv hok
  | some h =>
    obtain ⟨rfl, hbig⟩ := hok h hc
    rw [if_neg (by have := hbig rfl; omega)]

/-- **The root is referenced by the hash of its encoding.** -/
theorem ref_true_of_hashesOk {n : MemNode} (hn : n.isInner) (hok : CacheOk keccak true n) :
    ref keccak true n = .hashNode (keccak (encoding keccak n)).bytes := by
  rw [ref, cacheRef]
  cases hc : n.cache.1 with
  | some h => rw [(hok h hc).1]
  | none =>
    rw [storedRef_inner keccak (isInner_collapse keccak hn), cache_collapse, hc]
    simp [encoding]

/-- One node of the proof: written, under the hash of its encoding, when it is the first
or stored by its hash. -/
theorem proveStore_cons {r : Bool} {n : MemNode} (hn : n.isInner) (hok : CacheOk keccak r n)
    (ns : List MemNode) (first : Bool) (proofDb : ProofDb) :
    proveStore keccak (n :: ns) first 0 proofDb =
      proveStore keccak ns false 0
        (if first = true ∨ 32 ≤ (encoding keccak n).length then
          proofDb.Put (keccak (encoding keccak n)).bytes (encoding keccak n)
        else proofDb) := by
  have hst := storedRef_collapse hn hok
  have hc : hashOf (collapse keccak n) = none := by
    cases n <;> simp [Node.isInner] at hn <;> rfl
  simp only [proveStore]
  rw [hst]
  by_cases hsmall : (encoding keccak n).length < 32
  · rw [if_pos hsmall, hc]
    cases first
    · simp [show ¬ 32 ≤ (encoding keccak n).length by omega]
    · simp [encoding]
  · have hbig : 32 ≤ (encoding keccak n).length := by omega
    rw [if_neg hsmall]
    simp only [encoding] at hbig ⊢
    cases first <;> simp [hashOf, hbig]

theorem CacheOk.root {r : Bool} {n : MemNode} (h : CacheOk keccak r n) : CacheOk keccak true n :=
  fun b hb => ⟨(h b hb).1, by simp⟩

/-! ## The proof `Prove` writes -/

/-- A hash cannot be told apart from another with the same bytes. -/
theorem hash_eq_of_bytes {a b : Atlantis.Hash} (h : a.bytes = b.bytes) : a = b := by
  rw [← Hash.ofBytes_bytes a, h, Hash.ofBytes_bytes]

/-- Nothing is written under a key that no node stored by its hash takes. -/
theorem proveStore_of_ne {ns : List MemNode} (hns : ∀ d ∈ ns, d.isInner ∧ CacheOk keccak true d)
    {x : List UInt8} (hx : ∀ d ∈ ns, 32 ≤ (encoding keccak d).length → (keccak (encoding keccak d)).bytes ≠ x)
    (proofDb : ProofDb) : proveStore keccak ns false 0 proofDb x = proofDb x := by
  induction ns generalizing proofDb with
  | nil => rfl
  | cons d ns ih =>
    obtain ⟨hin, hok⟩ := hns d List.mem_cons_self
    rw [proveStore_cons hin hok, ih (fun d' hd' => hns d' (List.mem_cons_of_mem d hd'))
      (fun d' hd' => hx d' (List.mem_cons_of_mem d hd'))]
    by_cases hs : 32 ≤ (encoding keccak d).length
    · have hne := hx d List.mem_cons_self hs
      simp [hs, ProofDb.Put, Ne.symm hne]
    · simp [hs]

/-- **Under the key of a node written**, the proof holds the encoding of a node of the path
with the same hash: the last one written there. -/
theorem proveStore_put {ns : List MemNode} (hns : ∀ d ∈ ns, d.isInner ∧ CacheOk keccak true d)
    (first : Bool) (proofDb : ProofDb) {d : MemNode} (hd : d ∈ ns)
    (hw : (first = true ∧ ns.head? = some d) ∨ 32 ≤ (encoding keccak d).length) :
    ∃ d' ∈ ns, keccak (encoding keccak d') = keccak (encoding keccak d) ∧
      proveStore keccak ns first 0 proofDb (keccak (encoding keccak d)).bytes =
        some (encoding keccak d') := by
  induction ns generalizing first proofDb d with
  | nil => simp at hd
  | cons d₀ ns ih =>
    obtain ⟨hin, hok⟩ := hns d₀ List.mem_cons_self
    have hns' := fun d' hd' => hns d' (List.mem_cons_of_mem d₀ hd')
    rw [proveStore_cons hin hok]
    -- a later node stored under the same key, or this one written last
    by_cases hlater : ∃ d' ∈ ns, 32 ≤ (encoding keccak d').length ∧
        keccak (encoding keccak d') = keccak (encoding keccak d)
    · obtain ⟨d', hd', hbig, heq⟩ := hlater
      obtain ⟨d'', hd'', heq', hget⟩ := ih hns' false _ hd' (Or.inr hbig)
      exact ⟨d'', List.mem_cons_of_mem d₀ hd'', heq'.trans heq, heq ▸ hget⟩
    · push Not at hlater
      have hd₀ : d = d₀ := by
        rcases List.mem_cons.mp hd with rfl | hd
        · rfl
        · rcases hw with ⟨-, hhead⟩ | hbig
          · simpa using hhead.symm
          · exact absurd rfl (hlater d hd hbig)
      subst hd₀
      refine ⟨d, List.mem_cons_self, rfl, ?_⟩
      rw [proveStore_of_ne hns' (fun d' hd' hbig heq => hlater d' hd' hbig
        (hash_eq_of_bytes heq)) _]
      have hput : first = true ∨ 32 ≤ (encoding keccak d).length := by
        rcases hw with ⟨hf, -⟩ | hbig
        · exact Or.inl hf
        · exact Or.inr hbig
      simp [hput, ProofDb.Put]

/-! ## The path to a key -/

theorem nodesOn_shortNode_append {k : Nibbles} (hk : k ≠ []) (v : MemNode) (f : NodeFlag)
    (s : Nibbles) : nodesOn (.shortNode k v f) (k ++ s) = .shortNode k v f :: nodesOn v s := by
  obtain ⟨a, k', rfl⟩ := List.exists_cons_of_ne_nil hk
  simp [nodesOn]

theorem nodesOn_fullNode_cons (cs : Fin 17 → MemNode) (f : NodeFlag) (i : Nibble) (s : Nibbles) :
    nodesOn (.fullNode cs f) (i :: s) = .fullNode cs f :: nodesOn (cs i) s := rfl

/-- A short or full node heads the path from it along a key that is not empty. -/
theorem head_nodesOn {c : MemNode} (hc : c.isInner) {s : Nibbles} (hs : s ≠ []) :
    (nodesOn c s).head? = some c := by
  obtain ⟨a, s', rfl⟩ := List.exists_cons_of_ne_nil hs
  cases c <;> simp [Node.isInner] at hc
  · rfl
  · simp only [nodesOn]
    split <;> rfl

theorem mem_nodesOn_self {c : MemNode} (hc : c.isInner) {s : Nibbles} (hs : s ≠ []) :
    c ∈ nodesOn c s :=
  List.mem_of_mem_head? (head_nodesOn hc hs)

/-- The nodes on the path in a trie with right cached hashes are short or full nodes with
right cached hashes. -/
theorem nodesOn_hashesOk {r : Bool} {n : MemNode} (h : HashesOk keccak r n) (s : Nibbles) :
    ∀ d ∈ nodesOn n s, d.isInner ∧ CacheOk keccak true d := by
  induction n generalizing r s with
  | shortNode k v f ih =>
    intro d hd
    cases s with
    | nil => simp [nodesOn] at hd
    | cons a s =>
      simp only [nodesOn] at hd
      split at hd
      · rw [List.mem_singleton.mp hd]
        exact ⟨rfl, h.1.root⟩
      · rcases List.mem_cons.mp hd with rfl | hd
        · exact ⟨rfl, h.1.root⟩
        · exact ih h.2 _ d hd
  | fullNode cs f ih =>
    intro d hd
    cases s with
    | nil => simp [nodesOn] at hd
    | cons i s =>
      rcases List.mem_cons.mp hd with rfl | hd
      · exact ⟨rfl, h.1.root⟩
      · exact ih i (h.2 i) s d hd
  | nil => intro d hd; cases s <;> simp [nodesOn] at hd
  | valueNode _ => intro d hd; cases s <;> simp [nodesOn] at hd
  | hashNode _ => exact h.elim

/-- A value holds its value at the end of a terminated key only. -/
theorem Wf.value_key {db : Database} {u : List UInt8} {mv : TrieMap} (hw : Wf db (.valueNode u) mv)
    {p s : Nibbles} (hbelow : KeyMap.TerminatedBelow 16 p mv) (hkey : KeyMap.Terminated 16 (p ++ s)) :
    s = [] ∧ mv = KeyMap.single [] u := by
  cases hw with
  | valueNode _ => exact ⟨(hbelow.eq_of_prefix hkey (by simp) (Or.inl List.nil_prefix)).symm, rfl⟩

/-- A key ending at a short or full node is not terminated. -/
theorem Wf.key_ne_nil {db : Database} {c : MemNode} {m : TrieMap} (hw : Wf db c m) (hc : c.isInner)
    {p s : Nibbles} (hbelow : KeyMap.TerminatedBelow 16 p m) (hkey : KeyMap.Terminated 16 (p ++ s)) :
    s ≠ [] := by
  rintro rfl
  exact hw.not_terminated_of_isInner hc hbelow (by simpa using hkey)

/-- A key that does not continue a short node's key is told apart from it. -/
theorem mismatch_of_not_isPrefix {k s : Nibbles} (hpre : ¬ k <+: s) :
    s.length < k.length ∨ k ≠ s.take k.length := by
  by_contra hc
  push Not at hc
  exact hpre (hc.2 ▸ List.take_prefix _ _)

/-- **`Prove` collects the path**: in an in-memory trie, with fuel for every nibble of the
key, its walk returns the nodes on the path to the key. -/
theorem proveNodes_eq (t : Trie) (db : Database) :
    ∀ (fuel : Nat) {n : MemNode} {m : TrieMap} {r : Bool} (pfx s : Nibbles), Wf db n m →
      HashesOk keccak r n → KeyMap.TerminatedBelow 16 pfx m → KeyMap.Terminated 16 (pfx ++ s) →
      s.length < fuel → t.proveNodes db fuel n s = .ok (nodesOn n s)
  | 0, _, _, _, _, _, _, _, _, _, hfuel => absurd hfuel (Nat.not_lt_zero _)
  | fuel + 1, n, m, r, pfx, s, hw, hok, hbelow, hkey, hfuel => by
    cases s with
    | nil => cases n <;> rfl
    | cons a s' =>
      cases hw with
      | nil => rfl
      | valueNode hv =>
        exact absurd ((@Wf.valueNode db _ hv).value_key hbelow hkey).1 (List.cons_ne_nil a s')
      | hashNode _ _ _ => exact hok.elim
      | shortNode flags hk hc hm =>
        rename_i k c m'
        by_cases hpre : k <+: a :: s'
        · obtain ⟨s'', hs⟩ := hpre
          have hchild := proveNodes_eq t db fuel (pfx ++ k) s'' hc hok.2
            (KeyMap.terminatedBelow_prepend.mp hbelow) (by rw [List.append_assoc, hs]; exact hkey)
            (by have := List.length_pos_of_ne_nil hk
                have := congrArg List.length hs
                simp only [List.length_append, List.length_cons] at this hfuel
                omega)
          have hcond : ¬((a :: s').length < k.length ∨ k ≠ (a :: s').take k.length) := by
            rw [← hs]
            simp
          have hdrop : (a :: s').drop k.length = s'' := by
            rw [← hs]
            simp
          simp only [Trie.proveNodes, nodesOn, hcond, if_false, hdrop, hchild]
          rfl
        · have hcond := mismatch_of_not_isPrefix hpre
          simp only [Trie.proveNodes, nodesOn]
          rw [if_pos hcond, if_pos hcond]
      | fullNode flags hcs htwo =>
        rename_i cs ms
        have hchild := proveNodes_eq t db fuel (pfx ++ [a]) s' (hcs a) (hok.2 a)
          (KeyMap.terminatedBelow_branch.mp hbelow a) (by simpa using hkey)
          (by simp only [List.length_cons] at hfuel; omega)
        simp [Trie.proveNodes, nodesOn_fullNode_cons, hchild, Except.map]

/-! ## The walk of `VerifyProof` through a decoded node -/

/-- A short node decoded from its encoding: its key, and its value or the reference to its
child read back. -/
theorem expand_collapse_shortNode {k : Nibbles} {v : MemNode} (hk : (16 : Nibble) ∉ k.dropLast)
    (hterm : hasTerm k = v.isValue) (flags : NodeFlag) (hash : Option (List UInt8)) (gen : UInt16) :
    expand hash gen (collapse keccak (.shortNode k v flags)) =
      .shortNode k (if v.isValue then v
        else expandRef (expand none gen (childRef keccak v)) (childRef keccak v)) ⟨hash, gen, false⟩ := by
  have hkey : (compactToHex (hexToCompact k)).getD [] = k := by
    rw [compactToHex_hexToCompact k hk]
    rfl
  simp only [collapse, expand, hkey, hterm]
  cases hv : v.isValue
  · have hnv : ∀ u, v ≠ .valueNode u := by
      intro u hu
      simp [hu, Node.isValue] at hv
    have href := shortRef_collapse keccak hnv
    simp only at href
    simp only [Bool.false_eq_true, if_false, href]
    rfl
  · cases v <;> simp [Node.isValue] at hv
    rfl

/-- A full node decoded from its encoding: the references to its children read back, and
its value. -/
theorem expand_collapse_fullNode (cs : Fin 17 → MemNode) (flags : NodeFlag)
    (hash : Option (List UInt8)) (gen : UInt16) :
    expand hash gen (collapse keccak (.fullNode cs flags)) =
      .fullNode (fun i => if i = 16 then valueSlot (if (cs 16).isNil then .valueNode [] else asCollapsed (cs 16))
        else expandRef (expand none gen (childRef keccak (cs i))) (childRef keccak (cs i)))
        ⟨hash, gen, false⟩ := by
  simp only [collapse, expand]
  congr 1
  funext i
  by_cases hi : i = 16
  · subst hi
    simp
  · simp [hi, childRef]

section Walk

variable (keccak) (db : Database)

/-- Where `VerifyProof` stands: at an in-memory short or full node `c` on the path, holding
`m` below the path `pfx`, with `s` the rest of the key. -/
structure At (root : Bool) (c : MemNode) (m : TrieMap) (pfx s : Nibbles) : Prop where
  wf : Wf db c m
  inner : c.isInner
  hashes : HashesOk keccak root c
  below : KeyMap.TerminatedBelow 16 pfx m
  key : KeyMap.Terminated 16 (pfx ++ s)

/-- The node `d` below `c` where the walk along `s` from `c` goes on with `rest`: stored by
its hash, on the path, and holding there what `c` holds at `s`. -/
structure Next (c : MemNode) (m : TrieMap) (pfx s : Nibbles) (d : MemNode) (rest : Nibbles) :
    Prop where
  here : ∃ md pfx', At keccak db false d md pfx' rest ∧ pfx ++ s = pfx' ++ rest ∧
    pfx.length < pfx'.length ∧ m s = md rest
  big : 32 ≤ (encoding keccak d).length
  path : nodesOn d rest <:+ nodesOn c s

/-- What `get` may find walking a node decoded from `c` along `s`: what `m` holds at `s`, or
the hash of the node below where the walk goes on. -/
def Walked (c : MemNode) (m : TrieMap) (pfx s : Nibbles) (found : Option (Nibbles × MemNode)) :
    Prop :=
  (∃ rest, found = some (rest, (m s).elim .nil .valueNode)) ∨
    ∃ d rest, found = some (rest, .hashNode (keccak (encoding keccak d)).bytes) ∧
      Next keccak db c m pfx s d rest

variable {keccak} {db}

/-- `get` at nothing or at a value finds what the node holds. -/
theorem get_leaf {n : MemNode} {mn : TrieMap} (hw : Wf db n mn) (hn : n.isNil ∨ n.isValue)
    {p s : Nibbles} (hbelow : KeyMap.TerminatedBelow 16 p mn) (hkey : KeyMap.Terminated 16 (p ++ s)) :
    ∃ rest, get n s = some (rest, (mn s).elim .nil .valueNode) := by
  cases hw with
  | nil => exact ⟨s, by simp [get]⟩
  | valueNode hv =>
    obtain ⟨rfl, -⟩ := (@Wf.valueNode db _ hv).value_key hbelow hkey
    exact ⟨[], by simp [get]⟩
  | _ => simp [Node.isNil, Node.isValue] at hn

/-- A walk from a child, `q` below `c`, is a walk from `c`. -/
theorem Next.lift {c v d : MemNode} {m mv : TrieMap} {pfx q s rest : Nibbles}
    (h : Next keccak db v mv (pfx ++ q) s d rest) (hq : q ≠ []) (hm : m (q ++ s) = mv s)
    (hpath : nodesOn c (q ++ s) = c :: nodesOn v s) : Next keccak db c m pfx (q ++ s) d rest := by
  obtain ⟨⟨md, pfx', hat, hkey, hlen, hmd⟩, hbig, hsuf⟩ := h
  refine ⟨⟨md, pfx', hat, by rw [← List.append_assoc, hkey], ?_, by rw [hm, hmd]⟩, hbig, ?_⟩
  · have := List.length_pos_of_ne_nil hq
    simp only [List.length_append] at hlen
    omega
  · rw [hpath]
    exact hsuf.trans (List.suffix_cons c _)

theorem expandRef_inner {c : CNode} (hc : c.isInner) (e : MemNode) : expandRef e c = e := by
  cases c <;> simp [Node.isInner] at hc <;> rfl

/-- **The reference to a short or full child read back**: the child embedded, whose walk
goes on, or its hash, under which it is stored. -/
theorem walked_child_inner {c v : MemNode} {m mv : TrieMap} {pfx q s : Nibbles} (gen : UInt16)
    (hwv : Wf db v mv) (hin : v.isInner) (hok : HashesOk keccak false v)
    (hbelow : KeyMap.TerminatedBelow 16 (pfx ++ q) mv)
    (hkey : KeyMap.Terminated 16 (pfx ++ q ++ s)) (hq : q ≠ []) (hm : m (q ++ s) = mv s)
    (hpath : nodesOn c (q ++ s) = c :: nodesOn v s)
    (ih : Walked keccak db v mv (pfx ++ q) s (get (expand none gen (collapse keccak v)) s)) :
    Walked keccak db c m pfx (q ++ s)
      (get (expandRef (expand none gen (childRef keccak v)) (childRef keccak v)) s) := by
  rw [childRef_of_hashesOk hin (hok.cacheOk hin)]
  split
  · -- embedded in its parent: the walk goes on inside it
    rw [expandRef_inner (isInner_collapse keccak hin)]
    rcases ih with ⟨rest, hr⟩ | ⟨d, rest, hr, hnext⟩
    · exact Or.inl ⟨rest, by rw [hr, hm]⟩
    · exact Or.inr ⟨d, rest, hr, hnext.lift hq hm hpath⟩
  · -- stored by its hash: the walk stops at it
    next hbig =>
    refine Or.inr ⟨v, s, rfl, ⟨⟨mv, pfx ++ q, ⟨hwv, hin, hok, hbelow, hkey⟩, by simp, ?_, hm⟩,
      by omega, ?_⟩⟩
    · have := List.length_pos_of_ne_nil hq
      simp only [List.length_append]
      omega
    · rw [hpath]
      exact List.suffix_cons c _

/-- **The reference to a child read back**: nothing, or as `walked_child_inner` says. -/
theorem walked_child {c v : MemNode} {m mv : TrieMap} {pfx q s : Nibbles} (gen : UInt16)
    (hwv : Wf db v mv) (hok : HashesOk keccak false v) (hv : v.isValue = false)
    (hbelow : KeyMap.TerminatedBelow 16 (pfx ++ q) mv)
    (hkey : KeyMap.Terminated 16 (pfx ++ q ++ s)) (hq : q ≠ []) (hm : m (q ++ s) = mv s)
    (hpath : nodesOn c (q ++ s) = c :: nodesOn v s)
    (ih : v.isInner → Walked keccak db v mv (pfx ++ q) s (get (expand none gen (collapse keccak v)) s)) :
    Walked keccak db c m pfx (q ++ s)
      (get (expandRef (expand none gen (childRef keccak v)) (childRef keccak v)) s) := by
  cases hwv with
  | nil =>
    left
    exact ⟨s, by simp [childRef, Node.isNil, expandRef, get, hm]⟩
  | valueNode _ => simp [Node.isValue] at hv
  | hashNode _ _ _ => exact hok.elim
  | shortNode flags hk hc hmb =>
    exact walked_child_inner gen (.shortNode flags hk hc hmb) rfl hok hbelow hkey hq hm hpath (ih rfl)
  | fullNode flags hcs htwo =>
    exact walked_child_inner gen (.fullNode flags hcs htwo) rfl hok hbelow hkey hq hm hpath (ih rfl)

theorem valueSlot_leaf (c : CNode) : (valueSlot c).isNil ∨ (valueSlot c).isValue := by
  cases c with
  | valueNode v =>
    by_cases hv : 0 < v.length
    · simp [valueSlot, hv, Node.isValue]
    · simp [valueSlot, hv, Node.isNil]
  | _ => simp [valueSlot, Node.isNil]

/-- **What `get` finds in a decoded node**: walking the node `VerifyProof` decodes from the
encoding of an in-memory node along the rest of the key finds what the node holds there, or
the hash of the node below, stored by its hash, where the walk goes on. -/
theorem walked_get {c : MemNode} {m : TrieMap} (hw : Wf db c m) :
    ∀ {r : Bool} {pfx s : Nibbles}, HashesOk keccak r c → c.isInner →
      KeyMap.TerminatedBelow 16 pfx m → KeyMap.Terminated 16 (pfx ++ s) →
      ∀ hash gen, Walked keccak db c m pfx s (get (expand hash gen (collapse keccak c)) s) := by
  induction hw with
  | nil => intro _ _ _ _ hin; simp [Node.isInner] at hin
  | valueNode _ => intro _ _ _ _ hin; simp [Node.isInner] at hin
  | hashNode _ _ _ _ => intro _ _ _ hok; exact hok.elim
  | shortNode flags hk hc hm ih =>
    rename_i k v m'
    intro r pfx s hok _ hbelow hkey hash gen
    obtain ⟨-, hkv, -⟩ := (Wf.shortNode flags hk hc hm).shaped hbelow
    obtain ⟨hdrop, hterm⟩ := shaped_key hkv
    rw [expand_collapse_shortNode hdrop hterm]
    by_cases hpre : k <+: s
    · -- the path goes through the short node into its child
      obtain ⟨s', rfl⟩ := hpre
      have hcond : ¬((k ++ s').length < k.length ∨ k ≠ (k ++ s').take k.length) := by simp
      have hm' : (m'.prepend k) (k ++ s') = m' s' := KeyMap.prepend_append _ _ _
      have hbelow' := KeyMap.terminatedBelow_prepend.mp hbelow
      have hkey' : KeyMap.Terminated 16 (pfx ++ k ++ s') := by
        rw [List.append_assoc]
        exact hkey
      simp only [get, hcond, if_false, List.drop_left]
      cases hv : v.isValue
      · simp only [Bool.false_eq_true, if_false]
        exact walked_child gen hc hok.2 hv hbelow' hkey' hk hm'
          (nodesOn_shortNode_append hk v flags s')
          (fun hin => ih hok.2 hin hbelow' hkey' none gen)
      · simp only [if_true]
        obtain ⟨rest, hr⟩ := get_leaf hc (Or.inr hv) hbelow' hkey'
        exact Or.inl ⟨rest, by rw [hr, hm']⟩
    · -- the path leaves the short node's key: nothing is there
      refine Or.inl ⟨[], ?_⟩
      simp only [get, if_pos (mismatch_of_not_isPrefix hpre), KeyMap.prepend_eq_none _ hpre]
      rfl
  | fullNode flags hcs htwo ih =>
    rename_i cs ms
    intro r pfx s hok hin hbelow hkey hash gen
    obtain ⟨h16, hval, -⟩ := (Wf.fullNode flags hcs htwo).shaped hbelow
    rw [expand_collapse_fullNode]
    cases s with
    | nil => exact absurd rfl ((Wf.fullNode flags hcs htwo).key_ne_nil hin hbelow hkey)
    | cons i s' =>
      have hbelow' := KeyMap.terminatedBelow_branch.mp hbelow i
      have hkey' : KeyMap.Terminated 16 (pfx ++ [i] ++ s') := by simpa using hkey
      have hm' : KeyMap.branch ms ([i] ++ s') = ms i s' := KeyMap.branch_cons _ _ _
      simp only [get]
      by_cases hi : i = 16
      · -- the value slot
        subst hi
        simp only [if_true]
        obtain ⟨rest, hr⟩ := get_leaf (Wf.valueSlot (hcs 16) h16) (valueSlot_leaf _) hbelow' hkey'
        exact Or.inl ⟨rest, by rw [hr]; rfl⟩
      · simp only [hi, if_false]
        exact walked_child gen (hcs i) (hok.2 i) (hval i hi) hbelow' hkey' (List.cons_ne_nil _ _) hm'
          (nodesOn_fullNode_cons cs flags i s')
          (fun hin' => ih i (hok.2 i) hin' hbelow' hkey' none gen)

/-- The walk goes on with a shorter rest of the key. -/
theorem Next.length_lt {c d : MemNode} {m : TrieMap} {pfx s rest : Nibbles}
    (h : Next keccak db c m pfx s d rest) : rest.length < s.length := by
  obtain ⟨⟨_, _, _, hkey, hlen, _⟩, _, _⟩ := h
  have := congrArg List.length hkey
  simp only [List.length_append] at this
  omega

/-- **One round of `VerifyProof`** at a node stored under its hash: it returns what the node
holds at the rest of the key, or goes on at the next node stored by its hash. -/
theorem verifyLoop_step {r : Bool} {c : MemNode} {m : TrieMap} {pfx s : Nibbles}
    (hat : At keccak db r c m pfx s) (hsize : (encoding keccak c).length < 2 ^ 64)
    {proofDb : ProofDb}
    (hdb : proofDb (keccak (encoding keccak c)).bytes = some (encoding keccak c)) (fuel i : Nat) :
    (∃ j, verifyLoop proofDb (fuel + 1) i (keccak (encoding keccak c)).bytes s =
      .ok ((m s).getD [], j)) ∨
    ∃ d rest, verifyLoop proofDb (fuel + 1) i (keccak (encoding keccak c)).bytes s =
      verifyLoop proofDb fuel (i + 1) (keccak (encoding keccak d)).bytes rest ∧
      Next keccak db c m pfx s d rest := by
  have hst : (collapse keccak c).Storable :=
    storable_collapse_of_hashLen c (hat.wf.shaped hat.below) hat.hashes.hashLen hat.inner
  have hdec : decodeNode (some (keccak (encoding keccak c)).bytes) (encoding keccak c) 0 =
      .ok (expand (some (keccak (encoding keccak c)).bytes) 0 (collapse keccak c)) :=
    decodeNode_encode 0 hst hsize _
  rcases walked_get hat.wf hat.hashes hat.inner hat.below hat.key
      (some (keccak (encoding keccak c)).bytes) 0 with ⟨rest, hr⟩ | ⟨d, rest, hr, hnext⟩
  · left
    cases hms : m s with
    | none => exact ⟨i, by simp [verifyLoop, hdb, hdec, hr, hms]⟩
    | some v => exact ⟨i + 1, by simp [verifyLoop, hdb, hdec, hr, hms]⟩
  · exact Or.inr ⟨d, rest, by simp [verifyLoop, hdb, hdec, hr], hnext⟩

/-- **Completeness of the walk**: from a node on the path, with every node of the rest of the
path stored under its hash and fuel for every nibble, `VerifyProof` returns what the node
holds at the rest of the key. -/
theorem verifyLoop_complete {proofDb : ProofDb} :
    ∀ (fuel : Nat) {r : Bool} {c : MemNode} {m : TrieMap} {pfx s : Nibbles} (i : Nat),
      At keccak db r c m pfx s → s.length < fuel →
      (∀ d ∈ nodesOn c s, d = c ∨ 32 ≤ (encoding keccak d).length →
        proofDb (keccak (encoding keccak d)).bytes = some (encoding keccak d)) →
      (∀ d ∈ nodesOn c s, (encoding keccak d).length < 2 ^ 64) →
      ∃ j, verifyLoop proofDb fuel i (keccak (encoding keccak c)).bytes s = .ok ((m s).getD [], j)
  | 0, _, _, _, _, _, _, _, hfuel, _, _ => absurd hfuel (Nat.not_lt_zero _)
  | fuel + 1, r, c, m, pfx, s, i, hat, hfuel, hdb, hsize => by
    have hc := mem_nodesOn_self hat.inner (hat.wf.key_ne_nil hat.inner hat.below hat.key)
    rcases verifyLoop_step hat (hsize c hc) (hdb c hc (Or.inl rfl)) fuel i with
      hdone | ⟨d, rest, hstep, hnext⟩
    · exact hdone
    · have hlt := hnext.length_lt
      obtain ⟨⟨md, pfx', hat', -, -, hmd⟩, hbig, hsuf⟩ := hnext
      -- the nodes from `d` on are on the path from `c`
      obtain ⟨j, hj⟩ := verifyLoop_complete fuel (i + 1) hat' (by omega)
        (fun d' hd' hsel => hdb d' (hsuf.subset hd')
          (Or.inr (hsel.elim (fun h => h ▸ hbig) id)))
        (fun d' hd' => hsize d' (hsuf.subset hd'))
      exact ⟨j, by rw [hstep, hj, hmd]⟩

/-- **Soundness of the walk**: from a node on the path, if whatever the proof holds under the
hash of a node of the rest of the path is that node's encoding, a value `VerifyProof`
returns is what the node holds at the rest of the key. -/
theorem verifyLoop_sound {proofDb : ProofDb} :
    ∀ (fuel : Nat) {r : Bool} {c : MemNode} {m : TrieMap} {pfx s : Nibbles} (i : Nat),
      At keccak db r c m pfx s →
      (∀ d ∈ nodesOn c s, d = c ∨ 32 ≤ (encoding keccak d).length →
        ∀ e, proofDb (keccak (encoding keccak d)).bytes = some e → e = encoding keccak d) →
      (∀ d ∈ nodesOn c s, (encoding keccak d).length < 2 ^ 64) →
      ∀ {v : List UInt8} {j : Nat}, verifyLoop proofDb fuel i (keccak (encoding keccak c)).bytes s =
        .ok (v, j) → v = (m s).getD []
  | 0, _, _, _, _, _, _, _, _, _, _, _, hv => by simp [verifyLoop] at hv
  | fuel + 1, r, c, m, pfx, s, i, hat, hdb, hsize, v, j, hv => by
    have hc := mem_nodesOn_self hat.inner (hat.wf.key_ne_nil hat.inner hat.below hat.key)
    cases he : proofDb (keccak (encoding keccak c)).bytes with
    | none => simp [verifyLoop, he] at hv
    | some e =>
      obtain rfl := hdb c hc (Or.inl rfl) e he
      rcases verifyLoop_step hat (hsize c hc) he fuel i with ⟨j', hj⟩ | ⟨d, rest, hstep, hnext⟩
      · rw [hj] at hv
        cases hv
        rfl
      · obtain ⟨⟨md, pfx', hat', -, -, hmd⟩, hbig, hsuf⟩ := hnext
        rw [hstep] at hv
        rw [hmd]
        exact verifyLoop_sound fuel (i + 1) hat'
          (fun d' hd' hsel => hdb d' (hsuf.subset hd')
            (Or.inr (hsel.elim (fun h => h ▸ hbig) id)))
          (fun d' hd' => hsize d' (hsuf.subset hd')) hv

end Walk

/-! ## Proofs of a trie -/

/-- A trie holding keys of bytes has no value at its root. -/
theorem Wf.isValue_root_false {db : Database} {n : MemNode} {M : TrieMap}
    {r : KeyMap UInt8 (List UInt8)} (hw : Wf db n M) (hrep : Represents M r) : n.isValue = false := by
  cases hw with
  | valueNode hv =>
    obtain ⟨k, hk⟩ := hrep.2 [] (by simp)
    have := congrArg List.length hk
    simp at this
  | _ => rfl

/-- **`Hash` of a trie with right cached hashes** is the hash of the encoding of its root. -/
theorem Hash_of_hashesOk {db : Database} {M : TrieMap} (t : Trie) (hw : Wf db t.root M)
    (hin : t.root.isInner) (hok : HashesOk keccak true t.root) :
    t.Hash keccak = some (keccak (encoding keccak t.root), { t with root := fill keccak true t.root }) := by
  have hh := hash_none keccak ⟨t.cachegen, t.cachelimit, none⟩ [] t.root
    (hw.hashable (isNil_of_isInner hin)) true
  rw [ref_true_of_hashesOk hin (hok.cacheOk hin)] at hh
  unfold Trie.Hash Trie.hashRoot
  cases hr : t.root with
  | nil => rw [hr] at hin; simp [Node.isInner] at hin
  | _ =>
    rw [hr] at hh
    simp only [hh, Hash.ofBytes_bytes]

/-- The walk of `VerifyProof` starts at the root, whose path is the key's. -/
theorem at_root {db : Database} {M : TrieMap} {r : KeyMap UInt8 (List UInt8)} {t : Trie}
    (hw : Wf db t.root M) (hrep : Represents M r) (hok : HashesOk keccak true t.root)
    (hin : t.root.isInner) (key : List UInt8) :
    At keccak db true t.root M [] (keybytesToHex key) :=
  ⟨hw, hin, hok, hrep.terminatedBelow, by simpa using terminated_keybytesToHex key⟩

/-- A trie that is not empty, holds keys of bytes and has no hash nodes has an inner root. -/
theorem isInner_root {db : Database} {M : TrieMap} {r : KeyMap UInt8 (List UInt8)} {n : MemNode}
    (hw : Wf db n M) (hrep : Represents M r) (hok : HashesOk keccak true n) (hne : n.isNil = false) :
    n.isInner := by
  have hval := hw.isValue_root_false hrep
  cases n <;> simp_all [Node.isNil, Node.isValue, Node.isInner, HashesOk]

/-- `Hash` of the empty trie is the empty root. -/
theorem Hash_of_nil {t : Trie} (hr : t.root.isNil) : t.Hash keccak = some (emptyRoot, t) := by
  obtain ⟨root, o, g, l⟩ := t
  cases root <;> simp_all [Node.isNil, Trie.Hash, Trie.hashRoot, Hash.ofBytes_bytes]

/-- **What `Prove` writes.**  The proof of a path holds its root, and every node on it
referenced by its hash, under that hash, when Keccak tells their encodings apart. -/
theorem proveStore_nodesOn {db : Database} {c : MemNode} {m : TrieMap} {pfx s : Nibbles}
    (hat : At keccak db true c m pfx s)
    (hinj : Set.InjOn keccak {b | ∃ d ∈ nodesOn c s, b = encoding keccak d}) (proofDb : ProofDb) :
    ∀ d ∈ nodesOn c s, d = c ∨ 32 ≤ (encoding keccak d).length →
      proveStore keccak (nodesOn c s) true 0 proofDb (keccak (encoding keccak d)).bytes =
        some (encoding keccak d) := by
  intro d hd hsel
  -- the root is written as the head of the list, any other node for its size
  have hw : (true = true ∧ (nodesOn c s).head? = some d) ∨ 32 ≤ (encoding keccak d).length := by
    rcases hsel with rfl | hbig
    · exact Or.inl ⟨rfl, head_nodesOn hat.inner (hat.wf.key_ne_nil hat.inner hat.below hat.key)⟩
    · exact Or.inr hbig
  obtain ⟨d', hd', heq, hget⟩ := proveStore_put (nodesOn_hashesOk hat.hashes s) true proofDb hd hw
  rw [hget, hinj ⟨d', hd', rfl⟩ ⟨d, hd, rfl⟩ heq]

/-- **Nothing verifies against the empty root.**  In a proof database of entries stored under
their hash, the only entry under the empty root is the encoding of the empty string, which
is no node. -/
theorem verifyProof_emptyRoot (hempty : keccak [0x80] = emptyRoot) {proofDb : ProofDb}
    (hstored : ∀ x e, proofDb x = some e → x = (keccak e).bytes)
    (hinj : ∀ x e e', proofDb x = some e → keccak e' = keccak e → e' = e)
    {fuel : Nat} {key : List UInt8} {res : List UInt8 × Nat}
    (hv : VerifyProof fuel emptyRoot key proofDb = .ok res) : False := by
  cases fuel with
  | zero => simp [VerifyProof, verifyLoop] at hv
  | succ fuel =>
    cases he : proofDb emptyRoot.bytes with
    | none => simp [VerifyProof, verifyLoop, he] at hv
    | some e =>
      have he' : [0x80] = e := hinj _ e [0x80] he
        (by rw [hempty]; exact hash_eq_of_bytes (hstored _ e he))
      subst he'
      obtain ⟨err, herr⟩ : ∃ err, decodeNode (some emptyRoot.bytes) [0x80] 0 = .error err :=
        ⟨_, rfl⟩
      simp [VerifyProof, verifyLoop, he, herr] at hv

end Spec

/-- **Merkle proofs of an in-memory trie.**  A trie holding the map `r` from keys to values,
with no hash nodes and every cached hash right (`HashesOk`, as after writes or after
`Hash`), whose nodes on the path to `key` have encodings shorter than `2 ^ 64` bytes:
* `TryGet` returns the value under `key`, empty when there is none;
* when the trie is not empty and Keccak tells apart the encodings of the nodes on the path,
  `Prove` succeeds, and `VerifyProof` of the root hash `Hash` returns from the proof it wrote
  that value;
* when every entry of a proof database is stored under the Keccak hash of its value, and
  Keccak tells each entry apart from any other string (and hashes the empty string's
  encoding to the empty root), a value `VerifyProof` returns from it is that value. -/
theorem merkle_proofs (keccak : List UInt8 → Atlantis.Hash) (t : Trie) (db : Database)
    {M : TrieMap} {r : KeyMap UInt8 (List UInt8)} (hw : Wf db t.root M) (hrep : Represents M r)
    (hok : HashesOk keccak true t.root) (key : List UInt8)
    (hsize : ∀ d ∈ nodesOn t.root (keybytesToHex key), (encoding keccak d).length < 2 ^ 64)
    (fuel : Nat) (hfuel : 4 * key.length + 4 ≤ fuel) :
    (∃ t', t.TryGet fuel db key = .ok ((r key).getD [], t')) ∧
    (t.root.isNil = false →
      Set.InjOn keccak {b | ∃ d ∈ nodesOn t.root (keybytesToHex key), b = encoding keccak d} →
      ∀ proofDb : ProofDb, ∃ proofDb' h t', t.Prove keccak fuel db key 0 proofDb = .ok proofDb' ∧
        t.Hash keccak = some (h, t') ∧ ∃ n, VerifyProof fuel h key proofDb' = .ok ((r key).getD [], n)) ∧
    (keccak [0x80] = emptyRoot → ∀ proofDb : ProofDb,
      (∀ x e, proofDb x = some e → x = (keccak e).bytes) →
      (∀ x e e', proofDb x = some e → keccak e' = keccak e → e' = e) →
      ∀ h t', t.Hash keccak = some (h, t') →
      ∀ fuel' v n, VerifyProof fuel' h key proofDb = .ok (v, n) → v = (r key).getD []) := by
  have hM : M (keybytesToHex key) = r key := hrep.1 key
  refine ⟨?_, ?_, ?_⟩
  · -- `TryGet`
    obtain ⟨root, hget, -⟩ := tryGet_top t db hw hrep.terminatedBelow key hfuel
    exact ⟨_, by rw [hget, hM]⟩
  · -- completeness: `Prove` writes the path, from which the walk reads the value back
    intro hne hinj proofDb
    have hin := isInner_root hw hrep hok hne
    have hat := at_root hw hrep hok hin key
    have hnodes := proveNodes_eq t db fuel [] (keybytesToHex key) hw hok hrep.terminatedBelow
      (by simpa using terminated_keybytesToHex key) (by simp; omega)
    refine ⟨proveStore keccak (nodesOn t.root (keybytesToHex key)) true 0 proofDb, _, _,
      by rw [Trie.Prove, hnodes]; rfl, Hash_of_hashesOk t hw hin hok, ?_⟩
    obtain ⟨j, hj⟩ := verifyLoop_complete fuel 0 hat (by simp; omega)
      (proveStore_nodesOn hat hinj proofDb) hsize
    exact ⟨j, by rw [VerifyProof, hj, hM]⟩
  · -- soundness: the empty root verifies nothing, any other is the walk's
    intro hempty proofDb hstored hinj h t' hh fuel' v n hv
    cases hnil : t.root.isNil with
    | true =>
      rw [Hash_of_nil hnil, Option.some.injEq, Prod.mk.injEq] at hh
      obtain ⟨rfl, -⟩ := hh
      exact (verifyProof_emptyRoot hempty hstored hinj hv).elim
    | false =>
      have hin := isInner_root hw hrep hok hnil
      rw [Hash_of_hashesOk t hw hin hok, Option.some.injEq, Prod.mk.injEq] at hh
      obtain ⟨rfl, -⟩ := hh
      rw [← hM]
      exact verifyLoop_sound fuel' 0 (at_root hw hrep hok hin key)
        (fun d _ _ e he => (hinj _ e _ he (hash_eq_of_bytes (hstored _ e he))).symm)
        hsize hv

/-- Keccak tells apart the encodings of some nodes where it tells apart their hashes. -/
theorem injOn_encodings {keccak : List UInt8 → Atlantis.Hash} {L : List MemNode}
    (h : (L.map fun d => keccak (encoding keccak d)).Nodup) :
    Set.InjOn keccak {b | ∃ d ∈ L, b = encoding keccak d} := by
  rintro _ ⟨d, hd, rfl⟩ _ ⟨e, he, rfl⟩ hde
  rw [List.inj_on_of_nodup_map h hd he hde]

/-- The trie of `0x12` and `0x34` and the key `0x34`, whose leaf the root refers to by its
hash: the proof holds both nodes, and reads back the value. -/
theorem merkle_proofs_twoKeys :
    markHash [0x80] = emptyRoot ∧
    (nodesOn twoKeys (keybytesToHex [0x34])).length = 2 ∧
    Set.InjOn markHash {b | ∃ d ∈ nodesOn twoKeys (keybytesToHex [0x34]), b = encoding markHash d} ∧
    (∃ t', (⟨twoKeys, Hash.zero, 0, 0⟩ : Trie).TryGet 8 (Database.NewDatabase fun _ => none) [0x34] =
      .ok ((((KeyMap.single [0x12] [5]).set [0x34] (some longValue)) [0x34]).getD [], t')) ∧
    (Node.isNil twoKeys = false →
      Set.InjOn markHash {b | ∃ d ∈ nodesOn twoKeys (keybytesToHex [0x34]), b = encoding markHash d} →
      ∀ proofDb : ProofDb, ∃ proofDb' h t',
        (⟨twoKeys, Hash.zero, 0, 0⟩ : Trie).Prove markHash 8 (Database.NewDatabase fun _ => none)
          [0x34] 0 proofDb = .ok proofDb' ∧
        (⟨twoKeys, Hash.zero, 0, 0⟩ : Trie).Hash markHash = some (h, t') ∧
        ∃ n, VerifyProof 8 h [0x34] proofDb' =
          .ok ((((KeyMap.single [0x12] [5]).set [0x34] (some longValue)) [0x34]).getD [], n)) ∧
    (markHash [0x80] = emptyRoot → ∀ proofDb : ProofDb,
      (∀ x e, proofDb x = some e → x = (markHash e).bytes) →
      (∀ x e e', proofDb x = some e → markHash e' = markHash e → e' = e) →
      ∀ h t', (⟨twoKeys, Hash.zero, 0, 0⟩ : Trie).Hash markHash = some (h, t') →
      ∀ fuel' v n, VerifyProof fuel' h [0x34] proofDb = .ok (v, n) →
        v = (((KeyMap.single [0x12] [5]).set [0x34] (some longValue)) [0x34]).getD []) := by
  have hok : HashesOk markHash true twoKeys := by
    refine ⟨fun h hh => by simp [Node.cache] at hh, fun i => ?_⟩
    unfold twoKeysChildren
    split_ifs <;> simp [HashesOk, CacheOk, Node.cache]
  exact ⟨by decide, by decide, injOn_encodings (by decide +kernel),
    merkle_proofs markHash ⟨twoKeys, Hash.zero, 0, 0⟩ _ (wf_twoKeys _) represents_twoKeys hok [0x34]
      (by decide +kernel) 8 (by decide)⟩

/-- The empty trie: `Prove` writes nothing, so `VerifyProof` of its root hash misses the
root node. -/
theorem emptyTrie_proof_missing (keccak : List UInt8 → Atlantis.Hash) (db : Database)
    (key : List UInt8) (fuel : Nat) :
    (⟨.nil, Hash.zero, 0, 0⟩ : Trie).TryGet (fuel + 1) db key = .ok ([], ⟨.nil, Hash.zero, 0, 0⟩) ∧
    (⟨.nil, Hash.zero, 0, 0⟩ : Trie).Prove keccak (fuel + 1) db key 0 (fun _ => none) =
      .ok (fun _ => none) ∧
    (⟨.nil, Hash.zero, 0, 0⟩ : Trie).Hash keccak = some (emptyRoot, ⟨.nil, Hash.zero, 0, 0⟩) ∧
    VerifyProof (fuel + 1) emptyRoot key (fun _ => none) = .error (.missing 0 emptyRoot.bytes) := by
  refine ⟨?_, ?_, ?_, rfl⟩
  · simp [Trie.TryGet, Trie.tryGet, Except.map]
  · cases key <;> rfl
  · exact Hash_of_nil rfl

theorem merkle_proofs_empty :
    (⟨.nil, Hash.zero, 0, 0⟩ : Trie).TryGet 1 (Database.NewDatabase fun _ => none) [1, 2] =
      .ok ([], ⟨.nil, Hash.zero, 0, 0⟩) ∧
    (⟨.nil, Hash.zero, 0, 0⟩ : Trie).Prove (fun _ => emptyRoot) 1
      (Database.NewDatabase fun _ => none) [1, 2] 0 (fun _ => none) = .ok (fun _ => none) ∧
    (⟨.nil, Hash.zero, 0, 0⟩ : Trie).Hash (fun _ => emptyRoot) =
      some (emptyRoot, ⟨.nil, Hash.zero, 0, 0⟩) ∧
    VerifyProof 1 emptyRoot [1, 2] (fun _ => none) = .error (.missing 0 emptyRoot.bytes) :=
  emptyTrie_proof_missing _ _ _ 0

/-! ## Reading back a collapsed node -/

section Decode

variable (keccak : List UInt8 → Atlantis.Hash)

/-- How `decodeNode` reads back, in generation `gen`, the reference `hashChildren` writes for
a child `v` that is not a value: an absent child as absent; a child referenced by a hash as
the hash node of that hash, 32 bytes long; and a child embedded in its parent, whose
encoding is shorter than 32 bytes, as the node decoded from that encoding. -/
def RefDecoded (gen : UInt16) (v d : MemNode) : Prop :=
  (v.isNil ∧ d = .nil) ∨
  (∃ h, h.length = 32 ∧ childRef keccak v = .hashNode h ∧ d = .hashNode h) ∨
  (childRef keccak v = collapse keccak v ∧ (collapse keccak v).toItem.encode.length < 32 ∧
    decodeNode none (collapse keccak v).toItem.encode gen = .ok d)

variable {keccak}

theorem refDecoded_inner {v : MemNode} (hin : v.isInner) (hsh : v.Shaped) (hl : v.HashLen)
    (gen : UInt16) :
    RefDecoded keccak gen v (expandRef (expand none gen (childRef keccak v)) (childRef keccak v)) := by
  have hlen : ∀ h, v.cache.1 = some h → h.length = 32 := by
    cases v <;> simp [Node.isInner] at hin
    · exact hl.1
    · exact hl.1
  have href : childRef keccak v = cacheRef keccak false v (collapse keccak v) := by
    simp only [childRef, isNil_of_isInner hin, Bool.false_eq_true, if_false]
  unfold RefDecoded
  cases hc : v.cache.1 with
  | some h =>
    -- a child with a cached hash is referenced by it
    have hh : childRef keccak v = .hashNode h := by
      rw [href]
      simp [cacheRef, hc]
    exact .inr (.inl ⟨h, hlen h hc, hh, by rw [hh]; rfl⟩)
  | none =>
    rw [href, cacheRef_of_none keccak hc, storedRef_inner keccak (isInner_collapse keccak hin)]
    split_ifs with hs
    · -- small enough to be embedded: the decoder reads the child's own encoding
      have hst : (collapse keccak v).Storable := storable_collapse_of_hashLen v hsh hl hin
      have hexp : expandRef (expand none gen (collapse keccak v)) (collapse keccak v) =
          expand none gen (collapse keccak v) := by
        cases v <;> simp [Node.isInner] at hin <;> rfl
      refine .inr (.inr ⟨rfl, hs.1, ?_⟩)
      rw [decodeNode_encode gen hst (by omega) none, hexp]
    · -- referenced by the hash of its encoding
      refine .inr (.inl ⟨_, ?_, rfl, rfl⟩)
      rw [cache_collapse, hc]
      exact (keccak _).length_bytes

/-- The reference to a child of the canonical shape other than a value reads back as
`RefDecoded` says. -/
theorem refDecoded_childRef {v : MemNode} (hsh : v.Shaped) (hl : v.HashLen) (hv : v.isValue = false)
    (gen : UInt16) :
    RefDecoded keccak gen v (expandRef (expand none gen (childRef keccak v)) (childRef keccak v)) := by
  cases v with
  | nil => exact .inl ⟨rfl, rfl⟩
  | valueNode u => simp [Node.isValue] at hv
  | hashNode h => exact .inr (.inl ⟨h, hl, rfl, rfl⟩)
  | shortNode k w f => exact refDecoded_inner rfl hsh hl gen
  | fullNode cs f => exact refDecoded_inner rfl hsh hl gen

/-- **A collapsed node reads back as the node it was collapsed from**: a short or full node
of the canonical shape, whose cached hashes are 32 bytes long, collapsed by `hashChildren`
and encoded (in fewer than `2 ^ 64` bytes, as RLP sizes are), decodes to a short node with
the same key and the same value, or a full node with the same value bytes, each child read
back as its hash node or as the node decoded from its embedded encoding. -/
theorem decodeNode_collapse (keccak : List UInt8 → Atlantis.Hash) (n : MemNode) (hsh : n.Shaped)
    (hl : n.HashLen) (hin : n.isInner) (hsize : (collapse keccak n).toItem.encode.length < 2 ^ 64)
    (hash : Option (List UInt8)) (gen : UInt16) :
    ∃ d, decodeNode hash (collapse keccak n).toItem.encode gen = .ok d ∧
      match n with
      | .shortNode k v _ => ∃ dv, d = .shortNode k dv ⟨hash, gen, false⟩ ∧
          if v.isValue then dv = v else RefDecoded keccak gen v dv
      | .fullNode cs _ => ∃ dcs, d = .fullNode dcs ⟨hash, gen, false⟩ ∧
          (∀ i, i ≠ 16 → RefDecoded keccak gen (cs i) (dcs i)) ∧
          match cs 16 with
          | .valueNode u => dcs 16 = if u = [] then .nil else .valueNode u
          | _ => dcs 16 = .nil
      | _ => False := by
  have hst : (collapse keccak n).Storable := storable_collapse_of_hashLen n hsh hl hin
  refine ⟨_, decodeNode_encode gen hst hsize hash, ?_⟩
  cases n with
  | shortNode k v flags =>
    obtain ⟨-, hkv, hvs⟩ := hsh
    obtain ⟨hdrop, hterm⟩ := shaped_key hkv
    refine ⟨_, expand_collapse_shortNode hdrop hterm flags hash gen, ?_⟩
    cases hv : v.isValue
    · -- a child other than a value: its reference
      simp only [Bool.false_eq_true, if_false]
      exact refDecoded_childRef hvs hl.2 hv gen
    · -- a value is kept as it is
      simp
  | fullNode cs flags =>
    obtain ⟨h16, hvals, hcs⟩ := hsh
    refine ⟨_, expand_collapse_fullNode cs flags hash gen, fun i hi => ?_, ?_⟩
    · simp only [if_neg hi]
      exact refDecoded_childRef (hcs i) (hl.2 i) (hvals i hi) gen
    · -- the value slot keeps a value that is not empty
      cases hc : cs 16 with
      | nil => simp [valueSlot, Node.isNil]
      | valueNode u =>
        cases u with
        | nil => simp [valueSlot, asCollapsed, Node.mapKey, Node.isNil]
        | cons b bs => simp [valueSlot, asCollapsed, Node.mapKey, Node.isNil]
      | _ => simp [hc, Node.isNil, Node.isValue] at h16
  | _ => simp [Node.isInner] at hin

theorem shaped_twoKeys : twoKeys.Shaped := by
  refine ⟨.inl rfl, fun i hi => ?_, fun i => ?_⟩
  · unfold twoKeysChildren
    split_ifs <;> rfl
  · -- each leaf's key ends in the terminator
    unfold twoKeysChildren
    split_ifs
    · exact ⟨by simp, ⟨[2], rfl, by decide⟩, trivial⟩
    · exact ⟨by simp, ⟨[4], rfl, by decide⟩, trivial⟩
    · trivial

theorem hashLen_twoKeys : twoKeys.HashLen := by
  refine ⟨fun h hh => by simp at hh, fun i => ?_⟩
  unfold twoKeysChildren
  split_ifs
  · exact ⟨fun h hh => by simp at hh, trivial⟩
  · exact ⟨fun h hh => by simp at hh, trivial⟩
  · trivial

/-- The full node of `0x12` and `0x34` reads back with its embedded leaf decoded and its hashed
leaf as a hash node. -/
theorem decodeNode_collapse_twoKeys :
    twoKeys.Shaped ∧ twoKeys.HashLen ∧
    childRef markHash (twoKeysChildren 1) = collapse markHash (twoKeysChildren 1) ∧
    (∃ h, childRef markHash (twoKeysChildren 3) = .hashNode h) ∧
    ∃ d, decodeNode none (collapse markHash twoKeys).toItem.encode 0 = .ok d ∧
      ∃ dcs, d = .fullNode dcs ⟨none, 0, false⟩ ∧
        (∀ i, i ≠ 16 → RefDecoded markHash 0 (twoKeysChildren i) (dcs i)) ∧ dcs 16 = .nil :=
  ⟨shaped_twoKeys, hashLen_twoKeys, rfl, ⟨_, rfl⟩,
    decodeNode_collapse markHash twoKeys shaped_twoKeys hashLen_twoKeys rfl (by decide +kernel)
      none 0⟩

end Decode

end Atlantis.Trie
