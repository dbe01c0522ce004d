import Atlantis.Trie.Trie

/-!
# Hashing and committing tries

`trie/hasher.go` and the hashing part of `trie/trie.go`.  The hasher collapses a trie
bottom-up: every child is replaced by its hash when its RLP encoding is at least 32 bytes
long (and is then written to the database when committing), or else embedded into its
parent.  The root is always hashed.  The in-memory trie gets the computed hashes cached in
its flags, and on commit its clean nodes become hash nodes once they are older than the
cache limit.

Keccak-256 is vendored code (`crypto/sha3`) the model does not embed: it is the parameter
`keccak` of this module.  Besides what the source returns, the hasher returns the list of
the blobs it passed to `Database.insert` with their hashes, a record that lets the
statements about whole runs speak of collisions of `keccak` among the blobs a run wrote.
-/

set_option linter.dupNamespace false

namespace Atlantis.Trie

/-- The collapsed form of a node, whose short nodes hold compact keys. -/
abbrev CNode := Node (List UInt8)

/-- `LeafCallback`: invoked for each value below a node written to the database, with the
hash of that node; it may record references in the database. -/
abbrev LeafCallback := List UInt8 → Hash → Database → Option Database

/-- `hasher`: the cache generation and limit of the trie, and the leaf callback. -/
structure Hasher where
  cachegen : UInt16
  cachelimit : UInt16
  onleaf : Option LeafCallback

/-- What a hashing walk threads along: the database it writes to, absent when it only
computes hashes, and the record of the blobs written so far. -/
structure HashState where
  db : Option Database
  written : List (Hash × List UInt8)

namespace Node

variable {κ κ' : Type}

/-- The same node with every short node's key mapped by `f`. -/
def mapKey (f : κ → κ') : Node κ → Node κ'
  | .nil => .nil
  | .fullNode cs flags => .fullNode (fun i => (cs i).mapKey f) flags
  | .shortNode k v flags => .shortNode (f k) (v.mapKey f) flags
  | .hashNode h => .hashNode h
  | .valueNode v => .valueNode v

end Node

/-- The bytes of a hex key as the source stores them. -/
def nibblesToBytes (k : Nibbles) : List UInt8 := k.map fun n => UInt8.ofNat n.val

/-- An in-memory node taken as it is into a collapsed node; the source shares the node. -/
def asCollapsed (n : MemNode) : CNode := n.mapKey nibblesToBytes

/-- The RLP value the source's encoder makes of a collapsed node: a short node is the list
of its key and value, a full node the list of its seventeen children, a hash or value node
its bytes, and `nil` the empty list. -/
def Node.toItem : CNode → Rlp.Item
  | .nil => .list []
  | .fullNode cs _ => .list ((List.finRange 17).map fun i => (cs i).toItem)
  | .shortNode k v _ => .list [.str k, v.toItem]
  | .hashNode h => .str h
  | .valueNode v => .str v

/-- The hash children of a collapsed node, which `store` records as references. -/
def Node.hashChildren : CNode → List (List UInt8)
  | .shortNode _ (.hashNode c) _ => [c]
  | .fullNode cs _ => childIndices.filterMap fun i =>
      match cs i with
      | .hashNode c => some c
      | _ => none
  | _ => []

/-- The non-empty values of a collapsed node (full nodes: indices `0..15` only), which
`store` passes to the leaf callback. -/
def Node.leaves : CNode → List (List UInt8)
  | .shortNode _ (.valueNode v) _ => if v = [] then [] else [v]
  | .fullNode cs _ => childIndices.filterMap fun i =>
      match cs i with
      | .valueNode v => if v = [] then none else some v
      | _ => none
  | _ => []

section Hashing

variable (keccak : List UInt8 → Atlantis.Hash)

/-- `store`: the hash node standing for a collapsed node whose encoding is at least 32
bytes long (or for any node when `force`), writing the node to the database with its
references when there is one; smaller nodes stay embedded in their parent. -/
def store (h : Hasher) (n : CNode) (st : HashState) (force : Bool) : Option (CNode × HashState) :=
  match n with
  | .nil => some (n, st)
  | .hashNode _ => some (n, st)
  | _ =>
    let enc := n.toItem.encode
    if enc.length < 32 ∧ !force then some (n, st)
    else
      let hashBytes := n.cache.1.getD (keccak enc).bytes
      match st.db with
      | none => some (.hashNode hashBytes, st)
      | some db => do
        let hash := Hash.ofBytes hashBytes
        let db ← db.insert hash enc
        -- Track all direct parent->child node references
        let db ← n.hashChildren.foldlM (fun db c => db.reference (Hash.ofBytes c) hash) db
        -- Track external references from account->storage trie
        let db ← match h.onleaf with
          | none => some db
          | some onleaf => n.leaves.foldlM (fun db leaf => onleaf leaf hash db) db
        some (.hashNode hashBytes, ⟨some db, st.written ++ [(hash, enc)]⟩)

/-- The shortcut at the head of `hash`: a node with a cached hash is that hash when only
hashing, becomes a hash node when it can be unloaded, and is left as it is when clean. -/
def cacheShortcut (h : Hasher) (n : MemNode) (db : Option Database) : Option (CNode × MemNode) :=
  match n.cache with
  | (some hash, dirty) =>
    if db.isNone then some (.hashNode hash, n)
    else if n.canUnload h.cachegen h.cachelimit then some (.hashNode hash, .hashNode hash)
    else if !dirty then some (.hashNode hash, n)
    else none
  | (none, _) => none

/-- The flags of the in-memory copy after storing: the hash when the node was replaced by
one, and clean when committing. -/
def storedFlags (flags : NodeFlag) (hashed : CNode) (st : HashState) : NodeFlag :=
  { flags with
    hash := match hashed with
      | .hashNode b => some b
      | _ => none
    dirty := if st.db.isSome then false else flags.dirty }

/-- `hash` together with `hashChildren`: collapses a node into a hash node (or the
embedded node), and returns the in-memory copy with the hashes of its subtree cached. -/
def hash (h : Hasher) : MemNode → HashState → Bool → Option (CNode × MemNode × HashState)
  -- The source calls `cache` on a nil interface, which panics.
  | .nil, _, _ => none
  | .valueNode v, st, force => (store keccak h (.valueNode v) st force).map
      fun (hashed, st) => (hashed, .valueNode v, st)
  | .hashNode hb, st, force => (store keccak h (.hashNode hb) st force).map
      fun (hashed, st) => (hashed, .hashNode hb, st)
  | n@(.shortNode k v flags), st, force =>
    match cacheShortcut h n st.db with
    | some (hashed, cached) => some (hashed, cached, st)
    | none =>
      -- Hash the short node's child, caching the newly hashed subtree
      let child : Option (CNode × MemNode × HashState) :=
        match v with
        | .valueNode _ => some (asCollapsed v, v, st)
        | _ => hash h v st false
      child.bind fun (cv, mv, st) =>
        let cv : CNode := if cv.isNil then .valueNode [] else cv
        (store keccak h (.shortNode (hexToCompact k) cv flags) st force).map fun (hashed, st') =>
          (hashed, .shortNode k mv (storedFlags flags hashed st), st')
  | n@(.fullNode cs flags), st, force =>
    match cacheShortcut h n st.db with
    | some (hashed, cached) => some (hashed, cached, st)
    | none =>
      -- Hash the full node's children, caching the newly hashed subtrees
      let children := childIndices.foldlM
        (fun (acc : (Fin 17 → CNode) × (Fin 17 → MemNode) × HashState) i =>
          if (cs i).isNil then some (Function.update acc.1 i (.valueNode []), acc.2)
          else (hash h (cs i) acc.2.2 false).map fun (hc, mc, st) =>
            (Function.update acc.1 i hc, Function.update acc.2.1 i mc, st))
        (fun i => asCollapsed (cs i), cs, st)
      children.bind fun (ccs, mcs, st) =>
        let ccs := Function.update ccs 16 (if (cs 16).isNil then .valueNode [] else asCollapsed (cs 16))
        (store keccak h (.fullNode ccs flags) st force).map fun (hashed, st') =>
          (hashed, .fullNode mcs (storedFlags flags hashed st), st')

namespace Trie

/-- `hashRoot`: the empty root for an empty trie, else the forced hash of the root. -/
def hashRoot (t : Trie) (db : Option Database) (onleaf : Option LeafCallback) :
    Option (CNode × MemNode × HashState) :=
  match t.root with
  | .nil => some (.hashNode emptyRoot.bytes, .nil, ⟨db, []⟩)
  | root => hash keccak ⟨t.cachegen, t.cachelimit, onleaf⟩ root ⟨db, []⟩ true

/-- `Hash`: the root hash, with the root node replaced by its copy with the hashes
cached; nothing is written. -/
def Hash (t : Trie) : Option (Atlantis.Hash × Trie) :=
  match t.hashRoot keccak none none with
  | some (.hashNode b, cached, _) => some (Atlantis.Hash.ofBytes b, { t with root := cached })
  | _ => none

/-- `Commit`: writes the trie to the database and starts a new cache generation; also
returns the blobs written. -/
def Commit (t : Trie) (db : Database) (onleaf : Option LeafCallback) :
    Option (Atlantis.Hash × Trie × Database × List (Atlantis.Hash × List UInt8)) :=
  match t.hashRoot keccak (some db) onleaf with
  | some (.hashNode b, cached, st) =>
    some (Atlantis.Hash.ofBytes b, { t with root := cached, cachegen := t.cachegen + 1 },
      st.db.getD db, st.written)
  | _ => none

end Trie

end Hashing

end Atlantis.Trie
