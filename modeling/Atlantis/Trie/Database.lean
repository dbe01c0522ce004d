import Atlantis.Common.Types

/-!
# The trie node database

`trie/database.go`: an intermediate write layer between the tries and the disk database.
Trie commits insert their nodes into an in-memory cache together with the references
between them; the blockchain references the state roots it keeps alive from the zero hash,
the meta-root; `Dereference` garbage collects the nodes that lose their last reference,
`Cap` flushes the oldest nodes to disk, and `Commit` writes a whole trie out and drops it
from the cache.  The cached nodes form a doubly linked list, the flush-list, in insertion
order, threaded through the map by their `flushPrev` and `flushNext` hashes, with the zero
hash as the terminator at both ends.

The source's nodes are pointers and its maps are mutated in place.  Here the maps are
association lists holding the nodes by value, so every mutation of a node is written back
to the map, and every read of a field after a mutation reads the map again.  Reading a
field through a missing map entry is a nil pointer dereference in the source; such
operations return `none`.  The maps iterate in the order of their entries (the source's
maps iterate in an unspecified order).  Writes to the disk database succeed, and the
batches are written through at once; the timing and statistics fields (`gctime`,
`gcnodes`, `flushsize`, …) are left out, since nothing reads them.
-/

namespace Atlantis.Trie

/-- `cachedNode`: the blob of a node, the number of live references to it, the children it
references (with a count, above one only for the meta-root), and its neighbours in the
flush-list. -/
structure CachedNode where
  blob : List UInt8
  parents : Int
  children : AList (fun _ : Hash => Int)
  flushPrev : Hash
  flushNext : Hash

/-- `Database`. The disk database is a key-value store on byte keys. -/
structure Database where
  diskdb : List UInt8 → Option (List UInt8)
  nodes : AList (fun _ : Hash => CachedNode)
  oldest : Hash
  newest : Hash
  preimages : AList (fun _ : Hash => List UInt8)
  nodesSize : Int
  preimagesSize : Int

/-- `secureKeyPrefix`, the bytes of `"secure-key-"`. -/
def secureKeyPrefix : List UInt8 :=
  [0x73, 0x65, 0x63, 0x75, 0x72, 0x65, 0x2d, 0x6b, 0x65, 0x79, 0x2d]

/-- `athdb.IdealBatchSize`. -/
def IdealBatchSize : Int := 100 * 1024

namespace Database

/-- `NewDatabase`: an empty cache holding only the meta-root. -/
def NewDatabase (diskdb : List UInt8 → Option (List UInt8)) : Database where
  diskdb := diskdb
  nodes := AList.singleton Hash.zero ⟨[], 0, ∅, Hash.zero, Hash.zero⟩
  oldest := Hash.zero
  newest := Hash.zero
  preimages := ∅
  nodesSize := 0
  preimagesSize := 0

/-- Writes a mutation of the node at `hash` back to the map; `none` when there is no such
node, where the source dereferences a nil pointer. -/
def modifyNode (db : Database) (hash : Hash) (f : CachedNode → CachedNode) : Option Database :=
  match db.nodes.lookup hash with
  | none => none
  | some n => some { db with nodes := db.nodes.replace hash (f n) }

/-- `secureKey`: the disk key of a preimage. -/
def secureKey (key : Hash) : List UInt8 :=
  secureKeyPrefix ++ key.bytes

/-- `batch.Put` into the disk database. -/
def put (diskdb : List UInt8 → Option (List UInt8)) (key value : List UInt8) :
    List UInt8 → Option (List UInt8) :=
  Function.update diskdb key (some value)

/-- `insert`: caches a new node at the end of the flush-list; a node that is already
cached is left as it is. -/
def insert (db : Database) (hash : Hash) (blob : List UInt8) : Option Database :=
  if hash ∈ db.nodes then some db
  else
    let entry : CachedNode := ⟨blob, 0, ∅, db.newest, Hash.zero⟩
    let db1 := { db with nodes := db.nodes.insert hash entry }
    -- Update the flush-list endpoints
    let db2 :=
      if db1.oldest = Hash.zero then some { db1 with oldest := hash, newest := hash }
      else (db1.modifyNode db1.newest fun n => { n with flushNext := hash }).map
        fun db => { db with newest := hash }
    db2.map fun db => { db with nodesSize := db.nodesSize + (HashLength + blob.length : Nat) }

/-- `insertPreimage`: caches the preimage of a hash unless it is known. -/
def insertPreimage (db : Database) (hash : Hash) (preimage : List UInt8) : Database :=
  if hash ∈ db.preimages then db
  else { db with preimages := db.preimages.insert hash preimage,
                 preimagesSize := db.preimagesSize + (HashLength + preimage.length : Nat) }

/-- `Node`: a cached node's blob, or else the disk database's content under the hash. -/
def Node (db : Database) (hash : Hash) : Option (List UInt8) :=
  match db.nodes.lookup hash with
  | some node => some node.blob
  | none => db.diskdb hash.bytes

/-- `preimage`: a cached preimage, or else the disk database's content under its key. -/
def preimage (db : Database) (hash : Hash) : Option (List UInt8) :=
  match db.preimages.lookup hash with
  | some p => some p
  | none => db.diskdb (secureKey hash)

/-- `Nodes`: the hashes of the cached nodes, the meta-root left out. -/
def Nodes (db : Database) : List Hash :=
  db.nodes.keys.filter (· ≠ Hash.zero)

/-- `reference`: records a reference from `parent` to a cached `child`.  References from
nodes are counted once; the meta-root counts every reference. -/
def reference (db : Database) (child parent : Hash) : Option Database :=
  -- If the node does not exist, it's a node pulled from disk, skip
  if child ∉ db.nodes then some db
  else
    match db.nodes.lookup parent with
    | none => none
    | some p =>
      -- If the reference already exists, only duplicate for roots
      if child ∈ p.children ∧ parent ≠ Hash.zero then some db
      else do
        let db ← db.modifyNode child fun n => { n with parents := n.parents + 1 }
        db.modifyNode parent fun n =>
          { n with children := n.children.insert child ((n.children.lookup child).getD 0 + 1) }

/-- Unlinks a node that is about to be deleted from the flush-list: the oldest node moves
the head, any other node joins its neighbours. -/
def unlink (db : Database) (hash : Hash) (node : CachedNode) : Option Database :=
  if hash = db.oldest then some { db with oldest := node.flushNext }
  else do
    let db ← db.modifyNode node.flushPrev fun n => { n with flushNext := node.flushNext }
    db.modifyNode node.flushNext fun n => { n with flushPrev := node.flushPrev }

/-- The cascade loop of `dereference`: dereferences each child of `hash` in turn.  A child
whose entry was removed from the live map before the loop reached it is not visited, as
in the source's iteration over a map that changes under it. -/
def derefChildren (deref : Database → Hash → Option Database) (hash : Hash) :
    List Hash → Database → Option Database
  | [], db => some db
  | c :: cs, db =>
    match db.nodes.lookup hash with
    | none => none
    | some node =>
      if c ∈ node.children then (deref db c).bind (derefChildren deref hash cs)
      else derefChildren deref hash cs db

/-- `dereference`, with the depth of the cascade bounded by `fuel`: removes a reference
from `parent` to `child`, and when the child loses its last reference, unlinks it from the
flush-list, dereferences its own children and deletes it. -/
def dereferenceF : Nat → Database → Hash → Hash → Option Database
  | 0, _, _, _ => none
  | fuel + 1, db, child, parent => do
    -- Dereference the parent-child
    let db ← db.modifyNode parent fun n =>
      let c := (n.children.lookup child).getD 0 - 1
      { n with children := if c = 0 then n.children.erase child else n.children.insert child c }
    -- If the child does not exist, it's a previously committed node.
    match db.nodes.lookup child with
    | none => some db
    | some node =>
      let node := { node with parents := node.parents - 1 }
      let db := { db with nodes := db.nodes.replace child node }
      if node.parents = 0 then
        let db ← db.unlink child node
        let db ← derefChildren (fun db c => dereferenceF fuel db c child) child
          node.children.keys db
        let blob := node.blob
        some { db with nodes := db.nodes.erase child,
                       nodesSize := db.nodesSize - (HashLength + blob.length : Nat) }
      else some db

/-- `Dereference`.  A cascade visits every cached node at most once on its way down, so
the number of cached nodes bounds its depth. -/
def Dereference (db : Database) (child parent : Hash) : Option Database :=
  dereferenceF (db.nodes.keys.length + 1) db child parent

/-- The flush loop of `Cap`: writes nodes from the head of the flush-list to disk while
the size is above the limit, and returns the disk, the size left and where it stopped.
Every step lowers the size by at least `3 * HashLength`, which bounds the loop. -/
def capFlush (db : Database) (limit : Int) :
    Nat → (List UInt8 → Option (List UInt8)) → Int → Hash →
      Option ((List UInt8 → Option (List UInt8)) × Int × Hash)
  | 0, disk, size, oldest => some (disk, size, oldest)
  | fuel + 1, disk, size, oldest =>
    if size > limit ∧ oldest ≠ Hash.zero then
      match db.nodes.lookup oldest with
      | none => none
      | some node =>
        capFlush db limit fuel (put disk oldest.bytes node.blob)
          (size - (3 * HashLength + node.blob.length : Nat)) node.flushNext
    else some (disk, size, oldest)

/-- The clean-up loop of `Cap`: deletes the flushed nodes from the head of the list up to
the node where the flush stopped. -/
def capDrop (stop : Hash) : Nat → Database → Option Database
  | 0, db => some db
  | fuel + 1, db =>
    if db.oldest ≠ stop then
      match db.nodes.lookup db.oldest with
      | none => none
      | some node =>
        capDrop stop fuel { db with nodes := db.nodes.erase db.oldest, oldest := node.flushNext,
                                    nodesSize := db.nodesSize - (HashLength + node.blob.length : Nat) }
    else some db

/-- Writes every cached preimage to disk. -/
def flushPreimages (db : Database) (disk : List UInt8 → Option (List UInt8)) :
    List UInt8 → Option (List UInt8) :=
  db.preimages.entries.foldl (fun d e => put d (secureKey e.1) e.2) disk

/-- `Cap`: flushes the oldest nodes to disk until the cache, flush-list metadata included,
is no larger than `limit`; the preimages go along once they pass 4 MiB. -/
def Cap (db : Database) (limit : Int) : Option Database :=
  let size := db.nodesSize + ((db.nodes.keys.length - 1 : Int) * 2 * HashLength)
  let flushPre := db.preimagesSize > 4 * 1024 * 1024
  let disk := if flushPre then db.flushPreimages db.diskdb else db.diskdb
  let fuel := (size - limit).toNat / (3 * HashLength) + 1
  match capFlush db limit fuel disk size db.oldest with
  | none => none
  | some (disk, _, oldest) =>
    let db := { db with diskdb := disk }
    let db := if flushPre then { db with preimages := ∅, preimagesSize := 0 } else db
    (capDrop oldest fuel db).bind fun db =>
      if db.oldest ≠ Hash.zero then db.modifyNode db.oldest fun n => { n with flushPrev := Hash.zero }
      else some db

/-- `commit`: writes the node at `hash` and, before it, every cached node below it to
disk.  A node that is not cached was committed before. -/
def commitF : Nat → Database → (List UInt8 → Option (List UInt8)) → Hash →
    Option (List UInt8 → Option (List UInt8))
  | 0, _, _, _ => none
  | fuel + 1, db, disk, hash =>
    match db.nodes.lookup hash with
    | none => some disk
    | some node =>
      (node.children.keys.foldlM (fun d c => commitF fuel db d c) disk).map
        fun d => put d hash.bytes node.blob

/-- `uncache`: drops the node at `hash` and every cached node below it from the cache. -/
def uncacheF : Nat → Database → Hash → Option Database
  | 0, _, _ => none
  | fuel + 1, db, hash =>
    match db.nodes.lookup hash with
    | none => some db
    | some node => do
      -- Node still exists, remove it from the flush-list
      let db ← db.unlink hash node
      -- Uncache the node's subtries and remove the node itself too
      let db ← node.children.keys.foldlM (fun db c => uncacheF fuel db c) db
      some { db with nodes := db.nodes.erase hash,
                     nodesSize := db.nodesSize - (HashLength + node.blob.length : Nat) }

/-- `Commit`: writes the preimages and the trie below `node` to disk, then drops that
trie from the cache. -/
def Commit (db : Database) (node : Hash) : Option Database := do
  let fuel := db.nodes.keys.length + 1
  let disk ← commitF fuel db (db.flushPreimages db.diskdb) node
  let db := { db with diskdb := disk, preimages := ∅, preimagesSize := 0 }
  uncacheF fuel db node

/-- `Size`: the cached nodes with their flush-list metadata, and the cached preimages. -/
def Size (db : Database) : Int × Int :=
  (db.nodesSize + (db.nodes.keys.length - 1 : Int) * 2 * HashLength, db.preimagesSize)

end Database

end Atlantis.Trie
