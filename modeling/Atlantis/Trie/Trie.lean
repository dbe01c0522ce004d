import Atlantis.Trie.Node
import Atlantis.Trie.Database

/-!
# Merkle Patricia tries

`trie/trie.go`: lookup, insertion and deletion on a trie whose nodes are in memory or, as
hash nodes, in the trie database, from which they are resolved on the way.

The recursions of the source resolve hash nodes without consuming key nibbles, so on an
arbitrary database they need not return.  The model bounds them by `fuel`, with the fault
`outOfFuel` when it runs out; the correctness theorems show that a bound linear in the key
length suffices on every trie the operations build.
-/

set_option linter.dupNamespace false

namespace Atlantis.Trie

/-- `MissingNodeError`: a node referenced by hash whose encoding is not in the database,
with the path to it. -/
structure MissingNodeError where
  nodeHash : Hash
  path : Nibbles

/-- How a trie operation ends when it does not return normally: with the error the source
returns, where the source panics, or past the fuel bound of the model. -/
inductive Fault where
  | missingNode (e : MissingNodeError)
  | panic
  | outOfFuel

/-- `emptyRoot`, the known root hash of an empty trie. -/
def emptyRoot : Hash :=
  ⟨[0x56, 0xe8, 0x1f, 0x17, 0x1b, 0xcc, 0x55, 0xa6, 0xff, 0x83, 0x45, 0xe6, 0x92, 0xc0, 0xf8,
    0x6e, 0x5b, 0x48, 0xe0, 0x1b, 0x99, 0x6c, 0xad, 0xc0, 0x01, 0x62, 0x2f, 0xb5, 0xe3, 0x63,
    0xb4, 0x21], rfl⟩

/-- `Trie`: the root node, the root hash it was opened at, and the cache generation and
limit.  The database it sits on is passed along separately. -/
structure Trie where
  root : MemNode
  originalRoot : Hash
  cachegen : UInt16
  cachelimit : UInt16

namespace Trie

/-- `SetCacheLimit`. -/
def SetCacheLimit (t : Trie) (l : UInt16) : Trie := { t with cachelimit := l }

/-- `newFlag`: the flag of a node created in the current generation. -/
def newFlag (t : Trie) : NodeFlag := ⟨none, t.cachegen, true⟩

/-- `resolveHash`: the node stored under a hash.  A missing or empty encoding is a
`MissingNodeError`; an encoding that does not decode makes `mustDecodeNode` panic. -/
def resolveHash (t : Trie) (db : Database) (n : List UInt8) (pfx : Nibbles) :
    Except Fault MemNode :=
  let hash := Hash.ofBytes n
  match db.Node hash with
  | none => .error (.missingNode ⟨hash, pfx⟩)
  | some enc =>
    if enc = [] then .error (.missingNode ⟨hash, pfx⟩)
    else
      match decodeNode (some n) enc t.cachegen with
      | .ok node => .ok node
      | .error _ => .error .panic

/-- `resolve`: resolves a hash node and leaves any other node as it is. -/
def resolve (t : Trie) (db : Database) (n : MemNode) (pfx : Nibbles) : Except Fault MemNode :=
  match n with
  | .hashNode h => t.resolveHash db h pfx
  | n => .ok n

/-- `tryGet`: the value under `key[pos:]`, the node with the hash nodes resolved on the way
swapped in, and whether anything was resolved. -/
def tryGet (t : Trie) (db : Database) :
    Nat → MemNode → Nibbles → Nat → Except Fault (List UInt8 × MemNode × Bool)
  | 0, _, _, _ => .error .outOfFuel
  | fuel + 1, origNode, key, pos =>
    match origNode with
    | .nil => .ok ([], .nil, false)
    | .valueNode v => .ok (v, .valueNode v, false)
    | .shortNode k v flags =>
      if key.length - pos < k.length ∨ k ≠ (key.drop pos).take k.length then
        -- key not found in trie
        .ok ([], origNode, false)
      else
        (t.tryGet db fuel v key (pos + k.length)).map fun (value, newnode, didResolve) =>
          if didResolve then (value, .shortNode k newnode { flags with gen := t.cachegen }, true)
          else (value, origNode, false)
    | .fullNode cs flags =>
      match key[pos]? with
      | none => .error .panic
      | some i =>
        (t.tryGet db fuel (cs i) key (pos + 1)).map fun (value, newnode, didResolve) =>
          if didResolve then
            (value, .fullNode (Function.update cs i newnode) { flags with gen := t.cachegen }, true)
          else (value, origNode, false)
    | .hashNode h => do
      let child ← t.resolveHash db h (key.take pos)
      let (value, newnode, _) ← t.tryGet db fuel child key pos
      .ok (value, newnode, true)

/-- `TryGet`: the value stored under a key (empty when there is none), with the trie
whose root caches the nodes resolved on the way. -/
def TryGet (fuel : Nat) (t : Trie) (db : Database) (key : List UInt8) :
    Except Fault (List UInt8 × Trie) :=
  (t.tryGet db fuel t.root (keybytesToHex key) 0).map fun (value, newroot, didResolve) =>
    (value, if didResolve then { t with root := newroot } else t)

/-- The position `pos` that the reduction in `delete` searches for: `-1` when no child is
left, the index of the only child left, or `-2` when at least two are. -/
inductive ChildPos where
  | none
  | one (i : Fin 17)
  | many

/-- One step of the loop of `delete` over the children: a child that is not nil is the
first one found, or the second. -/
def ChildPos.step (cs : Fin 17 → MemNode) (pos : ChildPos) (i : Fin 17) : ChildPos :=
  if (cs i).isNil then pos
  else match pos with
    | .none => .one i
    | _ => .many

/-- The loop of `delete` that finds the child left in a full node. -/
def remainingPos (cs : Fin 17 → MemNode) : ChildPos :=
  (List.finRange 17).foldl (ChildPos.step cs) .none

/-- `insert`: stores `value` under `key` below `n`, whose path is `pfx`; returns whether
anything changed and the new node. -/
def insert (t : Trie) (db : Database) :
    Nat → MemNode → Nibbles → Nibbles → MemNode → Except Fault (Bool × MemNode)
  | 0, _, _, _, _ => .error .outOfFuel
  | fuel + 1, n, pfx, key, value =>
    if key = [] then
      match n, value with
      | .valueNode v, .valueNode w => .ok (v ≠ w, value)
      | .valueNode _, _ => .error .panic
      | _, _ => .ok (true, value)
    else
      match n with
      | .shortNode k v _ =>
        let matchlen := prefixLen key k
        -- If the whole key matches, keep this short node as is and only update the value.
        if matchlen = k.length then do
          let (dirty, nn) ← t.insert db fuel v (pfx ++ key.take matchlen) (key.drop matchlen) value
          if !dirty then .ok (false, n) else .ok (true, .shortNode k nn t.newFlag)
        else
          -- Otherwise branch out at the index where they differ.
          match k[matchlen]?, key[matchlen]? with
          | some kb, some keyb => do
            let (_, c1) ← t.insert db fuel .nil (pfx ++ k.take (matchlen + 1)) (k.drop (matchlen + 1)) v
            let (_, c2) ← t.insert db fuel .nil (pfx ++ key.take (matchlen + 1))
              (key.drop (matchlen + 1)) value
            let branch : MemNode :=
              .fullNode (Function.update (Function.update (fun _ => .nil) kb c1) keyb c2) t.newFlag
            -- Replace this shortNode with the branch if it occurs at index 0.
            if matchlen = 0 then .ok (true, branch)
            else .ok (true, .shortNode (key.take matchlen) branch t.newFlag)
          | _, _ => .error .panic
      | .fullNode cs _ =>
        match key with
        | [] => .error .panic
        | i :: rest => do
          let (dirty, nn) ← t.insert db fuel (cs i) (pfx ++ [i]) rest value
          if !dirty then .ok (false, n) else .ok (true, .fullNode (Function.update cs i nn) t.newFlag)
      | .nil => .ok (true, .shortNode key value t.newFlag)
      | .hashNode h => do
        -- We've hit a part of the trie that isn't loaded yet.
        let rn ← t.resolveHash db h pfx
        let (dirty, nn) ← t.insert db fuel rn pfx key value
        if !dirty then .ok (false, rn) else .ok (true, nn)
      | .valueNode _ => .error .panic

/-- The end of `delete` at a short node whose child changed: a short child is merged into
the node, to avoid creating a `shortNode{..., shortNode{...}}`. -/
def mergeShort (t : Trie) (k : Nibbles) : MemNode → MemNode
  | .shortNode ck cv _ => .shortNode (k ++ ck) cv t.newFlag
  | child => .shortNode k child t.newFlag

/-- The end of `delete` at a full node one of whose children changed: with a single child
left, the node is replaced by a short node to it, whose key takes the child's index in
front (merged with the child's key when the child, once resolved, is a short node). -/
def reduceFull (t : Trie) (db : Database) (cs : Fin 17 → MemNode) (pfx : Nibbles) :
    Except Fault (Bool × MemNode) :=
  match remainingPos cs with
  | .one p =>
    if p ≠ 16 then do
      -- If the remaining entry is a short node, it replaces n and its key gets the missing
      -- nibble tacked to the front.
      let cnode ← t.resolve db (cs p) pfx
      match cnode with
      | .shortNode ck cv _ => .ok (true, .shortNode (p :: ck) cv t.newFlag)
      | _ => .ok (true, .shortNode [p] (cs p) t.newFlag)
    else .ok (true, .shortNode [p] (cs p) t.newFlag)
  -- n still contains at least two values and cannot be reduced.
  | _ => .ok (true, .fullNode cs t.newFlag)

/-- `delete`: removes `key` below `n`, whose path is `pfx`, reducing the trie to minimal
form on the way up; returns whether anything changed and the new node. -/
def delete (t : Trie) (db : Database) :
    Nat → MemNode → Nibbles → Nibbles → Except Fault (Bool × MemNode)
  | 0, _, _, _ => .error .outOfFuel
  | fuel + 1, n, pfx, key =>
    match n with
    | .shortNode k v _ =>
      let matchlen := prefixLen key k
      if matchlen < k.length then .ok (false, n)
      else if matchlen = key.length then .ok (true, .nil)
      else do
        -- The key is longer than n.Key. Remove the remaining suffix from the subtrie.
        let (dirty, child) ← t.delete db fuel v (pfx ++ key.take k.length) (key.drop k.length)
        if !dirty then .ok (false, n) else .ok (true, t.mergeShort k child)
    | .fullNode cs _ =>
      match key with
      | [] => .error .panic
      | i :: rest => do
        let (dirty, nn) ← t.delete db fuel (cs i) (pfx ++ [i]) rest
        if !dirty then .ok (false, n) else t.reduceFull db (Function.update cs i nn) pfx
    | .valueNode _ => .ok (true, .nil)
    | .nil => .ok (false, .nil)
    | .hashNode h => do
      let rn ← t.resolveHash db h pfx
      let (dirty, nn) ← t.delete db fuel rn pfx key
      if !dirty then .ok (false, rn) else .ok (true, nn)

/-- `TryUpdate`: a non-empty value is inserted, an empty one deletes the key. -/
def TryUpdate (fuel : Nat) (t : Trie) (db : Database) (key value : List UInt8) :
    Except Fault Trie :=
  let k := keybytesToHex key
  if value.length ≠ 0 then
    (t.insert db fuel t.root [] k (.valueNode value)).map fun (_, n) => { t with root := n }
  else
    (t.delete db fuel t.root [] k).map fun (_, n) => { t with root := n }

/-- `TryDelete`. -/
def TryDelete (fuel : Nat) (t : Trie) (db : Database) (key : List UInt8) : Except Fault Trie :=
  (t.delete db fuel t.root [] (keybytesToHex key)).map fun (_, n) => { t with root := n }

end Trie

/-- `New`: the trie at `root`, resolving the root node from the database unless the root is
the zero hash or the empty root. -/
def New (root : Hash) (db : Database) : Except Fault Trie :=
  let t : Trie := ⟨.nil, root, 0, 0⟩
  if root ≠ Hash.zero ∧ root ≠ emptyRoot then
    (t.resolveHash db root.bytes []).map fun rootnode => { t with root := rootnode }
  else .ok t

end Atlantis.Trie
