import Atlantis.Common.Types
import Atlantis.Rlp.Raw
import Atlantis.Trie.Encoding

/-!
# Trie nodes and their decoding

`trie/node.go`.  A node is absent (`nil`), a full node with sixteen children and a value
slot at index 16, a short node (an extension or a leaf) holding a key and a child, a hash
node standing for a node stored in the database under that hash, or a value.

The source keeps the keys of short nodes as `[]byte` in two forms: hex nibbles while the
node is in memory, and compact bytes in the collapsed copy the hasher encodes.  The model
makes the key type a parameter `κ`: `Node Nibbles` in memory, `Node (List UInt8)` for the
collapsed form.
-/

namespace Atlantis.Trie

/-- A hex key. -/
abbrev Nibbles := List Nibble

/-- `nodeFlag`: the hash of the node if it has been computed, the cache generation the
node was created in, and whether it has changes not yet written to the database. -/
structure NodeFlag where
  hash : Option (List UInt8)
  gen : UInt16
  dirty : Bool

/-- `node`, with the keys of short nodes of type `κ`. -/
inductive Node (κ : Type) where
  | nil
  | fullNode (children : Fin 17 → Node κ) (flags : NodeFlag)
  | shortNode (key : κ) (val : Node κ) (flags : NodeFlag)
  | hashNode (hash : List UInt8)
  | valueNode (value : List UInt8)

namespace NodeFlag

/-- `nodeFlag.canUnload`: a clean node older than the cache limit (generations count in
`uint16`, wrapping around). -/
def canUnload (f : NodeFlag) (cachegen cachelimit : UInt16) : Bool :=
  !f.dirty && cachegen - f.gen ≥ cachelimit

end NodeFlag

namespace Node

variable {κ : Type}

/-- `cache`: the cached hash and the dirty flag; hash and value nodes have neither a hash
nor a clean state. -/
def cache : Node κ → Option (List UInt8) × Bool
  | .fullNode _ flags => (flags.hash, flags.dirty)
  | .shortNode _ _ flags => (flags.hash, flags.dirty)
  | _ => (none, true)

/-- `canUnload`: only full and short nodes are ever unloaded. -/
def canUnload (cachegen cachelimit : UInt16) : Node κ → Bool
  | .fullNode _ flags => flags.canUnload cachegen cachelimit
  | .shortNode _ _ flags => flags.canUnload cachegen cachelimit
  | _ => false

/-- Whether the node is `nil`. -/
def isNil : Node κ → Bool
  | .nil => true
  | _ => false

end Node

/-! ## Decoding -/

/-- The errors of `decodeNode`.  `wrapped` is the source's `decodeError`, an error with the
path to the child that failed to decode; `panic` stands for the slice out of range in
`compactToHex`, where the source panics instead of returning. -/
inductive NodeError where
  | errUnexpectedEOF
  | decodeError (e : Rlp.Error)
  | invalidListElements (c : Nat)
  | invalidValueNode (e : Rlp.Error)
  | rlp (e : Rlp.Error)
  | oversizedEmbeddedNode (size : Nat)
  | invalidStringSize (size : Nat)
  | wrapped (what : NodeError) (stack : List String)
  | panic

/-- `wrapError`: adds the context to the path of a `decodeError`, or wraps a plain error
into one.  A panic is not an error value and passes through. -/
def wrapError : NodeError → String → NodeError
  | .wrapped what stack, ctx => .wrapped what (stack ++ [ctx])
  | .panic, _ => .panic
  | e, ctx => .wrapped e [ctx]

/-- `hashLen`, the length of a hash. -/
def hashLen : Nat := 32

/-- The decoded form of a node in memory. -/
abbrev MemNode := Node Nibbles

/-- `decodeRef`: a child reference, given the decoder for embedded nodes.  A list is a
node embedded in its parent and must be smaller than a hash; the empty string is an
absent child; a string of 32 bytes is a hash. -/
def decodeRef (dec : List UInt8 → Except NodeError MemNode) (buf : List UInt8) :
    Except NodeError (MemNode × List UInt8) :=
  match Rlp.split buf with
  | .error e => .error (.rlp e)
  | .ok (kind, val, rest) =>
    if kind = .list then
      -- 'embedded' node reference. The encoding must be smaller than a hash.
      let size := buf.length - rest.length
      if size > hashLen then .error (.oversizedEmbeddedNode size)
      else (dec buf).map fun n => (n, rest)
    else if kind = .string ∧ val.length = 0 then .ok (.nil, rest)
    else if kind = .string ∧ val.length = 32 then .ok (.hashNode val, rest)
    else .error (.invalidStringSize val.length)

/-- `decodeShort`: a key in compact encoding, then a value (when the key has the
terminator) or a child reference. -/
def decodeShort (dec : List UInt8 → Except NodeError MemNode) (hash : Option (List UInt8))
    (elems : List UInt8) (cachegen : UInt16) : Except NodeError MemNode :=
  match Rlp.splitString elems with
  | .error e => .error (.rlp e)
  | .ok (kbuf, rest) =>
    let flag : NodeFlag := ⟨hash, cachegen, false⟩
    match compactToHex kbuf with
    | none => .error .panic
    | some key =>
      if hasTerm key then
        match Rlp.splitString rest with
        | .error e => .error (.invalidValueNode e)
        | .ok (val, _) => .ok (.shortNode key (.valueNode val) flag)
      else
        match decodeRef dec rest with
        | .error e => .error (wrapError e "val")
        | .ok (r, _) => .ok (.shortNode key r flag)

/-- The loop of `decodeFull` over the child references at the given indices. -/
def decodeChildren (dec : List UInt8 → Except NodeError MemNode) :
    List (Fin 17) → List UInt8 → (Fin 17 → MemNode) →
      Except NodeError ((Fin 17 → MemNode) × List UInt8)
  | [], elems, cs => .ok (cs, elems)
  | i :: is, elems, cs =>
    match decodeRef dec elems with
    | .error e => .error (wrapError e ("[" ++ toString i.val ++ "]"))
    | .ok (cld, rest) => decodeChildren dec is rest (Function.update cs i cld)

/-- The indices `0..15` of the children of a full node. -/
def childIndices : List (Fin 17) := [0, 1, 2, 3, 4, 5, 6, 7, 8, 9, 10, 11, 12, 13, 14, 15]

/-- `decodeFull`: sixteen child references and the value, which is kept when it is not
empty. -/
def decodeFull (dec : List UInt8 → Except NodeError MemNode) (hash : Option (List UInt8))
    (elems : List UInt8) (cachegen : UInt16) : Except NodeError MemNode :=
  let flags : NodeFlag := ⟨hash, cachegen, false⟩
  match decodeChildren dec childIndices elems (fun _ => .nil) with
  | .error e => .error e
  | .ok (cs, elems) =>
    match Rlp.splitString elems with
    | .error e => .error (.rlp e)
    | .ok (val, _) =>
      .ok (.fullNode (if 0 < val.length then Function.update cs 16 (.valueNode val) else cs) flags)

/-- `decodeNode`, with the nesting of embedded nodes bounded by `fuel`: a list of two
elements is a short node, a list of seventeen a full node.  Every level of nesting strips
a list header, so the length of the input bounds the nesting. -/
def decodeNodeF : Nat → Option (List UInt8) → List UInt8 → UInt16 → Except NodeError MemNode
  | 0, _, _, _ => .error .panic
  | fuel + 1, hash, buf, cachegen =>
    if buf = [] then .error .errUnexpectedEOF
    else
      match Rlp.splitList buf with
      | .error e => .error (.decodeError e)
      | .ok (elems, _) =>
        let dec := fun b => decodeNodeF fuel none b cachegen
        -- `CountValues` reports 0 when it fails
        match (Rlp.countValues elems).toOption.getD 0 with
        | 2 => (decodeShort dec hash elems cachegen).mapError (wrapError · "short")
        | 17 => (decodeFull dec hash elems cachegen).mapError (wrapError · "full")
        | c => .error (.invalidListElements c)

/-- `decodeNode`. -/
def decodeNode (hash : Option (List UInt8)) (buf : List UInt8) (cachegen : UInt16) :
    Except NodeError MemNode :=
  decodeNodeF (buf.length + 1) hash buf cachegen

/-- A list of two empty strings is a short node with an empty compact key, on which
`compactToHex` slices past the end of the expanded key: `decodeNode` panics, whatever the
hash and the generation. -/
theorem decodeNode_empty_key (hash : Option (List UInt8)) (gen : UInt16) :
    Rlp.splitList [0xC2, 0x80, 0x80] = .ok ([0x80, 0x80], []) ∧
    Rlp.splitString [0x80, 0x80] = .ok ([], [0x80]) ∧ compactToHex [] = none ∧
    decodeNode hash [0xC2, 0x80, 0x80] gen = .error .panic := by
  have hsplit : Rlp.splitList [0xC2, 0x80, 0x80] = .ok ([0x80, 0x80], []) := rfl
  have hcount : Rlp.countValues [0x80, 0x80] = .ok 2 := rfl
  have hkey : Rlp.splitString [0x80, 0x80] = .ok ([], [0x80]) := rfl
  have hnone : compactToHex [] = none := (compactToHex_eq_none_iff []).mpr rfl
  refine ⟨hsplit, hkey, hnone, ?_⟩
  -- two elements make a short node, whose key is the empty string
  simp only [decodeNode, decodeNodeF, hsplit, hcount, decodeShort, hkey, hnone]
  rfl

end Atlantis.Trie
