import Atlantis.Trie.Canonical

/-!
# Encoding and decoding nodes

The hasher stores the RLP encoding of a collapsed node, and `decodeNode` reads it back when
the node is resolved.  `expand` is what decoding makes of the encoding of a collapsed node:
the compact keys expanded back to hex, the empty string an absent child, a 32-byte string a
hash node, an embedded list a node of its own, and an empty value slot absent.  Every node
comes back clean and of the trie's generation, and only the outermost one with the hash it
was stored under.

`decodeNodeF_encode` shows that decoding inverts encoding on the collapsed nodes the hasher
makes (`Node.Storable`), and `collapse_expand` that collapsing the decoded node gives back
the encoding: a node resolved from the database hashes to the hash it was stored under.
-/

set_option linter.dupNamespace false

namespace Atlantis.Trie

open Rlp

/-! ## What decoding makes of an encoding -/

/-- The bytes of a string node. -/
def Node.strOf : CNode → List UInt8
  | .valueNode v => v
  | .hashNode h => h
  | _ => []

/-- A child reference read back by `decodeRef`, where `e` is the embedded node decoded:
the empty string is an absent child, a string of 32 bytes a hash. -/
def expandRef (e : MemNode) : CNode → MemNode
  | .valueNode _ => .nil
  | .hashNode h => .hashNode h
  | _ => e

/-- The value slot of a full node read back by `decodeFull`: kept when it is not empty. -/
def valueSlot : CNode → MemNode
  | .valueNode v => if 0 < v.length then .valueNode v else .nil
  | _ => .nil

/-- The node `decodeNode hash` makes of the encoding of the collapsed node `c` in generation
`gen`. -/
def expand (hash : Option (List UInt8)) (gen : UInt16) : CNode → MemNode
  | .shortNode ck cv _ =>
    let key := (compactToHex ck).getD []
    .shortNode key (if hasTerm key then .valueNode cv.strOf else expandRef (expand none gen cv) cv)
      ⟨hash, gen, false⟩
  | .fullNode cs _ =>
    .fullNode (fun i => if i = 16 then valueSlot (cs 16) else expandRef (expand none gen (cs i)) (cs i))
      ⟨hash, gen, false⟩
  | .valueNode v => .valueNode v
  | .hashNode h => .hashNode h
  | .nil => .nil

/-- A child reference as the hasher writes it, where `P` says that an embedded child is
itself storable: the empty string, a hash of 32 bytes, or an embedded node encoded in fewer
than 32 bytes. -/
def RefStorable (P : Prop) : CNode → Prop
  | .valueNode v => v = []
  | .hashNode h => h.length = 32
  | c => P ∧ c.toItem.encode.length < 32

/-- The collapsed nodes the hasher encodes: a short node with a compact key whose hex form
holds the terminator at most at its end, and a value exactly when it holds it; a full node
whose sixteen children are references and whose value slot is a string. -/
def Node.Storable : CNode → Prop
  | .shortNode ck cv _ =>
    ∃ k, ck = hexToCompact k ∧ (16 : Nibble) ∉ k.dropLast ∧
      if hasTerm k then ∃ v, cv = .valueNode v else RefStorable cv.Storable cv
  | .fullNode cs _ => (∀ i, i ≠ 16 → RefStorable (cs i).Storable (cs i)) ∧ ∃ v, cs 16 = .valueNode v
  | _ => False

/-! ## Sizes of encodings -/

theorem encodeList_append (l₁ l₂ : List Item) :
    encodeList (l₁ ++ l₂) = encodeList l₁ ++ encodeList l₂ := by
  induction l₁ with
  | nil => simp [encodeList]
  | cons it is ih => simp [encodeList, ih]

theorem length_encode_le_encodeList {it : Item} {items : List Item} (h : it ∈ items) :
    it.encode.length ≤ (encodeList items).length := by
  induction items with
  | nil => simp at h
  | cons it' is ih =>
    rw [encodeList, List.length_append]
    rcases List.mem_cons.mp h with rfl | h
    · omega
    · have := ih h
      omega

/-- An element is encoded strictly inside the encoding of its list. -/
theorem length_encode_lt_list {it : Item} {items : List Item} (h : it ∈ items) :
    it.encode.length < (Item.list items).encode.length := by
  have h1 := length_encode_le_encodeList h
  have h2 := length_le_length_puthead 0xC0 0xF7 (encodeList items).length
  rw [encode_list, List.length_append]
  omega

theorem length_content_le (it : Item) : it.content.length ≤ it.encode.length := by
  cases it with
  | str b =>
    rw [encode_str]
    unfold encodeString
    split
    · split <;> simp [Item.content]
    · simp [Item.content]
  | list items => simp [Item.content, encode_list]

/-! ## Decoding inverts encoding -/

section Decode

variable (gen : UInt16)

/-- An embedded node reads back as the node its list decodes to. -/
theorem decodeRef_list {dec : List UInt8 → Except NodeError MemNode} {c : CNode} {e : MemNode}
    (hk : c.toItem.kind = .list) (hlt : c.toItem.encode.length < 32)
    (hdec : ∀ rest, dec (c.toItem.encode ++ rest) = .ok e) (rest : List UInt8) :
    decodeRef dec (c.toItem.encode ++ rest) = .ok (e, rest) := by
  have hsplit := split_encode c.toItem rest
    (lt_of_le_of_lt (length_content_le c.toItem) (by omega))
  unfold decodeRef
  rw [hsplit]
  simp only [hk, if_true, List.length_append, Nat.add_sub_cancel]
  rw [if_neg (by unfold hashLen; omega), hdec rest]
  rfl

/-- **A child reference reads back.** -/
theorem decodeRef_encode {f : Nat} {c : CNode} (hc : RefStorable c.Storable c)
    (hsize : c.toItem.encode.length < 2 ^ 64)
    (ih : c.Storable → ∀ rest, decodeNodeF f none (c.toItem.encode ++ rest) gen =
      .ok (expand none gen c))
    (rest : List UInt8) :
    decodeRef (fun b => decodeNodeF f none b gen) (c.toItem.encode ++ rest) =
      .ok (expandRef (expand none gen c) c, rest) := by
  cases c with
  | valueNode v =>
    simp only [RefStorable] at hc
    subst hc
    unfold decodeRef
    rw [split_encode _ rest (by simp [Node.toItem, Item.content])]
    simp [Node.toItem, Item.kind, Item.content, expandRef]
  | hashNode h =>
    simp only [RefStorable] at hc
    have hk : (Item.str h).kind = .string := by
      rcases h with _ | ⟨a, _ | ⟨b, t⟩⟩
      · simp at hc
      · simp at hc
      · rfl
    unfold decodeRef
    rw [split_encode _ rest (by simp [Node.toItem, Item.content, hc])]
    simp [Node.toItem, hk, Item.content, hc, expandRef]
  | nil => exact absurd hc.1 (by simp [Node.Storable])
  -- an embedded node: a list shorter than a hash
  | shortNode k v flags => exact decodeRef_list rfl hc.2 (ih hc.1) rest
  | fullNode cs flags => exact decodeRef_list rfl hc.2 (ih hc.1) rest

/-- **The children of a full node read back**, one reference after the other. -/
theorem decodeChildren_encode (dec : List UInt8 → Except NodeError MemNode)
    (cs : Fin 17 → CNode) (R : Fin 17 → MemNode) :
    ∀ (is : List (Fin 17)) (acc : Fin 17 → MemNode) (rest : List UInt8),
      (∀ i ∈ is, ∀ rest, decodeRef dec ((cs i).toItem.encode ++ rest) = .ok (R i, rest)) →
      decodeChildren dec is (encodeList (is.map fun i => (cs i).toItem) ++ rest) acc =
        .ok (fun i => if i ∈ is then R i else acc i, rest)
  | [], acc, rest, _ => by simp [decodeChildren, encodeList]
  | i :: is, acc, rest, h => by
    rw [List.map_cons, encodeList, List.append_assoc, decodeChildren,
      h i (by simp) _]
    dsimp only
    rw [decodeChildren_encode dec cs R is _ rest (fun j hj => h j (by simp [hj]))]
    congr 1
    simp only [Prod.mk.injEq, and_true]
    funext j
    by_cases hj : j ∈ is
    · simp [hj]
    · by_cases hji : j = i
      · subst hji
        simp [hj]
      · simp [hj, hji]

theorem encodeList_pair (a b : Item) : encodeList [a, b] = a.encode ++ (b.encode ++ []) := by
  simp [encodeList]

/-- The seventeen slots of a full node: the children, then the value. -/
theorem finRange_seventeen : List.finRange 17 = childIndices ++ [16] := by decide

/-- **Decoding inverts encoding** on the collapsed nodes the hasher stores, whatever
follows the encoding, given fuel beyond its length. -/
theorem decodeNodeF_encode (c : CNode) :
    ∀ (hash : Option (List UInt8)), c.Storable → c.toItem.encode.length < 2 ^ 64 →
      ∀ fuel, c.toItem.encode.length < fuel → ∀ rest,
        decodeNodeF fuel hash (c.toItem.encode ++ rest) gen = .ok (expand hash gen c) := by
  induction c with
  | shortNode ck cv flags ih =>
    intro hash hc hsize fuel hfuel rest
    obtain ⟨k, rfl, hk, hch⟩ := hc
    obtain ⟨f, rfl⟩ : ∃ f, fuel = f + 1 := ⟨fuel - 1, by omega⟩
    have hitem : (Node.shortNode (hexToCompact k) cv flags).toItem =
        .list [.str (hexToCompact k), cv.toItem] := rfl
    rw [hitem] at hsize hfuel ⊢
    -- the sizes of the parts
    have hkey := length_encode_lt_list (show Item.str (hexToCompact k) ∈ [.str (hexToCompact k),
      cv.toItem] by simp)
    have hval := length_encode_lt_list (show cv.toItem ∈ [.str (hexToCompact k), cv.toItem] by simp)
    have hkc := length_content_le (Item.str (hexToCompact k))
    have hcontent : (encodeList [.str (hexToCompact k), cv.toItem]).length < 2 ^ 64 := by
      have := length_content_le (.list [.str (hexToCompact k), cv.toItem])
      simp only [Item.content] at this
      omega
    have hcount : Rlp.countValues (encodeList [.str (hexToCompact k), cv.toItem]) = .ok 2 := by
      refine countValues_encodeList _ fun it hit => ?_
      have := lt_of_le_of_lt (length_content_le it) (length_encode_lt_list hit)
      omega
    unfold decodeNodeF
    rw [if_neg (by simp [encode_ne_nil]), splitList_encode_list _ rest hcontent]
    dsimp only
    rw [hcount]
    dsimp only [Except.toOption, Option.getD]
    unfold decodeShort
    rw [encodeList_pair, splitString_encode_str _ _ (by simp only [Item.content] at hkc; omega)]
    dsimp only
    rw [compactToHex_hexToCompact k hk]
    dsimp only
    simp only [expand, compactToHex_hexToCompact k hk, Option.getD_some]
    split
    · -- a key with the terminator ends in a value
      next hterm =>
      rw [if_pos hterm] at hch
      obtain ⟨v, rfl⟩ := hch
      rw [show (Node.valueNode v).toItem = Item.str v from rfl, splitString_encode_str v [] (by
        have := lt_of_le_of_lt (length_content_le (Item.str v)) hval
        simp only [Item.content] at this
        omega)]
      rfl
    · -- any other key ends in a reference
      next hterm =>
      rw [if_neg hterm] at hch
      rw [decodeRef_encode gen hch (by omega)
        (fun hst rest' => ih none hst (by omega) f (by omega) rest') []]
      rfl
  | fullNode cs flags ih =>
    intro hash hc hsize fuel hfuel rest
    obtain ⟨hrefs, v, hv⟩ := hc
    obtain ⟨f, rfl⟩ : ∃ f, fuel = f + 1 := ⟨fuel - 1, by omega⟩
    have hitem : (Node.fullNode cs flags).toItem = .list ((List.finRange 17).map fun i =>
        (cs i).toItem) := rfl
    rw [hitem] at hsize hfuel ⊢
    have hchild : ∀ i, (cs i).toItem.encode.length < (Item.list ((List.finRange 17).map fun i =>
        (cs i).toItem)).encode.length := fun i =>
      length_encode_lt_list (List.mem_map.mpr ⟨i, List.mem_finRange i, rfl⟩)
    have hcontent : (encodeList ((List.finRange 17).map fun i => (cs i).toItem)).length < 2 ^ 64 := by
      have := length_content_le (.list ((List.finRange 17).map fun i => (cs i).toItem))
      simp only [Item.content] at this
      omega
    have hcount : Rlp.countValues (encodeList ((List.finRange 17).map fun i => (cs i).toItem)) =
        .ok 17 := by
      rw [countValues_encodeList _ fun it hit => ?_]
      · simp
      · have := lt_of_le_of_lt (length_content_le it) (length_encode_lt_list hit)
        omega
    unfold decodeNodeF
    rw [if_neg (by simp [encode_ne_nil]), splitList_encode_list _ rest hcontent]
    dsimp only
    rw [hcount]
    dsimp only [Except.toOption, Option.getD]
    unfold decodeFull
    -- the sixteen references, then the value
    rw [finRange_seventeen, List.map_append, encodeList_append,
      decodeChildren_encode _ cs (fun i => expandRef (expand none gen (cs i)) (cs i)) childIndices
        _ _ (fun i hi rest' => decodeRef_encode gen (hrefs i (mem_childIndices.mp hi))
          (by have := hchild i; omega)
          (fun hst rest'' => ih i none hst (by have := hchild i; omega) f
            (by have := hchild i; omega) rest'') rest')]
    dsimp only
    have hv16 := hchild 16
    rw [hv] at hv16
    simp only [List.map_cons, List.map_nil, encodeList, List.append_nil, hv, Node.toItem]
    have hsplit := splitString_encode_str v [] (by
      have := lt_of_le_of_lt (length_content_le (Item.str v)) hv16
      simp only [Item.content] at this
      omega)
    rw [List.append_nil] at hsplit
    rw [hsplit]
    simp only [Except.mapError, expand, Except.ok.injEq, Node.fullNode.injEq, and_true]
    funext i
    by_cases h16 : i = 16
    · subst h16
      by_cases hv0 : 0 < v.length <;> simp [hv0, hv, valueSlot, mem_childIndices]
    · by_cases hv0 : 0 < v.length <;> simp [hv0, h16, mem_childIndices]
  | _ => intro _ hc; exact absurd hc (by simp [Node.Storable])

/-- `decodeNode` reads back what the hasher stored. -/
theorem decodeNode_encode {c : CNode} (hc : c.Storable) (hsize : c.toItem.encode.length < 2 ^ 64)
    (hash : Option (List UInt8)) :
    decodeNode hash c.toItem.encode gen = .ok (expand hash gen c) := by
  have h := decodeNodeF_encode gen c hash hc hsize _ (Nat.lt_succ_self _) []
  rwa [List.append_nil] at h

/-- A hash under which the database holds the encoding of a storable node resolves to the
node decoded from it, in every generation. -/
theorem Database.resolve_of_node {db : Database} {h : List UInt8} {c : CNode}
    (hnode : db.Node (Hash.ofBytes h) = some c.toItem.encode) (hc : c.Storable)
    (hsize : c.toItem.encode.length < 2 ^ 64) :
    db.resolve gen h = some (expand (some h) gen c) := by
  simp [Database.resolve, hnode, encode_ne_nil, decodeNode_encode gen hc hsize, Except.toOption]

end Decode

/-! ## Collapsing a decoded node -/

section Collapse

variable (keccak : List UInt8 → Atlantis.Hash) (gen : UInt16)

theorem storedRef_of_small {c : CNode} (h : c.toItem.encode.length < 32) :
    storedRef keccak c false = c := by
  cases c <;> simp [storedRef, h]

theorem cacheRef_of_none {n : MemNode} (h : n.cache.1 = none) (force : Bool) (c : CNode) :
    cacheRef keccak force n c = storedRef keccak c force := by
  simp [cacheRef, h]

/-- A node embedded in its parent, with no cached hash, is taken as it is. -/
theorem toItem_embedded {e : MemNode} {c : CNode} (he : e.cache.1 = none) (hnil : e.isNil = false)
    (hitem : (collapse keccak e).toItem = c.toItem) (hsmall : c.toItem.encode.length < 32) :
    (if e.isNil then .valueNode [] else cacheRef keccak false e (collapse keccak e)).toItem =
      c.toItem := by
  rw [if_neg (by simp [hnil]), cacheRef_of_none keccak he,
    storedRef_of_small keccak (by rwa [hitem])]
  exact hitem

/-- The hasher's reference to a child read back by `decodeRef` is the reference it was
read from. -/
theorem toItem_childRef {cv : CNode} (hc : RefStorable cv.Storable cv)
    (ih : cv.Storable → (collapse keccak (expand none gen cv)).toItem = cv.toItem) :
    (if (expandRef (expand none gen cv) cv).isNil then .valueNode []
      else cacheRef keccak false (expandRef (expand none gen cv) cv)
        (collapse keccak (expandRef (expand none gen cv) cv))).toItem = cv.toItem := by
  cases cv with
  | nil => exact absurd hc.1 (by simp [Node.Storable])
  | valueNode v =>
    simp only [RefStorable] at hc
    subst hc
    rfl
  | hashNode h => rfl
  | shortNode k v flags => exact toItem_embedded keccak rfl rfl (ih hc.1) hc.2
  | fullNode cs flags => exact toItem_embedded keccak rfl rfl (ih hc.1) hc.2

@[simp] theorem isNil_collapse (n : MemNode) : (collapse keccak n).isNil = n.isNil := by
  cases n <;> rfl

theorem isNil_cacheRef {c : CNode} (hc : c.isNil = false) (force : Bool) (n : MemNode) :
    (cacheRef keccak force n c).isNil = false := by
  unfold cacheRef
  split
  · rfl
  · cases c <;> simp [storedRef, Node.isNil] at hc ⊢
    all_goals split_ifs <;> rfl

/-- A short node's reference to a child that is not a value, as `collapse` writes it. -/
theorem shortRef_collapse {v : MemNode} (hv : ∀ u, v ≠ .valueNode u) :
    (let cv := shortRef keccak v (collapse keccak v)
     if cv.isNil then Node.valueNode [] else cv) =
      if v.isNil then .valueNode [] else cacheRef keccak false v (collapse keccak v) := by
  rw [shortRef_of_ne keccak hv]
  cases hnil : v.isNil
  · have href : (cacheRef keccak false v (collapse keccak v)).isNil = false :=
      isNil_cacheRef keccak (by rw [isNil_collapse]; exact hnil) false v
    simp [href]
  · cases v <;> simp [Node.isNil] at hnil
    rfl

theorem expandRef_expand_ne (cv : CNode) (u : List UInt8) :
    expandRef (expand none gen cv) cv ≠ .valueNode u := by
  cases cv <;> simp [expandRef, expand]

/-- **Collapsing a decoded node gives back what was encoded**: a node resolved from the
database collapses to the node stored, so it hashes to the hash it was stored under. -/
theorem collapse_expand (c : CNode) :
    ∀ (hash : Option (List UInt8)), c.Storable →
      (collapse keccak (expand hash gen c)).toItem = c.toItem := by
  induction c with
  | shortNode ck cv flags ih =>
    intro hash hc
    obtain ⟨k, rfl, hk, hch⟩ := hc
    have hkey : (compactToHex (hexToCompact k)).getD [] = k := by
      rw [compactToHex_hexToCompact k hk]
      rfl
    simp only [expand, hkey]
    split
    · -- a value child is kept as it is
      next hterm =>
      rw [if_pos hterm] at hch
      obtain ⟨v, rfl⟩ := hch
      rfl
    · -- any other child is a reference
      next hterm =>
      rw [if_neg hterm] at hch
      simp only [collapse, Node.toItem]
      rw [shortRef_collapse keccak (expandRef_expand_ne gen cv),
        toItem_childRef keccak gen hch (ih none)]
  | fullNode cs flags ih =>
    intro hash hc
    obtain ⟨hrefs, v, hv⟩ := hc
    simp only [expand, collapse, Node.toItem]
    congr 1
    apply List.map_congr_left
    intro i _
    by_cases h16 : i = 16
    · -- the value slot: an empty value is absent, and collapses to the empty string
      subst h16
      rw [hv]
      cases v with
      | nil => rfl
      | cons b v => rfl
    · simp only [h16, if_false]
      exact toItem_childRef keccak gen (hrefs i h16) (ih i none)
  | _ => intro _ hc; exact absurd hc (by simp [Node.Storable])

end Collapse

end Atlantis.Trie
