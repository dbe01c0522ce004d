import Atlantis.Trie.Walk
import Atlantis.Trie.Cache
import Atlantis.Trie.Update

/-!
# The trie iterators

`trie/iterator.go`.  A `nodeIterator` walks the nodes of a trie depth first.  It keeps a
stack of `nodeIteratorState`s, one per node on the way down from the root.  Each holds the
index of the child it handed out last, and the length of the path above it.  `peek` finds
the next node: it asks the top of the stack for its next child, and pops the nodes whose
children are all handed out.  `seek` moves forward to the first node whose path is not
below a start key, descending only into nodes on the way to the key.  The `Iterator` on top
of it hands out the leaves, as key and value.

The stack is kept innermost node first.  The source's `*int` into the parent's index
becomes a flag saying that the top of the stack is the parent of the new state.  Each
function takes the database of the trie explicitly (the source reaches it through the
trie), and `Hash` its Keccak.  A panic of the source, and a loop of the model out of fuel,
is a `Fault`.

The proof that the iterator walks the trie in the order of `Walks` is in the second half:
the stack is an agenda, frame by frame (`agenda`), and each `Next` visits its first node.
-/

set_option linter.dupNamespace false

namespace Atlantis.Trie

/-- `nodeIteratorState`: the hash of the node (zero when it is not stored on its own), the
node, the hash of its first ancestor that has one, the index of the child handed out last,
and the length of the path to the node's parent. -/
structure IterState where
  hash : Atlantis.Hash
  node : MemNode
  parent : Atlantis.Hash
  index : Int
  pathlen : Nat

/-- The errors a node iterator keeps: `errIteratorEnd`, a `seekError` with the key the
seek was for, and a node missing from the database. -/
inductive IterError where
  | iteratorEnd
  | seek (key : List UInt8) (e : MissingNodeError)
  | missing (e : MissingNodeError)

/-- `nodeIterator`: the trie (`nil` in the iterator of an empty trie), the stack, the path
to the current node, and the error. -/
structure NodeIterator where
  trie : Option Trie
  stack : List IterState
  path : Nibbles
  err : Option IterError

/-- What `peek` returns: the next state, whether it has a parent on the stack, and its
path; or the error it ran into. -/
inductive Peek where
  | next (state : IterState) (hasParent : Bool) (path : Nibbles)
  | missing (e : MissingNodeError)
  | done

/-- `nodeIterator.Error`: the end of the iteration is no error, and a seek error is the
error of the seek. -/
def NodeIterator.Error (it : NodeIterator) : Option MissingNodeError :=
  match it.err with
  | none | some .iteratorEnd => none
  | some (.seek _ e) | some (.missing e) => some e

/-- `nodeIterator.Leaf`. -/
def NodeIterator.Leaf (it : NodeIterator) : Bool := hasTerm it.path

/-- `nodeIterator.LeafKey`: the key of the leaf the iterator stands at; the source panics
anywhere else. -/
def NodeIterator.LeafKey (it : NodeIterator) : Except Fault (List UInt8) :=
  match it.stack with
  | top :: _ =>
    match top.node with
    | .valueNode _ =>
      match hexToKeybytes it.path with
      | some k => .ok k
      | none => .error .panic
    | _ => .error .panic
  | [] => .error .panic

/-- `nodeIterator.LeafBlob`: the value of the leaf the iterator stands at. -/
def NodeIterator.LeafBlob (it : NodeIterator) : Except Fault (List UInt8) :=
  match it.stack with
  | top :: _ =>
    match top.node with
    | .valueNode v => .ok v
    | _ => .error .panic
  | [] => .error .panic

section Iterate

variable (db : Database)

/-- `nodeIteratorState.resolve`: a hash node is swapped for the node stored under it, and
its hash becomes the state's hash. -/
def IterState.resolve (st : IterState) (t : Option Trie) (path : Nibbles) :
    Except Fault IterState :=
  match st.node with
  | .hashNode h =>
    match t with
    | some t => (t.resolveHash db h path).map fun n => { st with node := n, hash := Hash.ofBytes h }
    | none => .error .panic
  | _ => .ok st

/-- The result of `peek` for a state whose resolution ended in `r`: a missing node is an
error `peek` returns. -/
def peekResolved (r : Except Fault IterState) (hasParent : Bool) (path : Nibbles) :
    Except Fault Peek :=
  match r with
  | .ok st => .ok (.next st hasParent path)
  | .error (.missingNode e) => .ok (.missing e)
  | .error f => .error f

/-- The loop of `nextChild` over a full node: the first slot from `j` on that holds a child. -/
def firstChild (cs : Fin 17 → MemNode) (j : Nat) : Option (Fin 17) :=
  if h : j < 17 then
    if (cs ⟨j, h⟩).isNil then firstChild cs (j + 1) else some ⟨j, h⟩
  else none
termination_by 17 - j

/-- The state of a child fresh on the stack. -/
def childState (child : MemNode) (ancestor : Atlantis.Hash) (pathlen : Nat) : IterState :=
  ⟨Hash.ofBytes (child.cache.1.getD []), child, ancestor, -1, pathlen⟩

/-- The hash of the first ancestor of the children of `parent` that is stored on its own. -/
def IterState.ancestor (parent : IterState) : Atlantis.Hash :=
  if parent.hash = Hash.zero then parent.parent else parent.hash

/-- `nodeIterator.nextChild`: the next child of `parent` after its index, with its path, and
`parent` with the index set just before that child.  The index never falls below `-1`, so
the scan of a full node starts inside its slots. -/
def nextChild (path : Nibbles) (parent : IterState) (ancestor : Atlantis.Hash) :
    Option (IterState × Nibbles × IterState) :=
  match parent.node with
  | .fullNode cs _ =>
    (firstChild cs (parent.index + 1).toNat).map fun i =>
      (childState (cs i) ancestor path.length, path ++ [i], { parent with index := (i.val : Int) - 1 })
  | .shortNode k v _ =>
    if parent.index < 0 then some (childState v ancestor path.length, path ++ k, parent) else none
  | _ => none

/-- The loop of `peek`: the next child of the node on top of the stack, popping the nodes
that have none left.  Returns the stack and path left, and the child with its path. -/
def climb : List IterState → Nibbles → List IterState × Nibbles × Option (IterState × Nibbles)
  | [], path => ([], path, none)
  | parent :: rest, path =>
    match nextChild path parent parent.ancestor with
    | some (st, path', parent') => (parent' :: rest, path, some (st, path'))
    | none => climb rest (path.take parent.pathlen)

/-- The part of `peek` after the stack has a node: the next child, resolved. -/
def nextNode (it : NodeIterator) : Except Fault (Peek × NodeIterator) :=
  match climb it.stack it.path with
  | (stack, path, none) => .ok (.done, { it with stack := stack, path := path })
  | (stack, path, some (st, childPath)) =>
    (peekResolved (st.resolve db it.trie childPath) true childPath).map fun p =>
      (p, { it with stack := stack, path := path })

variable (keccak : List UInt8 → Atlantis.Hash)

/-- `nodeIterator.peek`: the next state of the iterator.  On an empty stack it starts at the
root, hashing the trie first (which caches the hashes in the trie's nodes); when it is not
to descend, it pops the current node first. -/
def peek (it : NodeIterator) (descend : Bool) : Except Fault (Peek × NodeIterator) :=
  match it.stack with
  | [] =>
    match it.trie with
    | none => .error .panic
    | some t =>
      match t.Hash keccak with
      | none => .error .panic
      | some (root, t') =>
        let state : IterState :=
          ⟨if root ≠ emptyRoot then root else Hash.zero, t'.root, Hash.zero, -1, 0⟩
        (peekResolved (state.resolve db (some t') []) false []).map fun p =>
          (p, { it with trie := some t' })
  | top :: rest =>
    nextNode db (if descend then it else { it with stack := rest, path := it.path.take top.pathlen })

/-- `nodeIterator.push`: the state goes on the stack, and its parent's index moves on. -/
def NodeIterator.push (it : NodeIterator) (state : IterState) (hasParent : Bool)
    (path : Nibbles) : NodeIterator :=
  let stack := match hasParent, it.stack with
    | true, top :: rest => { top with index := top.index + 1 } :: rest
    | _, stack => stack
  { it with path := path, stack := state :: stack }

/-- The loop of `nodeIterator.seek` towards the hex key `key`, for the start key `pfx`. -/
def seekLoop (key : Nibbles) (pfx : List UInt8) :
    Nat → NodeIterator → Except Fault (Option IterError × NodeIterator)
  | 0, _ => .error .outOfFuel
  | fuel + 1, it =>
    (peek db keccak it (it.path.isPrefixOf key)).bind fun (p, it) =>
      match p with
      | .done => .ok (some .iteratorEnd, it)
      | .missing e => .ok (some (.seek pfx e), it)
      | .next state hasParent path =>
        if ¬ path < key then .ok (none, it)
        else seekLoop key pfx fuel (it.push state hasParent path)

/-- `nodeIterator.seek`: moves forward to just before the first node whose path is not
before the hex key of `pfx` without its terminator. -/
def seek (fuel : Nat) (it : NodeIterator) (pfx : List UInt8) :
    Except Fault (Option IterError × NodeIterator) :=
  seekLoop db keccak (keybytesToHex pfx).dropLast pfx fuel it

/-- The step of `nodeIterator.Next` after the seek: peek, then push what it found. -/
def advance (it : NodeIterator) (descend : Bool) : Except Fault (Bool × NodeIterator) :=
  (peek db keccak it descend).map fun (p, it) =>
    match p with
    | .next state hasParent path => (true, { it with err := none }.push state hasParent path)
    | .missing e => (false, { it with err := some (.missing e) })
    | .done => (false, { it with err := some .iteratorEnd })

/-- `nodeIterator.Next`: nothing after the end; a failed seek is tried again first. -/
def NodeIterator.Next (fuel : Nat) (it : NodeIterator) (descend : Bool) :
    Except Fault (Bool × NodeIterator) :=
  match it.err with
  | some .iteratorEnd => .ok (false, it)
  | some (.seek key _) =>
    (seek db keccak fuel it key).bind fun (err, it) =>
      match err with
      | some e => .ok (false, { it with err := some e })
      | none => advance db keccak { it with err := none } descend
  | _ => advance db keccak it descend

/-- `emptyState`, the hash of nothing. -/
def emptyState : Atlantis.Hash := keccak []

/-- `Trie.NodeIterator` (`newNodeIterator`): an iterator over the trie from the start key
on.  A trie whose hash is `emptyState` gets the empty iterator, with no trie. -/
def Trie.NodeIterator (fuel : Nat) (t : Trie) (start : List UInt8) : Except Fault NodeIterator :=
  match t.Hash keccak with
  | none => .error .panic
  | some (h, t') =>
    if h = emptyState keccak then .ok ⟨none, [], [], none⟩
    else (seek db keccak fuel ⟨some t', [], [], none⟩ start).map fun (err, it) => { it with err := err }

/-- `Iterator`: a key-value iterator over the leaves a node iterator visits. -/
structure Iterator where
  nodeIt : NodeIterator
  key : List UInt8
  value : List UInt8
  err : Option MissingNodeError

/-- `NewIterator`. -/
def NewIterator (it : NodeIterator) : Iterator := ⟨it, [], [], none⟩

/-- `Iterator.Next`: moves the node iterator on to the next leaf. -/
def Iterator.Next : Nat → Iterator → Except Fault (Bool × Iterator)
  | 0, _ => .error .outOfFuel
  | fuel + 1, it =>
    (NodeIterator.Next db keccak fuel it.nodeIt true).bind fun (more, nit) =>
      if more then
        if nit.Leaf then
          (nit.LeafKey).bind fun k => (nit.LeafBlob).map fun v =>
            (true, { it with nodeIt := nit, key := k, value := v })
        else Iterator.Next fuel { it with nodeIt := nit }
      else .ok (false, { it with nodeIt := nit, key := [], value := [], err := nit.Error })

/-- The entries an iterator hands out, `for it.Next() { ... }`, and the iterator at the end. -/
def Iterator.entries : Nat → Iterator → Except Fault (List (List UInt8 × List UInt8) × Iterator)
  | 0, _ => .error .outOfFuel
  | fuel + 1, it =>
    (it.Next db keccak fuel).bind fun (more, it) =>
      if more then (entries fuel it).map fun (es, it') => ((it.key, it.value) :: es, it')
      else .ok ([], it)

end Iterate

/-! ## The stack as an agenda -/

/-- The nodes still to visit under the stack: the children of each frame after its index, the
innermost frame first, each at the path of its frame. -/
def agenda : List IterState → Nibbles → List (Nibbles × MemNode)
  | [], _ => []
  | f :: rest, path => kidsAfter path f.index f.node ++ agenda rest (path.take f.pathlen)

/-- No frame has an index below `-1`. -/
def IndexOk (stack : List IterState) : Prop := ∀ f ∈ stack, -1 ≤ f.index

@[simp] theorem push_stack (it : NodeIterator) (st : IterState) (path : Nibbles) (top : IterState)
    (rest : List IterState) (h : it.stack = top :: rest) :
    (it.push st true path).stack = st :: { top with index := top.index + 1 } :: rest := by
  simp [NodeIterator.push, h]

@[simp] theorem push_path (it : NodeIterator) (st : IterState) (b : Bool) (path : Nibbles) :
    (it.push st b path).path = path := rfl

@[simp] theorem push_err (it : NodeIterator) (st : IterState) (b : Bool) (path : Nibbles) :
    (it.push st b path).err = it.err := rfl

@[simp] theorem push_trie (it : NodeIterator) (st : IterState) (b : Bool) (path : Nibbles) :
    (it.push st b path).trie = it.trie := rfl

/-! ### The next child of a frame -/

theorem fullKids_of_lt (p : Nibbles) (cs : Fin 17 → MemNode) {j : Nat} (h : j < 17) :
    fullKids p cs j =
      (if (cs ⟨j, h⟩).isNil then [] else [(p ++ [⟨j, h⟩], cs ⟨j, h⟩)]) ++ fullKids p cs (j + 1) := by
  rw [fullKids, dif_pos h]

theorem firstChild_eq_none_iff (p : Nibbles) (cs : Fin 17 → MemNode) (j : Nat) :
    firstChild cs j = none ↔ fullKids p cs j = [] := by
  fun_induction firstChild cs j with
  | case1 j h hnil ih => rw [fullKids_of_lt p cs h, if_pos hnil, List.nil_append, ih]
  | case2 j h hnil => simp [fullKids_of_lt p cs h, hnil]
  | case3 j h => simp [fullKids, h]

/-- The first child from slot `j` on heads the children from `j` on. -/
theorem firstChild_eq_some (p : Nibbles) (cs : Fin 17 → MemNode) {j : Nat} {i : Fin 17}
    (h : firstChild cs j = some i) :
    fullKids p cs j = (p ++ [i], cs i) :: fullKids p cs (i.val + 1) ∧
      fullKids p cs i.val = fullKids p cs j := by
  fun_induction firstChild cs j with
  | case1 j h hnil ih =>
    obtain ⟨h1, h2⟩ := ih h
    rw [fullKids_of_lt p cs ‹j < 17›, if_pos hnil, List.nil_append]
    exact ⟨h1, h2⟩
  | case2 j hj hnil =>
    obtain rfl := Option.some.inj h
    simp [fullKids_of_lt p cs hj, hnil]
  | case3 j hj => simp at h

theorem nextChild_eq_none {path : Nibbles} {parent : IterState} (anc : Atlantis.Hash)
    (h : kidsAfter path parent.index parent.node = []) : nextChild path parent anc = none := by
  cases hnd : parent.node with
  | fullNode cs flags =>
    simp only [kidsAfter, hnd] at h
    simp [nextChild, hnd, (firstChild_eq_none_iff path cs _).mpr h]
  | shortNode k v flags =>
    simp only [kidsAfter, hnd] at h
    split at h
    · simp at h
    · next hneg => simp [nextChild, hnd, hneg]
  | _ => simp [nextChild, hnd]

/-- The next child of a frame is the first of its children after its index; the frame keeps
it as its next one until `push` moves the index past it. -/
theorem nextChild_eq_some {path q : Nibbles} {parent : IterState} {c : MemNode}
    {A : List (Nibbles × MemNode)} (anc : Atlantis.Hash) (hi : -1 ≤ parent.index)
    (h : kidsAfter path parent.index parent.node = (q, c) :: A) :
    ∃ parent', nextChild path parent anc = some (childState c anc path.length, q, parent') ∧
      parent'.node = parent.node ∧ parent'.pathlen = parent.pathlen ∧
      parent'.hash = parent.hash ∧ parent'.parent = parent.parent ∧ -1 ≤ parent'.index ∧
      kidsAfter path parent'.index parent'.node = (q, c) :: A ∧
      kidsAfter path (parent'.index + 1) parent'.node = A := by
  cases hnd : parent.node with
  | fullNode cs flags =>
    simp only [kidsAfter, hnd] at h
    obtain ⟨i, hi'⟩ : ∃ i, firstChild cs (parent.index + 1).toNat = some i := by
      cases hf : firstChild cs (parent.index + 1).toNat with
      | none => simp [(firstChild_eq_none_iff path cs _).mp hf] at h
      | some i => exact ⟨i, rfl⟩
    obtain ⟨hkids, hfrom⟩ := firstChild_eq_some path cs hi'
    rw [hkids, List.cons.injEq, Prod.mk.injEq] at h
    obtain ⟨⟨rfl, rfl⟩, rfl⟩ := h
    refine ⟨{ parent with index := (i.val : Int) - 1 }, by simp [nextChild, hnd, hi'], hnd.symm ▸ rfl,
      rfl, rfl, rfl, show -1 ≤ (i.val : Int) - 1 by omega, ?_, ?_⟩
    · simp only [hnd, kidsAfter, show ((i.val : Int) - 1 + 1).toNat = i.val by omega, hfrom, hkids]
    · simp only [hnd, kidsAfter, show ((i.val : Int) - 1 + 1 + 1).toNat = i.val + 1 by omega]
  | shortNode k v flags =>
    simp only [kidsAfter, hnd] at h
    split at h
    · next hneg =>
      rw [List.cons.injEq, Prod.mk.injEq] at h
      obtain ⟨⟨rfl, rfl⟩, rfl⟩ := h
      refine ⟨parent, by simp [nextChild, hnd, hneg], hnd, rfl, rfl, rfl, hi, ?_, ?_⟩
      · simp [hnd, kidsAfter, hneg]
      · simp [hnd, kidsAfter, show ¬ parent.index + 1 < 0 by omega]
    · simp at h
  | _ => simp [kidsAfter, hnd] at h

theorem IterState.ancestor_eq {f g : IterState} (hh : f.hash = g.hash) (hp : f.parent = g.parent) :
    f.ancestor = g.ancestor := by
  simp [IterState.ancestor, hh, hp]

/-! ### The loop of `peek` -/

/-- With nothing left in the agenda, `peek` pops the whole stack. -/
theorem climb_nil : ∀ {stack : List IterState} {path : Nibbles}, IndexOk stack →
    agenda stack path = [] → ∃ path', climb stack path = ([], path', none)
  | [], path, _, _ => ⟨path, rfl⟩
  | f :: rest, path, hok, h => by
    simp only [agenda, List.append_eq_nil_iff] at h
    rw [climb, nextChild_eq_none _ h.1]
    exact climb_nil (fun g hg => hok g (List.mem_cons_of_mem _ hg)) h.2

/-- Otherwise `peek` pops the frames with no child left and stops at the first child in the
agenda; the agenda stays as it is until `push`, which takes that child off. -/
theorem climb_cons : ∀ {stack : List IterState} {path q : Nibbles} {c : MemNode}
    {A : List (Nibbles × MemNode)}, IndexOk stack → agenda stack path = (q, c) :: A →
    ∃ f rest path', climb stack path = (f :: rest, path', some (childState c f.ancestor path'.length, q)) ∧
      IndexOk (f :: rest) ∧ agenda (f :: rest) path' = (q, c) :: A ∧
      agenda ({ f with index := f.index + 1 } :: rest) path' = A ∧ path' <+: q
  | [], _, _, _, _, _, h => by simp [agenda] at h
  | g :: rest, path, q, c, A, hok, h => by
    have hrest : IndexOk rest := fun f hf => hok f (List.mem_cons_of_mem _ hf)
    simp only [agenda] at h
    cases hk : kidsAfter path g.index g.node with
    | nil =>
      rw [hk, List.nil_append] at h
      rw [climb, nextChild_eq_none _ hk]
      exact climb_cons hrest h
    | cons x K =>
      rw [hk, List.cons_append, List.cons.injEq] at h
      obtain ⟨rfl, rfl⟩ := h
      obtain ⟨g', hnext, hnode, hlen, hhash, hpar, hidx, hkids, hkids'⟩ :=
        nextChild_eq_some g.ancestor (hok g List.mem_cons_self) hk
      refine ⟨g', rest, path, ?_, ?_, ?_, ?_, prefix_of_mem_kidsAfter (hk ▸ List.mem_cons_self)⟩
      · rw [climb, hnext, IterState.ancestor_eq hhash hpar]
      · intro f hf
        rcases List.mem_cons.mp hf with rfl | hf
        · exact hidx
        · exact hrest f hf
      · simp [agenda, hkids, hlen]
      · simp [agenda, hkids', hlen]

/-! ### One step of the iterator -/

section Step

variable {db : Database} {t : Trie}

/-- The iterator walks the trie `t`: its stack is a nonempty agenda whose walk is `R`. -/
structure Inv (db : Database) (t : Trie) (it : NodeIterator) (R : List (Nibbles × MemNode)) :
    Prop where
  trie : it.trie = some t
  stack_ne : it.stack ≠ []
  index : IndexOk it.stack
  walks : Walks db t.cachegen (agenda it.stack it.path) R

/-- Resolving a state does to its node what the walk does. -/
theorem IterState.resolve_of_walks (st : IterState) (path : Nibbles) {n : MemNode}
    (hn : n.isHash = false)
    (hc : st.node = n ∨ ∃ hc, st.node = .hashNode hc ∧ db.resolve t.cachegen hc = some n) :
    ∃ st', st.resolve db (some t) path = .ok st' ∧ st'.node = n ∧ st'.index = st.index ∧
      st'.pathlen = st.pathlen := by
  rcases hc with hc | ⟨hc, hnode, hres⟩
  · refine ⟨st, ?_, hc, rfl, rfl⟩
    unfold IterState.resolve
    split
    · next h' => rw [hc] at h'; simp [h', Node.isHash] at hn
    · rfl
  · refine ⟨{ st with node := n, hash := Hash.ofBytes hc }, ?_, rfl, rfl, rfl⟩
    simp [IterState.resolve, hnode, Trie.resolveHash_of_resolve hres, Except.map]

theorem nextNode_done {it : NodeIterator} (hok : IndexOk it.stack)
    (hw : Walks db t.cachegen (agenda it.stack it.path) []) :
    ∃ it', nextNode db it = .ok (.done, it') ∧ it'.err = it.err := by
  have hnil : agenda it.stack it.path = [] := by
    cases h : agenda it.stack it.path with
    | nil => rfl
    | cons x A =>
      rw [h] at hw
      obtain ⟨n, R', hR, -⟩ := hw.cons_inv
      simp at hR
  obtain ⟨path', hclimb⟩ := climb_nil hok hnil
  exact ⟨{ it with stack := [], path := path' }, by simp [nextNode, hclimb], rfl⟩

/-- `peek` with a stack visits the first node of the walk, and `push` leaves the rest. -/
theorem nextNode_next {it : NodeIterator} {q : Nibbles} {n : MemNode}
    {R : List (Nibbles × MemNode)} (htr : it.trie = some t) (hok : IndexOk it.stack)
    (hw : Walks db t.cachegen (agenda it.stack it.path) ((q, n) :: R)) :
    ∃ st it', nextNode db it = .ok (.next st true q, it') ∧ st.node = n ∧ it'.err = it.err ∧
      Inv db t it' ((q, n) :: R) ∧ Inv db t (it'.push st true q) R := by
  obtain ⟨x, A, hag⟩ : ∃ x A, agenda it.stack it.path = x :: A := by
    cases h : agenda it.stack it.path with
    | nil => rw [h] at hw; cases hw
    | cons x A => exact ⟨x, A, rfl⟩
  obtain ⟨q', c⟩ := x
  rw [hag] at hw
  obtain ⟨n', R', hR, hn, hc, hkids⟩ := hw.cons_inv
  obtain ⟨⟨rfl, rfl⟩, rfl⟩ : (q = q' ∧ n = n') ∧ R = R' := by simpa using hR
  obtain ⟨f, rest, path', hclimb, hok', hag', hagpush, hpre⟩ := climb_cons hok hag
  obtain ⟨st, hres, hnode, hidx, hlen⟩ :=
    IterState.resolve_of_walks (childState c f.ancestor path'.length) q hn hc
  refine ⟨st, { it with stack := f :: rest, path := path' }, ?_, hnode, rfl, ?_, ?_⟩
  · simp [nextNode, hclimb, htr, hres, peekResolved, Except.map]
  · exact ⟨htr, by simp, hok', by simpa [hag'] using hw⟩
  · have hq : q.take path'.length = path' := by
      obtain ⟨s, rfl⟩ := hpre
      simp
    refine ⟨htr, by rw [push_stack _ _ _ f rest rfl]; exact List.cons_ne_nil _ _, ?_, ?_⟩
    · intro g hg
      rw [push_stack _ _ _ f rest rfl] at hg
      rcases List.mem_cons.mp hg with rfl | hg
      · simp [hidx, childState]
      · rcases List.mem_cons.mp hg with rfl | hg
        · have := hok' f List.mem_cons_self
          simp only
          omega
        · exact hok' g (List.mem_cons_of_mem _ hg)
    · rw [push_stack _ _ _ f rest rfl, push_path]
      simp only [agenda] at hagpush ⊢
      rw [hnode, hidx, hlen, show (childState c f.ancestor path'.length).index = -1 from rfl,
        show (childState c f.ancestor path'.length).pathlen = path'.length from rfl, hq, hagpush]
      exact hkids

theorem Inv.with_err {it : NodeIterator} {R : List (Nibbles × MemNode)} (h : Inv db t it R)
    (e : Option IterError) : Inv db t { it with err := e } R :=
  ⟨h.trie, h.stack_ne, h.index, h.walks⟩

end Step

/-! ### `Next` visits the walk -/

section Run

variable {db : Database} {keccak : List UInt8 → Atlantis.Hash}

/-- What `Next` goes on from, with the walk `R` left to visit: the iterator walks a trie; or it
has not started, and will walk the trie that hashing makes of its trie; or it is at its end. -/
def Ready (db : Database) (keccak : List UInt8 → Atlantis.Hash) (it : NodeIterator)
    (R : List (Nibbles × MemNode)) : Prop :=
  (it.err = none ∧ ∃ t, Inv db t it R) ∨
  (it.err = none ∧ it.stack = [] ∧ ∃ t h t', it.trie = some t ∧ t.Hash keccak = some (h, t') ∧
    Walks db t'.cachegen [([], t'.root)] R) ∨
  (it.err = some .iteratorEnd ∧ R = [])

theorem peek_true {it : NodeIterator} {top : IterState} {rest : List IterState}
    (h : it.stack = top :: rest) : peek db keccak it true = nextNode db it := by
  simp [peek, h]

theorem peek_false {it : NodeIterator} {top : IterState} {rest : List IterState}
    (h : it.stack = top :: rest) :
    peek db keccak it false =
      nextNode db { it with stack := rest, path := it.path.take top.pathlen } := by
  simp [peek, h]

/-- On an empty stack `peek` hashes the trie and visits its root, at the empty path. -/
theorem peek_root (it : NodeIterator) {t t' : Trie} {h : Atlantis.Hash} {q : Nibbles}
    {n : MemNode} {R : List (Nibbles × MemNode)} (hs : it.stack = []) (htr : it.trie = some t)
    (hh : t.Hash keccak = some (h, t')) (hw : Walks db t'.cachegen [([], t'.root)] ((q, n) :: R))
    (descend : Bool) :
    ∃ st, peek db keccak it descend = .ok (.next st false [], { it with trie := some t' }) ∧
      q = [] ∧ st.node = n ∧ Inv db t' ({ it with trie := some t' }.push st false []) R := by
  obtain ⟨n', R', hR, hn, hc, hkids⟩ := hw.cons_inv
  obtain ⟨⟨rfl, rfl⟩, rfl⟩ : (q = [] ∧ n = n') ∧ R = R' := by simpa using hR
  obtain ⟨st, hres, hnode, hidx, hlen⟩ := IterState.resolve_of_walks
    ⟨if h ≠ emptyRoot then h else Hash.zero, t'.root, Hash.zero, -1, 0⟩ [] hn hc
  refine ⟨st, ?_, rfl, hnode, ?_, ?_, ?_, ?_⟩
  · simp only [peek, hs, htr, hh]
    rw [hres]
    rfl
  · rfl
  · simp [NodeIterator.push]
  · intro g hg
    simp only [NodeIterator.push, hs, List.mem_singleton] at hg
    subst hg
    simp [hidx]
  · simp only [NodeIterator.push, hs, agenda, hidx, hnode]
    simpa using hkids

/-- At the end of the walk, `Next` ends the iteration. -/
theorem Next_done {it : NodeIterator} (hr : Ready db keccak it []) (fuel : Nat) :
    ∃ it', NodeIterator.Next db keccak fuel it true = .ok (false, it') ∧
      it'.err = some .iteratorEnd := by
  rcases hr with ⟨herr, t, hinv⟩ | ⟨-, -, t, h, t', -, -, hw⟩ | ⟨herr, -⟩
  · obtain ⟨top, rest, hs⟩ := List.exists_cons_of_ne_nil hinv.stack_ne
    obtain ⟨it', hnext, -⟩ := nextNode_done hinv.index hinv.walks
    exact ⟨{ it' with err := some .iteratorEnd },
      by simp [NodeIterator.Next, herr, advance, peek_true hs, hnext, Except.map], rfl⟩
  · obtain ⟨n, R', hR, -⟩ := hw.cons_inv
    simp at hR
  · exact ⟨it, by simp [NodeIterator.Next, herr], herr⟩

/-- Otherwise `Next` visits the first node of the walk. -/
theorem Next_visit {it : NodeIterator} {q : Nibbles} {n : MemNode} {R : List (Nibbles × MemNode)}
    (hr : Ready db keccak it ((q, n) :: R)) (fuel : Nat) :
    ∃ it', NodeIterator.Next db keccak fuel it true = .ok (true, it') ∧ it'.path = q ∧
      (∃ top rest, it'.stack = top :: rest ∧ top.node = n) ∧ Ready db keccak it' R := by
  rcases hr with ⟨herr, t, hinv⟩ | ⟨herr, hs, t, h, t', htr, hh, hw⟩ | ⟨-, hR⟩
  · obtain ⟨top, rest, hs⟩ := List.exists_cons_of_ne_nil hinv.stack_ne
    obtain ⟨st, it', hnext, hnode, -, hinv', hpush⟩ := nextNode_next hinv.trie hinv.index hinv.walks
    obtain ⟨f, rest', hs'⟩ := List.exists_cons_of_ne_nil hinv'.stack_ne
    refine ⟨{ it' with err := none }.push st true q, ?_, rfl,
      ⟨st, _, push_stack { it' with err := none } st q f rest' hs', hnode⟩,
      .inl ⟨rfl, t, hpush.with_err none⟩⟩
    simp [NodeIterator.Next, herr, advance, peek_true hs, hnext, Except.map]
  · obtain ⟨st, hpeek, rfl, hnode, hinv⟩ := peek_root it hs htr hh hw true
    refine ⟨{ it with trie := some t', err := none }.push st false [], ?_, rfl,
      ⟨st, [], by simp [NodeIterator.push, hs], hnode⟩, .inl ⟨rfl, t', hinv.with_err none⟩⟩
    simp [NodeIterator.Next, herr, advance, hpeek, Except.map]
  · simp at hR

/-! ### `seek` -/

/-- The nodes of a walk at or after the hex key `key`. -/
def atOrAfter (key : Nibbles) (R : List (Nibbles × MemNode)) : List (Nibbles × MemNode) :=
  R.filter fun y => !decide (y.1 < key)

theorem atOrAfter_cons_of_lt {key q : Nibbles} {n : MemNode} {R : List (Nibbles × MemNode)}
    (h : q < key) : atOrAfter key ((q, n) :: R) = atOrAfter key R :=
  List.filter_cons_of_neg (by simpa using h)

/-- A sorted walk whose first node is at or after `key` lies wholly at or after it. -/
theorem atOrAfter_of_pairwise {key q : Nibbles} {n : MemNode} {R : List (Nibbles × MemNode)}
    (hsorted : (((q, n) :: R).map Prod.fst).Pairwise (· < ·)) (hq : ¬ q < key) :
    atOrAfter key ((q, n) :: R) = (q, n) :: R := by
  refine List.filter_eq_self.mpr fun y hy => ?_
  simp only [Bool.not_eq_eq_eq_not, Bool.not_true, decide_eq_false_iff_not]
  rcases List.mem_cons.mp hy with rfl | hy
  · exact hq
  · simp only [List.map_cons, List.pairwise_cons, List.mem_map] at hsorted
    have hqy : q < y.1 := hsorted.1 y.1 ⟨y, hy, rfl⟩
    exact fun hyk => hq (List.lt_trans hqy hyk)

/-- The peek of a seek step: on the way to `key` the iterator descends; off it, it skips the
subtree of the current node, whose paths all come before `key`. -/
theorem seek_peek (keccak : List UInt8 → Atlantis.Hash) {key : Nibbles} {it : NodeIterator} {R : List (Nibbles × MemNode)} {t : Trie}
    (hinv : Inv db t it R) (hsorted : (R.map Prod.fst).Pairwise (· < ·)) (hpath : it.path < key) :
    ∃ itp Rp, peek db keccak it (it.path.isPrefixOf key) = nextNode db itp ∧ itp.trie = some t ∧
      itp.err = it.err ∧ IndexOk itp.stack ∧ Walks db t.cachegen (agenda itp.stack itp.path) Rp ∧
      (Rp.map Prod.fst).Pairwise (· < ·) ∧ atOrAfter key R = atOrAfter key Rp ∧
      Rp.length ≤ R.length := by
  obtain ⟨top, rest, hs⟩ := List.exists_cons_of_ne_nil hinv.stack_ne
  cases hp : it.path.isPrefixOf key
  · have hoff : ¬ it.path <+: key := by
      rw [← List.isPrefixOf_iff_prefix, hp]
      simp
    have hw := hinv.walks
    rw [hs, agenda] at hw
    obtain ⟨RA, RB, rfl, hA, hB⟩ := hw.append
    rw [List.map_append, List.pairwise_append] at hsorted
    refine ⟨{ it with stack := rest, path := it.path.take top.pathlen }, RB, peek_false hs,
      hinv.trie, rfl, fun f hf => hinv.index f (hs ▸ List.mem_cons_of_mem _ hf), hB, hsorted.2.1,
      ?_, by simp⟩
    rw [atOrAfter, List.filter_append, List.filter_eq_nil_iff.mpr, List.nil_append]
    · rfl
    -- every node below the current one comes before `key`
    intro y hy
    obtain ⟨x, hx, hxy⟩ := hA.below_agenda y hy
    have hlt : y.1 < key := List.lt_of_prefix_of_lt hpath hoff ((prefix_of_mem_kidsAfter hx).trans hxy)
    simpa using hlt
  · exact ⟨it, R, peek_true hs, hinv.trie, rfl, hinv.index, hinv.walks, hsorted, rfl, le_rfl⟩

/-- The loop of `seek` ends in front of the first node of the walk at or after `key`, or at the
end of the walk when there is none. -/
theorem seekLoop_spec (keccak : List UInt8 → Atlantis.Hash) {key : Nibbles} (pfx : List UInt8) (R0 : List (Nibbles × MemNode)) :
    ∀ (fuel : Nat) {it : NodeIterator} {R : List (Nibbles × MemNode)} {t : Trie},
      Inv db t it R → (R.map Prod.fst).Pairwise (· < ·) → atOrAfter key R0 = atOrAfter key R →
      it.path < key → R.length < fuel →
      ∃ err it', seekLoop db keccak key pfx fuel it = .ok (err, it') ∧ it'.err = it.err ∧
        ((err = none ∧ Inv db t it' (atOrAfter key R0)) ∨
          (err = some .iteratorEnd ∧ atOrAfter key R0 = []))
  | 0, _, _, _, _, _, _, _, hfuel => absurd hfuel (Nat.not_lt_zero _)
  | fuel + 1, it, R, t, hinv, hsorted, hfilter, hpath, hfuel => by
    obtain ⟨itp, Rp, hpeek, htr, herr, hok, hw, hsorted', hfilter', hlen⟩ :=
      seek_peek keccak hinv hsorted hpath
    rw [hfilter'] at hfilter
    cases Rp with
    | nil =>
      obtain ⟨it', hnext, herr'⟩ := nextNode_done hok hw
      exact ⟨some .iteratorEnd, it', by simp [seekLoop, hpeek, hnext, Except.bind],
        herr'.trans herr, .inr ⟨rfl, by simpa [atOrAfter] using hfilter⟩⟩
    | cons y R' =>
      obtain ⟨q, n⟩ := y
      obtain ⟨st, it', hnext, -, herr', hinv', hpush⟩ := nextNode_next htr hok hw
      by_cases hkey : ¬ q < key
      · -- the seek stops in front of the first node at or after `key`
        refine ⟨none, it', by simp [seekLoop, hpeek, hnext, hkey, Except.bind],
          herr'.trans herr, .inl ⟨rfl, ?_⟩⟩
        rwa [hfilter, atOrAfter_of_pairwise hsorted' hkey]
      · -- it pushes the node, which comes before `key`, and goes on
        have hq : q < key := not_not.mp hkey
        simp only [List.map_cons, List.pairwise_cons] at hsorted'
        obtain ⟨err, it'', hloop, herr'', hres⟩ := seekLoop_spec keccak pfx R0 fuel hpush hsorted'.2
          (hfilter.trans (atOrAfter_cons_of_lt hq)) hq (by simp at hlen; omega)
        refine ⟨err, it'', ?_, by rw [herr'', push_err, herr', herr], hres⟩
        simp [seekLoop, hpeek, hnext, hkey, hloop, Except.bind]

/-- `seek` from a fresh iterator: it hashes the trie, and stops in front of the first node at
or after the key of `pfx` in the walk of the hashed trie; or, when that key is empty, in
front of the root, which the first `Next` hashes once more. -/
theorem seek_spec {t : Trie} {M : TrieMap} (hw : Wf db t.root M)
    (hterm : KeyMap.TerminatedBelow 16 [] M) (pfx : List UInt8) {R2 R3 : List (Nibbles × MemNode)}
    (hR2 : Walks db t.cachegen [([], fill keccak true t.root)] R2)
    (hR3 : Walks db t.cachegen [([], fill keccak true (fill keccak true t.root))] R3)
    (fuel : Nat) (hfuel : R2.length < fuel) :
    ∃ err it, seek db keccak fuel ⟨some t, [], [], none⟩ pfx = .ok (err, it) ∧
      ∃ R0 ∈ [R2, R3], Ready db keccak { it with err := err }
        (atOrAfter (keybytesToHex pfx).dropLast R0) := by
  set key := (keybytesToHex pfx).dropLast with hkeydef
  obtain ⟨h2, hh2⟩ := Hash_fill keccak t hw
  have hw2 : Wf db (fill keccak true t.root) M := hw.fill keccak true
  obtain ⟨h3, hh3⟩ := Hash_fill keccak { t with root := fill keccak true t.root } hw2
  have hsorted2 := hR2.root_pairwise hw2 hterm
  obtain ⟨f, rfl⟩ : ∃ f, fuel = f + 1 := ⟨fuel - 1, by omega⟩
  obtain ⟨n, R2', rfl, -⟩ := hR2.cons_inv
  obtain ⟨st, hpeek, -, -, hinv⟩ := peek_root ⟨some t, [], [], none⟩ rfl rfl hh2 hR2 true
  by_cases hkey : ¬ ([] : Nibbles) < key
  · -- the empty key: the seek stops at the root, before pushing it
    set t2 : Trie := { t with root := fill keccak true t.root } with ht2
    refine ⟨none, ⟨some t2, [], [], none⟩,
      by simp [seek, seekLoop, ← hkeydef, hpeek, hkey, Except.bind], R3, by simp,
      .inr (.inl ⟨rfl, rfl, t2, h3, _, rfl, hh3, ?_⟩)⟩
    have hall : atOrAfter key R3 = R3 := by
      refine List.filter_eq_self.mpr fun y _ => ?_
      have hk : key = [] := by
        cases hk : key with
        | nil => rfl
        | cons a s => rw [hk] at hkey; exact absurd (List.nil_lt_cons a s) hkey
      simp [hk]
    rw [hall]
    exact hR3
  · -- otherwise the seek pushes the root and goes on in its walk
    have hq : ([] : Nibbles) < key := not_not.mp hkey
    simp only [List.map_cons, List.pairwise_cons] at hsorted2
    obtain ⟨err, it', hloop, herr, hres⟩ := seekLoop_spec keccak pfx
      (([], n) :: R2') f hinv hsorted2.2 (atOrAfter_cons_of_lt hq) hq (by simp at hfuel; omega)
    refine ⟨err, it', by simp [seek, seekLoop, ← hkeydef, hpeek, hkey, hloop, Except.bind],
      ([], n) :: R2', by simp, ?_⟩
    rcases hres with ⟨rfl, hinv'⟩ | ⟨rfl, hend⟩
    · exact .inl ⟨rfl, _, hinv'.with_err none⟩
    · exact .inr (.inr ⟨rfl, hend⟩)

/-! ### The key-value iterator -/

/-- A node of the walk of a trie of byte keys: its path ends with the terminator exactly
where it is a value, and then it is the hex key of a byte key. -/
def LeafShaped (y : Nibbles × MemNode) : Prop :=
  (hasTerm y.1 = true ↔ ∃ v, y.2 = .valueNode v) ∧
    ∀ v, y.2 = .valueNode v → ∃ k, y.1 = keybytesToHex k

/-- `Iterator.Next` hands out the first value node of the walk, or ends the iteration when
there is none. -/
theorem Iterator.Next_ready {R : List (Nibbles × MemNode)} (hshape : ∀ y ∈ R, LeafShaped y) :
    ∀ {it : Iterator} (fuel : Nat), Ready db keccak it.nodeIt R → R.length < fuel →
      (R.filterMap leafOf = [] ∧ ∃ it', it.Next db keccak fuel = .ok (false, it') ∧
          it'.err = none) ∨
      (∃ q v R', R.filterMap leafOf = (q, v) :: R'.filterMap leafOf ∧ R'.length < R.length ∧
        (∀ y ∈ R', y ∈ R) ∧ ∃ it', it.Next db keccak fuel = .ok (true, it') ∧
          keybytesToHex it'.key = q ∧ it'.value = v ∧ Ready db keccak it'.nodeIt R') := by
  induction R with
  | nil =>
    intro it fuel hr hfuel
    obtain ⟨f, rfl⟩ : ∃ f, fuel = f + 1 := ⟨fuel - 1, by simp at hfuel; omega⟩
    obtain ⟨nit, hnext, herr⟩ := Next_done hr f
    refine .inl ⟨rfl, { it with nodeIt := nit, key := [], value := [], err := nit.Error },
      by simp [Iterator.Next, hnext, Except.bind], ?_⟩
    simp [NodeIterator.Error, herr]
  | cons y R ih =>
    intro it fuel hr hfuel
    obtain ⟨f, rfl⟩ : ∃ f, fuel = f + 1 := ⟨fuel - 1, by simp at hfuel; omega⟩
    obtain ⟨q, n⟩ := y
    obtain ⟨nit, hnext, hpath, ⟨top, rest, hs, hnode⟩, hr'⟩ := Next_visit hr f
    obtain ⟨hterm, hkey⟩ := hshape (q, n) List.mem_cons_self
    have hshape' : ∀ y ∈ R, LeafShaped y := fun y hy => hshape y (List.mem_cons_of_mem _ hy)
    by_cases hv : ∃ v, n = .valueNode v
    · -- a value node is a leaf: `Next` hands out its key and value
      obtain ⟨v, rfl⟩ := hv
      obtain ⟨k, rfl⟩ := hkey v rfl
      have hleaf : nit.Leaf = true := by simp [NodeIterator.Leaf, hpath]
      refine .inr ⟨keybytesToHex k, v, R, by simp [leafOf], by simp,
        fun y hy => List.mem_cons_of_mem _ hy, { it with nodeIt := nit, key := k, value := v }, ?_,
        rfl, rfl, hr'⟩
      simp [Iterator.Next, hnext, hleaf, NodeIterator.LeafKey, NodeIterator.LeafBlob, hs, hnode,
        hpath, hexToKeybytes_keybytesToHex, Except.bind, Except.map]
    · -- any other node is passed over
      have hleaf : nit.Leaf = false := by
        simpa [NodeIterator.Leaf, hpath] using mt hterm.mp hv
      have hskip : leafOf (q, n) = none := by
        cases n <;> simp_all [leafOf]
      have hloop : it.Next db keccak (f + 1) = Iterator.Next db keccak f { it with nodeIt := nit } := by
        simp [Iterator.Next, hnext, hleaf, Except.bind]
      rw [hloop, List.filterMap_cons_none hskip]
      have hr'' : Ready db keccak ({ it with nodeIt := nit } : Iterator).nodeIt R := hr'
      rcases ih hshape' f hr'' (by simp at hfuel; omega) with
        ⟨hnil, it', hn, herr⟩ | ⟨q', v', R', hR', hlen, hsub, it', hn, hk, hval, hready⟩
      · exact .inl ⟨hnil, it', hn, herr⟩
      · exact .inr ⟨q', v', R', hR', by simp; omega,
          fun y hy => List.mem_cons_of_mem _ (hsub y hy), it', hn, hk, hval, hready⟩

/-- The client loop hands out the value nodes of the walk in order. -/
theorem Iterator.entries_ready :
    ∀ (fuel : Nat) {it : Iterator} {R : List (Nibbles × MemNode)},
      Ready db keccak it.nodeIt R → (∀ y ∈ R, LeafShaped y) → R.length + 1 < fuel →
      ∃ es it', it.entries db keccak fuel = .ok (es, it') ∧ it'.err = none ∧
        es.map (fun e => (keybytesToHex e.1, e.2)) = R.filterMap leafOf
  | 0, _, _, _, _, hfuel => absurd hfuel (Nat.not_lt_zero _)
  | fuel + 1, it, R, hr, hshape, hfuel => by
    rcases Iterator.Next_ready hshape fuel hr (by omega) with
      ⟨hnil, it', hn, herr⟩ | ⟨q, v, R', hR', hlen, hsub, it', hn, hk, hval, hr'⟩
    · exact ⟨[], it', by simp [Iterator.entries, hn, Except.bind], herr, hnil.symm⟩
    · obtain ⟨es, it'', hes, herr, hmap⟩ := entries_ready fuel hr'
        (fun y hy => hshape y (hsub y hy)) (by omega)
      refine ⟨(it'.key, it'.value) :: es, it'', ?_, herr, ?_⟩
      · simp [Iterator.entries, hn, hes, Except.bind, Except.map]
      · rw [hR', List.map_cons, hmap, hk, hval]

end Run

/-! ## Iterating a trie -/

section Entries

variable {db : Database} {keccak : List UInt8 → Atlantis.Hash}

/-- The hex keys of byte keys end with the terminator. -/
theorem terminatedBelow_of_byteKeys {M : TrieMap}
    (hkeys : ∀ p, (M p).isSome → ∃ k, p = keybytesToHex k) : KeyMap.TerminatedBelow 16 [] M := by
  intro p hp
  obtain ⟨k, rfl⟩ := hkeys p hp
  simpa using terminated_keybytesToHex k

/-- The walk of a trie of byte keys has its leaves where `Iterator.Next` looks for them. -/
theorem leafShaped_of_walks {root : MemNode} {M : TrieMap} {gen : UInt16}
    {R : List (Nibbles × MemNode)} (hw : Wf db root M)
    (hkeys : ∀ p, (M p).isSome → ∃ k, p = keybytesToHex k) (hR : Walks db gen [([], root)] R) :
    ∀ y ∈ R, LeafShaped y := by
  have hterm := terminatedBelow_of_byteKeys hkeys
  intro y hy
  refine ⟨hR.root_hasTerm_iff hw hterm y hy, fun v hv => ?_⟩
  obtain ⟨q, n⟩ := y
  simp only at hv
  subst hv
  have hM := (hR.root_valueNode_mem_iff hw hterm q v).mp hy
  exact hkeys q (by simp [hM])

/-- The entries handed out for a walk `R` are its leaves, under their byte keys. -/
theorem mem_entries_iff {es : List (List UInt8 × List UInt8)} {R : List (Nibbles × MemNode)}
    (hmap : es.map (fun e => (keybytesToHex e.1, e.2)) = R.filterMap leafOf) (k v : List UInt8) :
    (k, v) ∈ es ↔ (keybytesToHex k, .valueNode v) ∈ R := by
  rw [← mem_filterMap_leafOf, ← hmap]
  constructor
  · intro h
    exact List.mem_map.mpr ⟨(k, v), h, rfl⟩
  · intro h
    obtain ⟨⟨k', v'⟩, h', he⟩ := List.mem_map.mp h
    simp only [Prod.mk.injEq] at he
    obtain ⟨hk, rfl⟩ := he
    rwa [← keybytesToHex_injective hk]

/-- The entries handed out for a walk sorted by path come in the order of their hex keys. -/
theorem pairwise_entries {es : List (List UInt8 × List UInt8)} {R : List (Nibbles × MemNode)}
    (hmap : es.map (fun e => (keybytesToHex e.1, e.2)) = R.filterMap leafOf)
    (hsorted : (R.map Prod.fst).Pairwise (· < ·)) :
    (es.map fun e => keybytesToHex e.1).Pairwise (· < ·) := by
  have hes : (es.map fun e => keybytesToHex e.1) = (R.filterMap leafOf).map Prod.fst := by
    rw [← hmap, List.map_map]
    rfl
  rw [hes, List.pairwise_map]
  refine List.Pairwise.filterMap leafOf (fun a a' h b hb b' hb' => ?_) (List.pairwise_map.mp hsorted)
  rw [leafOf_eq_some] at hb hb'
  subst hb hb'
  exact h

/-- Iterating a trie from a start key hands out exactly the entries of the trie at or after
the hex key of the start key without its terminator, once each, in the order of their hex
keys, each with the value a lookup of its key finds.  The trie holds byte keys, and its root
hash is not the hash of nothing, for which the source makes an iterator with no trie. -/
theorem iterator_yields_entries_in_order (t : Trie) {M : TrieMap} (hw : Wf db t.root M)
    (hkeys : ∀ p, (M p).isSome → ∃ k, p = keybytesToHex k)
    (hempty : ∀ h t', t.Hash keccak = some (h, t') → h ≠ emptyState keccak) (s : List UInt8) :
    ∃ N, ∀ fuel, N ≤ fuel → ∃ es it,
      ((t.NodeIterator db keccak fuel s).bind fun nit => (NewIterator nit).entries db keccak fuel) =
        .ok (es, it) ∧ it.err = none ∧
      (∀ k v, (k, v) ∈ es ↔
        M (keybytesToHex k) = some v ∧ ¬ keybytesToHex k < (keybytesToHex s).dropLast) ∧
      (es.map fun e => keybytesToHex e.1).Pairwise (· < ·) ∧
      ∀ e ∈ es, ∃ t', t.TryGet (4 * e.1.length + 4) db e.1 = .ok (e.2, t') := by
  have hterm := terminatedBelow_of_byteKeys hkeys
  obtain ⟨h1, hh1⟩ := Hash_fill keccak t hw
  set t1 : Trie := { t with root := fill keccak true t.root } with ht1
  have hw1 : Wf db t1.root M := hw.fill keccak true
  have hw2 : Wf db (fill keccak true t1.root) M := hw1.fill keccak true
  have hw3 : Wf db (fill keccak true (fill keccak true t1.root)) M := hw2.fill keccak true
  -- the walks the seek and the first `Next` can start on fix the fuel needed
  obtain ⟨R2, hR2⟩ : ∃ R, Walks db t1.cachegen [([], fill keccak true t1.root)] R :=
    hw2.walks [] .nil
  obtain ⟨R3, hR3⟩ : ∃ R, Walks db t1.cachegen [([], fill keccak true (fill keccak true t1.root))] R :=
    hw3.walks [] .nil
  refine ⟨R2.length + R3.length + 2, fun fuel hfuel => ?_⟩
  obtain ⟨err, it, hseek, R0, hR0, hready⟩ := seek_spec hw1 hterm s hR2 hR3 fuel (by omega)
  obtain ⟨root, hwr, hR, hlen⟩ : ∃ root, Wf db root M ∧ Walks db t1.cachegen [([], root)] R0 ∧
      R0.length + 2 ≤ fuel := by
    simp only [List.mem_cons, List.not_mem_nil, or_false] at hR0
    rcases hR0 with rfl | rfl
    · exact ⟨_, hw2, hR2, by omega⟩
    · exact ⟨_, hw3, hR3, by omega⟩
  set key := (keybytesToHex s).dropLast
  have hready' : Ready db keccak (NewIterator { it with err := err }).nodeIt
      (atOrAfter key R0) := hready
  obtain ⟨es, it', hes, herr, hmap⟩ := Iterator.entries_ready fuel hready'
    (fun y hy => leafShaped_of_walks hwr hkeys hR y (List.mem_of_mem_filter hy))
    (by have := List.length_filter_le (fun y => !decide (y.1 < key)) R0; simp only [atOrAfter]; omega)
  have hmem : ∀ k v, (k, v) ∈ es ↔ M (keybytesToHex k) = some v ∧ ¬ keybytesToHex k < key := by
    intro k v
    rw [mem_entries_iff hmap, atOrAfter, List.mem_filter, hR.root_valueNode_mem_iff hwr hterm]
    simp
  refine ⟨es, it', ?_, herr, hmem, pairwise_entries hmap ((hR.root_pairwise hwr hterm).sublist
    ((List.filter_sublist (l := R0)).map Prod.fst)), ?_⟩
  · simp [Trie.NodeIterator, hh1, hempty h1 _ hh1, hseek, Except.map, Except.bind, hes]
  · rintro ⟨k, v⟩ he
    obtain ⟨root', hget, -⟩ := tryGet_top t db hw hterm k (le_refl _)
    exact ⟨_, by rw [hget, ((hmem k v).mp he).1]; rfl⟩

/-- The trie of `0x12` and `0x34` from `0x20` on: the entry of `0x34` alone is handed out. -/
theorem iterator_yields_entries_in_order_twoKeys :
    ∃ N, ∀ fuel, N ≤ fuel → ∃ es it,
      (((⟨twoKeys, Hash.zero, 0, 0⟩ : Trie).NodeIterator (Database.NewDatabase fun _ => none)
          markHash fuel [0x20]).bind fun nit =>
        (NewIterator nit).entries (Database.NewDatabase fun _ => none) markHash fuel) =
        .ok (es, it) ∧ it.err = none ∧
      (∀ k v, (k, v) ∈ es ↔ KeyMap.branch twoKeysMaps (keybytesToHex k) = some v ∧
        ¬ keybytesToHex k < (keybytesToHex [0x20]).dropLast) ∧
      (es.map fun e => keybytesToHex e.1).Pairwise (· < ·) ∧
      ∀ e ∈ es, ∃ t', (⟨twoKeys, Hash.zero, 0, 0⟩ : Trie).TryGet (4 * e.1.length + 4)
        (Database.NewDatabase fun _ => none) e.1 = .ok (e.2, t') := by
  -- the root hash is a hash of the root's encoding, not of nothing
  have hne : ((⟨twoKeys, Hash.zero, 0, 0⟩ : Trie).Hash markHash).map
      (fun r => decide (r.1 = emptyState markHash)) = some false := by
    decide +kernel
  exact iterator_yields_entries_in_order _ (wf_twoKeys _) represents_twoKeys.2
    (fun h t' hh => by simpa [hh] using hne) [0x20]

end Entries

end Atlantis.Trie
