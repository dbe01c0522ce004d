import Atlantis.Lib.Lex
import Atlantis.Trie.Wf

/-!
# Walking a trie in key order

What the node iterator of `trie/iterator.go` is for.  It visits the nodes of a trie depth
first: a node before its children, and the children in the order of their slots, the value
slot 16 of a full node last.  The hash nodes it meets are resolved in the database on the
way.  `Walks db gen A R` says that working off the agenda `A` (paths, each with the node
still to visit there) visits the nodes `R` in that order.  The iterator's stack is such an
agenda, laid out in frames (`Trie/Iterator.lean`).

Over a well formed trie the walk is sorted by path.  Its value nodes are the entries of the
trie's map.  A path ends with the terminator exactly where a value node stands.
-/

namespace Atlantis.Trie

/-- Whether the node is a hash node. -/
def Node.isHash {κ : Type} : Node κ → Bool
  | .hashNode _ => true
  | _ => false

/-- The children of a full node in slot `j` and after, each with its path. -/
def fullKids (p : Nibbles) (cs : Fin 17 → MemNode) (j : Nat) : List (Nibbles × MemNode) :=
  if h : j < 17 then
    (if (cs ⟨j, h⟩).isNil then [] else [(p ++ [⟨j, h⟩], cs ⟨j, h⟩)]) ++ fullKids p cs (j + 1)
  else []
termination_by 17 - j

/-- The children of the node `n` at path `p` that come after the child at index `i`: the
slots after `i` of a full node, and the child of a short node while `i` is negative. -/
def kidsAfter (p : Nibbles) (i : Int) : MemNode → List (Nibbles × MemNode)
  | .fullNode cs _ => fullKids p cs (i + 1).toNat
  | .shortNode k v _ => if i < 0 then [(p ++ k, v)] else []
  | _ => []

/-- `Walks db gen A R`: working off the agenda `A` visits the nodes `R`.  A hash node is
swapped for the node stored under it; any other node is visited, and its children go to
the front of the agenda. -/
inductive Walks (db : Database) (gen : UInt16) :
    List (Nibbles × MemNode) → List (Nibbles × MemNode) → Prop
  | nil : Walks db gen [] []
  | hashNode {p : Nibbles} {h : List UInt8} {n : MemNode} {A R : List (Nibbles × MemNode)}
      (hres : db.resolve gen h = some n) (hw : Walks db gen ((p, n) :: A) R) :
      Walks db gen ((p, .hashNode h) :: A) R
  | visit {p : Nibbles} {n : MemNode} {A R : List (Nibbles × MemNode)} (hn : n.isHash = false)
      (hw : Walks db gen (kidsAfter p (-1) n ++ A) R) :
      Walks db gen ((p, n) :: A) ((p, n) :: R)

/-- The entry a visited node holds: its path and value, for a value node. -/
def leafOf : Nibbles × MemNode → Option (Nibbles × List UInt8)
  | (p, .valueNode v) => some (p, v)
  | _ => none

theorem leafOf_eq_some {y : Nibbles × MemNode} {q : Nibbles} {v : List UInt8} :
    leafOf y = some (q, v) ↔ y = (q, .valueNode v) := by
  obtain ⟨p, n⟩ := y
  cases n <;> simp [leafOf, and_comm]

theorem mem_filterMap_leafOf {R : List (Nibbles × MemNode)} {q : Nibbles} {v : List UInt8} :
    (q, v) ∈ R.filterMap leafOf ↔ (q, .valueNode v) ∈ R := by
  simp [List.mem_filterMap, leafOf_eq_some]

/-! ## Children -/

theorem mem_fullKids {p : Nibbles} {cs : Fin 17 → MemNode} {j : Nat} {x : Nibbles × MemNode} :
    x ∈ fullKids p cs j ↔ ∃ i : Fin 17, j ≤ i.val ∧ (cs i).isNil = false ∧ x = (p ++ [i], cs i) := by
  fun_induction fullKids p cs j with
  | case1 j h ih =>
    rw [List.mem_append, ih]
    constructor
    · rintro (hx | ⟨i, hi, hn, rfl⟩)
      · split at hx
        · simp at hx
        · next hn => exact ⟨⟨j, h⟩, le_rfl, by simpa using hn, by simpa using hx⟩
      · exact ⟨i, by omega, hn, rfl⟩
    · rintro ⟨i, hi, hn, rfl⟩
      by_cases hij : i.val = j
      · left
        have hi' : i = ⟨j, h⟩ := Fin.ext hij
        subst hi'
        simp [hn]
      · exact Or.inr ⟨i, by omega, hn, rfl⟩
  | case2 j h =>
    simp only [List.not_mem_nil, false_iff]
    rintro ⟨i, hi, -, -⟩
    omega

theorem fullKids_pairwise (p : Nibbles) (cs : Fin 17 → MemNode) (j : Nat) :
    ((fullKids p cs j).map Prod.fst).Pairwise List.ForkLt := by
  fun_induction fullKids p cs j with
  | case1 j h ih =>
    rw [List.map_append, List.pairwise_append]
    refine ⟨by split <;> simp, ih, ?_⟩
    intro a ha b hb
    split at ha
    · simp at ha
    · simp only [List.map_cons, List.map_nil, List.mem_singleton] at ha
      obtain ⟨⟨q, c⟩, hx, rfl⟩ := List.mem_map.mp hb
      obtain ⟨i, hi, -, hq⟩ := mem_fullKids.mp hx
      simp only [Prod.mk.injEq] at hq
      rw [ha, hq.1]
      exact ⟨p, ⟨j, h⟩, i, [], [], Fin.mk_lt_of_lt_val (by omega), rfl, rfl⟩
  | case2 j h => simp

theorem prefix_of_mem_kidsAfter {p : Nibbles} {i : Int} {n : MemNode} {x : Nibbles × MemNode}
    (hx : x ∈ kidsAfter p i n) : p <+: x.1 := by
  unfold kidsAfter at hx
  split at hx
  · obtain ⟨i, -, -, rfl⟩ := mem_fullKids.mp hx
    exact List.prefix_append _ _
  · split at hx
    · rw [List.mem_singleton.mp hx]
      exact List.prefix_append _ _
    · simp at hx
  · simp at hx

theorem kidsAfter_pairwise (p : Nibbles) (i : Int) (n : MemNode) :
    ((kidsAfter p i n).map Prod.fst).Pairwise List.ForkLt := by
  unfold kidsAfter
  split
  · exact fullKids_pairwise _ _ _
  · split <;> simp
  · simp

/-! ## Walks -/

namespace Walks

variable {db : Database} {gen : UInt16}

/-- What the walk of an agenda does with its first entry: it visits the node there, after
resolving it when it is a hash node, and goes on with that node's children. -/
theorem cons_inv {p : Nibbles} {c : MemNode} {A R : List (Nibbles × MemNode)}
    (h : Walks db gen ((p, c) :: A) R) :
    ∃ n R', R = (p, n) :: R' ∧ n.isHash = false ∧
      (c = n ∨ ∃ hc, c = .hashNode hc ∧ db.resolve gen hc = some n) ∧
      Walks db gen (kidsAfter p (-1) n ++ A) R' := by
  cases h with
  | visit hn hw => exact ⟨c, _, rfl, hn, Or.inl rfl, hw⟩
  | @hashNode _ hc n _ _ hres hw =>
    cases hw with
    | visit hn hw' => exact ⟨n, _, rfl, hn, Or.inr ⟨hc, rfl, hres⟩, hw'⟩
    | hashNode hres' _ =>
      have hin := Database.resolve_isInner hres
      simp [Node.isInner] at hin

/-- A walk of two agendas one after the other is the walk of the first, then of the second. -/
theorem append {A B R : List (Nibbles × MemNode)} (h : Walks db gen (A ++ B) R) :
    ∃ RA RB, R = RA ++ RB ∧ Walks db gen A RA ∧ Walks db gen B RB := by
  generalize hL : A ++ B = L at h
  induction h generalizing A with
  | nil =>
    obtain ⟨rfl, rfl⟩ := List.append_eq_nil_iff.mp hL
    exact ⟨[], [], rfl, .nil, .nil⟩
  | @hashNode p h n A' R hres hw ih =>
    cases A with
    | nil =>
      rw [List.nil_append] at hL
      exact ⟨[], R, rfl, .nil, hL ▸ .hashNode hres hw⟩
    | cons x A =>
      obtain ⟨rfl, rfl⟩ := List.cons.inj hL
      obtain ⟨RA, RB, rfl, hA, hB⟩ := ih (A := (p, n) :: A) rfl
      exact ⟨RA, RB, rfl, .hashNode hres hA, hB⟩
  | @visit p n A' R hn hw ih =>
    cases A with
    | nil =>
      rw [List.nil_append] at hL
      exact ⟨[], (p, n) :: R, rfl, .nil, hL ▸ .visit hn hw⟩
    | cons x A =>
      obtain ⟨rfl, rfl⟩ := List.cons.inj hL
      obtain ⟨RA, RB, rfl, hA, hB⟩ := ih (A := kidsAfter p (-1) n ++ A) (by simp)
      exact ⟨(p, n) :: RA, RB, rfl, .visit hn hA, hB⟩

/-- Every node a walk visits lies below an entry of its agenda. -/
theorem below_agenda {A R : List (Nibbles × MemNode)} (h : Walks db gen A R) :
    ∀ y ∈ R, ∃ x ∈ A, x.1 <+: y.1 := by
  induction h with
  | nil => simp
  | hashNode _ _ ih =>
    intro y hy
    obtain ⟨x, hx, hxy⟩ := ih y hy
    rcases List.mem_cons.mp hx with rfl | hx
    · exact ⟨_, List.mem_cons_self, hxy⟩
    · exact ⟨x, List.mem_cons_of_mem _ hx, hxy⟩
  | visit _ _ ih =>
    intro y hy
    rcases List.mem_cons.mp hy with rfl | hy
    · exact ⟨_, List.mem_cons_self, List.prefix_refl _⟩
    obtain ⟨x, hx, hxy⟩ := ih y hy
    rcases List.mem_append.mp hx with hx | hx
    · exact ⟨_, List.mem_cons_self, (prefix_of_mem_kidsAfter hx).trans hxy⟩
    · exact ⟨x, List.mem_cons_of_mem _ hx, hxy⟩

/-- A property of paths and nodes that resolution and the step to the children keep holds
at every node a walk visits. -/
theorem forall_mem (Q : Nibbles → MemNode → Prop)
    (hres : ∀ p h n, Q p (.hashNode h) → db.resolve gen h = some n → Q p n)
    (hkids : ∀ p n, Q p n → n.isHash = false → ∀ x ∈ kidsAfter p (-1) n, Q x.1 x.2)
    {A R : List (Nibbles × MemNode)} (h : Walks db gen A R) (hA : ∀ x ∈ A, Q x.1 x.2) :
    ∀ y ∈ R, Q y.1 y.2 ∧ y.2.isHash = false := by
  induction h with
  | nil => simp
  | hashNode hr _ ih =>
    refine ih ?_
    intro x hx
    rcases List.mem_cons.mp hx with rfl | hx
    · exact hres _ _ _ (hA _ List.mem_cons_self) hr
    · exact hA x (List.mem_cons_of_mem _ hx)
  | @visit p n A R hn _ ih =>
    have hpn := hA (p, n) List.mem_cons_self
    intro y hy
    rcases List.mem_cons.mp hy with rfl | hy
    · exact ⟨hpn, hn⟩
    refine ih ?_ y hy
    intro x hx
    rcases List.mem_append.mp hx with hx | hx
    · exact hkids p n hpn hn x hx
    · exact hA x (List.mem_cons_of_mem _ hx)

end Walks


/-! ## Walks of well formed tries -/

/-- An agenda entry of a well formed trie: the node holds a map whose keys end with the
terminator behind its path, and only the root, at the empty path, is `nil`. -/
def WfAt (db : Database) (p : Nibbles) (n : MemNode) : Prop :=
  ∃ m, Wf db n m ∧ KeyMap.TerminatedBelow 16 p m ∧ (n.isNil = true → p = [])

/-- The node `x.2` holds the value `v` under a key that puts it at the path `q`. -/
def HoldsEntry (db : Database) (x : Nibbles × MemNode) (q : Nibbles) (v : List UInt8) : Prop :=
  ∃ m k, Wf db x.2 m ∧ m k = some v ∧ q = x.1 ++ k

namespace WfAt

variable {db : Database}

theorem resolve {gen : UInt16} {p : Nibbles} {h : List UInt8} {n : MemNode}
    (hg : WfAt db p (.hashNode h)) (hres : db.resolve gen h = some n) : WfAt db p n := by
  obtain ⟨m, hw, ht, -⟩ := hg
  obtain ⟨n', hn', hw', hin⟩ := hw.resolve_hashNode gen
  rw [hres, Option.some.injEq] at hn'
  subst hn'
  refine ⟨m, hw', ht, fun hnil => ?_⟩
  cases n <;> simp [Node.isNil, Node.isInner] at hnil hin

theorem kids {p : Nibbles} {n : MemNode} (hg : WfAt db p n) :
    ∀ x ∈ kidsAfter p (-1) n, WfAt db x.1 x.2 := by
  obtain ⟨m, hw, ht, -⟩ := hg
  intro x hx
  cases hw with
  | @shortNode k c m' flags hk hc hm =>
    simp only [kidsAfter, show (-1 : Int) < 0 by decide, if_true, List.mem_singleton] at hx
    subst hx
    refine ⟨m', hc, KeyMap.terminatedBelow_prepend.mp ht, fun hnil => ?_⟩
    obtain ⟨k', hk'⟩ := hm.1
    rw [hc.eq_empty_iff.mpr hnil] at hk'
    simp at hk'
  | @fullNode cs ms flags hcs _ =>
    obtain ⟨i, -, hn, rfl⟩ := mem_fullKids.mp hx
    exact ⟨ms i, hcs i, KeyMap.terminatedBelow_branch.mp ht i, fun h => by simp [h] at hn⟩
  | _ => simp [kidsAfter] at hx

/-- The children of a node of a well formed trie lie strictly below it. -/
theorem kids_strict {p : Nibbles} {n : MemNode} (hg : WfAt db p n) {i : Int} :
    ∀ x ∈ kidsAfter p i n, ∃ a s, x.1 = p ++ a :: s := by
  obtain ⟨m, hw, -, -⟩ := hg
  intro x hx
  cases hw with
  | @shortNode k c m' flags hk hc hm =>
    simp only [kidsAfter] at hx
    split at hx
    · obtain ⟨a, s, rfl⟩ := List.exists_cons_of_ne_nil hk
      exact ⟨a, s, by rw [List.mem_singleton.mp hx]⟩
    · simp at hx
  | fullNode flags hcs _ =>
    obtain ⟨i, -, -, rfl⟩ := mem_fullKids.mp hx
    exact ⟨i, [], rfl⟩
  | _ => simp [kidsAfter] at hx

/-- Below a path that ends with the terminator no inner node holds a key. -/
theorem hasTerm_eq_false_of_isInner {p : Nibbles} {n : MemNode} {m : TrieMap} (hw : Wf db n m)
    (ht : KeyMap.TerminatedBelow 16 p m) (hin : n.isInner = true) : hasTerm p = false := by
  by_contra hp
  obtain ⟨k, hk⟩ := hw.nonempty (by cases n <;> simp_all [Node.isNil, Node.isInner])
  have hlast : p.getLast? = some 16 := by simpa [hasTerm] using hp
  obtain ⟨p', rfl⟩ := List.getLast?_eq_some_iff.mp hlast
  have hk0 := KeyMap.TerminatedBelow.eq_nil_of_terminator ht hk
  subst hk0
  rw [hw.apply_nil_of_isInner hin] at hk
  simp at hk

/-- In a well formed trie a path ends with the terminator exactly where a value stands. -/
theorem hasTerm_iff {p : Nibbles} {n : MemNode} (hg : WfAt db p n) (hn : n.isHash = false) :
    hasTerm p = true ↔ ∃ v, n = .valueNode v := by
  obtain ⟨m, hw, ht, hnil⟩ := hg
  cases hw with
  | @valueNode v hv =>
    obtain ⟨l, hl, -⟩ := ht [] (by simp)
    simp only [List.append_nil] at hl
    subst hl
    simp
  | nil => simp [hnil rfl]
  | hashNode => simp [Node.isHash] at hn
  | shortNode flags hk hc hm =>
    have hp := hasTerm_eq_false_of_isInner (Wf.shortNode flags hk hc hm) ht rfl
    simp [hp]
  | fullNode flags hcs htwo =>
    have hp := hasTerm_eq_false_of_isInner (Wf.fullNode flags hcs htwo) ht rfl
    simp [hp]

/-- A hash node holds the entries of the node stored under it. -/
theorem holdsEntry_hashNode {gen : UInt16} {p : Nibbles} {h : List UInt8} {n : MemNode}
    (hg : WfAt db p (.hashNode h)) (hres : db.resolve gen h = some n) (q : Nibbles)
    (v : List UInt8) : HoldsEntry db (p, .hashNode h) q v ↔ HoldsEntry db (p, n) q v := by
  obtain ⟨m, hw, -⟩ := hg
  obtain ⟨n', hn', hwn, -⟩ := hw.resolve_hashNode gen
  rw [hres, Option.some.injEq] at hn'
  subst hn'
  constructor
  · rintro ⟨m', k, hw', hk, rfl⟩
    exact ⟨m, k, hwn, by rwa [hw.unique hw'], rfl⟩
  · rintro ⟨m', k, hw', hk, rfl⟩
    exact ⟨m, k, hw, by rwa [hwn.unique hw'], rfl⟩

end WfAt

section WfWalks

variable {db : Database} {gen : UInt16}

/-- The entries of an agenda of a well formed trie. -/
def AgendaWf (db : Database) (A : List (Nibbles × MemNode)) : Prop :=
  ∀ x ∈ A, WfAt db x.1 x.2

theorem AgendaWf.resolve {p : Nibbles} {h : List UInt8} {n : MemNode}
    {A : List (Nibbles × MemNode)} (hA : AgendaWf db ((p, .hashNode h) :: A))
    (hres : db.resolve gen h = some n) : AgendaWf db ((p, n) :: A) := by
  intro x hx
  rcases List.mem_cons.mp hx with rfl | hx
  · exact (hA _ List.mem_cons_self).resolve hres
  · exact hA x (List.mem_cons_of_mem _ hx)

theorem AgendaWf.visit {p : Nibbles} {n : MemNode} {A : List (Nibbles × MemNode)}
    (hA : AgendaWf db ((p, n) :: A)) : AgendaWf db (kidsAfter p (-1) n ++ A) := by
  intro x hx
  rcases List.mem_append.mp hx with hx | hx
  · exact (hA _ List.mem_cons_self).kids x hx
  · exact hA x (List.mem_cons_of_mem _ hx)

/-- The walk of the slots of a full node from `j` on exists once the walk after them does. -/
theorem walks_fullKids (p : Nibbles) (cs : Fin 17 → MemNode)
    (ih : ∀ i, ∀ A R, Walks db gen A R → ∃ R', Walks db gen ((p ++ [i], cs i) :: A) R')
    {A R : List (Nibbles × MemNode)} (hA : Walks db gen A R) (j : Nat) :
    ∃ R', Walks db gen (fullKids p cs j ++ A) R' := by
  fun_induction fullKids p cs j with
  | case1 j h ihj =>
    obtain ⟨R1, h1⟩ := ihj
    rw [List.append_assoc]
    split
    · exact ⟨R1, h1⟩
    · exact ih ⟨j, h⟩ _ _ h1
  | case2 j h => exact ⟨R, hA⟩

/-- Every well formed node can be walked, in front of any agenda that can. -/
theorem Wf.walks {n : MemNode} {m : TrieMap} (hw : Wf db n m) :
    ∀ (p : Nibbles) {A R : List (Nibbles × MemNode)}, Walks db gen A R →
      ∃ R', Walks db gen ((p, n) :: A) R' := by
  induction hw with
  | nil => exact fun p _ _ hA => ⟨_, .visit rfl (by simpa [kidsAfter] using hA)⟩
  | valueNode _ => exact fun p _ _ hA => ⟨_, .visit rfl (by simpa [kidsAfter] using hA)⟩
  | @shortNode k c m' flags hk hc hm ih =>
    intro p A R hA
    obtain ⟨R', h'⟩ := ih (p ++ k) hA
    exact ⟨_, .visit rfl (by simpa [kidsAfter] using h')⟩
  | @fullNode cs ms flags hcs htwo ih =>
    intro p A R hA
    obtain ⟨R', h'⟩ := walks_fullKids p cs (fun i _ _ h => ih i (p ++ [i]) h) hA 0
    exact ⟨_, .visit rfl (by simpa [kidsAfter] using h')⟩
  | @hashNode h m' hlen hres hwf ih =>
    intro p A R hA
    obtain ⟨n, hn⟩ := Option.isSome_iff_exists.mp (hres gen)
    obtain ⟨R', h'⟩ := ih gen n hn p hA
    exact ⟨R', .hashNode hn h'⟩

/-- The keys a node holds: its own value, and the keys its children hold. -/
theorem Wf.apply_eq_some_iff {n : MemNode} {m : TrieMap} (hw : Wf db n m) (hn : n.isHash = false)
    (p k : Nibbles) (v : List UInt8) :
    m k = some v ↔ (k = [] ∧ n = .valueNode v) ∨
      ∃ x ∈ kidsAfter p (-1) n, ∃ m' k', Wf db x.2 m' ∧ m' k' = some v ∧ p ++ k = x.1 ++ k' := by
  cases hw with
  | nil => simp [kidsAfter]
  | valueNode _ => simp [kidsAfter, eq_comm]
  | hashNode => simp [Node.isHash] at hn
  | @shortNode k0 c m0 flags hk hc hm =>
    simp only [kidsAfter, show (-1 : Int) < 0 by decide, if_true, List.mem_singleton,
      exists_eq_left, reduceCtorEq, and_false, false_or, List.append_assoc,
      List.append_cancel_left_eq]
    constructor
    · intro hkv
      by_cases hpre : k0 <+: k
      · obtain ⟨k', rfl⟩ := hpre
        exact ⟨m0, k', hc, by simpa using hkv, rfl⟩
      · simp [KeyMap.prepend_eq_none _ hpre] at hkv
    · rintro ⟨m', k', hw', hkv, rfl⟩
      rw [hc.unique hw']
      simpa using hkv
  | @fullNode cs ms flags hcs htwo =>
    simp only [kidsAfter, show ((-1 : Int) + 1).toNat = 0 by decide, reduceCtorEq, and_false,
      false_or]
    constructor
    · intro hkv
      cases k with
      | nil => simp at hkv
      | cons i k' =>
        rw [KeyMap.branch_cons] at hkv
        have hne : (cs i).isNil = false := by
          by_contra hnil
          rw [((hcs i).eq_empty_iff).mpr (by simpa using hnil)] at hkv
          simp at hkv
        exact ⟨(p ++ [i], cs i), mem_fullKids.mpr ⟨i, Nat.zero_le _, hne, rfl⟩, ms i, k', hcs i,
          hkv, by simp⟩
    · rintro ⟨x, hx, m', k', hw', hkv, hpk⟩
      obtain ⟨i, -, -, rfl⟩ := mem_fullKids.mp hx
      simp only [List.append_assoc, List.singleton_append, List.append_cancel_left_eq] at hpk
      subst hpk
      rw [KeyMap.branch_cons, (hcs i).unique hw']
      exact hkv

/-- The entries a node holds: its own value, and the entries its children hold. -/
theorem WfAt.holdsEntry_iff {p : Nibbles} {n : MemNode} (hg : WfAt db p n) (hn : n.isHash = false)
    (q : Nibbles) (v : List UInt8) :
    HoldsEntry db (p, n) q v ↔
      (q, .valueNode v) = (p, n) ∨ ∃ x ∈ kidsAfter p (-1) n, HoldsEntry db x q v := by
  obtain ⟨m, hw, -⟩ := hg
  constructor
  · rintro ⟨m', k, hw', hk, rfl⟩
    rw [← hw.unique hw'] at hk
    rcases (hw.apply_eq_some_iff hn p k v).mp hk with ⟨rfl, rfl⟩ | ⟨x, hx, m'', k', hw'', hk', he⟩
    · exact .inl (by simp)
    · exact .inr ⟨x, hx, m'', k', hw'', hk', he⟩
  · rintro (he | ⟨x, hx, m', k', hw', hk', rfl⟩)
    · obtain ⟨rfl, rfl⟩ := Prod.mk.inj he
      exact ⟨m, [], hw, (hw.apply_eq_some_iff hn q [] v).mpr (.inl ⟨rfl, rfl⟩), by simp⟩
    · -- a value below a child is a value of the node, under the key that leads to the child
      obtain ⟨k, hk⟩ := prefix_of_mem_kidsAfter hx
      refine ⟨m, k ++ k', hw, (hw.apply_eq_some_iff hn p (k ++ k') v).mpr
        (.inr ⟨x, hx, m', k', hw', hk', ?_⟩), ?_⟩ <;> rw [← hk, List.append_assoc]

/-- The value nodes a walk visits are the entries of the nodes of its agenda. -/
theorem Walks.valueNode_mem_iff {A R : List (Nibbles × MemNode)} (h : Walks db gen A R)
    (hA : AgendaWf db A) (q : Nibbles) (v : List UInt8) :
    (q, .valueNode v) ∈ R ↔ ∃ x ∈ A, HoldsEntry db x q v := by
  induction h with
  | nil => simp
  | @hashNode p h n A R hres _ ih =>
    rw [ih (hA.resolve hres)]
    simp only [List.mem_cons, or_and_right, exists_or, exists_eq_left,
      (hA _ List.mem_cons_self).holdsEntry_hashNode hres]
  | @visit p n A R hn _ ih =>
    have hg : WfAt db p n := hA _ List.mem_cons_self
    rw [List.mem_cons, ih hA.visit]
    simp only [List.mem_cons, List.mem_append, or_and_right, exists_or, exists_eq_left,
      hg.holdsEntry_iff hn, or_assoc]

/-- The walk of an agenda whose entries fork in order is sorted by path. -/
theorem Walks.pairwise_lt {A R : List (Nibbles × MemNode)} (h : Walks db gen A R)
    (hA : AgendaWf db A) (hfork : (A.map Prod.fst).Pairwise List.ForkLt) :
    (R.map Prod.fst).Pairwise (· < ·) := by
  induction h with
  | nil => simp
  | hashNode hres _ ih => exact ih (hA.resolve hres) (by simpa using hfork)
  | @visit p n A R hn hw ih =>
    have hpn : WfAt db p n := hA _ List.mem_cons_self
    simp only [List.map_cons, List.pairwise_cons, List.mem_map] at hfork
    -- the children fork among themselves, and from the rest of the agenda below `p`
    have hfork' : ((kidsAfter p (-1) n ++ A).map Prod.fst).Pairwise List.ForkLt := by
      rw [List.map_append, List.pairwise_append]
      refine ⟨kidsAfter_pairwise p (-1) n, hfork.2, ?_⟩
      intro a ha b hb
      obtain ⟨x, hx, rfl⟩ := List.mem_map.mp ha
      exact List.ForkLt.extend (hfork.1 b (List.mem_map.mp hb)) (prefix_of_mem_kidsAfter hx)
        (List.prefix_refl b)
    simp only [List.map_cons, List.pairwise_cons, List.mem_map]
    refine ⟨?_, ih hA.visit hfork'⟩
    rintro _ ⟨y, hy, rfl⟩
    obtain ⟨x, hx, hxy⟩ := hw.below_agenda y hy
    rcases List.mem_append.mp hx with hx | hx
    · obtain ⟨a, s, hxs⟩ := hpn.kids_strict x hx
      obtain ⟨t, ht⟩ := hxy
      rw [← ht, hxs, List.append_assoc, List.cons_append]
      exact List.lt_append_cons p a _
    · exact (List.ForkLt.extend (hfork.1 x.1 ⟨x, hx, rfl⟩) (List.prefix_refl p) hxy).lt

/-! ### The walk of a whole trie -/

section Root

variable {root : MemNode} {M : TrieMap} {R : List (Nibbles × MemNode)}

theorem agendaWf_root (hw : Wf db root M) (hterm : KeyMap.TerminatedBelow 16 [] M) :
    AgendaWf db [([], root)] := by
  intro x hx
  rw [List.mem_singleton.mp hx]
  exact ⟨M, hw, hterm, fun _ => rfl⟩

/-- The walk of a trie is sorted by path. -/
theorem Walks.root_pairwise (hw : Wf db root M) (hterm : KeyMap.TerminatedBelow 16 [] M)
    (hR : Walks db gen [([], root)] R) : (R.map Prod.fst).Pairwise (· < ·) :=
  hR.pairwise_lt (agendaWf_root hw hterm) (by simp)

/-- The value nodes the walk of a trie visits are the entries of the trie. -/
theorem Walks.root_valueNode_mem_iff (hw : Wf db root M) (hterm : KeyMap.TerminatedBelow 16 [] M)
    (hR : Walks db gen [([], root)] R) (q : Nibbles) (v : List UInt8) :
    (q, .valueNode v) ∈ R ↔ M q = some v := by
  rw [hR.valueNode_mem_iff (agendaWf_root hw hterm)]
  constructor
  · rintro ⟨x, hx, m, k, hw', hk, rfl⟩
    rw [List.mem_singleton.mp hx] at hw' ⊢
    rw [hw.unique hw']
    simpa using hk
  · intro hq
    exact ⟨([], root), List.mem_singleton_self _, M, q, hw, hq, rfl⟩

/-- The walk of a trie stands at a path with the terminator exactly at its values. -/
theorem Walks.root_hasTerm_iff (hw : Wf db root M) (hterm : KeyMap.TerminatedBelow 16 [] M)
    (hR : Walks db gen [([], root)] R) :
    ∀ y ∈ R, hasTerm y.1 = true ↔ ∃ v, y.2 = .valueNode v := by
  intro y hy
  obtain ⟨hg, hn⟩ := hR.forall_mem (WfAt db) (fun _ _ _ hg hres => hg.resolve hres)
    (fun _ _ hg _ => hg.kids) (agendaWf_root hw hterm) y hy
  exact hg.hasTerm_iff hn

end Root

end WfWalks

end Atlantis.Trie
