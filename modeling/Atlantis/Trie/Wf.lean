import Atlantis.Lib.KeyMap
import Atlantis.Trie.Trie

/-!
# Well-formed tries and the maps they hold

The meaning of a trie node is a `KeyMap` from the hex keys below it to values.
`Wf db n m` says that `n` is a node in the canonical form the trie operations keep, and
holds the map `m`: short nodes have non-empty keys and a child that no extension can
absorb, full nodes have at least two children, values are not empty, and a hash node
stands for the node the database `db` decodes under its hash, in every cache generation.

Every key the trie is given is a hex key, so the keys of a map, behind the path to the
node, are terminated by the nibble `16` (`KeyMap.TerminatedBelow`).  This is what makes a
lookup stop at a value exactly at the end of its key.
-/

set_option linter.dupNamespace false

namespace Atlantis.Trie

/-- The values of a trie: byte strings. -/
abbrev TrieMap := KeyMap Nibble (List UInt8)

/-- The node stored under a hash, as `resolveHash` decodes it in cache generation `gen`. -/
def Database.resolve (db : Database) (gen : UInt16) (h : List UInt8) : Option MemNode :=
  match db.Node (Hash.ofBytes h) with
  | some enc => if enc = [] then none else (decodeNode (some h) enc gen).toOption
  | none => none

theorem Trie.resolveHash_of_resolve {t : Trie} {db : Database} {h : List UInt8} {n : MemNode}
    (hres : db.resolve t.cachegen h = some n) (pfx : Nibbles) : t.resolveHash db h pfx = .ok n := by
  unfold Database.resolve at hres
  cases henc : db.Node (Hash.ofBytes h) with
  | none => simp [henc] at hres
  | some enc =>
    rw [henc] at hres
    by_cases hne : enc = []
    · simp [hne] at hres
    · cases hdec : decodeNode (some h) enc t.cachegen with
      | error e => simp [hne, hdec, Except.toOption] at hres
      | ok n' =>
        simp only [hne, if_false, hdec, Except.toOption, Option.some.injEq] at hres
        subst hres
        simp [Trie.resolveHash, henc, hne, hdec]

theorem Trie.resolve_of_resolveHash {t : Trie} {db : Database} {h : List UInt8} {n : MemNode}
    {pfx : Nibbles} (hres : t.resolveHash db h pfx = .ok n) : db.resolve t.cachegen h = some n := by
  unfold Trie.resolveHash at hres
  unfold Database.resolve
  cases henc : db.Node (Hash.ofBytes h) with
  | none => simp [henc] at hres
  | some enc =>
    simp only [henc] at hres ⊢
    by_cases hne : enc = []
    · simp [hne] at hres
    · cases hdec : decodeNode (some h) enc t.cachegen with
      | error e => simp [hne, hdec] at hres
      | ok n' =>
        simp only [hne, hdec, if_false] at hres
        cases hres
        rw [if_neg hne]
        rfl

/-- Short and full nodes, the only nodes `decodeNode` returns. -/
def Node.isInner {κ : Type} : Node κ → Bool
  | .shortNode .. => true
  | .fullNode .. => true
  | _ => false

theorem mapError_eq_ok {ε ε' α : Type} {f : ε → ε'} {x : Except ε α} {a : α} :
    x.mapError f = .ok a ↔ x = .ok a := by
  cases x <;> simp [Except.mapError]

theorem decodeShort_isInner {dec : List UInt8 → Except NodeError MemNode}
    {hash : Option (List UInt8)} {elems : List UInt8} {gen : UInt16} {n : MemNode}
    (h : decodeShort dec hash elems gen = .ok n) : n.isInner := by
  unfold decodeShort at h
  repeat' split at h
  all_goals first
    | (simp only [Except.ok.injEq] at h; subst h; rfl)
    | simp at h

theorem decodeFull_isInner {dec : List UInt8 → Except NodeError MemNode}
    {hash : Option (List UInt8)} {elems : List UInt8} {gen : UInt16} {n : MemNode}
    (h : decodeFull dec hash elems gen = .ok n) : n.isInner := by
  unfold decodeFull at h
  repeat' split at h
  all_goals first
    | (simp only [Except.ok.injEq] at h; subst h; rfl)
    | simp at h

theorem decodeNodeF_isInner {fuel : Nat} {hash : Option (List UInt8)} {buf : List UInt8}
    {gen : UInt16} {n : MemNode} (h : decodeNodeF fuel hash buf gen = .ok n) : n.isInner := by
  cases fuel with
  | zero => simp [decodeNodeF] at h
  | succ fuel =>
    simp only [decodeNodeF] at h
    split at h
    · simp at h
    · split at h
      · simp at h
      · split at h
        · exact decodeShort_isInner (mapError_eq_ok.mp h)
        · exact decodeFull_isInner (mapError_eq_ok.mp h)
        · simp at h

theorem Database.resolve_isInner {db : Database} {gen : UInt16} {h : List UInt8} {n : MemNode}
    (hres : db.resolve gen h = some n) : n.isInner := by
  unfold Database.resolve at hres
  split at hres
  · split at hres
    · simp at hres
    · next enc _ _ =>
      cases hdec : decodeNode (some h) enc gen with
      | error e => simp [hdec, Except.toOption] at hres
      | ok n' =>
        simp only [hdec, Except.toOption, Option.some.injEq] at hres
        exact hres ▸ decodeNodeF_isInner hdec
  · simp at hres

/-! ## Well-formed nodes -/

/-- `n` is a node in canonical form holding the map `m`, its hash nodes resolved in `db`. -/
inductive Wf (db : Database) : MemNode → TrieMap → Prop
  | nil : Wf db .nil KeyMap.empty
  | valueNode {v : List UInt8} (hv : v ≠ []) : Wf db (.valueNode v) (KeyMap.single [] v)
  | shortNode {k : Nibbles} {c : MemNode} {m : TrieMap} (flags : NodeFlag) (hk : k ≠ [])
      (hc : Wf db c m) (hm : m.Branching) : Wf db (.shortNode k c flags) (m.prepend k)
  | fullNode {cs : Fin 17 → MemNode} {ms : Fin 17 → TrieMap} (flags : NodeFlag)
      (hcs : ∀ i, Wf db (cs i) (ms i))
      (htwo : ∃ i j, i ≠ j ∧ (ms i).Nonempty ∧ (ms j).Nonempty) :
      Wf db (.fullNode cs flags) (KeyMap.branch ms)
  | hashNode {h : List UInt8} {m : TrieMap} (hlen : h.length = HashLength)
      (hres : ∀ gen, (db.resolve gen h).isSome)
      (hwf : ∀ gen n, db.resolve gen h = some n → Wf db n m) : Wf db (.hashNode h) m

namespace Wf

variable {db : Database}

/-- The node a hash node resolves to in the generation of a trie. -/
theorem resolve_hashNode {h : List UInt8} {m : TrieMap} (hw : Wf db (.hashNode h) m)
    (gen : UInt16) : ∃ n, db.resolve gen h = some n ∧ Wf db n m ∧ n.isInner := by
  cases hw with
  | hashNode _ hres hwf =>
    obtain ⟨n, hn⟩ := Option.isSome_iff_exists.mp (hres gen)
    exact ⟨n, hn, hwf gen n hn, Database.resolve_isInner hn⟩

/-- Only the empty map is held by `nil`. -/
theorem nonempty {n : MemNode} {m : TrieMap} (hw : Wf db n m) (hn : n.isNil = false) :
    m.Nonempty := by
  induction hw with
  | nil => simp [Node.isNil] at hn
  | valueNode _ => exact KeyMap.nonempty_single _ _
  | shortNode _ _ _ hm _ => exact hm.1.prepend _
  | fullNode _ _ htwo _ =>
    obtain ⟨i, -, -, ⟨k, hk⟩, -⟩ := htwo
    exact ⟨i :: k, hk⟩
  | hashNode _ hres _ ih =>
    obtain ⟨n, hn'⟩ := Option.isSome_iff_exists.mp (hres 0)
    have hin := Database.resolve_isInner hn'
    exact ih 0 n hn' (by cases n <;> simp_all [Node.isNil, Node.isInner])

theorem eq_empty_iff {n : MemNode} {m : TrieMap} (hw : Wf db n m) :
    m = KeyMap.empty ↔ n.isNil := by
  constructor
  · intro hm
    by_contra hn
    have := hw.nonempty (by simpa using hn)
    rw [hm] at this
    obtain ⟨k, hk⟩ := this
    simp at hk
  · intro hn
    cases n <;> simp [Node.isNil] at hn
    cases hw
    rfl

/-- Inner nodes hold no value at their own path. -/
theorem apply_nil_of_isInner {n : MemNode} {m : TrieMap} (hw : Wf db n m) (hn : n.isInner) :
    m [] = none := by
  cases hw with
  | shortNode _ hk _ _ =>
    exact KeyMap.prepend_eq_none _ (by simpa [List.prefix_nil] using hk)
  | fullNode _ _ _ => rfl
  | _ => simp [Node.isInner] at hn

/-- A full node holds a map that no extension can absorb. -/
theorem branching_fullNode {cs : Fin 17 → MemNode} {flags : NodeFlag} {m : TrieMap}
    (hw : Wf db (.fullNode cs flags) m) : m.Branching := by
  cases hw with
  | fullNode _ _ htwo =>
    obtain ⟨i, j, hij, hi, hj⟩ := htwo
    exact KeyMap.branching_branch hij hi hj

/-- A value node holds a map that no extension can absorb. -/
theorem branching_valueNode {v : List UInt8} {m : TrieMap} (hw : Wf db (.valueNode v) m) :
    m.Branching := by
  cases hw with
  | valueNode _ => exact KeyMap.branching_single_nil _

/-- A node holds exactly one map. -/
theorem unique {n : MemNode} {m m' : TrieMap} (hw : Wf db n m) (hw' : Wf db n m') : m = m' := by
  induction hw generalizing m' with
  | nil => cases hw'; rfl
  | valueNode _ => cases hw'; rfl
  | shortNode _ _ _ _ ih =>
    cases hw' with
    | shortNode _ _ hc' _ => rw [ih hc']
  | fullNode _ _ _ ih =>
    cases hw' with
    | fullNode _ hcs' _ =>
      congr 1
      funext i
      exact ih i (hcs' i)
  | hashNode _ hres _ ih =>
    obtain ⟨n, hn⟩ := Option.isSome_iff_exists.mp (hres 0)
    cases hw' with
    | hashNode _ _ hwf' => exact ih 0 n hn (hwf' 0 n hn)

end Wf

/-- The fuel a trie operation spends at a node beyond two per nibble of the key: a hash
node is resolved first. -/
def Node.slack {κ : Type} : Node κ → Nat
  | .hashNode _ => 2
  | _ => 1

@[simp] theorem Node.slack_of_isInner {κ : Type} {n : Node κ} (h : n.isInner) : n.slack = 1 := by
  cases n <;> simp_all [Node.isInner, Node.slack]

theorem Node.slack_le {κ : Type} (n : Node κ) : n.slack ≤ 2 := by
  cases n <;> simp [Node.slack]

/-! ## Lookup -/

/-- The keys held below a terminated path are all empty. -/
theorem eq_nil_of_terminated {pfx s : Nibbles} {m : TrieMap}
    (hterm : KeyMap.TerminatedBelow 16 pfx m) (hpfx : KeyMap.Terminated 16 pfx)
    (hs : (m s).isSome) : s = [] :=
  hterm.eq_of_prefix (show KeyMap.Terminated 16 (pfx ++ []) by simpa using hpfx) hs
    (Or.inr List.nil_prefix)

/-- A full node holds no value at a terminated path. -/
theorem Wf.not_terminated_of_isInner {n : MemNode} {m : TrieMap} {pfx : Nibbles}
    (hw : Wf db n m) (hn : n.isInner) (hterm : KeyMap.TerminatedBelow 16 pfx m)
    (hpfx : KeyMap.Terminated 16 pfx) : False := by
  obtain ⟨s, hs⟩ := hw.nonempty (by cases n <;> simp_all [Node.isNil, Node.isInner])
  have h0 := eq_nil_of_terminated hterm hpfx hs
  subst h0
  simp [hw.apply_nil_of_isInner hn] at hs

/-- **Lookup.**  With fuel for two steps per nibble of the key, `tryGet` returns the value
the map holds at the key (empty when there is none), and a node holding the same map. -/
theorem tryGet_spec (t : Trie) (db : Database) :
    ∀ (fuel : Nat) {n : MemNode} {m : TrieMap} (pfx s : Nibbles),
      Wf db n m → KeyMap.Terminated 16 (pfx ++ s) → KeyMap.TerminatedBelow 16 pfx m →
      2 * s.length + n.slack ≤ fuel →
      ∃ n' r, t.tryGet db fuel n (pfx ++ s) pfx.length = .ok ((m s).getD [], n', r) ∧ Wf db n' m
  | 0, n, _, _, _, _, _, _, hfuel => by cases n <;> simp [Node.slack] at hfuel
  | fuel + 1, n, m, pfx, s, hw, hkey, hterm, hfuel => by
    cases hw with
    | nil => exact ⟨.nil, false, by simp [Trie.tryGet], .nil⟩
    | valueNode hv =>
      -- the key ends at the value
      have hs : [] = s := hterm.eq_of_prefix hkey (by simp) (Or.inl List.nil_prefix)
      subst hs
      exact ⟨_, false, by simp [Trie.tryGet], .valueNode hv⟩
    | shortNode flags hk hc hm =>
      rename_i k c m'
      by_cases hpre : k <+: s
      · obtain ⟨s', rfl⟩ := hpre
        have hfuel' : 2 * s'.length + c.slack ≤ fuel := by
          have := c.slack_le
          have : k.length ≠ 0 := by simpa using hk
          simp only [List.length_append, Node.slack] at hfuel
          omega
        obtain ⟨n', r, hget, hw'⟩ := tryGet_spec t db fuel (pfx ++ k) s' hc
          (by simpa using hkey) (KeyMap.terminatedBelow_prepend.mp hterm) hfuel'
        have hcond : ¬ ((pfx ++ (k ++ s')).length - pfx.length < k.length ∨
            k ≠ ((pfx ++ (k ++ s')).drop pfx.length).take k.length) := by simp
        rw [← List.append_assoc] at hcond
        refine ⟨if r then .shortNode k n' { flags with gen := t.cachegen } else
          .shortNode k c flags, r, ?_, ?_⟩
        · rw [← List.append_assoc, Trie.tryGet, if_neg hcond,
            show pfx.length + k.length = (pfx ++ k).length by simp, hget]
          cases r <;> simp [Except.map]
        · cases r
          · exact .shortNode flags hk hc hm
          · exact .shortNode _ hk hw' hm
      · have hnone : (m'.prepend k) s = none := KeyMap.prepend_eq_none _ hpre
        have hcond : (pfx ++ s).length - pfx.length < k.length ∨
            k ≠ ((pfx ++ s).drop pfx.length).take k.length := by
          by_contra hc'
          push Not at hc'
          apply hpre
          rw [List.drop_left] at hc'
          rw [hc'.2]
          exact List.take_prefix _ _
        refine ⟨_, false, ?_, .shortNode flags hk hc hm⟩
        rw [Trie.tryGet, if_pos hcond, hnone]
        rfl
    | fullNode flags hcs htwo =>
      rename_i cs ms
      cases s with
      | nil =>
        exact (Wf.not_terminated_of_isInner (.fullNode flags hcs htwo) rfl hterm
          (by simpa using hkey)).elim
      | cons i s' =>
        have hfuel' : 2 * s'.length + (cs i).slack ≤ fuel := by
          have := (cs i).slack_le
          simp only [List.length_cons, Node.slack] at hfuel
          omega
        obtain ⟨n', r, hget, hw'⟩ := tryGet_spec t db fuel (pfx ++ [i]) s' (hcs i)
          (by simpa using hkey) (KeyMap.terminatedBelow_branch.mp hterm i) hfuel'
        refine ⟨if r then .fullNode (Function.update cs i n') { flags with gen := t.cachegen } else
          .fullNode cs flags, r, ?_, ?_⟩
        · have hidx : (pfx ++ i :: s')[pfx.length]? = some i := by simp
          rw [Trie.tryGet, hidx]
          simp only
          rw [show pfx ++ i :: s' = pfx ++ [i] ++ s' by simp,
            show pfx.length + 1 = (pfx ++ [i]).length by simp, hget]
          cases r <;> simp [Except.map]
        · cases r
          · exact .fullNode flags hcs htwo
          · refine .fullNode _ (fun j => ?_) htwo
            by_cases hj : j = i
            · subst hj
              simpa using hw'
            · simpa [hj] using hcs j
    | hashNode hlen hres hwf =>
      rename_i h
      obtain ⟨c, hc, hwc, hin⟩ := Wf.resolve_hashNode (.hashNode hlen hres hwf) t.cachegen
      have hfuel' : 2 * s.length + c.slack ≤ fuel := by
        rw [Node.slack_of_isInner hin]
        simp only [Node.slack] at hfuel
        omega
      obtain ⟨n', r, hget, hw'⟩ := tryGet_spec t db fuel pfx s hwc hkey hterm hfuel'
      refine ⟨n', true, ?_, hw'⟩
      simp [Trie.tryGet, Trie.resolveHash_of_resolve hc, bind, Except.bind, hget]

end Atlantis.Trie
