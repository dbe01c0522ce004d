import Atlantis.Trie.Wf

/-!
# Insertion and deletion

`insert` and `delete` on well-formed tries: each returns a well-formed node holding the
map with the key set or removed, and spends at most two steps of fuel per nibble of the
key.  Every branch of the source shows up as a case: the value replaced at the end of the
key, a short node extended or forked at the nibble where the keys part, a full node
updated in one child, a hash node resolved first; on deletion, short nodes merged with
the short node their child became, and full nodes left with one child collapsed into a
short node.
-/

set_option linter.dupNamespace false

namespace Atlantis.Trie

variable {db : Database}

/-- A node under an extension by `k`, unless `k` is empty: how `insert` hangs a node below
a fresh branch. -/
theorem Wf.extend {c : MemNode} {m : TrieMap} (hc : Wf db c m) (hb : m.Branching)
    (k : Nibbles) (flags : NodeFlag) :
    Wf db (if k = [] then c else .shortNode k c flags) (m.prepend k) := by
  by_cases hk : k = []
  · subst hk
    simpa using hc
  · simpa [hk] using Wf.shortNode flags hk hc hb

/-- A full node keeps two children when one of them is given a map with a key. -/
theorem two_nonempty_update {ms : Fin 17 → TrieMap}
    (htwo : ∃ i j, i ≠ j ∧ (ms i).Nonempty ∧ (ms j).Nonempty) {i : Fin 17} {x : TrieMap}
    (hx : x.Nonempty) :
    ∃ i' j, i' ≠ j ∧ (Function.update ms i x i').Nonempty ∧ (Function.update ms i x j).Nonempty := by
  obtain ⟨i1, j1, hij, hi1, hj1⟩ := htwo
  by_cases h1 : i1 = i
  · subst h1
    exact ⟨i1, j1, hij, by simpa using hx, by simpa [Ne.symm hij] using hj1⟩
  · exact ⟨i, i1, Ne.symm h1, by simpa using hx, by simpa [h1] using hi1⟩

/-- The map of a node below a terminated path holds at most the empty key. -/
theorem set_nil_of_terminated {m : TrieMap} (hsub : ∀ s, (m s).isSome → s = []) (v : List UInt8) :
    m.set [] (some v) = KeyMap.single [] v := by
  ext s
  by_cases hs : s = []
  · subst hs
    simp
  · have : m s = none := by
      by_contra h
      exact hs (hsub s (Option.isSome_iff_ne_none.mpr h))
    simp [hs, this]

/-- Inserting at the end of the key replaces the node by the value. -/
theorem insert_end (t : Trie) {n : MemNode} {m : TrieMap} {v : List UInt8} (hv : v ≠ [])
    (hw : Wf db n m) (hsub : ∀ s, (m s).isSome → s = []) (fuel : Nat) (pfx : Nibbles) :
    ∃ dirty n', t.insert db (fuel + 1) n pfx [] (.valueNode v) = .ok (dirty, n') ∧
      Wf db n' (m.set [] (some v)) ∧ (dirty = false → m [] = some v) := by
  rw [set_nil_of_terminated hsub]
  cases n with
  | valueNode w =>
    cases hw
    refine ⟨decide (w ≠ v), .valueNode v, by simp [Trie.insert], .valueNode hv, ?_⟩
    intro h
    simp only [decide_eq_false_iff_not, not_not] at h
    simp [h]
  | _ => exact ⟨true, .valueNode v, by simp [Trie.insert], .valueNode hv, by simp⟩

/-- Inserting a key that parts from the key of a short node before its end: the short node
becomes a branch of the old child and the value, below the common prefix. -/
theorem insert_fork (t : Trie) {c : MemNode} {m : TrieMap} {v : List UInt8} (hv : v ≠ [])
    (flags : NodeFlag) (hc : Wf db c m) (hm : m.Branching) (fuel : Nat) (pfx p k key : Nibbles)
    {a b : Nibble} (hab : a ≠ b) :
    ∃ n', t.insert db (fuel + 2) (.shortNode (p ++ a :: k) c flags) pfx (p ++ b :: key)
        (.valueNode v) = .ok (true, n') ∧
      Wf db n' ((m.prepend (p ++ a :: k)).set (p ++ b :: key) (some v)) := by
  -- the two sides of the new branch
  have hw1 := hc.extend hm k t.newFlag
  have hw2 := (@Wf.valueNode db _ hv).extend (KeyMap.branching_single_nil v) key t.newFlag
  rw [KeyMap.prepend_single_nil] at hw2
  let ms : Fin 17 → TrieMap :=
    Function.update (Function.update (fun _ => KeyMap.empty) a (m.prepend k)) b
      (KeyMap.single key v)
  let br : MemNode := .fullNode (Function.update (Function.update (fun _ => .nil) a
      (if k = [] then c else .shortNode k c t.newFlag)) b
      (if key = [] then .valueNode v else .shortNode key (.valueNode v) t.newFlag)) t.newFlag
  have hbranch : Wf db br (KeyMap.branch ms) := by
    refine .fullNode _ (fun j => ?_) ⟨a, b, hab, ?_, ?_⟩
    · by_cases hjb : j = b
      · subst hjb
        simpa [ms] using hw2
      · by_cases hja : j = a
        · subst hja
          simpa [ms, hjb] using hw1
        · simpa [ms, hja, hjb] using Wf.nil
    · simpa [ms, hab] using (hm.1.prepend _)
    · simp [ms]
  have hbr : (KeyMap.branch ms).Branching :=
    KeyMap.branching_branch hab (by simpa [ms, hab] using hm.1.prepend _) (by simp [ms])
  rw [KeyMap.set_prepend_fork _ _ _ _ _ hab]
  refine ⟨if p.length = 0 then br else .shortNode p br t.newFlag, ?_, ?_⟩
  · have hnot : ¬ (p.length = (p ++ a :: k).length) := by simp
    simp only [Trie.insert, List.append_eq_nil_iff, reduceCtorEq, and_false, if_false,
      prefixLen_fork p (Ne.symm hab), hnot, List.getElem?_append_right (le_refl _), Nat.sub_self,
      List.getElem?_cons_zero, bind, Except.bind]
    by_cases hk : k = [] <;> by_cases hkey : key = [] <;> by_cases hp : p = [] <;>
      simp [hk, hkey, hp, br]
  · by_cases hp : p = []
    · subst hp
      simpa using hbranch
    · simpa [hp] using Wf.shortNode t.newFlag hp hbranch hbr

/-- **Insertion.**  With fuel for two steps per nibble of the key, `insert` returns a
well-formed node holding the map with the key set to the value; it reports no change only
when the key held that value already. -/
theorem insert_spec (t : Trie) {v : List UInt8} (hv : v ≠ []) :
    ∀ (fuel : Nat) {n : MemNode} {m : TrieMap} (pfx key : Nibbles),
      Wf db n m → KeyMap.Terminated 16 (pfx ++ key) → KeyMap.TerminatedBelow 16 pfx m →
      2 * key.length + n.slack ≤ fuel →
      ∃ dirty n', t.insert db fuel n pfx key (.valueNode v) = .ok (dirty, n') ∧
        Wf db n' (m.set key (some v)) ∧ (dirty = false → m key = some v)
  | 0, n, _, _, _, _, _, _, hfuel => by cases n <;> simp [Node.slack] at hfuel
  | fuel + 1, n, m, pfx, key, hw, hkey, hterm, hfuel => by
    by_cases hk0 : key = []
    · subst hk0
      exact insert_end t hv hw (fun s hs => eq_nil_of_terminated hterm (by simpa using hkey) hs)
        fuel pfx
    cases hw with
    | nil =>
      refine ⟨true, .shortNode key (.valueNode v) t.newFlag, by simp [Trie.insert, hk0], ?_,
        by simp⟩
      simpa [KeyMap.prepend_single_nil] using
        Wf.shortNode t.newFlag hk0 (@Wf.valueNode db _ hv) (KeyMap.branching_single_nil v)
    | valueNode _ =>
      -- a value ends its key, which no other key extends
      exact absurd (hterm.eq_of_prefix hkey (by simp)
        (Or.inl List.nil_prefix : [] <+: key ∨ key <+: [])).symm hk0
    | shortNode flags hk hc hm =>
      rename_i k c m'
      by_cases hpre : k <+: key
      · -- the whole key of the short node matches: insert below it
        obtain ⟨rest, rfl⟩ := hpre
        have hfuel' : 2 * rest.length + c.slack ≤ fuel := by
          have := c.slack_le
          have : k.length ≠ 0 := by simpa using hk
          simp only [List.length_append, Node.slack] at hfuel
          omega
        obtain ⟨dirty, nn, hins, hwn, hclean⟩ := insert_spec t hv fuel (pfx ++ k) rest hc
          (by simpa using hkey) (KeyMap.terminatedBelow_prepend.mp hterm) hfuel'
        have hml : prefixLen (k ++ rest) k = k.length := by rw [prefixLen_comm, prefixLen_append]
        cases dirty with
        | false =>
          have hval : m' rest = some v := hclean rfl
          refine ⟨false, .shortNode k c flags, ?_, ?_, fun _ => by simpa using hval⟩
          · simp [Trie.insert, hk0, hml, hins, bind, Except.bind]
          · rw [KeyMap.set_of_eq (by simpa using hval)]
            exact .shortNode flags hk hc hm
        | true =>
          refine ⟨true, .shortNode k nn t.newFlag, ?_, ?_, by simp⟩
          · simp [Trie.insert, hk0, hml, hins, bind, Except.bind]
          · rw [KeyMap.set_prepend]
            exact .shortNode _ hk hwn (hm.set_some rest v)
      · -- the keys part inside the key of the short node
        have hlt : prefixLen key k < k.length := by
          refine lt_of_le_of_ne (prefixLen_le_right key k) fun h => hpre ?_
          rw [← prefixLen_eq_length_iff, prefixLen_comm, h]
        have hlt' : prefixLen key k < key.length := by
          refine lt_of_le_of_ne (prefixLen_le_left key k) fun h => ?_
          -- the key would be a proper prefix of the keys below the short node
          obtain ⟨x, hx⟩ := hm.1
          have hkp := (prefixLen_eq_length_iff key k).mp h
          have heq := hterm.eq_of_prefix hkey (by simpa using hx)
            (Or.inr (hkp.trans (List.prefix_append k x)) : k ++ x <+: key ∨ key <+: k ++ x)
          exact hpre (heq ▸ List.prefix_append k x)
        obtain ⟨p, a, b, key2, k2, hab, rfl, rfl⟩ := exists_fork_of_prefixLen hlt' hlt
        obtain ⟨f, rfl⟩ : ∃ f, fuel = f + 1 := ⟨fuel - 1, by simp at hfuel; omega⟩
        obtain ⟨n', hins, hwn⟩ := insert_fork t hv flags hc hm f pfx p k2 key2 (Ne.symm hab)
        exact ⟨true, n', hins, hwn, by simp⟩
    | fullNode flags hcs htwo =>
      rename_i cs ms
      obtain ⟨i, rest, rfl⟩ := List.exists_cons_of_ne_nil hk0
      have hfuel' : 2 * rest.length + (cs i).slack ≤ fuel := by
        have := (cs i).slack_le
        simp only [List.length_cons, Node.slack] at hfuel
        omega
      obtain ⟨dirty, nn, hins, hwn, hclean⟩ := insert_spec t hv fuel (pfx ++ [i]) rest (hcs i)
        (by simpa using hkey) (KeyMap.terminatedBelow_branch.mp hterm i) hfuel'
      cases dirty with
      | false =>
        have hval : ms i rest = some v := hclean rfl
        refine ⟨false, .fullNode cs flags, ?_, ?_, fun _ => hval⟩
        · simp [Trie.insert, hins, bind, Except.bind]
        · rw [KeyMap.set_of_eq (show KeyMap.branch ms (i :: rest) = some v from hval)]
          exact .fullNode flags hcs htwo
      | true =>
        refine ⟨true, .fullNode (Function.update cs i nn) t.newFlag, ?_, ?_, by simp⟩
        · simp [Trie.insert, hins, bind, Except.bind]
        · rw [KeyMap.set_branch]
          refine .fullNode _ (fun j => ?_)
            (two_nonempty_update htwo (KeyMap.nonempty_set_some _ _ _))
          by_cases hj : j = i
          · subst hj
            simpa using hwn
          · simpa [hj] using hcs j
    | hashNode hlen hres hwf =>
      -- the part of the trie that is not loaded yet is resolved first
      obtain ⟨c, hc, hwc, hin⟩ := Wf.resolve_hashNode (.hashNode hlen hres hwf) t.cachegen
      have hfuel' : 2 * key.length + c.slack ≤ fuel := by
        rw [Node.slack_of_isInner hin]
        simp only [Node.slack] at hfuel
        omega
      obtain ⟨dirty, nn, hins, hwn, hclean⟩ := insert_spec t hv fuel pfx key hwc hkey hterm hfuel'
      have hres' := Trie.resolveHash_of_resolve hc pfx
      cases dirty with
      | false =>
        refine ⟨false, c, ?_, by rw [KeyMap.set_of_eq (hclean rfl)]; exact hwc, hclean⟩
        simp [Trie.insert, hk0, hres', hins, bind, Except.bind]
      | true =>
        refine ⟨true, nn, ?_, hwn, by simp⟩
        simp [Trie.insert, hk0, hres', hins, bind, Except.bind]

/-! ## Deletion -/

/-- What the loop of `delete` has found after scanning the indices `l`: no child, the one
child at `p`, or two children. -/
def PosSpec (cs : Fin 17 → MemNode) (l : List (Fin 17)) : Trie.ChildPos → Prop
  | .none => ∀ i ∈ l, (cs i).isNil
  | .one p => p ∈ l ∧ (cs p).isNil = false ∧ ∀ i ∈ l, i ≠ p → (cs i).isNil
  | .many => ∃ i ∈ l, ∃ j ∈ l, i ≠ j ∧ (cs i).isNil = false ∧ (cs j).isNil = false

/-- One step of the scan keeps `PosSpec`. -/
theorem posSpec_step (cs : Fin 17 → MemNode) {acc : List (Fin 17)} {pos : Trie.ChildPos}
    {i : Fin 17} (hi : i ∉ acc) (h : PosSpec cs acc pos) :
    PosSpec cs (acc ++ [i]) (Trie.ChildPos.step cs pos i) := by
  unfold Trie.ChildPos.step
  by_cases hnil : (cs i).isNil
  · rw [if_pos hnil]
    cases pos with
    | none =>
      intro j hj
      rcases List.mem_append.mp hj with hj | hj
      · exact h j hj
      · rw [List.mem_singleton.mp hj]
        exact hnil
    | one p =>
      obtain ⟨hp, hpn, hothers⟩ := h
      refine ⟨List.mem_append_left _ hp, hpn, fun j hj hjp => ?_⟩
      rcases List.mem_append.mp hj with hj | hj
      · exact hothers j hj hjp
      · rw [List.mem_singleton.mp hj]
        exact hnil
    | many =>
      obtain ⟨a, ha, b, hb, hab, hna, hnb⟩ := h
      exact ⟨a, List.mem_append_left _ ha, b, List.mem_append_left _ hb, hab, hna, hnb⟩
  · rw [if_neg hnil]
    simp only [Bool.not_eq_true] at hnil
    cases pos with
    | none =>
      refine ⟨by simp, hnil, fun j hj hji => ?_⟩
      rcases List.mem_append.mp hj with hj | hj
      · exact h j hj
      · exact absurd (List.mem_singleton.mp hj) hji
    | one p =>
      obtain ⟨hp, hpn, -⟩ := h
      exact ⟨p, List.mem_append_left _ hp, i, by simp, fun hpi => hi (hpi ▸ hp), hpn, hnil⟩
    | many =>
      obtain ⟨a, ha, b, hb, hab, hna, hnb⟩ := h
      exact ⟨a, List.mem_append_left _ ha, b, List.mem_append_left _ hb, hab, hna, hnb⟩

theorem posSpec_foldl (cs : Fin 17 → MemNode) :
    ∀ (l acc : List (Fin 17)) (pos : Trie.ChildPos), (acc ++ l).Nodup → PosSpec cs acc pos →
      PosSpec cs (acc ++ l) (l.foldl (Trie.ChildPos.step cs) pos)
  | [], acc, pos, _, h => by simpa using h
  | i :: l, acc, pos, hnd, h => by
    have hi : i ∉ acc := fun hi => (List.nodup_append.mp hnd).2.2 i hi i (by simp) rfl
    have := posSpec_foldl cs l (acc ++ [i]) _ (by simpa using hnd) (posSpec_step cs hi h)
    simpa using this

/-- The scan of `delete` finds no child, the only child, or two children. -/
theorem remainingPos_spec (cs : Fin 17 → MemNode) :
    PosSpec cs (List.finRange 17) (Trie.remainingPos cs) :=
  posSpec_foldl cs (List.finRange 17) [] .none (by simpa using List.nodup_finRange 17)
    (by simp [PosSpec])

/-- Resolving a node of a well-formed trie gives a node holding the same map, loaded. -/
theorem Wf.resolve (t : Trie) {n : MemNode} {m : TrieMap} (hw : Wf db n m) (pfx : Nibbles) :
    ∃ c, t.resolve db n pfx = .ok c ∧ Wf db c m ∧ ∀ h, c ≠ .hashNode h := by
  cases n with
  | hashNode h =>
    obtain ⟨c, hc, hwc, hin⟩ := hw.resolve_hashNode t.cachegen
    refine ⟨c, Trie.resolveHash_of_resolve hc pfx, hwc, fun h' => ?_⟩
    rintro rfl
    simp [Node.isInner] at hin
  | _ => exact ⟨_, rfl, hw, fun _ heq => by cases heq⟩

/-- A full node left with one child is reduced to a short node to it. -/
theorem reduceFull_spec (t : Trie) {cs : Fin 17 → MemNode} {ms : Fin 17 → TrieMap}
    (pfx : Nibbles) (hcs : ∀ j, Wf db (cs j) (ms j)) (hne : ∃ j, (ms j).Nonempty)
    (hterm : KeyMap.TerminatedBelow 16 pfx (KeyMap.branch ms)) :
    ∃ n', t.reduceFull db cs pfx = .ok (true, n') ∧ Wf db n' (KeyMap.branch ms) ∧ n'.isInner := by
  have hspec := remainingPos_spec cs
  unfold Trie.reduceFull
  cases hpos : Trie.remainingPos cs with
  | none =>
    rw [hpos] at hspec
    obtain ⟨j, hj⟩ := hne
    rw [(hcs j).eq_empty_iff.mpr (hspec j (List.mem_finRange j))] at hj
    obtain ⟨k, hk⟩ := hj
    simp at hk
  | many =>
    rw [hpos] at hspec
    obtain ⟨i, -, j, -, hij, hi, hj⟩ := hspec
    exact ⟨_, rfl, .fullNode _ hcs ⟨i, j, hij, (hcs i).nonempty hi, (hcs j).nonempty hj⟩, rfl⟩
  | one p =>
    rw [hpos] at hspec
    obtain ⟨-, hpn, hothers⟩ := hspec
    have hmap : KeyMap.branch ms = (ms p).prepend [p] := KeyMap.branch_eq_prepend
      fun j hj => (hcs j).eq_empty_iff.mpr (hothers j (List.mem_finRange j) hj)
    have hnp := (hcs p).nonempty hpn
    rw [hmap]
    by_cases hp : p = 16
    · -- the value child: its map holds the empty key only
      subst hp
      have hterm16 := KeyMap.terminatedBelow_branch.mp hterm 16
      obtain ⟨k, hk⟩ := hnp
      have hk0 := hterm16.eq_nil_of_terminator hk
      subst hk0
      exact ⟨.shortNode [16] (cs 16) t.newFlag, by simp,
        .shortNode _ (by simp) (hcs 16) (KeyMap.branching_of_isSome_nil hk), rfl⟩
    · obtain ⟨c, hres, hwc, hnh⟩ := (hcs p).resolve t pfx
      simp only [hp, ne_eq, not_false_eq_true, if_true, hres, bind, Except.bind]
      have hwp := hcs p
      generalize ms p = mp at hwc hwp hnp ⊢
      cases hwc with
      | shortNode flags hk hc hm =>
        refine ⟨_, rfl, ?_, rfl⟩
        rw [KeyMap.prepend_prepend]
        exact .shortNode _ (by simp) hc hm
      | nil =>
        obtain ⟨x, hx⟩ := hnp
        simp at hx
      | valueNode hv =>
        exact ⟨_, rfl, .shortNode _ (by simp) hwp (@Wf.valueNode db _ hv).branching_valueNode, rfl⟩
      | fullNode flags hcs' htwo =>
        exact ⟨_, rfl, .shortNode _ (by simp) hwp (Wf.fullNode flags hcs' htwo).branching_fullNode,
          rfl⟩
      | hashNode => exact absurd rfl (hnh _)

/-- A short node over a child that changed: merged with the child when it became a short
node. -/
theorem mergeShort_spec (t : Trie) {k : Nibbles} {c : MemNode} {m : TrieMap} (hk : k ≠ [])
    (hw : Wf db c m) (hne : m.Nonempty) (hc : c.isNil ∨ c.isInner) :
    Wf db (t.mergeShort k c) (m.prepend k) := by
  cases hw with
  | nil =>
    obtain ⟨x, hx⟩ := hne
    simp at hx
  | shortNode flags hk' hc' hm =>
    rw [KeyMap.prepend_prepend]
    exact .shortNode _ (by simp [hk]) hc' hm
  | fullNode flags hcs htwo =>
    exact .shortNode _ hk (.fullNode flags hcs htwo) (Wf.fullNode flags hcs htwo).branching_fullNode
  | valueNode _ => simp [Node.isNil, Node.isInner] at hc
  | hashNode => simp [Node.isNil, Node.isInner] at hc

theorem mergeShort_isInner (t : Trie) (k : Nibbles) (c : MemNode) : (t.mergeShort k c).isInner := by
  cases c <;> rfl

/-- Removing the key of a short node whose child holds only the empty key leaves nothing. -/
theorem set_prepend_self_none {m : TrieMap} (hsub : ∀ s, (m s).isSome → s = []) (k : Nibbles) :
    (m.prepend k).set k none = KeyMap.empty := by
  apply KeyMap.ext
  intro s
  by_cases hs : s = k
  · simp [hs]
  · rw [KeyMap.set_apply, if_neg hs, KeyMap.empty_apply]
    by_cases hpre : k <+: s
    · obtain ⟨x, rfl⟩ := hpre
      rw [KeyMap.prepend_append]
      by_contra hx
      exact hs (by simp [hsub x (Option.isSome_iff_ne_none.mpr hx)])
    · exact KeyMap.prepend_eq_none _ hpre

/-- **Deletion.**  With fuel for two steps per nibble of the key, `delete` returns a
well-formed node holding the map without the key; it reports no change only when the key
held nothing, and a node it changed is `nil` or loaded. -/
theorem delete_spec (t : Trie) :
    ∀ (fuel : Nat) {n : MemNode} {m : TrieMap} (pfx key : Nibbles),
      Wf db n m → KeyMap.Terminated 16 (pfx ++ key) → KeyMap.TerminatedBelow 16 pfx m →
      2 * key.length + n.slack ≤ fuel →
      ∃ dirty n', t.delete db fuel n pfx key = .ok (dirty, n') ∧ Wf db n' (m.set key none) ∧
        (dirty = false → m key = none) ∧ (dirty = true → n'.isNil ∨ n'.isInner)
  | 0, n, _, _, _, _, _, _, hfuel => by cases n <;> simp [Node.slack] at hfuel
  | fuel + 1, n, m, pfx, key, hw, hkey, hterm, hfuel => by
    cases hw with
    | nil =>
      exact ⟨false, .nil, by simp [Trie.delete], by simpa using Wf.nil, fun _ => rfl, by simp⟩
    | valueNode hv =>
      -- a value ends its key
      have hk0 : [] = key := hterm.eq_of_prefix hkey (by simp) (Or.inl List.nil_prefix)
      subst hk0
      refine ⟨true, .nil, by simp [Trie.delete], ?_, by simp, by simp [Node.isNil]⟩
      rw [KeyMap.single_set_none]
      exact .nil
    | shortNode flags hk hc hm =>
      rename_i k c m'
      by_cases hpre : k <+: key
      · obtain ⟨rest, rfl⟩ := hpre
        have hml : prefixLen (k ++ rest) k = k.length := by rw [prefixLen_comm, prefixLen_append]
        have hterm' := KeyMap.terminatedBelow_prepend.mp hterm
        by_cases hrest : rest = []
        · -- the key is the key of the short node, whose child is its value
          subst hrest
          have hsub : ∀ s, (m' s).isSome → s = [] :=
            fun s hs => eq_nil_of_terminated hterm' (by simpa using hkey) hs
          refine ⟨true, .nil, by simp [Trie.delete], ?_, by simp, by simp [Node.isNil]⟩
          rw [List.append_nil, set_prepend_self_none hsub]
          exact .nil
        · -- the key goes on below the short node
          have hfuel' : 2 * rest.length + c.slack ≤ fuel := by
            have := c.slack_le
            have : k.length ≠ 0 := by simpa using hk
            simp only [List.length_append, Node.slack] at hfuel
            omega
          obtain ⟨dirty, child, hdel, hwc, hclean, hshape⟩ :=
            delete_spec t fuel (pfx ++ k) rest hc (by simpa using hkey) hterm' hfuel'
          cases dirty with
          | false =>
            have hval : m' rest = none := hclean rfl
            refine ⟨false, .shortNode k c flags, ?_, ?_, fun _ => by simpa using hval, by simp⟩
            · simp [Trie.delete, hml, hrest, hdel, bind, Except.bind]
            · rw [KeyMap.set_of_eq (by simpa using hval)]
              exact .shortNode flags hk hc hm
          | true =>
            refine ⟨true, t.mergeShort k child, ?_, ?_, by simp,
              fun _ => .inr (mergeShort_isInner t k child)⟩
            · simp [Trie.delete, hml, hrest, hdel, bind, Except.bind]
            · rw [KeyMap.set_prepend]
              exact mergeShort_spec t hk hwc (hm.nonempty_set_none hrest) (hshape rfl)
      · -- the key is not below the short node
        have hlt : prefixLen key k < k.length := by
          refine lt_of_le_of_ne (prefixLen_le_right key k) fun h => hpre ?_
          rw [← prefixLen_eq_length_iff, prefixLen_comm, h]
        have hnone : (m'.prepend k) key = none := KeyMap.prepend_eq_none _ hpre
        refine ⟨false, .shortNode k c flags, by simp [Trie.delete, hlt], ?_, fun _ => hnone,
          by simp⟩
        rw [KeyMap.set_of_eq hnone]
        exact .shortNode flags hk hc hm
    | fullNode flags hcs htwo =>
      rename_i cs ms
      cases key with
      | nil =>
        exact (Wf.not_terminated_of_isInner (.fullNode flags hcs htwo) rfl hterm
          (by simpa using hkey)).elim
      | cons i rest =>
        have hfuel' : 2 * rest.length + (cs i).slack ≤ fuel := by
          have := (cs i).slack_le
          simp only [List.length_cons, Node.slack] at hfuel
          omega
        obtain ⟨dirty, nn, hdel, hwn, hclean, -⟩ := delete_spec t fuel (pfx ++ [i]) rest (hcs i)
          (by simpa using hkey) (KeyMap.terminatedBelow_branch.mp hterm i) hfuel'
        cases dirty with
        | false =>
          have hval : KeyMap.branch ms (i :: rest) = none := hclean rfl
          refine ⟨false, .fullNode cs flags, ?_, ?_, fun _ => hval, by simp⟩
          · simp [Trie.delete, hdel, bind, Except.bind]
          · rw [KeyMap.set_of_eq hval]
            exact .fullNode flags hcs htwo
        | true =>
          -- the children left after the deletion
          have hcs' : ∀ j, Wf db (Function.update cs i nn j)
              (Function.update ms i ((ms i).set rest none) j) := by
            intro j
            by_cases hj : j = i
            · subst hj
              simpa using hwn
            · simpa [hj] using hcs j
          have hne : ∃ j, (Function.update ms i ((ms i).set rest none) j).Nonempty := by
            obtain ⟨i1, j1, hij, hi1, hj1⟩ := htwo
            by_cases h1 : i1 = i
            · subst h1
              exact ⟨j1, by simpa [Ne.symm hij] using hj1⟩
            · exact ⟨i1, by simpa [h1] using hi1⟩
          have hterm' := hterm.set_none (i :: rest)
          rw [KeyMap.set_branch] at hterm'
          obtain ⟨n', hred, hwn', hin⟩ := reduceFull_spec t pfx hcs' hne hterm'
          refine ⟨true, n', ?_, ?_, by simp, fun _ => .inr hin⟩
          · simp [Trie.delete, hdel, hred, bind, Except.bind]
          · rw [KeyMap.set_branch]
            exact hwn'
    | hashNode hlen hres hwf =>
      -- the part of the trie that is not loaded yet is resolved first
      obtain ⟨c, hc, hwc, hin⟩ := Wf.resolve_hashNode (.hashNode hlen hres hwf) t.cachegen
      have hfuel' : 2 * key.length + c.slack ≤ fuel := by
        rw [Node.slack_of_isInner hin]
        simp only [Node.slack] at hfuel
        omega
      obtain ⟨dirty, nn, hdel, hwn, hclean, hshape⟩ := delete_spec t fuel pfx key hwc hkey hterm hfuel'
      have hres' := Trie.resolveHash_of_resolve hc pfx
      cases dirty with
      | false =>
        refine ⟨false, c, ?_, by rw [KeyMap.set_of_eq (hclean rfl)]; exact hwc, hclean, by simp⟩
        simp [Trie.delete, hres', hdel, bind, Except.bind]
      | true =>
        refine ⟨true, nn, ?_, hwn, by simp, hshape⟩
        simp [Trie.delete, hres', hdel, bind, Except.bind]

/-! ## The operations on whole tries -/

/-- A hex key is terminated. -/
theorem terminated_keybytesToHex (k : List UInt8) : KeyMap.Terminated 16 (keybytesToHex k) := by
  refine ⟨k.flatMap fun b => [hiNibble b, loNibble b], rfl, ?_⟩
  simp only [List.mem_flatMap, List.mem_cons, List.not_mem_nil, or_false, not_exists, not_and]
  intro b _ h
  rcases h with h | h
  · have := hiNibble_lt b
    rw [← h] at this
    simp at this
  · have := loNibble_lt b
    rw [← h] at this
    simp at this

/-- The trie map `M` holds the byte-keyed map `r`: under the hex key of every key, and
nowhere else. -/
def Represents {V : Type} (M : KeyMap Nibble V) (r : KeyMap UInt8 V) : Prop :=
  (∀ k, M (keybytesToHex k) = r k) ∧ ∀ h, (M h).isSome → ∃ k, h = keybytesToHex k

namespace Represents

variable {V : Type} {M : KeyMap Nibble V} {r : KeyMap UInt8 V}

theorem empty : Represents (KeyMap.empty : KeyMap Nibble V) KeyMap.empty :=
  ⟨fun _ => rfl, fun _ h => by simp at h⟩

theorem terminatedBelow (h : Represents M r) : KeyMap.TerminatedBelow 16 [] M := by
  intro s hs
  obtain ⟨k, rfl⟩ := h.2 s hs
  simpa using terminated_keybytesToHex k

theorem set (h : Represents M r) (k : List UInt8) (v : Option V) :
    Represents (M.set (keybytesToHex k) v) (r.set k v) := by
  refine ⟨fun k' => ?_, fun s hs => ?_⟩
  · by_cases hk : k' = k
    · simp [hk]
    · simp [hk, h.1 k', keybytesToHex_injective.ne hk]
  · simp only [KeyMap.set_apply] at hs
    split at hs
    · next heq => exact ⟨k, heq⟩
    · exact h.2 s hs

/-- A map is determined by what it represents. -/
theorem unique {M' : KeyMap Nibble V} (h : Represents M r) (h' : Represents M' r) : M = M' := by
  ext s
  by_cases hs : ∃ k, s = keybytesToHex k
  · obtain ⟨k, rfl⟩ := hs
    rw [h.1 k, h'.1 k]
  · have h1 : M s = none := by
      by_contra hne
      exact hs (h.2 s (Option.isSome_iff_ne_none.mpr hne))
    have h2 : M' s = none := by
      by_contra hne
      exact hs (h'.2 s (Option.isSome_iff_ne_none.mpr hne))
    rw [h1, h2]

end Represents

/-- The value stored by an update: an empty value deletes the key. -/
def storedValue (v : List UInt8) : Option (List UInt8) := if v = [] then none else some v

/-- **`TryUpdate`** on a well-formed trie holding `M` returns the trie holding `M` with the
key set to the value, or removed when the value is empty. -/
theorem tryUpdate_spec (t : Trie) (db : Database) {M : TrieMap} (hw : Wf db t.root M)
    (hterm : KeyMap.TerminatedBelow 16 [] M) (k v : List UInt8) {fuel : Nat}
    (hfuel : 4 * k.length + 4 ≤ fuel) :
    ∃ root, t.TryUpdate fuel db k v = .ok { t with root := root } ∧
      Wf db root (M.set (keybytesToHex k) (storedValue v)) := by
  have hkey : KeyMap.Terminated 16 ([] ++ keybytesToHex k) := by
    simpa using terminated_keybytesToHex k
  have hfuel' : 2 * (keybytesToHex k).length + t.root.slack ≤ fuel := by
    have := t.root.slack_le
    simp only [length_keybytesToHex]
    omega
  by_cases hv : v = []
  · subst hv
    obtain ⟨_, n', hdel, hwn, -⟩ := delete_spec t fuel [] _ hw hkey hterm hfuel'
    exact ⟨n', by simp [Trie.TryUpdate, hdel, Except.map], by simpa [storedValue] using hwn⟩
  · obtain ⟨_, n', hins, hwn, -⟩ := insert_spec t hv fuel [] _ hw hkey hterm hfuel'
    refine ⟨n', ?_, by simpa [storedValue, hv] using hwn⟩
    simp [Trie.TryUpdate, hv, hins, Except.map]

/-- **`TryDelete`** on a well-formed trie holding `M` returns the trie holding `M` without
the key. -/
theorem tryDelete_spec (t : Trie) (db : Database) {M : TrieMap} (hw : Wf db t.root M)
    (hterm : KeyMap.TerminatedBelow 16 [] M) (k : List UInt8) {fuel : Nat}
    (hfuel : 4 * k.length + 4 ≤ fuel) :
    ∃ root, t.TryDelete fuel db k = .ok { t with root := root } ∧
      Wf db root (M.set (keybytesToHex k) none) := by
  have hfuel' : 2 * (keybytesToHex k).length + t.root.slack ≤ fuel := by
    have := t.root.slack_le
    simp only [length_keybytesToHex]
    omega
  obtain ⟨_, n', hdel, hwn, -⟩ := delete_spec t fuel [] _ hw
    (by simpa using terminated_keybytesToHex k) hterm hfuel'
  exact ⟨n', by simp [Trie.TryDelete, hdel, Except.map], hwn⟩

/-- **`TryGet`** on a well-formed trie holding `M` returns the value under the key, empty
when there is none, and a trie holding `M`. -/
theorem tryGet_top (t : Trie) (db : Database) {M : TrieMap} (hw : Wf db t.root M)
    (hterm : KeyMap.TerminatedBelow 16 [] M) (k : List UInt8) {fuel : Nat}
    (hfuel : 4 * k.length + 4 ≤ fuel) :
    ∃ root, t.TryGet fuel db k = .ok ((M (keybytesToHex k)).getD [], { t with root := root }) ∧
      Wf db root M := by
  have hfuel' : 2 * (keybytesToHex k).length + t.root.slack ≤ fuel := by
    have := t.root.slack_le
    simp only [length_keybytesToHex]
    omega
  obtain ⟨n', r, hget, hwn⟩ := tryGet_spec t db fuel [] (keybytesToHex k) hw
    (by simpa using terminated_keybytesToHex k) hterm hfuel'
  simp only [List.nil_append, List.length_nil] at hget
  cases r with
  | false => exact ⟨t.root, by simp [Trie.TryGet, Except.map, hget], hw⟩
  | true => exact ⟨n', by simp [Trie.TryGet, Except.map, hget], hwn⟩

/-! ## A trie of two keys

The trie the examples of the later modules run on: a full node holding the keys `0x12` and
`0x34`.  The leaf of `0x12` is small, and its parent embeds it; the leaf of `0x34` holds 32
bytes, and its parent refers to it by its hash. -/

/-- A stand-in for Keccak-256 in the examples: the empty root for the encoding of the empty
string, as Keccak-256 gives, and otherwise the last 32 bytes of the blob behind a marker byte,
which tells apart the blobs of up to 31 bytes. -/
def markHash (b : List UInt8) : Atlantis.Hash :=
  if b = [0x80] then emptyRoot else Hash.ofBytes (1 :: b)

/-- The value of `0x34`, long enough for its leaf to be hashed. -/
def longValue : List UInt8 := List.replicate 32 6

/-- The children of `twoKeys`: the leaves of `0x12` and `0x34` at nibbles 1 and 3. -/
def twoKeysChildren (i : Fin 17) : MemNode :=
  if i = 1 then .shortNode [2, 16] (.valueNode [5]) ⟨none, 0, true⟩
  else if i = 3 then .shortNode [4, 16] (.valueNode longValue) ⟨none, 0, true⟩
  else .nil

/-- The full node of the keys `0x12` and `0x34`. -/
def twoKeys : MemNode := .fullNode twoKeysChildren ⟨none, 0, true⟩

/-- The maps the children of `twoKeys` hold. -/
def twoKeysMaps (i : Fin 17) : TrieMap :=
  if i = 1 then KeyMap.single [2, 16] [5]
  else if i = 3 then KeyMap.single [4, 16] longValue
  else KeyMap.empty

theorem wf_twoKeys (db : Database) : Wf db twoKeys (KeyMap.branch twoKeysMaps) := by
  -- a leaf of two nibbles, the second the terminator
  have hleaf : ∀ (a : Nibble) (v : List UInt8), v ≠ [] →
      Wf db (.shortNode [a, 16] (.valueNode v) ⟨none, 0, true⟩) (KeyMap.single [a, 16] v) := by
    intro a v hv
    rw [← KeyMap.prepend_single_nil]
    exact Wf.shortNode _ (by simp) (Wf.valueNode hv) (KeyMap.branching_single_nil _)
  refine Wf.fullNode _ (fun i => ?_) ⟨1, 3, by decide, ⟨[2, 16], by simp [twoKeysMaps]⟩,
    ⟨[4, 16], by simp [twoKeysMaps]⟩⟩
  unfold twoKeysChildren twoKeysMaps
  split_ifs
  · exact hleaf 2 [5] (by decide)
  · exact hleaf 4 longValue (by decide)
  · exact Wf.nil

theorem branch_twoKeysMaps (p : Nibbles) :
    KeyMap.branch twoKeysMaps p =
      if p = [1, 2, 16] then some [5] else if p = [3, 4, 16] then some longValue else none := by
  cases p with
  | nil => rfl
  | cons a q =>
    simp only [KeyMap.branch, twoKeysMaps, List.cons.injEq]
    by_cases h1 : a = 1
    · subst h1
      simp
    · by_cases h3 : a = 3
      · subst h3
        simp
      · simp [h1, h3]

theorem represents_twoKeys :
    Represents (KeyMap.branch twoKeysMaps) ((KeyMap.single [0x12] [5]).set [0x34] (some longValue)) := by
  have h12 : ∀ k : List UInt8, keybytesToHex k = [1, 2, 16] ↔ k = [0x12] := fun k =>
    (show keybytesToHex [0x12] = [1, 2, 16] from rfl) ▸ keybytesToHex_injective.eq_iff
  have h34 : ∀ k : List UInt8, keybytesToHex k = [3, 4, 16] ↔ k = [0x34] := fun k =>
    (show keybytesToHex [0x34] = [3, 4, 16] from rfl) ▸ keybytesToHex_injective.eq_iff
  refine ⟨fun k => ?_, fun p hp => ?_⟩
  · simp only [branch_twoKeysMaps, h12, h34, KeyMap.set_apply]
    by_cases hk : k = [0x34]
    · simp [hk]
    · by_cases hk' : k = [0x12]
      · simp [hk', KeyMap.single]
      · simp [hk, hk', KeyMap.single]
  · rw [branch_twoKeysMaps] at hp
    split_ifs at hp with ha hb
    · exact ⟨[0x12], ha⟩
    · exact ⟨[0x34], hb⟩
    · cases hp

end Atlantis.Trie
