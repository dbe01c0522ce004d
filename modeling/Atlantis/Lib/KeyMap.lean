import Mathlib.Logic.Function.Basic
import Mathlib.Data.List.Basic

/-!
# Maps keyed by lists

A `KeyMap α β` is a partial function from lists of `α` to `β`: the meaning of a trie, and
of every subtrie, whose keys are the paths below it.  The operations are the ones a trie
node performs on the map of its children: `prepend` puts a common prefix in front of every
key (an extension node), `branch` dispatches on the first element (a branch node), and
`below` goes the other way, to the keys under a prefix.

`Terminated t` singles out the keys that end with a terminator `t` and hold no other; such
keys are prefix free, so a lookup never runs into a key that extends or is extended by
another.
-/

/-- A map from lists of `α` to `β`, as a partial function. -/
def KeyMap (α β : Type) : Type := List α → Option β

namespace KeyMap

variable {α β : Type}

@[ext] theorem ext {m m' : KeyMap α β} (h : ∀ k, m k = m' k) : m = m' := funext h

/-! ## Operations -/

/-- The map without keys. -/
def empty : KeyMap α β := fun _ => none

section Ops

variable [DecidableEq α]

/-- The map with the single key `k`. -/
def single (k : List α) (v : β) : KeyMap α β := fun k' => if k' = k then some v else none

/-- The keys of `m`, each with `p` in front. -/
def prepend (p : List α) (m : KeyMap α β) : KeyMap α β :=
  fun k => if p <+: k then m (k.drop p.length) else none

/-- `m` with the key `k` mapped to `v`, or removed when `v` is `none`. -/
def set (m : KeyMap α β) (k : List α) (v : Option β) : KeyMap α β :=
  fun k' => if k' = k then v else m k'

end Ops

/-- The keys of `m` under `p`, with `p` taken off. -/
def below (m : KeyMap α β) (p : List α) : KeyMap α β := fun k => m (p ++ k)

/-- The map whose keys starting with `a` are those of `ms a`. -/
def branch (ms : α → KeyMap α β) : KeyMap α β
  | [] => none
  | a :: k => ms a k

/-- `m` has a key. -/
def Nonempty (m : KeyMap α β) : Prop := ∃ k, (m k).isSome

/-- Every key of `m` starts with `a`. -/
def HeadsAt (m : KeyMap α β) (a : α) : Prop := ∀ k, (m k).isSome → k.head? = some a

/-- `m` has a key, and its keys do not all start with the same element: the map of a node
that no extension can absorb. -/
def Branching (m : KeyMap α β) : Prop := m.Nonempty ∧ ∀ a, ¬ m.HeadsAt a

/-! ## Evaluation -/

@[simp] theorem empty_apply (k : List α) : (empty : KeyMap α β) k = none := rfl

@[simp] theorem branch_nil (ms : α → KeyMap α β) : branch ms [] = none := rfl

@[simp] theorem branch_cons (ms : α → KeyMap α β) (a : α) (k : List α) :
    branch ms (a :: k) = ms a k := rfl

@[simp] theorem below_apply (m : KeyMap α β) (p k : List α) : m.below p k = m (p ++ k) := rfl

@[simp] theorem below_branch (ms : α → KeyMap α β) (a : α) : (branch ms).below [a] = ms a := by
  ext k
  simp

/-! ## Shapes of maps -/

theorem nonempty_iff_ne_empty {m : KeyMap α β} : m.Nonempty ↔ m ≠ empty := by
  constructor
  · rintro ⟨k, hk⟩ rfl
    simp at hk
  · intro h
    by_contra hne
    apply h
    ext k
    cases hk : m k with
    | none => rfl
    | some v => exact absurd ⟨k, by simp [hk]⟩ hne

/-- A branch determines its entries. -/
theorem branch_inj {ms ms' : α → KeyMap α β} (h : branch ms = branch ms') : ms = ms' := by
  funext a
  apply KeyMap.ext
  intro k
  exact congrFun h (a :: k)

/-- A branch with two non-empty entries branches. -/
theorem branching_branch {ms : α → KeyMap α β} {a b : α} (hab : a ≠ b) (ha : (ms a).Nonempty)
    (hb : (ms b).Nonempty) : (branch ms).Branching := by
  obtain ⟨ka, hka⟩ := ha
  obtain ⟨kb, hkb⟩ := hb
  refine ⟨⟨a :: ka, hka⟩, fun c hc => ?_⟩
  have h1 := hc (a :: ka) hka
  have h2 := hc (b :: kb) hkb
  simp only [List.head?_cons, Option.some.injEq] at h1 h2
  exact hab (h1.trans h2.symm)

section Eval

variable [DecidableEq α]

@[simp] theorem single_apply (k k' : List α) (v : β) :
    single k v k' = if k' = k then some v else none := rfl

@[simp] theorem set_apply (m : KeyMap α β) (k k' : List α) (v : Option β) :
    m.set k v k' = if k' = k then v else m k' := rfl

@[simp] theorem prepend_append (p k : List α) (m : KeyMap α β) : m.prepend p (p ++ k) = m k := by
  simp [prepend]

theorem prepend_eq_none {p k : List α} (m : KeyMap α β) (h : ¬ p <+: k) :
    m.prepend p k = none := by
  simp [prepend, h]

@[simp] theorem prepend_nil (m : KeyMap α β) : m.prepend [] = m := by
  ext k
  simp [prepend]

theorem prepend_prepend (p q : List α) (m : KeyMap α β) :
    (m.prepend q).prepend p = m.prepend (p ++ q) := by
  ext k
  by_cases hp : p <+: k
  · obtain ⟨k', rfl⟩ := hp
    by_cases hq : q <+: k'
    · obtain ⟨k'', rfl⟩ := hq
      rw [prepend_append, prepend_append, ← List.append_assoc, prepend_append]
    · rw [prepend_append, prepend_eq_none _ hq, prepend_eq_none]
      rwa [List.prefix_append_right_inj]
  · rw [prepend_eq_none _ hp, prepend_eq_none]
    exact fun h => hp (List.prefix_append p q |>.trans h)

theorem prepend_cons (a : α) (p : List α) (m : KeyMap α β) :
    m.prepend (a :: p) = (m.prepend p).prepend [a] :=
  (prepend_prepend [a] p m).symm

@[simp] theorem below_prepend (p : List α) (m : KeyMap α β) : (m.prepend p).below p = m := by
  ext k
  simp

@[simp] theorem prepend_empty (p : List α) : (empty : KeyMap α β).prepend p = empty := by
  ext k
  simp [prepend]

/-- An extension by the single key `[]` is the single key. -/
theorem prepend_single_nil (p : List α) (v : β) : (single [] v).prepend p = single p v := by
  ext k
  by_cases hp : p <+: k
  · obtain ⟨k', rfl⟩ := hp
    simp
  · rw [prepend_eq_none _ hp, single_apply, if_neg]
    rintro rfl
    exact hp (List.prefix_refl k)

@[simp] theorem set_set_same (m : KeyMap α β) (k : List α) (v w : Option β) :
    (m.set k v).set k w = m.set k w := by
  ext k'
  simp only [set_apply]
  split <;> rfl

theorem set_of_eq {m : KeyMap α β} {k : List α} {v : Option β} (h : m k = v) : m.set k v = m := by
  ext k'
  simp only [set_apply]
  split
  · next h' => rw [h', h]
  · rfl

@[simp] theorem empty_set_none (k : List α) : (empty : KeyMap α β).set k none = empty :=
  set_of_eq rfl

@[simp] theorem empty_set_some (k : List α) (v : β) :
    (empty : KeyMap α β).set k (some v) = single k v := rfl

theorem single_set_none (k : List α) (v : β) : (single k v).set k none = empty := by
  ext k'
  simp only [set_apply, single_apply, empty_apply]
  split <;> rfl

/-- Setting a key under the prefix of an extension sets it in the extended map. -/
theorem set_prepend (p k : List α) (m : KeyMap α β) (v : Option β) :
    (m.prepend p).set (p ++ k) v = (m.set k v).prepend p := by
  ext k'
  by_cases hp : p <+: k'
  · obtain ⟨k'', rfl⟩ := hp
    simp
  · rw [prepend_eq_none _ hp, set_apply, if_neg, prepend_eq_none _ hp]
    rintro rfl
    exact hp (List.prefix_append p k)

/-- Setting a key below one branch sets it in that branch. -/
theorem set_branch (ms : α → KeyMap α β) (a : α) (k : List α) (v : Option β) :
    (branch ms).set (a :: k) v = branch (Function.update ms a ((ms a).set k v)) := by
  ext k'
  cases k' with
  | nil => simp
  | cons b k' =>
    by_cases hb : b = a
    · subst hb
      simp
    · simp [hb]

/-- A branch with a single non-empty entry is an extension by that entry's element. -/
theorem branch_eq_prepend {ms : α → KeyMap α β} {a : α} (h : ∀ b, b ≠ a → ms b = empty) :
    branch ms = (ms a).prepend [a] := by
  ext k
  cases k with
  | nil => rfl
  | cons b k =>
    by_cases hb : b = a
    · subst hb
      simp [prepend]
    · rw [branch_cons, h b hb, prepend_eq_none]
      · rfl
      · exact fun hp => hb (List.cons_prefix_cons.mp hp).1.symm

/-- Where two keys part, setting the second in an extension along the first makes a branch
of the two below their common prefix. -/
theorem set_prepend_fork (p k k' : List α) (a b : α) (hab : a ≠ b) (m : KeyMap α β) (v : β) :
    (m.prepend (p ++ a :: k)).set (p ++ b :: k') (some v) =
      (branch (Function.update (Function.update (fun _ => empty) a (m.prepend k)) b
        (single k' v))).prepend p := by
  rw [← prepend_prepend, set_prepend]
  congr 1
  ext l
  cases l with
  | nil => simp [prepend]
  | cons c l =>
    by_cases hcb : c = b
    · subst hcb
      by_cases hl : l = k'
      · subst hl
        simp
      · rw [set_apply, if_neg (by simpa using hl), prepend_eq_none _
          (fun hp => hab (List.cons_prefix_cons.mp hp).1)]
        simp [hl]
    · rw [set_apply, if_neg (by simp [hcb])]
      by_cases hca : c = a
      · subst hca
        simp [prepend, List.cons_prefix_cons, hcb]
      · rw [prepend_eq_none _ (fun hp => hca (List.cons_prefix_cons.mp hp).1.symm)]
        simp [hca, hcb]

@[simp] theorem nonempty_single (k : List α) (v : β) : (single k v).Nonempty := ⟨k, by simp⟩

theorem Nonempty.prepend {m : KeyMap α β} (h : m.Nonempty) (p : List α) :
    (m.prepend p).Nonempty := by
  obtain ⟨k, hk⟩ := h
  exact ⟨p ++ k, by simpa using hk⟩

@[simp] theorem nonempty_set_some (m : KeyMap α β) (k : List α) (v : β) :
    (m.set k (some v)).Nonempty := ⟨k, by simp⟩

theorem headsAt_prepend_cons (a : α) (p : List α) (m : KeyMap α β) :
    (m.prepend (a :: p)).HeadsAt a := by
  intro k hk
  by_cases hp : a :: p <+: k
  · obtain ⟨k', rfl⟩ := hp
    rfl
  · simp [prepend_eq_none _ hp] at hk

theorem branching_single_nil (v : β) : (single ([] : List α) v).Branching := by
  refine ⟨nonempty_single _ _, fun a h => ?_⟩
  simpa using h [] (by simp)

theorem Branching.set_some {m : KeyMap α β} (h : m.Branching) (k : List α) (v : β) :
    (m.set k (some v)).Branching := by
  refine ⟨nonempty_set_some m k v, fun a ha => h.2 a fun k' hk' => ha k' ?_⟩
  simp only [set_apply]
  split <;> simp_all

omit [DecidableEq α] in
/-- A map holding the empty key branches. -/
theorem branching_of_isSome_nil {m : KeyMap α β} (h : (m []).isSome) : m.Branching :=
  ⟨⟨[], h⟩, fun a ha => by simpa using ha [] h⟩

/-- Removing a non-empty key from a map that branches leaves a key. -/
theorem Branching.nonempty_set_none {m : KeyMap α β} (h : m.Branching) {k : List α}
    (hk : k ≠ []) : (m.set k none).Nonempty := by
  obtain ⟨a, k', rfl⟩ := List.exists_cons_of_ne_nil hk
  -- some key does not start with `a`, so it is not `k`
  have : ∃ x, (m x).isSome ∧ x.head? ≠ some a := by
    by_contra hx
    push Not at hx
    exact h.2 a hx
  obtain ⟨x, hx, hxa⟩ := this
  refine ⟨x, ?_⟩
  rw [set_apply, if_neg]
  · exact hx
  · rintro rfl
    simp at hxa

theorem not_branching_prepend_cons (a : α) (p : List α) (m : KeyMap α β) :
    ¬ (m.prepend (a :: p)).Branching :=
  fun h => h.2 a (headsAt_prepend_cons a p m)

/-- Extensions of maps that branch are equal only with the same prefix and map: an
extension node is determined by its map. -/
theorem prepend_inj {p q : List α} {m m' : KeyMap α β} (hm : m.Branching) (hm' : m'.Branching)
    (h : m.prepend p = m'.prepend q) : p = q ∧ m = m' := by
  induction p generalizing q with
  | nil =>
    cases q with
    | nil => simpa using h
    | cons b q =>
      rw [prepend_nil] at h
      exact absurd (h ▸ headsAt_prepend_cons b q m') (hm.2 b)
  | cons a p ih =>
    cases q with
    | nil =>
      rw [prepend_nil] at h
      exact absurd (h ▸ headsAt_prepend_cons a p m) (hm'.2 a)
    | cons b q =>
      -- both maps have a key, which starts with `a` and with `b`
      obtain ⟨k, hk⟩ := hm.1
      have hk' : (m'.prepend (b :: q) (a :: p ++ k)).isSome := by
        rw [← h, prepend_append]
        exact hk
      have hba : b = a := by
        have := headsAt_prepend_cons b q m' _ hk'
        simpa using this.symm
      subst hba
      have hbelow : m.prepend p = m'.prepend q := by
        rw [prepend_cons b p, prepend_cons b q] at h
        simpa using congrArg (below · [b]) h
      obtain ⟨rfl, rfl⟩ := ih hbelow
      exact ⟨rfl, rfl⟩

end Eval

/-! ## Terminated keys -/

/-- `l` ends with the terminator `t`, which appears nowhere else in it. -/
def Terminated (t : α) (l : List α) : Prop := ∃ l', l = l' ++ [t] ∧ t ∉ l'

/-- Terminated keys are prefix free. -/
theorem Terminated.eq_of_prefix {t : α} {l l' : List α} (h : Terminated t l)
    (h' : Terminated t l') (hp : l <+: l') : l = l' := by
  obtain ⟨a, rfl, ha⟩ := h
  obtain ⟨b, rfl, hb⟩ := h'
  obtain ⟨c, hc⟩ := hp
  cases c with
  | nil => simpa using hc
  | cons x c =>
    -- the terminator of `l` would stand inside `b`
    exfalso
    have hlen : (a ++ [t] ++ x :: c).length = (b ++ [t]).length := by rw [hc]
    simp only [List.length_append, List.length_cons] at hlen
    have hb' : b = a ++ [t] ++ (x :: c).dropLast := by
      have := congrArg List.dropLast hc
      rw [List.dropLast_concat] at this
      rw [← this, List.dropLast_append_of_ne_nil (by simp)]
    exact hb (by rw [hb']; simp)

theorem Terminated.ne_nil {t : α} {l : List α} (h : Terminated t l) : l ≠ [] := by
  obtain ⟨l', rfl, -⟩ := h
  simp

/-- A terminated list ends with the terminator. -/
theorem Terminated.eq_of_append_singleton {t a : α} {p : List α} (h : Terminated t (p ++ [a])) :
    a = t := by
  obtain ⟨l', hl, -⟩ := h
  simpa using (List.append_inj' hl rfl).2

/-- A part of a terminated list reaching its end is terminated. -/
theorem Terminated.of_append_right {t : α} {p k : List α} (h : Terminated t (p ++ k))
    (hk : k ≠ []) : Terminated t k := by
  obtain ⟨l', hl, ht⟩ := h
  obtain ⟨k', x, rfl⟩ := (List.eq_nil_or_concat' k).resolve_left hk
  rw [← List.append_assoc] at hl
  obtain ⟨hpk, hx⟩ := List.append_inj' hl rfl
  simp only [List.cons.injEq, and_true] at hx
  subst hx
  exact ⟨k', rfl, fun hk' => ht (hpk ▸ List.mem_append_right p hk')⟩

/-- Nothing follows a part of a terminated list that holds the terminator. -/
theorem Terminated.eq_nil_of_mem {t : α} {a b : List α} (h : Terminated t (a ++ b))
    (ha : t ∈ a) : b = [] := by
  by_contra hb
  obtain ⟨l', hl, ht⟩ := h
  obtain ⟨b', x, rfl⟩ := (List.eq_nil_or_concat' b).resolve_left hb
  rw [← List.append_assoc] at hl
  have hab := (List.append_inj' hl rfl).1
  exact ht (hab ▸ List.mem_append_left b' ha)

/-- Every key of `m`, behind the path `p`, is terminated by `t`. -/
def TerminatedBelow (t : α) (p : List α) (m : KeyMap α β) : Prop :=
  ∀ k, (m k).isSome → Terminated t (p ++ k)

section TerminatedBelow

variable {t : α}

theorem terminatedBelow_branch {p : List α} {ms : α → KeyMap α β} :
    TerminatedBelow t p (branch ms) ↔ ∀ a, TerminatedBelow t (p ++ [a]) (ms a) := by
  constructor
  · intro h a k hk
    simpa using h (a :: k) hk
  · intro h k hk
    cases k with
    | nil => simp at hk
    | cons a k => simpa using h a k hk

/-- A key of `m` that is a prefix of a terminated key, or has one as a prefix, is that key. -/
theorem TerminatedBelow.eq_of_prefix {p k k' : List α} {m : KeyMap α β}
    (h : TerminatedBelow t p m) (hk : Terminated t (p ++ k)) (hk' : (m k').isSome)
    (hp : k' <+: k ∨ k <+: k') : k' = k := by
  have h' := h k' hk'
  rcases hp with hp | hp
  · exact List.append_cancel_left
      (h'.eq_of_prefix hk ((List.prefix_append_right_inj p).mpr hp))
  · exact (List.append_cancel_left
      (hk.eq_of_prefix h' ((List.prefix_append_right_inj p).mpr hp))).symm

/-- Below a terminator a map holds at most the empty key. -/
theorem TerminatedBelow.eq_nil_of_terminator {p k : List α} {m : KeyMap α β}
    (h : TerminatedBelow t (p ++ [t]) m) (hk : (m k).isSome) : k = [] := by
  obtain ⟨l, hl, ht⟩ := h k hk
  by_contra hne
  -- the terminator after `p` would stand inside `l`
  apply ht
  have hdrop := congrArg List.dropLast hl
  rw [List.dropLast_concat, List.append_assoc, List.dropLast_append_of_ne_nil (by simp)] at hdrop
  rw [← hdrop]
  cases k with
  | nil => exact absurd rfl hne
  | cons x k => simp

variable [DecidableEq α]

theorem terminatedBelow_prepend {p q : List α} {m : KeyMap α β} :
    TerminatedBelow t p (m.prepend q) ↔ TerminatedBelow t (p ++ q) m := by
  constructor
  · intro h k hk
    simpa using h (q ++ k) (by simpa using hk)
  · intro h k hk
    by_cases hq : q <+: k
    · obtain ⟨k', rfl⟩ := hq
      simpa using h k' (by simpa using hk)
    · simp [prepend_eq_none _ hq] at hk

theorem TerminatedBelow.set_none {p : List α} {m : KeyMap α β} (h : TerminatedBelow t p m)
    (k : List α) : TerminatedBelow t p (m.set k none) := by
  intro k' hk'
  simp only [set_apply] at hk'
  split at hk'
  · simp at hk'
  · exact h k' hk'

theorem TerminatedBelow.set_some {p k : List α} {m : KeyMap α β} (h : TerminatedBelow t p m)
    (hk : Terminated t (p ++ k)) (v : β) : TerminatedBelow t p (m.set k (some v)) := by
  intro k' hk'
  simp only [set_apply] at hk'
  split at hk'
  · next heq => rwa [heq]
  · exact h k' hk'

end TerminatedBelow

end KeyMap
