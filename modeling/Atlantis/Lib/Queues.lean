import Mathlib.Data.List.Perm.Basic
import Mathlib.Data.List.Nodup
import Mathlib.Data.List.Sigma

/-!
# Interleavings of keyed queues

A list of items that each carry a key is an interleaving of one queue per key: read at one
key, it is that key's queue.  `SameQueues f l l'` says that two lists interleave the same
queues.  It is finer than `Perm` and coarser than equality, and it is what a merge of queues
promises: every queue keeps its order, and the queues may be mixed in any way.

A list of blocks, each of one key, has the queues of its blocks (`filter_flatMap_of_key`); two
permutations of one list have the same queues when no key has two items (`of_perm`).
-/

namespace List

variable {α β : Type*} [DecidableEq β]

variable (f : α → β) in
/-- `l` and `l'` interleave the same queues: read at every key, they agree. -/
def SameQueues (l l' : List α) : Prop :=
  ∀ b, l.filter (fun x => f x = b) = l'.filter (fun x => f x = b)

variable {f : α → β}

/-- A list with no two items of one key has at most one item of each key. -/
theorem length_filter_key_le_one {l : List α} (hnd : (l.map f).Nodup) (b : β) :
    (l.filter fun x => f x = b).length ≤ 1 := by
  have hsub : ((l.filter fun x => f x = b).map f).Nodup :=
    ((filter_sublist).map f).nodup hnd
  have hrep : (l.filter fun x => f x = b).map f =
      replicate (l.filter fun x => f x = b).length b := by
    refine eq_replicate_iff.mpr ⟨length_map _, fun c hc => ?_⟩
    obtain ⟨x, hx, rfl⟩ := mem_map.mp hc
    simpa using (mem_filter.mp hx).2
  rw [hrep] at hsub
  exact nodup_replicate.mp hsub

/-- Blocks of one key each: the queue of a key is read off the blocks of that key. -/
theorem filter_flatMap_of_key {γ : Type*} {k : γ → β} {g : γ → List α} (b : β) :
    ∀ l : List γ, (∀ c ∈ l, ∀ y ∈ g c, f y = k c) →
      (l.flatMap g).filter (fun y => f y = b) = (l.filter fun c => k c = b).flatMap g
  | [], _ => rfl
  | c :: l, hg' => by
    have hg : ∀ y ∈ g c, f y = k c := hg' c mem_cons_self
    rw [flatMap_cons, filter_append,
      filter_flatMap_of_key b l fun c' hc' => hg' c' (mem_cons_of_mem c hc')]
    by_cases hc : k c = b
    · -- the block of `c` is all of key `b`
      rw [filter_cons_of_pos (by simpa using hc), flatMap_cons, filter_eq_self.mpr]
      intro y hy
      simpa [hc] using hg y hy
    · rw [filter_cons_of_neg (by simpa using hc), filter_eq_nil_iff.mpr, nil_append]
      intro y hy
      simpa [hg y hy] using hc

/-- The queues of an association list of queues, each of its own key, are its values. -/
theorem filter_flatMap_entries {s : List (Sigma fun _ : β => List α)} (hs : s.NodupKeys)
    (hkey : ∀ e ∈ s, ∀ y ∈ e.2, f y = e.1) (b : β) :
    (s.flatMap Sigma.snd).filter (fun y => f y = b) = (s.dlookup b).getD [] := by
  rw [filter_flatMap_of_key b s hkey]
  clear hkey
  induction s with
  | nil => rfl
  | cons e s ih =>
    rw [nodupKeys_cons] at hs
    have ih' := ih hs.2
    by_cases he : e.1 = b
    · -- the other entries have other keys
      obtain ⟨a, v⟩ := e
      subst he
      have hrest : (s.filter fun c => c.1 = a) = [] :=
        filter_eq_nil_iff.mpr fun c hc hca => hs.1 (by
          have hk := mem_keys_of_mem hc
          rwa [of_decide_eq_true hca] at hk)
      rw [filter_cons_of_pos (by simp), flatMap_cons, hrest, flatMap_nil, append_nil,
        dlookup_cons_eq]
      rfl
    · rw [filter_cons_of_neg (by simpa using he), ih', dlookup_cons_ne _ _ (Ne.symm he)]

namespace SameQueues

theorem refl (l : List α) : SameQueues f l l := fun _ => rfl

theorem symm {l l' : List α} (h : SameQueues f l l') : SameQueues f l' l := fun b => (h b).symm

theorem trans {l l' l'' : List α} (h : SameQueues f l l') (h' : SameQueues f l' l'') :
    SameQueues f l l'' :=
  fun b => (h b).trans (h' b)

theorem cons {l l' : List α} (h : SameQueues f l l') (x : α) :
    SameQueues f (x :: l) (x :: l') := by
  intro b
  by_cases hx : f x = b
  · rw [filter_cons_of_pos (by simpa using hx), filter_cons_of_pos (by simpa using hx), h b]
  · rw [filter_cons_of_neg (by simpa using hx), filter_cons_of_neg (by simpa using hx), h b]

/-- Lists with the same queues hold the same items. -/
theorem perm [DecidableEq α] {l l' : List α} (h : SameQueues f l l') : l ~ l' := by
  refine perm_iff_count.mpr fun x => ?_
  -- the items equal to `x` are all in the queue of its key
  have hl : count x (l.filter fun y => f y = f x) = count x l := count_filter (by simp)
  have hl' : count x (l'.filter fun y => f y = f x) = count x l' := count_filter (by simp)
  rw [← hl, ← hl', h (f x)]

/-- A permutation of a list with no two items of one key has the same queues. -/
theorem of_perm {l l' : List α} (hp : l ~ l') (hnd : (l.map f).Nodup) : SameQueues f l l' := by
  intro b
  have hpb := hp.filter fun x => f x = b
  have hle := length_filter_key_le_one hnd b
  -- a permutation of a list of at most one item is that list
  match hq : l.filter (fun x => f x = b), hle with
  | [], _ => rw [hq] at hpb; exact hpb.nil_eq
  | [x], _ => rw [hq] at hpb; exact (perm_singleton.mp hpb.symm).symm

theorem flatMap {l l' : List α} (h : SameQueues f l l') {g : α → List α}
    (hg : ∀ x, ∀ y ∈ g x, f y = f x) : SameQueues f (l.flatMap g) (l'.flatMap g) := by
  intro b
  rw [filter_flatMap_of_key b l fun c _ => hg c, h b, filter_flatMap_of_key b l' fun c _ => hg c]

end SameQueues

end List
