import Mathlib.Order.Basic
import Mathlib.Data.List.Basic

/-!
# Forks in the lexicographic order of lists

Two lists *fork* when they agree up to some position and then differ there.  The one with
the smaller element at the fork comes first in the lexicographic order, and so does every
extension of it before every extension of the other: the order in which a depth first walk
of a tree with ordered children meets the subtrees of two siblings.
-/

namespace List

variable {α : Type}

section Fork

variable [LT α]

/-- `l` and `l'` fork with `l` on the smaller side: after a common prefix, `l` holds a
smaller element than `l'`. -/
def ForkLt (l l' : List α) : Prop :=
  ∃ c a b s t, a < b ∧ l = c ++ a :: s ∧ l' = c ++ b :: t

/-- A list comes before each of its proper extensions. -/
theorem lt_append_cons (l : List α) (a : α) (s : List α) : l < l ++ a :: s := by
  have h : l ++ [] < l ++ a :: s := List.append_left_lt (List.nil_lt_cons a s)
  simpa using h

/-- Extensions of two forking lists fork at the same place. -/
theorem ForkLt.extend {l l' m m' : List α} (h : ForkLt l l') (hm : l <+: m) (hm' : l' <+: m') :
    ForkLt m m' := by
  obtain ⟨c, a, b, s, t, hab, rfl, rfl⟩ := h
  obtain ⟨x, rfl⟩ := hm
  obtain ⟨y, rfl⟩ := hm'
  exact ⟨c, a, b, s ++ x, t ++ y, hab, by simp, by simp⟩

theorem ForkLt.lt {l l' : List α} (h : ForkLt l l') : l < l' := by
  obtain ⟨c, a, b, s, t, hab, rfl, rfl⟩ := h
  exact List.append_left_lt (List.cons_lt_cons_iff.mpr (Or.inl hab))

/-- A list before another that it is not a prefix of forks from it. -/
theorem forkLt_of_lt : ∀ {l l' : List α}, l < l' → ¬ l <+: l' → ForkLt l l'
  | [], l', _, hp => absurd List.nil_prefix hp
  | _ :: _, [], h, _ => absurd h (List.not_lt_nil _)
  | a :: s, b :: t, h, hp => by
    rcases List.cons_lt_cons_iff.mp h with hab | ⟨rfl, hst⟩
    · exact ⟨[], a, b, s, t, hab, rfl, rfl⟩
    · have hp' : ¬ s <+: t := fun h' => hp (List.prefix_cons_inj a |>.mpr h')
      obtain ⟨c, a', b', s', t', hab', rfl, rfl⟩ := forkLt_of_lt hst hp'
      exact ⟨a :: c, a', b', s', t', hab', rfl, rfl⟩

end Fork

/-- Below a list that comes before `k` without being its prefix, every extension comes
before `k` too. -/
theorem lt_of_prefix_of_lt [LT α] {l m k : List α} (hlt : l < k) (hp : ¬ l <+: k)
    (hm : l <+: m) : m < k :=
  (ForkLt.extend (forkLt_of_lt hlt hp) hm (List.prefix_refl k)).lt

end List
