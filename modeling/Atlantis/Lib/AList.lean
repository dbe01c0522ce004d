import Mathlib

/-!
# Lookups and sums after `AList.replace` and `AList.erase`

`AList.replace a b s` changes the value under `a` when `a` is a key of `s`, and no other
value.  A sum of a function of the values changes by the values replaced or erased.
-/

namespace List

variable {α : Type*} {β : α → Type*} [DecidableEq α]

theorem kreplace_cons_self (a : α) (b b' : β a) (l : List (Sigma β)) :
    kreplace a b (⟨a, b'⟩ :: l) = ⟨a, b⟩ :: l :=
  lookmap_cons_some _ _ (by simp)

theorem kreplace_cons_of_ne {a k : α} (b : β a) (v : β k) (l : List (Sigma β)) (h : a ≠ k) :
    kreplace a b (⟨k, v⟩ :: l) = ⟨k, v⟩ :: kreplace a b l :=
  lookmap_cons_none _ _ (by simp [h])

theorem dlookup_kreplace_of_ne {a x : α} (b : β a) (h : x ≠ a) :
    ∀ l : List (Sigma β), dlookup x (kreplace a b l) = dlookup x l
  | [] => rfl
  | ⟨k, v⟩ :: l => by
    by_cases hak : a = k
    · subst hak
      rw [kreplace_cons_self, dlookup_cons_ne _ _ h, dlookup_cons_ne _ _ h]
    · rw [kreplace_cons_of_ne b v l hak]
      by_cases hxk : x = k
      · subst hxk
        rw [dlookup_cons_eq, dlookup_cons_eq]
      · rw [dlookup_cons_ne _ _ hxk, dlookup_cons_ne _ _ hxk, dlookup_kreplace_of_ne b h l]

theorem dlookup_kreplace_self {a : α} (b : β a) :
    ∀ l : List (Sigma β), a ∈ l.keys → dlookup a (kreplace a b l) = some b
  | [], h => by simp at h
  | ⟨k, v⟩ :: l, h => by
    by_cases hak : a = k
    · subst hak
      rw [kreplace_cons_self, dlookup_cons_eq]
    · rw [kreplace_cons_of_ne b v l hak, dlookup_cons_ne _ _ hak]
      exact dlookup_kreplace_self b l (by simpa [hak] using h)

section Sum

variable {γ : Type*} (f : γ → ℕ)

theorem sum_map_kreplace {a : α} {b b' : γ} :
    ∀ {l : List (Σ _ : α, γ)}, dlookup a l = some b →
      ((kreplace a b' l).map fun e => f e.2).sum + f b = (l.map fun e => f e.2).sum + f b'
  | [], h => by simp at h
  | ⟨k, v⟩ :: l, h => by
    by_cases hak : a = k
    · subst hak
      rw [dlookup_cons_eq, Option.some.injEq] at h
      subst h
      rw [kreplace_cons_self]
      simp only [map_cons, sum_cons]
      omega
    · rw [dlookup_cons_ne _ _ hak] at h
      rw [kreplace_cons_of_ne b' v l hak]
      have ih : ((kreplace a b' l).map fun e => f e.2).sum + f b =
          (l.map fun e => f e.2).sum + f b' := sum_map_kreplace h
      simp only [map_cons, sum_cons]
      omega

theorem sum_map_kerase {a : α} {b : γ} :
    ∀ {l : List (Σ _ : α, γ)}, dlookup a l = some b →
      ((kerase a l).map fun e => f e.2).sum + f b = (l.map fun e => f e.2).sum
  | [], h => by simp at h
  | ⟨k, v⟩ :: l, h => by
    by_cases hak : a = k
    · subst hak
      rw [dlookup_cons_eq, Option.some.injEq] at h
      subst h
      have hk : kerase a (⟨a, v⟩ :: l : List (Σ _ : α, γ)) = l := kerase_cons_eq rfl
      rw [hk]
      simp only [map_cons, sum_cons]
      omega
    · rw [dlookup_cons_ne _ _ hak] at h
      rw [kerase_cons_ne hak]
      have ih := sum_map_kerase h
      simp only [map_cons, sum_cons]
      omega

end Sum

end List

namespace AList

variable {α : Type*} {β : α → Type*} [DecidableEq α]

theorem lookup_replace_of_ne {a x : α} (b : β a) (s : AList β) (h : x ≠ a) :
    (s.replace a b).lookup x = s.lookup x :=
  List.dlookup_kreplace_of_ne b h s.entries

theorem lookup_replace_self {a : α} (b : β a) {s : AList β} (h : a ∈ s) :
    (s.replace a b).lookup a = some b :=
  List.dlookup_kreplace_self b s.entries h

section Lookup

variable {γ : Type*} {s : AList fun _ : α => γ} {a x : α} {b c : γ}

/-- What a lookup finds after a replace: the new value at its key, the old one elsewhere. -/
theorem lookup_replace_eq_some (ha : a ∈ s) (h : (s.replace a b).lookup x = some c) :
    (x = a ∧ c = b) ∨ (x ≠ a ∧ s.lookup x = some c) := by
  by_cases hx : x = a
  · subst hx
    rw [lookup_replace_self _ ha, Option.some.injEq] at h
    exact .inl ⟨rfl, h.symm⟩
  · rw [lookup_replace_of_ne _ _ hx] at h
    exact .inr ⟨hx, h⟩

/-- What a lookup finds after an insert: the new value at its key, the old one elsewhere. -/
theorem lookup_insert_eq_some (h : (s.insert a b).lookup x = some c) :
    (x = a ∧ c = b) ∨ (x ≠ a ∧ s.lookup x = some c) := by
  by_cases hx : x = a
  · subst hx
    rw [lookup_insert, Option.some.injEq] at h
    exact .inl ⟨rfl, h.symm⟩
  · rw [lookup_insert_ne hx] at h
    exact .inr ⟨hx, h⟩

/-- What a lookup finds after an erase was there before, at another key. -/
theorem lookup_erase_eq_some (h : (s.erase a).lookup x = some c) : x ≠ a ∧ s.lookup x = some c := by
  by_cases hx : x = a
  · rw [hx, lookup_erase] at h
    cases h
  · exact ⟨hx, by rwa [lookup_erase_ne hx] at h⟩

end Lookup

section Erase

variable {γ : Type*} {s : AList fun _ : α => γ} {a : α} {b : γ}

/-- Erasing a key that is not there changes nothing. -/
theorem erase_of_lookup_eq_none (h : s.lookup a = none) : s.erase a = s :=
  AList.ext (List.kerase_of_notMem_keys (lookup_eq_none.mp h))

/-- Erasing takes at most one entry. -/
theorem length_le_length_erase_add_one : s.entries.length ≤ (s.erase a).entries.length + 1 := by
  show s.entries.length ≤ (s.entries.kerase a).length + 1
  unfold List.kerase
  have := List.length_eraseP (p := fun e : Sigma fun _ : α => γ => decide (a = e.1)) (l := s.entries)
  split at this <;> omega

/-- Inserting a new key adds one entry. -/
theorem length_insert_of_lookup_eq_none (h : s.lookup a = none) :
    (s.insert a b).entries.length = s.entries.length + 1 := by
  rw [entries_insert, List.length_cons, List.kerase_of_notMem_keys (lookup_eq_none.mp h)]

variable {ι : Type*} (f : ι → α)

/-- A lookup after erasing the key of each element in turn. -/
theorem lookup_foldl_erase (l : List ι) (t : AList fun _ : α => γ) (x : α) :
    (l.foldl (fun t i => t.erase (f i)) t).lookup x = if x ∈ l.map f then none else t.lookup x := by
  induction l generalizing t with
  | nil => simp
  | cons i l ih =>
    rw [List.foldl_cons, ih, List.map_cons]
    by_cases hx : x = f i
    · subst hx
      simp [lookup_erase]
    · simp [hx, lookup_erase_ne hx]

/-- Erasing the key of each element takes at most one entry for each. -/
theorem length_foldl_erase (l : List ι) (t : AList fun _ : α => γ) :
    t.entries.length ≤ (l.foldl (fun t i => t.erase (f i)) t).entries.length + l.length := by
  induction l generalizing t with
  | nil => simp
  | cons i l ih =>
    have h₁ := ih (t.erase (f i))
    have h₂ := length_le_length_erase_add_one (s := t) (a := f i)
    rw [List.foldl_cons, List.length_cons]
    omega

end Erase

section Sum

variable {γ : Type*} (f : γ → ℕ) {s : AList fun _ : α => γ} {a : α} {b : γ}

/-- Replacing the value `b` of `a` by `b'` changes a sum over the values by `f b' - f b`. -/
theorem sum_replace (h : s.lookup a = some b) (b' : γ) :
    ((s.replace a b').entries.map fun e => f e.2).sum + f b =
      (s.entries.map fun e => f e.2).sum + f b' :=
  List.sum_map_kreplace f h

/-- Erasing `a` takes its value `b` out of a sum over the values. -/
theorem sum_erase (h : s.lookup a = some b) :
    ((s.erase a).entries.map fun e => f e.2).sum + f b = (s.entries.map fun e => f e.2).sum :=
  List.sum_map_kerase f h

end Sum

end AList
