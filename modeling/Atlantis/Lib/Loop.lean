import Mathlib.Data.List.Basic

/-!
# Loops in `Option` and `Except`

An invariant rule for `List.foldlM` in the `Option` monad, indexed by the part of the list
already processed: a loop whose every step, from a state satisfying the invariant for the
part done, succeeds into a state satisfying it for one element more, succeeds, and its
result satisfies the invariant for the whole list.  The step may use that the element comes
after the part done, which over a list without duplicates says that it was not seen yet.

In `Except` the rule is about a loop that did succeed: every step that succeeds keeps the
invariant, so the result of a successful loop satisfies it.  A loop whose step commutes with
a map of its state commutes with that map as a whole, and a projection of the state that no
step changes is the same after the loop.  A `mapM` in `Except` is the map of its results when
every call succeeds, and fails with the first error otherwise.
-/

namespace List

variable {α β : Type} (f : β → α → Option β)

theorem foldlM_some_of_inv_aux (l : List α) (P : List α → β → Prop)
    (hf : ∀ done a rest b, done ++ a :: rest = l → P done b →
      ∃ b', f b a = some b' ∧ P (done ++ [a]) b') :
    ∀ (rest done : List α) (b : β), done ++ rest = l → P done b →
      ∃ b', rest.foldlM f b = some b' ∧ P l b'
  | [], done, b, hl, hb => ⟨b, rfl, by simpa [← hl] using hb⟩
  | a :: rest, done, b, hl, hb => by
    obtain ⟨b₁, h₁, hb₁⟩ := hf done a rest b hl hb
    obtain ⟨b₂, h₂, hb₂⟩ :=
      foldlM_some_of_inv_aux l P hf rest (done ++ [a]) b₁ (by simp [← hl]) hb₁
    exact ⟨b₂, by simp [h₁, h₂], hb₂⟩

/-- **Invariant rule for a loop in `Option`.** -/
theorem foldlM_some_of_inv (l : List α) (P : List α → β → Prop)
    (hf : ∀ done a rest b, done ++ a :: rest = l → P done b →
      ∃ b', f b a = some b' ∧ P (done ++ [a]) b')
    {b : β} (h₀ : P [] b) : ∃ b', l.foldlM f b = some b' ∧ P l b' :=
  foldlM_some_of_inv_aux f l P hf l [] b rfl h₀

theorem foldlM_except_inv_aux {ε : Type} (g : β → α → Except ε β) (l : List α)
    (P : List α → β → Prop)
    (hg : ∀ done a rest b b', done ++ a :: rest = l → P done b → g b a = .ok b' →
      P (done ++ [a]) b') :
    ∀ (rest done : List α) (b b' : β), done ++ rest = l → P done b →
      rest.foldlM g b = .ok b' → P l b'
  | [], done, b, b', hl, hb, h => by
    cases h
    simpa [← hl] using hb
  | a :: rest, done, b, b', hl, hb, h => by
    simp only [List.foldlM_cons] at h
    cases h₁ : g b a with
    | error e => simp [h₁, bind, Except.bind] at h
    | ok b₁ =>
      simp only [h₁, bind, Except.bind] at h
      exact foldlM_except_inv_aux g l P hg rest (done ++ [a]) b₁ b' (by simp [← hl])
        (hg done a rest b b₁ hl hb h₁) h

/-- **Invariant rule for a loop in `Except`.** -/
theorem foldlM_except_inv {ε : Type} (g : β → α → Except ε β) (l : List α)
    (P : List α → β → Prop)
    (hg : ∀ done a rest b b', done ++ a :: rest = l → P done b → g b a = .ok b' →
      P (done ++ [a]) b')
    {b b' : β} (h₀ : P [] b) (h : l.foldlM g b = .ok b') : P l b' :=
  foldlM_except_inv_aux g l P hg l [] b b' rfl h₀ h

/-- A loop in `Except` that succeeds takes each of its steps successfully. -/
theorem foldlM_except_step {ε : Type} (g : β → α → Except ε β) {pre post : List α} {a : α}
    {b b' s : β} (h : (pre ++ a :: post).foldlM g b = .ok b') (hpre : pre.foldlM g b = .ok s) :
    ∃ s', g s a = .ok s' := by
  rw [List.foldlM_append, hpre] at h
  simp only [List.foldlM_cons, bind, Except.bind] at h
  cases hs : g s a with
  | error e => simp [hs] at h
  | ok s' => exact ⟨s', rfl⟩

/-- **A loop commutes with a map its step commutes with**: where `g (f b) a` is `g b a` mapped
by `f`, the loop from `f b` is the loop from `b` mapped by `f`. -/
theorem foldlM_except_map {ε : Type} (g : β → α → Except ε β) (f : β → β)
    (hf : ∀ b a, g (f b) a = (g b a).map f) :
    ∀ (l : List α) (b : β), l.foldlM g (f b) = (l.foldlM g b).map f
  | [], _ => rfl
  | a :: l, b => by
    rw [List.foldlM_cons, List.foldlM_cons, hf]
    cases g b a with
    | error e => rfl
    | ok b' => exact foldlM_except_map g f hf l b'

/-- A `mapM` in `Except` whose every call succeeds is the map of the results. -/
theorem mapM_except_ok {ε γ : Type} (g : α → Except ε γ) (r : α → γ) :
    ∀ {l : List α}, (∀ a ∈ l, g a = .ok (r a)) → l.mapM g = .ok (l.map r)
  | [], _ => rfl
  | a :: l, h => by
    rw [List.mapM_cons, h a (by simp), mapM_except_ok g r fun b hb => h b (by simp [hb])]
    rfl

/-- A `mapM` in `Except` fails with the error of its first call that fails. -/
theorem mapM_except_error {ε γ : Type} (g : α → Except ε γ) {a : α} {e : ε} (ha : g a = .error e) :
    ∀ {pre : List α} (post : List α), (∀ b ∈ pre, ∃ c, g b = .ok c) →
      (pre ++ a :: post).mapM g = .error e
  | [], post, _ => by
    rw [List.nil_append, List.mapM_cons, ha]
    rfl
  | b :: pre, post, h => by
    obtain ⟨c, hc⟩ := h b (by simp)
    rw [List.cons_append, List.mapM_cons, hc,
      mapM_except_error g ha post fun b hb => h b (by simp [hb])]
    rfl

/-- The element a step of a loop over a list without duplicates sees is not in the part
done. -/
theorem not_mem_of_nodup_append {l done rest : List α} {a : α} (hl : l.Nodup)
    (h : done ++ a :: rest = l) : a ∉ done := by
  subst h
  exact fun ha => (List.nodup_append.mp hl).2.2 a ha a (by simp) rfl

/-- **Frame rule for a loop**: what no step changes, the loop does not change. -/
theorem foldl_proj_eq {σ γ : Type} (g : σ → γ) (step : σ → α → σ)
    (h : ∀ s a, g (step s a) = g s) : ∀ (l : List α) (s : σ), g (l.foldl step s) = g s
  | [], _ => rfl
  | a :: l, s => (foldl_proj_eq g step h l (step s a)).trans (h s a)

end List
