import Atlantis.Trie.Trie

/-!
# What `insert` and `delete` build

Every node of the trie `insert` or `delete` returns is a node of the trie they were given, a
child of one, a node resolved from the database, `nil`, the value inserted, or a node they
made, with the fresh flag `newFlag`, from such nodes.  So any property of nodes that these
constructions keep is kept by both operations (`insert_frame`, `delete_frame`).  The
property may depend on whether the node is the root: the root is hashed with `force`.
-/

set_option linter.dupNamespace false

namespace Atlantis.Trie

theorem except_bind_eq_ok {ε α β : Type} {x : Except ε α} {f : α → Except ε β} {b : β} :
    x >>= f = .ok b ↔ ∃ a, x = .ok a ∧ f a = .ok b := by
  cases x <;> simp [bind, Except.bind]

theorem except_map_eq_ok {ε α β : Type} {x : Except ε α} {f : α → β} {b : β} :
    x.map f = .ok b ↔ ∃ a, x = .ok a ∧ f a = b := by
  cases x <;> simp [Except.map]

/-- A property of nodes at the root (`true`) or below it (`false`) that holds of `nil`, of
the nodes made with a fresh flag from nodes that have it below the root, of the children of
the nodes that have it, and of the node a hash node that has it resolves to. -/
structure FrameInv (t : Trie) (db : Database) (P : Bool → MemNode → Prop) : Prop where
  nil : ∀ b, P b .nil
  short : ∀ b k c, P false c → P b (.shortNode k c t.newFlag)
  full : ∀ b cs, (∀ i, P false (cs i)) → P b (.fullNode cs t.newFlag)
  short_child : ∀ b k c f, P b (.shortNode k c f) → P false c
  full_child : ∀ b cs f i, P b (.fullNode cs f) → P false (cs i)
  resolve : ∀ b h pfx n, P b (.hashNode h) → t.resolveHash db h pfx = .ok n → P b n

namespace FrameInv

variable {t : Trie} {db : Database} {P : Bool → MemNode → Prop} (hP : FrameInv t db P)
include hP

theorem resolve_node {b : Bool} {n n' : MemNode} {pfx : Nibbles} (hn : P b n)
    (h : t.resolve db n pfx = .ok n') : P b n' := by
  cases n with
  | hashNode hb => exact hP.resolve b hb pfx n' hn h
  | _ => cases h; exact hn

theorem update_child {b : Bool} {cs : Fin 17 → MemNode} {f : NodeFlag} (hn : P b (.fullNode cs f))
    {i : Fin 17} {c : MemNode} (hc : P false c) (j : Fin 17) :
    P false (Function.update cs i c j) := by
  by_cases hj : j = i
  · subst hj
    simpa using hc
  · simpa [hj] using hP.full_child b cs f j hn

theorem mergeShort {b : Bool} (k : Nibbles) {c : MemNode} (hc : P false c) :
    P b (t.mergeShort k c) := by
  cases c with
  | shortNode ck cv f => exact hP.short b _ _ (hP.short_child false ck cv f hc)
  | _ => exact hP.short b k _ hc

theorem reduceFull {b : Bool} {cs : Fin 17 → MemNode} (hcs : ∀ i, P false (cs i))
    (pfx : Nibbles) {r : Bool × MemNode} (h : t.reduceFull db cs pfx = .ok r) : P b r.2 := by
  unfold Trie.reduceFull at h
  split at h
  · next p _ =>
    split at h
    · -- the one child left takes the node's place, merged when it is a short node
      obtain ⟨c, hc, h⟩ := except_bind_eq_ok.mp h
      have hpc := hP.resolve_node (hcs p) hc
      split at h <;> cases h
      · exact hP.short b _ _ (hP.short_child false _ _ _ hpc)
      · exact hP.short b _ _ (hcs p)
    · cases h
      exact hP.short b _ _ (hcs p)
  · cases h
    exact hP.full b cs hcs

/-- **Frame of `insert`.** -/
theorem insert_frame :
    ∀ (fuel : Nat) (b : Bool) (n : MemNode) (pfx key : Nibbles) (value : MemNode)
      (r : Bool × MemNode), t.insert db fuel n pfx key value = .ok r →
      P b n → P false value → P b value → P b r.2
  | 0, _, _, _, _, _, _, h, _, _, _ => by simp [Trie.insert] at h
  | fuel + 1, b, n, pfx, key, value, r, h, hn, hv, hvb => by
    have ih := insert_frame fuel
    rw [Trie.insert.eq_def] at h
    dsimp only at h
    split at h
    · -- at the end of the key the node becomes the value
      split at h <;> cases h <;> exact hvb
    · next hk0 =>
      cases n with
      | nil =>
        cases h
        exact hP.short b _ _ hv
      | valueNode _ => cases h
      | hashNode hb =>
        obtain ⟨rn, hres, h⟩ := except_bind_eq_ok.mp h
        have hrn := hP.resolve b hb pfx rn hn hres
        obtain ⟨⟨dirty, nn⟩, hins, h⟩ := except_bind_eq_ok.mp h
        cases dirty <;> cases h
        · exact hrn
        · exact ih b _ _ _ _ _ hins hrn hv hvb
      | shortNode k v flags =>
        have hv' := hP.short_child b k v flags hn
        dsimp only at h
        split at h
        · obtain ⟨⟨dirty, nn⟩, hins, h⟩ := except_bind_eq_ok.mp h
          cases dirty <;> cases h
          · exact hn
          · exact hP.short b _ _ (ih false _ _ _ _ _ hins hv' hv hv)
        · split at h
          · -- a new branch of the old child and the value
            obtain ⟨⟨_, c1⟩, h1, h⟩ := except_bind_eq_ok.mp h
            obtain ⟨⟨_, c2⟩, h2, h⟩ := except_bind_eq_ok.mp h
            have hc1 := ih false _ _ _ _ _ h1 (hP.nil false) hv' hv'
            have hc2 := ih false _ _ _ _ _ h2 (hP.nil false) hv hv
            have hbr : ∀ (a c : Nibble) (j : Nibble), P false
                (Function.update (Function.update (fun _ => (.nil : MemNode)) a c1) c c2 j) := by
              intro a c j
              simp only [Function.update_apply]
              split_ifs
              · exact hc2
              · exact hc1
              · exact hP.nil false
            split at h <;> cases h
            · exact hP.full b _ (hbr _ _)
            · exact hP.short b _ _ (hP.full false _ (hbr _ _))
          · cases h
      | fullNode cs flags =>
        obtain ⟨i, rest, rfl⟩ := List.exists_cons_of_ne_nil hk0
        dsimp only at h
        obtain ⟨⟨dirty, nn⟩, hins, h⟩ := except_bind_eq_ok.mp h
        have hnn := ih false _ _ _ _ _ hins (hP.full_child b cs flags i hn) hv hv
        cases dirty <;> cases h
        · exact hn
        · exact hP.full b _ (hP.update_child hn hnn)

/-- **Frame of `delete`.** -/
theorem delete_frame :
    ∀ (fuel : Nat) (b : Bool) (n : MemNode) (pfx key : Nibbles) (r : Bool × MemNode),
      t.delete db fuel n pfx key = .ok r → P b n → P b r.2
  | 0, _, _, _, _, _, h, _ => by simp [Trie.delete] at h
  | fuel + 1, b, n, pfx, key, r, h, hn => by
    have ih := delete_frame fuel
    rw [Trie.delete.eq_def] at h
    dsimp only at h
    cases n with
    | nil =>
      cases h
      exact hP.nil b
    | valueNode _ =>
      cases h
      exact hP.nil b
    | hashNode hb =>
      obtain ⟨rn, hres, h⟩ := except_bind_eq_ok.mp h
      have hrn := hP.resolve b hb pfx rn hn hres
      obtain ⟨⟨dirty, nn⟩, hdel, h⟩ := except_bind_eq_ok.mp h
      cases dirty <;> cases h
      · exact hrn
      · exact ih b _ _ _ _ hdel hrn
    | shortNode k v flags =>
      dsimp only at h
      split at h
      · cases h
        exact hn
      · split at h
        · cases h
          exact hP.nil b
        · obtain ⟨⟨dirty, child⟩, hdel, h⟩ := except_bind_eq_ok.mp h
          have hc := ih false _ _ _ _ hdel (hP.short_child b k v flags hn)
          cases dirty <;> cases h
          · exact hn
          · exact hP.mergeShort k hc
    | fullNode cs flags =>
      cases key with
      | nil => cases h
      | cons i rest =>
        dsimp only at h
        obtain ⟨⟨dirty, nn⟩, hdel, h⟩ := except_bind_eq_ok.mp h
        have hnn := ih false _ _ _ _ hdel (hP.full_child b cs flags i hn)
        cases dirty
        · cases h
          exact hn
        · exact hP.reduceFull (hP.update_child hn hnn) _ h

theorem tryUpdate_frame {fuel : Nat} {k v : List UInt8} {t' : Trie}
    (h : t.TryUpdate fuel db k v = .ok t') (hroot : P true t.root)
    (hv : ∀ b, P b (.valueNode v)) : P true t'.root := by
  unfold Trie.TryUpdate at h
  split at h
  · obtain ⟨r, hins, rfl⟩ := except_map_eq_ok.mp h
    exact hP.insert_frame _ true _ _ _ _ r hins hroot (hv false) (hv true)
  · obtain ⟨r, hdel, rfl⟩ := except_map_eq_ok.mp h
    exact hP.delete_frame _ true _ _ _ r hdel hroot

theorem tryDelete_frame {fuel : Nat} {k : List UInt8} {t' : Trie}
    (h : t.TryDelete fuel db k = .ok t') (hroot : P true t.root) : P true t'.root := by
  obtain ⟨r, hdel, rfl⟩ := except_map_eq_ok.mp h
  exact hP.delete_frame _ true _ _ _ r hdel hroot

end FrameInv

end Atlantis.Trie
