import Atlantis.Trie.Database
import Atlantis.Lib.AList

/-!
# The ends of the flush-list

The flush-list runs from `oldest` to `newest`.  `insert` appends after `newest`, whose node
it looks up in the map; the removals (`dereference`, `uncache` and the clean-up of `Cap`)
unlink nodes and move `oldest` when they remove the head, but none of them ever moves
`newest`.  Once the newest node is removed while older ones remain, `newest` names a node
that is no longer cached, and the next `insert` dereferences it: a nil pointer in the
source, `none` in the model.

`Cap` flushes nodes from the head of the list to disk and drops them from the cache, but
leaves the counts their cached parents keep of them.  A flushed node that is inserted again
starts with no references (`insert_fresh_parents`) while its parent still counts one, and
when that parent is dereferenced the cascade takes the node's count below zero: it stays
cached for good.
-/

namespace Atlantis.Trie.Database

theorem option_bind_eq_some {α β : Type} {x : Option α} {f : α → Option β} {b : β} :
    x >>= f = some b ↔ ∃ a, x = some a ∧ f a = some b :=
  Option.bind_eq_some_iff

/-! ## No removal moves `newest` -/

theorem modifyNode_newest {db db' : Database} {h : Hash} {f : CachedNode → CachedNode}
    (hm : db.modifyNode h f = some db') : db'.newest = db.newest := by
  unfold modifyNode at hm
  split at hm
  · cases hm
  · cases hm
    rfl

theorem unlink_newest {db db' : Database} {h : Hash} {n : CachedNode}
    (hu : db.unlink h n = some db') : db'.newest = db.newest := by
  unfold unlink at hu
  split at hu
  · cases hu
    rfl
  · obtain ⟨db1, h1, h2⟩ := option_bind_eq_some.mp hu
    rw [modifyNode_newest h2, modifyNode_newest h1]

/-- The cascade over the children keeps `newest` when each dereference does. -/
theorem derefChildren_newest {deref : Database → Hash → Option Database}
    (hd : ∀ db c db', deref db c = some db' → db'.newest = db.newest) (hash : Hash) :
    ∀ (cs : List Hash) (db db' : Database), derefChildren deref hash cs db = some db' →
      db'.newest = db.newest
  | [], db, db', h => by
    cases h
    rfl
  | c :: cs, db, db', h => by
    unfold derefChildren at h
    split at h
    · cases h
    · split at h
      · obtain ⟨db1, h1, h2⟩ := Option.bind_eq_some_iff.mp h
        rw [derefChildren_newest hd hash cs _ _ h2, hd _ _ _ h1]
      · exact derefChildren_newest hd hash cs _ _ h

/-- **`dereference` never moves `newest`**, whatever nodes its cascade removes. -/
theorem dereferenceF_newest :
    ∀ (fuel : Nat) (db : Database) (child parent : Hash) (db' : Database),
      dereferenceF fuel db child parent = some db' → db'.newest = db.newest
  | 0, _, _, _, _, h => by cases h
  | fuel + 1, db, child, parent, db', h => by
    unfold dereferenceF at h
    obtain ⟨db1, h1, h⟩ := option_bind_eq_some.mp h
    have e1 := modifyNode_newest h1
    split at h
    · cases h
      exact e1
    · dsimp only at h
      split at h
      · -- the child lost its last reference: unlinked, its children dereferenced, deleted
        obtain ⟨db2, h2, h⟩ := option_bind_eq_some.mp h
        obtain ⟨db3, h3, h⟩ := option_bind_eq_some.mp h
        cases h
        have e3 := derefChildren_newest
          (fun db c db' h => dereferenceF_newest fuel db c child db' h) child _ _ _ h3
        rw [← e1, ← unlink_newest h2]
        exact e3
      · cases h
        exact e1

theorem Dereference_newest {db db' : Database} {child parent : Hash}
    (h : db.Dereference child parent = some db') : db'.newest = db.newest :=
  dereferenceF_newest _ _ _ _ _ h

/-- **`insert` reads `newest`.**  While older nodes are cached, an insert of a new node
fails when the node `newest` names is no longer cached. -/
theorem insert_stale_newest {db : Database} (holdest : db.oldest ≠ Hash.zero)
    (hnewest : db.newest ∉ db.nodes) {h : Hash} (hh : h ∉ db.nodes) (hne : db.newest ≠ h)
    (blob : List UInt8) : db.insert h blob = none := by
  simp [insert, hh, holdest, modifyNode, AList.lookup_insert_ne hne,
    AList.lookup_eq_none.mpr hnewest]

/-- Removing the newest of two cached nodes leaves `newest` naming it, so inserting a third
node fails. -/
theorem insert_after_dereference_newest :
    ∃ db, ((NewDatabase fun _ => none).insert ⟨List.replicate 32 1, rfl⟩ [1] >>= fun db =>
        db.insert ⟨List.replicate 32 2, rfl⟩ [2] >>= fun db =>
        db.reference ⟨List.replicate 32 2, rfl⟩ Hash.zero >>= fun db =>
        db.Dereference ⟨List.replicate 32 2, rfl⟩ Hash.zero) = some db ∧
      db.newest = ⟨List.replicate 32 2, rfl⟩ ∧ ⟨List.replicate 32 2, rfl⟩ ∉ db.nodes ∧
      db.insert ⟨List.replicate 32 3, rfl⟩ [3] = none := by
  refine ⟨_, rfl, rfl, by decide, rfl⟩

/-! ## Counts of flushed nodes -/

theorem modifyNode_parents {db db' : Database} {x : Hash} {f : CachedNode → CachedNode}
    (hf : ∀ n, (f n).parents = n.parents) (h : db.modifyNode x f = some db') (y : Hash) :
    (db'.nodes.lookup y).map CachedNode.parents = (db.nodes.lookup y).map CachedNode.parents := by
  unfold modifyNode at h
  split at h
  · cases h
  · next n hn =>
    cases h
    by_cases hy : y = x
    · subst hy
      have hmem : y ∈ db.nodes := AList.lookup_isSome.mp (by simp [hn])
      simp [AList.lookup_replace_self _ hmem, hn, hf]
    · simp [AList.lookup_replace_of_ne _ _ hy]

/-- A node `insert` caches anew starts with no references, whatever references to it the
cached nodes still record. -/
theorem insert_fresh_parents {db db' : Database} {h : Hash} {blob : List UInt8}
    (hh : h ∉ db.nodes) (hi : db.insert h blob = some db') :
    (db'.nodes.lookup h).map CachedNode.parents = some 0 := by
  unfold insert at hi
  rw [if_neg hh] at hi
  obtain ⟨db2, h2, rfl⟩ := Option.map_eq_some_iff.mp hi
  split at h2
  · cases h2
    simp [AList.lookup_insert]
  · obtain ⟨db3, h3, rfl⟩ := Option.map_eq_some_iff.mp h2
    -- linking the previous newest node changes its successor only
    have hp := modifyNode_parents (f := fun n => { n with flushNext := h }) (fun _ => rfl) h3 h
    simp only [AList.lookup_insert] at hp ⊢
    exact hp

/-- A child flushed by `Cap` while its parent stays cached, and inserted again, is cached
with no references while the parent counts one; dereferencing the parent then takes the
child's count to `-1` and leaves it cached. -/
theorem cap_reinsert_parents :
    ((NewDatabase fun _ => none).insert ⟨List.replicate 32 1, rfl⟩ [1] >>= fun db =>
        db.insert ⟨List.replicate 32 2, rfl⟩ [2] >>= fun db =>
        db.reference ⟨List.replicate 32 1, rfl⟩ ⟨List.replicate 32 2, rfl⟩ >>= fun db =>
        db.reference ⟨List.replicate 32 2, rfl⟩ Hash.zero >>= fun db =>
        db.Cap 100 >>= fun db =>
        db.insert ⟨List.replicate 32 1, rfl⟩ [1]).map (fun db =>
      ((db.nodes.lookup ⟨List.replicate 32 1, rfl⟩).map CachedNode.parents,
       (db.nodes.lookup ⟨List.replicate 32 2, rfl⟩).bind (fun p =>
        p.children.lookup ⟨List.replicate 32 1, rfl⟩),
       (db.Dereference ⟨List.replicate 32 2, rfl⟩ Hash.zero).map fun db =>
        ((db.nodes.lookup ⟨List.replicate 32 1, rfl⟩).map CachedNode.parents,
         decide (⟨List.replicate 32 2, rfl⟩ ∈ db.nodes)))) =
      some (some 0, some 1, some (some (-1), false)) := by
  decide +kernel

end Atlantis.Trie.Database
