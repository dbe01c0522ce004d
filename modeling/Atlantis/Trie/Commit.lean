import Atlantis.Trie.Store
import Atlantis.Lib.Loop

/-!
# Committing a trie

`Commit` hashes the trie with the database.  A node with a cached hash is unloaded into its
hash node when it is old enough for the cache limit, and kept when it is clean; any other
node has its children committed first, is written under its hash unless it is embedded in
its parent, and comes out clean with the hash of its reference cached (`commitFill`).

Committing succeeds on every well-formed trie and returns the reference of the root and
this copy (`hash_db`).  Where Keccak tells the blobs of the database and those written
apart, the copy keeps the cache invariant and holds the same map, its hash nodes resolved
from the database.
-/

set_option linter.dupNamespace false

namespace Atlantis.Trie

/-! ## What committing computes -/

section Spec

variable (keccak : List UInt8 → Atlantis.Hash) (hs : Hasher)

/-- What committing does with a node that has a cached hash: it is unloaded into its hash
node when old enough for the cache limit, kept when clean, and rehashed otherwise. -/
def commitShortcut (n : MemNode) : Option MemNode :=
  match n.cache with
  | (some hash, dirty) =>
    if n.canUnload hs.cachegen hs.cachelimit then some (.hashNode hash)
    else if !dirty then some n
    else none
  | (none, _) => none

/-- The copy of a node `hash` returns when committing: the shortcut where it applies, and
otherwise the node with its children committed first, clean, with the hash of its reference
cached. -/
def commitFill (force : Bool) : MemNode → MemNode
  | n@(.shortNode k v flags) =>
    (commitShortcut hs n).getD
      (.shortNode k (shortFill v (commitFill false v))
        { flags with hash := hashOf (ref keccak force n), dirty := false })
  | n@(.fullNode cs flags) =>
    (commitShortcut hs n).getD
      (.fullNode (fun i => if i = 16 ∨ (cs i).isNil then cs i else commitFill false (cs i))
        { flags with hash := hashOf (ref keccak force n), dirty := false })
  | n => n

theorem cache_snd {n : MemNode} (hn : n.isInner) : n.cache.2 = n.dirty := by
  cases n <;> simp [Node.isInner] at hn <;> rfl

theorem isInner_of_cache {n : MemNode} {h : List UInt8} (hc : n.cache.1 = some h) : n.isInner := by
  cases n <;> simp_all [Node.cache, Node.isInner]

/-- With a database, the shortcut of `hash` is the commit shortcut, returning the cached
hash as the reference. -/
theorem cacheShortcut_some (n : MemNode) (db : Database) (force : Bool) :
    cacheShortcut hs n (some db) = (commitShortcut hs n).map fun m => (ref keccak force n, m) := by
  unfold cacheShortcut commitShortcut
  rcases hc : n.cache with ⟨_ | h, dirty⟩
  · rfl
  · have href : ref keccak force n = .hashNode h := by
      simp [ref, cacheRef, hc]
    simp only [Option.isNone_some, Bool.false_eq_true, if_false, href]
    split_ifs <;> rfl

theorem commitShortcut_eq_some {n r : MemNode} (h : commitShortcut hs n = some r) :
    ∃ hb, n.cache.1 = some hb ∧ n.dirty = false ∧ (r = .hashNode hb ∨ r = n) := by
  unfold commitShortcut at h
  rcases hc : n.cache with ⟨_ | hb, dirty⟩
  · simp [hc] at h
  · have hd : n.dirty = dirty := by rw [← cache_snd (isInner_of_cache (h := hb) (by rw [hc])), hc]
    simp only [hc] at h
    split_ifs at h with hu hnd
    · -- a node that can be unloaded is clean
      cases h
      refine ⟨hb, rfl, ?_, .inl rfl⟩
      cases n <;> simp_all [Node.canUnload, NodeFlag.canUnload, Node.cache, Node.dirty]
    · cases h
      exact ⟨hb, rfl, by simpa [hd] using hnd, .inr rfl⟩

theorem commitShortcut_eq_none {n : MemNode} (h : commitShortcut hs n = none) :
    ∀ hb, n.cache.1 = some hb → n.dirty = true := by
  intro hb hc
  unfold commitShortcut at h
  rcases hn : n.cache with ⟨_ | hb', dirty⟩
  · simp [hn] at hc
  · simp only [hn] at h
    split_ifs at h with hu hnd
    rw [← cache_snd (isInner_of_cache hc), hn]
    simpa using hnd

theorem isValue_commitFill (force : Bool) (n : MemNode) :
    (commitFill keccak hs force n).isValue = n.isValue := by
  cases n with
  | shortNode k v flags =>
    unfold commitFill
    cases hsc : commitShortcut hs (.shortNode k v flags) with
    | some r =>
      obtain ⟨hb, -, -, rfl | rfl⟩ := commitShortcut_eq_some hs hsc <;> rfl
    | none => rfl
  | fullNode cs flags =>
    unfold commitFill
    cases hsc : commitShortcut hs (.fullNode cs flags) with
    | some r =>
      obtain ⟨hb, -, -, rfl | rfl⟩ := commitShortcut_eq_some hs hsc <;> rfl
    | none => rfl
  | _ => rfl

/-- A short node whose child, unless it is a value, was replaced by a node with the same
reference encodes as before. -/
theorem item_shortNode_shortFill {k : Nibbles} {v m : MemNode} (f f' : NodeFlag)
    (hm : v.isValue = false →
      m.isValue = false ∧ (childRef keccak m).toItem = (childRef keccak v).toItem) :
    (collapse keccak (.shortNode k (shortFill v m) f')).toItem =
      (collapse keccak (.shortNode k v f)).toItem := by
  cases v with
  | valueNode u => rfl
  | _ =>
    obtain ⟨hmv, hitem⟩ := hm rfl
    exact item_shortNode_of_ref keccak f f' hmv (by simp [Node.isValue]) hitem

/-- A full node whose children other than the value were replaced by nodes with the same
references encodes as before. -/
theorem item_fullNode_fill {cs : Fin 17 → MemNode} {G : MemNode → MemNode} (f f' : NodeFlag)
    (hG : ∀ i, i ≠ 16 → (cs i).isNil = false →
      (childRef keccak (G (cs i))).toItem = (childRef keccak (cs i)).toItem) :
    (collapse keccak (.fullNode (fun i => if i = 16 ∨ (cs i).isNil then cs i else G (cs i)) f')).toItem =
      (collapse keccak (.fullNode cs f)).toItem := by
  refine item_fullNode_congr keccak _ _ (by simp) fun i hi => ?_
  cases hnil : (cs i).isNil
  · simpa [hi, hnil] using hG i hi hnil
  · simp

/-- **Committing keeps references**: the committed copy of a child is referenced as the
child was, whether it was unloaded, kept or rehashed. -/
theorem childRef_commitFill (n : MemNode) :
    (childRef keccak (commitFill keccak hs false n)).toItem = (childRef keccak n).toItem := by
  induction n with
  | shortNode k v flags ih =>
    unfold commitFill
    cases hsc : commitShortcut hs (.shortNode k v flags) with
    | some r =>
      obtain ⟨hb, hc, -, rfl | rfl⟩ := commitShortcut_eq_some hs hsc
      · rw [Option.getD_some, childRef_of_cache keccak rfl hc]
        rfl
      · rfl
    | none =>
      refine childRef_rehashed keccak rfl rfl rfl ?_
      exact item_shortNode_shortFill keccak _ _ fun _ => ⟨by rwa [isValue_commitFill], ih⟩
  | fullNode cs flags ih =>
    unfold commitFill
    cases hsc : commitShortcut hs (.fullNode cs flags) with
    | some r =>
      obtain ⟨hb, hc, -, rfl | rfl⟩ := commitShortcut_eq_some hs hsc
      · rw [Option.getD_some, childRef_of_cache keccak rfl hc]
        rfl
      · rfl
    | none =>
      refine childRef_rehashed keccak rfl rfl rfl ?_
      exact item_fullNode_fill keccak _ _ fun i _ _ => ih i
  | _ => rfl

end Spec

/-! ## Committing with a database -/

section Steps

variable {keccak : List UInt8 → Atlantis.Hash} (hs : Hasher)

/-- A node that is rehashed is replaced by its reference: a dirty node with a cached hash
is the root or too long to embed, and is replaced by its hash. -/
theorem storedRef_collapse_eq_ref {db : Database} {force : Bool} {n : MemNode} (hin : n.isInner)
    (hfl : FlagsOk keccak db force n) (hsc : commitShortcut hs n = none) :
    storedRef keccak (collapse keccak n) force = ref keccak force n := by
  unfold ref cacheRef
  cases hc : n.cache.1 with
  | none => rfl
  | some h =>
    have hd := commitShortcut_eq_none hs hsc h hc
    simp only [FlagsOk, hc] at hfl
    rw [storedRef_inner keccak (isInner_collapse keccak hin), cache_collapse, hc, Option.getD_some,
      if_neg]
    rintro ⟨hsmall, hf⟩
    have hlong := hfl.2.2 hd (by simpa using hf)
    simp only [encoding] at hlong
    omega

/-- **The flags of a rehashed node**: it gets the hash of its encoding, stored under that
hash, or no hash when it is embedded below the root. -/
theorem flagsOk_committed {db db' : Database} {force : Bool} {n n' : MemNode} (hin : n.isInner)
    (hfl : FlagsOk keccak db force n) (hsc : commitShortcut hs n = none)
    (hc' : n'.cache.1 = hashOf (ref keccak force n)) (hd' : n'.dirty = false)
    (hitem : (collapse keccak n').toItem = (collapse keccak n).toItem)
    (hstored : ¬((encoding keccak n).length < 32 ∧ !force) →
      db'.Node (keccak (encoding keccak n)) = some (encoding keccak n)) :
    FlagsOk keccak db' force n' := by
  have hin' := isInner_collapse keccak hin
  have hH : (collapse keccak n).cache.1.getD (keccak (collapse keccak n).toItem.encode).bytes =
      (keccak (collapse keccak n).toItem.encode).bytes := by
    rw [cache_collapse]
    cases hc : n.cache.1 with
    | none => rfl
    | some h =>
      simp only [FlagsOk, hc] at hfl
      exact hfl.1
  rw [← storedRef_collapse_eq_ref hs hin hfl hsc, storedRef_inner keccak hin'] at hc'
  unfold FlagsOk
  rw [hc', hd']
  simp only [encoding, hitem]
  split_ifs with hsmall
  · -- embedded below the root, with no hash
    have hnone : hashOf (collapse keccak n) = none := by
      cases n <;> simp [Node.isInner] at hin <;> rfl
    rw [hnone]
    intro _
    exact ⟨hsmall.1, by simpa using hsmall.2⟩
  · -- written under the hash of its encoding
    simp only [hashOf]
    rw [hH]
    refine ⟨rfl, fun _ => ?_, fun h => absurd h (by simp)⟩
    rw [Hash.ofBytes_bytes]
    exact hstored hsmall

variable {hs}

/-- A clean short or full node is stored under its cached hash, so the hash node holds the
node's map. -/
theorem Wf.hashNode_of_cache {log : List (List UInt8)} {db : Database} (hdb : DbOk keccak log db)
    {n : MemNode} {m : TrieMap} {b c : Bool} (hw : Wf db n m) (hsh : n.Shaped)
    (hg : Good keccak db b c n) (hd : n.dirty = false) {h : List UInt8} (hc : n.cache.1 = some h) :
    h.length = HashLength ∧ Wf db (.hashNode h) m := by
  have hin := isInner_of_cache hc
  have hfl := hg.flagsOk hin
  simp only [FlagsOk, hc] at hfl
  have hlen : h.length = HashLength := by
    rw [hfl.1]
    exact (keccak _).length_bytes
  exact ⟨hlen, Wf.hashNode_of_stored hdb hlen (hfl.2.1 hd) (storable_collapse n hsh hg hin)
    fun gen => Wf.expand_collapse hdb hw hsh (hg.clean hd) (some h) gen⟩

/-- **What the shortcut leaves**: a clean node, or the hash node it is stored under. -/
theorem commitShortcut_good {log : List (List UInt8)} {db : Database} (hdb : DbOk keccak log db)
    {n r : MemNode} {m : TrieMap} {b c : Bool} (hw : Wf db n m) (hsh : n.Shaped)
    (hg : Good keccak db b c n) (h : commitShortcut hs n = some r) :
    Good keccak db b true r ∧ Wf db r m := by
  obtain ⟨hb, hc, hd, rfl | rfl⟩ := commitShortcut_eq_some hs h
  · -- unloaded: the hash node under which the clean node is stored
    exact Wf.hashNode_of_cache hdb hw hsh hg hd hc
  · exact ⟨hg.clean hd, hw⟩

variable (hs)

/-- **Storing a rehashed node**: it is written under its hash unless it is embedded, and
is replaced by its reference; a copy with the same encoding that gets the hash of the
reference and is clean has its flags right. -/
theorem store_rehash (hleaf : hs.onleaf = none) {n : MemNode} (hin : n.isInner) (hsh : n.Shaped)
    {force c : Bool} {db : Database} (hg : Good keccak db force c n)
    (hsc : commitShortcut hs n = none) (hn : db.NewestOk) (hdisk : ∀ k, db.diskdb k = none)
    (w : List (Atlantis.Hash × List UInt8)) :
    ∃ db' w', store keccak hs (collapse keccak n) ⟨some db, w⟩ force =
        some (ref keccak force n, ⟨some db', w ++ w'⟩) ∧ db.Stores keccak db' w' ∧
      ∀ log, DbOk keccak log db → LogOk keccak (log ++ w'.map Prod.snd) →
        ∀ n' : MemNode, n'.cache.1 = hashOf (ref keccak force n) → n'.dirty = false →
          (collapse keccak n').toItem = (collapse keccak n).toItem → FlagsOk keccak db' force n' := by
  have hfl := hg.flagsOk hin
  have hcache : ∀ h, (collapse keccak n).cache.1 = some h →
      h = (keccak (collapse keccak n).toItem.encode).bytes := by
    intro h hh
    rw [cache_collapse] at hh
    simp only [FlagsOk, hh] at hfl
    exact hfl.1
  obtain ⟨db', w', hstore, hst, hnode⟩ := store_stores hs hleaf (isInner_collapse keccak hin)
    (storable_collapse n hsh hg hin) hcache force hn hdisk w
  refine ⟨db', w', by rw [hstore, storedRef_collapse_eq_ref hs hin hfl hsc], hst, ?_⟩
  intro log hdb hlog n' hc' hd' hitem
  exact flagsOk_committed hs hin hfl hsc hc' hd' hitem (hnode log hdb hlog)

end Steps

section HashDb

variable (keccak : List UInt8 → Atlantis.Hash) (hs : Hasher)

/-- What committing `n`, holding `m`, from the database `db` does: it succeeds with the
reference of `n` and its committed copy, writing the blobs `w'` and leaving `db'`; and,
where Keccak tells the blobs apart, the copy keeps the cache invariant, clean, and holds
`m` in `db'`. -/
def CommitsTo (force : Bool) (n : MemNode) (m : TrieMap) (db : Database)
    (w : List (Atlantis.Hash × List UInt8)) : Prop :=
  ∃ db' w', hash keccak hs n ⟨some db, w⟩ force =
      some (ref keccak force n, commitFill keccak hs force n, ⟨some db', w ++ w'⟩) ∧
    db.Stores keccak db' w' ∧
    ∀ log, DbOk keccak log db → LogOk keccak (log ++ w'.map Prod.snd) →
      Good keccak db' force true (commitFill keccak hs force n) ∧
        Wf db' (commitFill keccak hs force n) m

/-- The collapsed short node `hash` stores, from the reference of its child. -/
theorem collapse_shortNode_ref {k : Nibbles} {v : MemNode} (hv : ∀ u, v ≠ .valueNode u)
    (flags : NodeFlag) :
    Node.shortNode (hexToCompact k)
        (if (ref keccak false v).isNil then .valueNode [] else ref keccak false v) flags =
      collapse keccak (.shortNode k v flags) := by
  simp only [collapse, shortRef_of_ne keccak hv, ref]
  rfl

/-- The collapsed full node `hash` stores, from the loop over its children. -/
theorem collapse_fullNode_loop (cs : Fin 17 → MemNode) (flags : NodeFlag) :
    Node.fullNode (Function.update (fun i => if i ∈ childIndices then
          (if (cs i).isNil then .valueNode [] else ref keccak false (cs i))
        else asCollapsed (cs i)) 16
        (if (cs 16).isNil then .valueNode [] else asCollapsed (cs 16))) flags =
      collapse keccak (.fullNode cs flags) := by
  rw [update_children_collapse]
  rfl

/-- **The loop of `hashChildren` with a database**: each child that is not nil is committed
in turn, from the database the previous one left. -/
theorem hash_children_db {cs : Fin 17 → MemNode} {ms : Fin 17 → TrieMap} {c : Bool}
    (hcs : ∀ i, i ≠ 16 → (cs i).isNil = false → ∀ db w, db.NewestOk →
      (∀ k, db.diskdb k = none) → Good keccak db false c (cs i) → Wf db (cs i) (ms i) →
      CommitsTo keccak hs false (cs i) (ms i) db w)
    {db : Database} (hn : db.NewestOk) (hdisk : ∀ k, db.diskdb k = none)
    (hg : ∀ i, Good keccak db false c (cs i)) (hw : ∀ i, Wf db (cs i) (ms i))
    (w : List (Atlantis.Hash × List UInt8)) :
    ∃ db' w', childIndices.foldlM
        (fun (acc : (Fin 17 → CNode) × (Fin 17 → MemNode) × HashState) i =>
          if (cs i).isNil = true then some (Function.update acc.1 i (.valueNode []), acc.2)
          else Option.map (fun x => (Function.update acc.1 i x.1, Function.update acc.2.1 i x.2.1, x.2.2))
            (hash keccak hs (cs i) acc.2.2 false))
        (fun i => asCollapsed (cs i), cs, ⟨some db, w⟩) =
      some (fun i => if i ∈ childIndices then
          (if (cs i).isNil then .valueNode [] else ref keccak false (cs i)) else asCollapsed (cs i),
        fun i => if i ∈ childIndices then
          (if (cs i).isNil then cs i else commitFill keccak hs false (cs i)) else cs i,
        ⟨some db', w ++ w'⟩) ∧
      db.Stores keccak db' w' ∧
      ∀ log, DbOk keccak log db → LogOk keccak (log ++ w'.map Prod.snd) →
        ∀ i, i ≠ 16 → (cs i).isNil = false →
          Good keccak db' false true (commitFill keccak hs false (cs i)) ∧
            Wf db' (commitFill keccak hs false (cs i)) (ms i) := by
  -- the invariant, indexed by the children done: those have their reference and their
  -- committed copy, and the database reached is the one the commits of those left
  let P : List (Fin 17) → (Fin 17 → CNode) × (Fin 17 → MemNode) × HashState → Prop :=
    fun done acc =>
      acc.1 = (fun i => if i ∈ done then
          (if (cs i).isNil then .valueNode [] else ref keccak false (cs i)) else asCollapsed (cs i)) ∧
      acc.2.1 = (fun i => if i ∈ done then
          (if (cs i).isNil then cs i else commitFill keccak hs false (cs i)) else cs i) ∧
      ∃ db' w', acc.2.2 = ⟨some db', w ++ w'⟩ ∧ db.Stores keccak db' w' ∧
        ∀ log, DbOk keccak log db → LogOk keccak (log ++ w'.map Prod.snd) →
          ∀ i ∈ done, (cs i).isNil = false →
            Good keccak db' false true (commitFill keccak hs false (cs i)) ∧
              Wf db' (commitFill keccak hs false (cs i)) (ms i)
  have h₀ : P [] (fun i => asCollapsed (cs i), cs, ⟨some db, w⟩) :=
    ⟨by simp, by simp, db, [], by simp, Database.Stores.refl hn, by simp⟩
  have hstep : ∀ done a rest (acc : (Fin 17 → CNode) × (Fin 17 → MemNode) × HashState),
      done ++ a :: rest = childIndices → P done acc →
      ∃ acc', (if (cs a).isNil = true then some (Function.update acc.1 a (.valueNode []), acc.2)
          else Option.map (fun x => (Function.update acc.1 a x.1, Function.update acc.2.1 a x.2.1, x.2.2))
            (hash keccak hs (cs a) acc.2.2 false)) = some acc' ∧ P (done ++ [a]) acc' := by
    rintro done a rest ⟨ccs, mcs, st⟩ hsplit ⟨h₁, h₂, db₁, w₁, rfl, hst₁, hok₁⟩
    have ha : a ≠ 16 := mem_childIndices.mp (by rw [← hsplit]; simp)
    have hna : a ∉ done := List.not_mem_of_nodup_append nodup_childIndices hsplit
    dsimp only at h₁ h₂ ⊢
    subst h₁ h₂
    cases hnil : (cs a).isNil
    · -- a child is committed from the database reached
      have hdisk₁ : ∀ k, db₁.diskdb k = none := fun k => by rw [hst₁.diskdb]; exact hdisk k
      obtain ⟨db₂, w₂, heq, hst₂, hok₂⟩ := hcs a ha hnil db₁ (w ++ w₁) hst₁.newest hdisk₁
        ((hg a).grows hst₁.grows) ((hw a).grows hst₁.grows)
      refine ⟨_, by rw [if_neg Bool.false_ne_true, heq]; rfl, ?_, ?_, db₂, w₁ ++ w₂,
        by simp, hst₁.trans hst₂, ?_⟩
      · funext i
        by_cases hi : i = a
        · subst hi
          simp [hnil]
        · simp [hi]
      · funext i
        by_cases hi : i = a
        · subst hi
          simp [hnil, hna]
        · simp [hi]
      · intro log hdb hlog i hi hinil
        have hlog₁ : LogOk keccak (log ++ w₁.map Prod.snd) :=
          hlog.mono fun b hb => by
            simp only [List.map_append, List.mem_append] at hb ⊢
            tauto
        rcases List.mem_append.mp hi with hi | hi
        · obtain ⟨hgi, hwi⟩ := hok₁ log hdb hlog₁ i hi hinil
          exact ⟨hgi.grows hst₂.grows, hwi.grows hst₂.grows⟩
        · obtain rfl : i = a := by simpa using hi
          exact hok₂ _ (hst₁.dbOk log hdb hlog₁) (by simpa [List.append_assoc] using hlog)
    · -- a nil child is left as it is
      refine ⟨_, if_pos rfl, ?_, ?_, db₁, w₁, rfl, hst₁, ?_⟩
      · funext i
        by_cases hi : i = a
        · subst hi
          simp [hnil]
        · simp [hi]
      · funext i
        by_cases hi : i = a
        · subst hi
          simp [hnil, hna]
        · simp [hi]
      · intro log hdb hlog i hi hinil
        rcases List.mem_append.mp hi with hi | hi
        · exact hok₁ log hdb hlog i hi hinil
        · obtain rfl : i = a := by simpa using hi
          simp [hnil] at hinil
  obtain ⟨⟨ccs, mcs, st⟩, hfold, h₁, h₂, db', w', rfl, hst, hok⟩ :=
    List.foldlM_some_of_inv _ childIndices P hstep h₀
  dsimp only at h₁ h₂
  subst h₁ h₂
  refine ⟨db', w', hfold, hst, fun log hdb hlog i hi hinil => hok log hdb hlog i ?_ hinil⟩
  exact mem_childIndices.mpr hi

/-- `nil` and values ask nothing of the invariant. -/
theorem good_leaf {db : Database} {r c : Bool} {n : MemNode} (h : n.isNil ∨ n.isValue) :
    Good keccak db r c n := by
  cases n <;> simp [Node.isNil, Node.isValue] at h <;> trivial

/-- **Committing with a database**: a node of the canonical shape other than a value or
`nil`, whose flags are right, commits to its reference and its committed copy. -/
theorem hash_db (hleaf : hs.onleaf = none) (n : MemNode) :
    ∀ {m : TrieMap} {force c : Bool} {db : Database} (w : List (Atlantis.Hash × List UInt8)),
      db.NewestOk → (∀ k, db.diskdb k = none) → Good keccak db force c n → Wf db n m →
      n.Shaped → n.isValue = false → n.isNil = false → CommitsTo keccak hs force n m db w := by
  induction n with
  | nil => intro _ _ _ _ _ _ _ _ _ _ _ hnil; simp [Node.isNil] at hnil
  | valueNode v => intro _ _ _ _ _ _ _ _ _ _ hv; simp [Node.isValue] at hv
  | hashNode hb =>
    -- a hash node stands for itself
    intro m force c db w hn _ hg hw _ _ _
    refine ⟨db, [], ?_, Database.Stores.refl hn, fun _ _ _ => ⟨hg, hw⟩⟩
    simp [hash, store, ref, cacheRef, Node.cache, collapse, asCollapsed, Node.mapKey, storedRef,
      commitFill]
  | shortNode k v flags ih =>
    intro m force c db w hn hdisk hg hw hsh _ _
    have hvs := hsh.2.2
    cases hw with
    | shortNode _ hk hvw hm =>
    rename_i m'
    cases hsc : commitShortcut hs (.shortNode k v flags) with
    | some r =>
      refine ⟨db, [], ?_, Database.Stores.refl hn, fun log hdb _ => ?_⟩
      · simp [hash, cacheShortcut_some keccak hs _ db force, hsc, commitFill]
      · simpa [commitFill, hsc] using commitShortcut_good hdb (.shortNode _ hk hvw hm) hsh hg hsc
    | none =>
      cases hv : v.isValue
      · -- the child is committed first
        have hne : ∀ u, v ≠ .valueNode u := by
          intro u hu
          simp [hu, Node.isValue] at hv
        obtain ⟨db₁, w₁, heq₁, hst₁, hok₁⟩ :=
          ih w hn hdisk hg.2.2 hvw hvs hv (hvw.isNil_eq_false hm.1)
        have hdisk₁ : ∀ k, db₁.diskdb k = none := fun k => by rw [hst₁.diskdb]; exact hdisk k
        obtain ⟨db₂, w₂, hstore, hst₂, hok₂⟩ := store_rehash hs hleaf rfl hsh
          (hg.grows hst₁.grows) hsc hst₁.newest hdisk₁ (w ++ w₁)
        refine ⟨db₂, w₁ ++ w₂, ?_, hst₁.trans hst₂, fun log hdb hlog => ?_⟩
        · simp only [hash, cacheShortcut_some keccak hs _ db force, hsc, Option.map_none]
          split
          · simp [Node.isValue] at hv
          · rw [heq₁, Option.bind_some]
            dsimp only
            rw [collapse_shortNode_ref keccak hne, hstore, Option.map_some]
            simp only [commitFill, hsc, Option.getD_none, shortFill_of_ne hne, List.append_assoc]
            rfl
        · have hlog₁ : LogOk keccak (log ++ w₁.map Prod.snd) :=
            hlog.mono fun b hb => by
              simp only [List.map_append, List.mem_append] at hb ⊢
              tauto
          obtain ⟨hgv, hwv⟩ := hok₁ log hdb hlog₁
          have hitem := item_shortNode_shortFill keccak (k := k) flags
            { flags with hash := hashOf (ref keccak force (.shortNode k v flags)), dirty := false }
            fun _ => ⟨by rw [isValue_commitFill]; exact hv, childRef_commitFill keccak hs v⟩
          simp only [commitFill, hsc, Option.getD_none]
          rw [shortFill_of_ne hne] at hitem ⊢
          refine ⟨⟨hok₂ _ (hst₁.dbOk log hdb hlog₁) (by simpa [List.append_assoc] using hlog) _
            rfl rfl hitem, fun _ => rfl, hgv.grows hst₂.grows⟩,
            .shortNode _ hk (hwv.grows hst₂.grows) hm⟩
      · -- a value is stored inline
        obtain ⟨u, rfl⟩ : ∃ u, v = .valueNode u := by
          cases v <;> simp [Node.isValue] at hv
          exact ⟨_, rfl⟩
        obtain ⟨db₂, w₂, hstore, hst₂, hok₂⟩ := store_rehash hs hleaf rfl hsh hg hsc hn hdisk w
        refine ⟨db₂, w₂, ?_, hst₂, fun log hdb hlog => ?_⟩
        · have hcol : Node.shortNode (hexToCompact k)
              (if (asCollapsed (.valueNode u)).isNil then .valueNode [] else asCollapsed (.valueNode u))
              flags = collapse keccak (.shortNode k (.valueNode u) flags) := rfl
          simp only [hash, cacheShortcut_some keccak hs _ db force, hsc, Option.bind_some]
          rw [hcol, hstore, Option.map_some]
          simp only [commitFill, hsc, Option.getD_none, shortFill]
          rfl
        · have hitem := item_shortNode_shortFill keccak (k := k) (v := .valueNode u)
            (m := commitFill keccak hs false (.valueNode u)) flags
            { flags with hash := hashOf (ref keccak force (.shortNode k (.valueNode u) flags)), dirty := false }
            (fun h => absurd h (by simp [Node.isValue]))
          simp only [commitFill, hsc, Option.getD_none]
          exact ⟨⟨hok₂ log hdb hlog _ rfl rfl hitem, fun _ => rfl, trivial⟩,
            .shortNode _ hk (hvw.grows hst₂.grows) hm⟩
  | fullNode cs flags ih =>
    intro m force c db w hn hdisk hg hw hsh _ _
    have h16 := hsh.1
    have hval := hsh.2.1
    have hshc := hsh.2.2
    cases hw with
    | fullNode _ hcs htwo =>
    rename_i ms
    cases hsc : commitShortcut hs (.fullNode cs flags) with
    | some r =>
      refine ⟨db, [], ?_, Database.Stores.refl hn, fun log hdb _ => ?_⟩
      · simp [hash, cacheShortcut_some keccak hs _ db force, hsc, commitFill]
      · simpa [commitFill, hsc] using
          commitShortcut_good hdb (.fullNode _ hcs htwo) hsh hg hsc
    | none =>
      -- the children first, then the node
      obtain ⟨db₁, w₁, hloop, hst₁, hok₁⟩ := hash_children_db keccak hs (c := !flags.dirty)
        (fun i hi hinil db' w' hn' hdisk' hg' hw' =>
          ih i w' hn' hdisk' hg' hw' (hshc i) (hval i hi) hinil) hn hdisk hg.2.2 hcs w
      have hdisk₁ : ∀ k, db₁.diskdb k = none := fun k => by rw [hst₁.diskdb]; exact hdisk k
      obtain ⟨db₂, w₂, hstore, hst₂, hok₂⟩ := store_rehash hs hleaf rfl hsh
        (hg.grows hst₁.grows) hsc hst₁.newest hdisk₁ (w ++ w₁)
      refine ⟨db₂, w₁ ++ w₂, ?_, hst₁.trans hst₂, fun log hdb hlog => ?_⟩
      · simp only [hash, cacheShortcut_some keccak hs _ db force, hsc, Option.map_none]
        rw [hloop, Option.bind_some]
        dsimp only
        rw [collapse_fullNode_loop, hstore, Option.map_some, children_fill]
        simp only [commitFill, hsc, Option.getD_none, List.append_assoc]
        rfl
      · have hlog₁ : LogOk keccak (log ++ w₁.map Prod.snd) :=
          hlog.mono fun b hb => by
            simp only [List.map_append, List.mem_append] at hb ⊢
            tauto
        have hch := hok₁ log hdb hlog₁
        have hitem := @item_fullNode_fill keccak cs (commitFill keccak hs false) flags
          { flags with hash := hashOf (ref keccak force (.fullNode cs flags)), dirty := false }
          fun i _ _ => childRef_commitFill keccak hs (cs i)
        simp only [commitFill, hsc, Option.getD_none]
        refine ⟨⟨hok₂ _ (hst₁.dbOk log hdb hlog₁) (by simpa [List.append_assoc] using hlog) _
          rfl rfl hitem, fun _ => rfl, fun i => ?_⟩, .fullNode _ (fun i => ?_) htwo⟩
        · -- the value slot and the absent children are left, the others committed
          dsimp only
          split
          · next h =>
            rcases h with rfl | hnil
            · exact good_leaf keccak h16
            · exact good_leaf keccak (.inl hnil)
          · next h =>
            have hi : i ≠ 16 := fun h' => h (.inl h')
            have hinil : (cs i).isNil = false := by simpa using fun h' => h (.inr h')
            exact (hch i hi hinil).1.grows hst₂.grows
        · split
          · exact (hcs i).grows (hst₁.grows.trans hst₂.grows)
          · next h =>
            have hi : i ≠ 16 := fun h' => h (.inl h')
            have hinil : (cs i).isNil = false := by simpa using fun h' => h (.inr h')
            exact (hch i hi hinil).2.grows hst₂.grows

end HashDb

/-! ## Committing and reopening a trie -/

section TrieCommit

variable (keccak : List UInt8 → Atlantis.Hash)

/-- A well-formed root holding only terminated keys is not a value. -/
theorem Wf.isValue_root {db : Database} {n : MemNode} {M : TrieMap} (hw : Wf db n M)
    (hterm : KeyMap.TerminatedBelow 16 [] M) : n.isValue = false := by
  cases hw with
  | valueNode hv =>
    have h := hterm [] (by simp [KeyMap.single_apply])
    exact absurd rfl h.ne_nil
  | _ => rfl

/-- **`Commit`** of a well-formed trie succeeds: it returns the root hash and the trie with
the committed copy of the root in the next cache generation. -/
theorem Commit_spec (t : Trie) {db : Database} {M : TrieMap} {c : Bool} (hn : db.NewestOk)
    (hdisk : ∀ k, db.diskdb k = none) (hg : Good keccak db true c t.root) (hw : Wf db t.root M)
    (hterm : KeyMap.TerminatedBelow 16 [] M) :
    ∃ b db' w', (t.root = .nil ∧ b = emptyRoot.bytes ∨ ref keccak true t.root = .hashNode b) ∧
      t.Commit keccak db none = some (Hash.ofBytes b,
        { t with root := commitFill keccak ⟨t.cachegen, t.cachelimit, none⟩ true t.root,
                 cachegen := t.cachegen + 1 }, db', w') ∧
      db.Stores keccak db' w' ∧
      ∀ log, DbOk keccak log db → LogOk keccak (log ++ w'.map Prod.snd) →
        Good keccak db' true true (commitFill keccak ⟨t.cachegen, t.cachelimit, none⟩ true t.root) ∧
          Wf db' (commitFill keccak ⟨t.cachegen, t.cachelimit, none⟩ true t.root) M := by
  cases hnil : t.root.isNil
  · -- the root is hashed with `force` and stored
    obtain ⟨b, hb⟩ := ref_true_hashNode keccak hnil
    obtain ⟨db', w', heq, hst, hok⟩ := hash_db keccak ⟨t.cachegen, t.cachelimit, none⟩ rfl t.root
      [] hn hdisk hg hw (hw.shaped hterm) (hw.isValue_root hterm) hnil
    refine ⟨b, db', w', .inr hb, ?_, hst, hok⟩
    unfold Trie.Commit Trie.hashRoot
    cases hr : t.root with
    | nil => simp [hr, Node.isNil] at hnil
    | _ =>
      rw [hr] at heq hb
      simp only [heq, hb, List.nil_append, Option.getD_some]
  · -- the empty trie commits to the empty root and writes nothing
    have hr : t.root = .nil := by
      cases h : t.root <;> simp_all [Node.isNil]
    refine ⟨emptyRoot.bytes, db, [], .inl ⟨hr, rfl⟩, ?_, Database.Stores.refl hn, fun _ _ _ => ?_⟩
    · simp [Trie.Commit, Trie.hashRoot, hr, commitFill]
    · rw [hr] at hw ⊢
      exact ⟨trivial, hw⟩

/-- The root of a committed trie is stored under the hash `Commit` returns, or is that hash
node. -/
theorem Wf.hashNode_root {log : List (List UInt8)} {db : Database} (hdb : DbOk keccak log db)
    {r : MemNode} {M : TrieMap} (hw : Wf db r M) (hsh : r.Shaped) (hv : r.isValue = false)
    (hg : Good keccak db true true r) {b : List UInt8} (hb : ref keccak true r = .hashNode b) :
    Wf db (.hashNode b) M := by
  cases hc : r.cache.1 with
  | some h =>
    -- a short or full root: clean, with its hash cached
    have hin := isInner_of_cache hc
    have hbh : b = h := by simpa [ref, cacheRef, hc] using hb.symm
    subst hbh
    have hd : r.dirty = false := by
      cases r <;> simp [Node.isInner] at hin <;> exact hg.2.1 rfl
    exact (Wf.hashNode_of_cache hdb hw hsh hg hd hc).2
  | none =>
    cases r with
    | hashNode h =>
      have : h = b := by
        simpa [ref, cacheRef, Node.cache, collapse, asCollapsed, Node.mapKey, storedRef] using hb
      subst this
      exact hw
    | shortNode k v flags =>
      -- a clean root without a hash would be embedded, which only children are
      have hfl := hg.1
      simp only [FlagsOk, hc] at hfl
      exact absurd (hfl (hg.2.1 rfl)).2 (by simp)
    | fullNode cs flags =>
      have hfl := hg.1
      simp only [FlagsOk, hc] at hfl
      exact absurd (hfl (hg.2.1 rfl)).2 (by simp)
    | valueNode v => simp [Node.isValue] at hv
    | nil => simp [ref, cacheRef, Node.cache, collapse, asCollapsed, Node.mapKey, storedRef] at hb

/-- The committed root has the reference of the root. -/
theorem ref_true_commitFill (hs : Hasher) (n : MemNode) :
    ref keccak true (commitFill keccak hs true n) = ref keccak true n := by
  cases n with
  | shortNode k v flags =>
    unfold commitFill
    cases hsc : commitShortcut hs (.shortNode k v flags) with
    | some r =>
      obtain ⟨hb, hc, -, rfl | rfl⟩ := commitShortcut_eq_some hs hsc
      · -- unloaded into the hash it had
        have href : ref keccak true (.shortNode k v flags) = .hashNode hb := by simp only [ref, cacheRef, hc]
        rw [Option.getD_some, href]
        rfl
      · rfl
    | none =>
      obtain ⟨b, hb⟩ := ref_true_hashNode keccak (n := .shortNode k v flags) rfl
      simp [ref, cacheRef, Node.cache] at hb ⊢
      simp [hb, hashOf]
  | fullNode cs flags =>
    unfold commitFill
    cases hsc : commitShortcut hs (.fullNode cs flags) with
    | some r =>
      obtain ⟨hb, hc, -, rfl | rfl⟩ := commitShortcut_eq_some hs hsc
      · -- unloaded into the hash it had
        have href : ref keccak true (.fullNode cs flags) = .hashNode hb := by simp only [ref, cacheRef, hc]
        rw [Option.getD_some, href]
        rfl
      · rfl
    | none =>
      obtain ⟨b, hb⟩ := ref_true_hashNode keccak (n := .fullNode cs flags) rfl
      simp [ref, cacheRef, Node.cache] at hb ⊢
      simp [hb, hashOf]
  | _ => rfl

/-- **Reopening at a stored root**: `New` at the hash of a node the database holds reads
back a trie holding the same map and keeping the invariant; the hash is neither the zero
hash nor the empty root, as Keccak tells the blobs apart. -/
theorem New_of_stored {log : List (List UInt8)} {db : Database} (hdb : DbOk keccak log db)
    (hlog : LogOk keccak log) {b : List UInt8} {M : TrieMap} (hw : Wf db (.hashNode b) M) :
    ∃ t, New (Hash.ofBytes b) db = .ok t ∧ Wf db t.root M ∧ Good keccak db true true t.root := by
  have hlen : b.length = HashLength := by
    cases hw with
    | hashNode hlen _ _ => exact hlen
  obtain ⟨n, hres, hwn, -⟩ := hw.resolve_hashNode 0
  obtain ⟨c, -, hnode, hk, -⟩ := hdb.resolve_expand 0 hres
  obtain ⟨hmem, -⟩ := hdb.node_storable hnode (Rlp.encode_ne_nil _)
  obtain ⟨hz, he, -⟩ := hlog.2 _ hmem
  rw [hk] at hz he
  have hres' := Trie.resolveHash_of_resolve (t := ⟨.nil, Hash.ofBytes b, 0, 0⟩)
    (h := (Hash.ofBytes b).bytes) (by rw [Hash.bytes_ofBytes hlen]; exact hres) []
  refine ⟨⟨n, Hash.ofBytes b, 0, 0⟩, ?_, hwn, good_resolve 0 hdb hlen hres true⟩
  simp only [New, ne_eq, hz, he, not_false_eq_true, and_self, if_true, hres']
  rfl

end TrieCommit

end Atlantis.Trie
