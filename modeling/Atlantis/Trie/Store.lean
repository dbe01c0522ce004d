import Atlantis.Trie.Cache
import Atlantis.Lib.AList

/-!
# Storing nodes

What committing relies on in the node database: `insert` adds a blob or leaves one that is
there, and `reference` changes reference counts only, so the database only grows.  With
the blobs Keccak tells apart (`LogOk`), what is stored under a hash is the encoding it is
the hash of (`Database.Adds.dbOk`).  The hasher encodes what the decoder reads back
(`storable_collapse`), so a clean node stored under its hash is read back as a node holding
the same map (`Wf.expand_collapse`), and a hash node under which it is stored holds that
map too (`Wf.hashNode_of_stored`).
-/

set_option linter.dupNamespace false

namespace Atlantis.Trie

namespace Database

/-! ## What `insert` and `reference` change -/

/-- Two databases that read the same blobs and have the same ends of the flush-list. -/
structure SameBlobs (db db' : Database) : Prop where
  diskdb : db'.diskdb = db.diskdb
  blob : ∀ h, (db'.nodes.lookup h).map CachedNode.blob = (db.nodes.lookup h).map CachedNode.blob
  oldest : db'.oldest = db.oldest
  newest : db'.newest = db.newest

namespace SameBlobs

variable {db db' db'' : Database}

theorem refl (db : Database) : SameBlobs db db := ⟨rfl, fun _ => rfl, rfl, rfl⟩

theorem trans (h₁ : SameBlobs db db') (h₂ : SameBlobs db' db'') : SameBlobs db db'' :=
  ⟨h₂.diskdb.trans h₁.diskdb, fun h => (h₂.blob h).trans (h₁.blob h), h₂.oldest.trans h₁.oldest,
    h₂.newest.trans h₁.newest⟩

theorem node (h : SameBlobs db db') (x : Hash) : db'.Node x = db.Node x := by
  have hb := h.blob x
  unfold Database.Node
  rw [h.diskdb]
  cases h₁ : db'.nodes.lookup x <;> cases h₂ : db.nodes.lookup x <;> simp_all

theorem mem (h : SameBlobs db db') (x : Hash) : x ∈ db'.nodes ↔ x ∈ db.nodes := by
  have hb := congrArg Option.isSome (h.blob x)
  simp only [Option.isSome_map] at hb
  rw [← AList.lookup_isSome, ← AList.lookup_isSome, hb]

theorem grows (h : SameBlobs db db') : db.Grows db' := fun x b hx => by rwa [h.node x]

end SameBlobs

theorem modifyNode_sameBlobs {db db' : Database} {x : Hash} {f : CachedNode → CachedNode}
    (hf : ∀ n, (f n).blob = n.blob) (h : db.modifyNode x f = some db') : SameBlobs db db' := by
  unfold modifyNode at h
  split at h
  · cases h
  · next n hn =>
    cases h
    refine ⟨rfl, fun y => ?_, rfl, rfl⟩
    by_cases hy : y = x
    · subst hy
      have hmem : y ∈ db.nodes := AList.lookup_isSome.mp (by simp [hn])
      simp [AList.lookup_replace_self _ hmem, hn, hf]
    · simp [AList.lookup_replace_of_ne _ _ hy]

theorem modifyNode_some {db : Database} {x : Hash} (f : CachedNode → CachedNode)
    (hx : x ∈ db.nodes) : ∃ db', db.modifyNode x f = some db' := by
  obtain ⟨n, hn⟩ := Option.isSome_iff_exists.mp (AList.lookup_isSome.mpr hx)
  exact ⟨{ db with nodes := db.nodes.replace x (f n) }, by simp [modifyNode, hn]⟩

/-- `reference` succeeds when the parent is cached, and changes no blob. -/
theorem reference_spec {db : Database} {parent : Hash} (hp : parent ∈ db.nodes) (child : Hash) :
    ∃ db', db.reference child parent = some db' ∧ SameBlobs db db' := by
  unfold reference
  split
  · exact ⟨db, rfl, SameBlobs.refl db⟩
  · next hc =>
    obtain ⟨p, hpl⟩ := Option.isSome_iff_exists.mp (AList.lookup_isSome.mpr hp)
    rw [hpl]
    dsimp only
    split
    · exact ⟨db, rfl, SameBlobs.refl db⟩
    · obtain ⟨db1, h1⟩ := modifyNode_some (fun n => { n with parents := n.parents + 1 })
        (not_not.mp hc)
      have hs1 := modifyNode_sameBlobs (by intro; rfl) h1
      obtain ⟨db2, h2⟩ := @modifyNode_some db1 parent
        (fun n => { n with children := n.children.insert child ((n.children.lookup child).getD 0 + 1) })
        ((hs1.mem parent).mpr hp)
      exact ⟨db2, by simp [h1, h2], hs1.trans (modifyNode_sameBlobs (by intro; rfl) h2)⟩

/-- The references `store` records from a parent to each of its hashed children. -/
theorem references_spec {parent : Hash} :
    ∀ (cs : List (List UInt8)) (db : Database), parent ∈ db.nodes →
      ∃ db', cs.foldlM (fun db c => db.reference (Hash.ofBytes c) parent) db = some db' ∧
        SameBlobs db db'
  | [], db, _ => ⟨db, rfl, SameBlobs.refl db⟩
  | c :: cs, db, hp => by
    obtain ⟨db1, h1, hs1⟩ := reference_spec hp (Hash.ofBytes c)
    obtain ⟨db2, h2, hs2⟩ := references_spec cs db1 ((hs1.mem parent).mpr hp)
    exact ⟨db2, by simp [h1, h2], hs1.trans hs2⟩

/-- The flush-list has its newest node cached, unless it is empty: what `insert` reads. -/
def NewestOk (db : Database) : Prop := db.oldest = Hash.zero ∨ db.newest ∈ db.nodes

theorem SameBlobs.newestOk {db db' : Database} (h : SameBlobs db db') (hn : db.NewestOk) :
    db'.NewestOk := by
  unfold NewestOk at *
  rw [h.oldest, h.newest, h.mem]
  exact hn

/-- **`insert`** succeeds while the newest node of the flush-list is cached, keeps it so, and
adds the blob unless the hash is cached. -/
theorem insert_spec {db : Database} (hnew : db.NewestOk) (h : Hash) (blob : List UInt8) :
    ∃ db', db.insert h blob = some db' ∧ db'.diskdb = db.diskdb ∧
      (∀ x, (db'.nodes.lookup x).map CachedNode.blob =
        if x = h ∧ h ∉ db.nodes then some blob else (db.nodes.lookup x).map CachedNode.blob) ∧
      db'.NewestOk ∧ h ∈ db'.nodes := by
  unfold insert
  by_cases hh : h ∈ db.nodes
  · exact ⟨db, if_pos hh, rfl, fun x => by simp [hh], hnew, hh⟩
  · rw [if_neg hh]
    have hlook : ∀ x, ((db.nodes.insert h ⟨blob, 0, ∅, db.newest, Hash.zero⟩).lookup x).map
        CachedNode.blob = if x = h ∧ h ∉ db.nodes then some blob
          else (db.nodes.lookup x).map CachedNode.blob := by
      intro x
      by_cases hx : x = h
      · subst hx
        simp [AList.lookup_insert, hh]
      · simp [AList.lookup_insert_ne hx, hx]
    by_cases hz : db.oldest = Hash.zero
    · -- the first node of the flush-list
      refine ⟨{ db with
          nodes := db.nodes.insert h ⟨blob, 0, ∅, db.newest, Hash.zero⟩
          oldest := h
          newest := h
          nodesSize := db.nodesSize + (HashLength + blob.length : Nat) }, by simp [hz], rfl,
        hlook, Or.inr (by simp [AList.mem_insert]), by simp [AList.mem_insert]⟩
    · -- appended after the newest node, whose successor is updated
      have hn : db.newest ∈ db.nodes := hnew.resolve_left hz
      obtain ⟨n, hnl⟩ := Option.isSome_iff_exists.mp (AList.lookup_isSome.mpr hn)
      have hne : db.newest ≠ h := fun e => hh (e ▸ hn)
      have hmem : db.newest ∈ db.nodes.insert h ⟨blob, 0, ∅, db.newest, Hash.zero⟩ := by
        simp [AList.mem_insert, hn]
      refine ⟨{ db with
          nodes := (db.nodes.insert h ⟨blob, 0, ∅, db.newest, Hash.zero⟩).replace db.newest
            { n with flushNext := h }
          newest := h
          nodesSize := db.nodesSize + (HashLength + blob.length : Nat) }, ?_, rfl, fun x => ?_,
        Or.inr (by simp [AList.mem_insert]), by simp [AList.mem_insert]⟩
      · simp [hz, modifyNode, AList.lookup_insert_ne hne, hnl]
      · rw [← hlook x]
        by_cases hx : x = db.newest
        · subst hx
          rw [AList.lookup_replace_self _ hmem, AList.lookup_insert_ne hne, hnl]
          rfl
        · rw [AList.lookup_replace_of_ne _ _ hx]

/-- `db'` is `db` with the blob `enc` stored under `H`, unless a blob is there already. -/
structure Adds (db db' : Database) (H : Hash) (enc : List UInt8) : Prop where
  diskdb : db'.diskdb = db.diskdb
  blob : ∀ x, (db'.nodes.lookup x).map CachedNode.blob =
    if x = H ∧ H ∉ db.nodes then some enc else (db.nodes.lookup x).map CachedNode.blob

theorem Adds.sameBlobs {db db' db'' : Database} {H : Hash} {enc : List UInt8}
    (h : Adds db db' H enc) (h' : SameBlobs db' db'') : Adds db db'' H enc :=
  ⟨h'.diskdb.trans h.diskdb, fun x => (h'.blob x).trans (h.blob x)⟩

end Database

/-! ## The blobs Keccak tells apart -/

/-- Keccak tells apart the blobs of `log`, none of which hashes to the zero hash of the
meta-root or to the root of the empty trie, and each is shorter than `2^64` bytes, the most
an RLP header announces. -/
def LogOk (keccak : List UInt8 → Atlantis.Hash) (log : List (List UInt8)) : Prop :=
  Set.InjOn keccak {b | b ∈ log} ∧
    ∀ b ∈ log, keccak b ≠ Hash.zero ∧ keccak b ≠ emptyRoot ∧ b.length < 2 ^ 64

theorem LogOk.mono {keccak : List UInt8 → Atlantis.Hash} {log log' : List (List UInt8)}
    (h : LogOk keccak log') (hsub : ∀ b ∈ log, b ∈ log') : LogOk keccak log :=
  ⟨h.1.mono fun b hb => hsub b hb, fun b hb => h.2 b (hsub b hb)⟩

section Store

variable {keccak : List UInt8 → Atlantis.Hash}

theorem DbOk.mem_iff {log : List (List UInt8)} {db : Database} (hdb : DbOk keccak log db)
    (x : Hash) : x ∈ db.nodes ↔ (db.Node x).isSome := by
  unfold Database.Node
  rw [← AList.lookup_isSome]
  cases db.nodes.lookup x <;> simp [hdb.disk]

/-- **Storing a blob keeps the database right**: the blob is read back under its hash, and
a blob that was there is the same blob, as Keccak tells the blobs of the log apart. -/
theorem Database.Adds.dbOk {log : List (List UInt8)} {db db' : Database} {c : CNode}
    (hadd : db.Adds db' (keccak c.toItem.encode) c.toItem.encode) (hnew : db'.NewestOk)
    (hdb : DbOk keccak log db) (hc : c.Storable) (hlog : LogOk keccak (log ++ [c.toItem.encode])) :
    DbOk keccak (log ++ [c.toItem.encode]) db' ∧ db.Grows db' ∧
      db'.Node (keccak c.toItem.encode) = some c.toItem.encode := by
  set enc := c.toItem.encode
  set H := keccak enc
  have hmem : enc ∈ log ++ [enc] := by simp
  obtain ⟨hH0, -, hsize⟩ := hlog.2 enc hmem
  have hnode : ∀ x, db'.Node x = if x = H ∧ H ∉ db.nodes then some enc else db.Node x := by
    intro x
    have hb := hadd.blob x
    unfold Database.Node
    rw [hadd.diskdb]
    split_ifs at hb ⊢ with hx
    · cases h' : db'.nodes.lookup x <;> simp_all
    · cases h₁ : db'.nodes.lookup x <;> cases h₂ : db.nodes.lookup x <;> simp_all
  -- a blob already stored under the hash is the blob being stored
  have hsame : ∀ b, db.Node H = some b → b = enc := by
    intro b hb
    obtain ⟨hbl, hkb, -⟩ := hdb.blobs H b hb hH0
    exact hlog.1 (by simp [hbl]) hmem hkb
  have hgrows : db.Grows db' := by
    intro x b hx
    rw [hnode x]
    split_ifs with h
    · obtain ⟨rfl, hH⟩ := h
      exact absurd ((hdb.mem_iff H).mpr (by simp [hx])) hH
    · exact hx
  refine ⟨⟨fun k => by rw [hadd.diskdb]; exact hdb.disk k, hnew, fun b hb => ?_, fun x b hb hx => ?_⟩,
    hgrows, ?_⟩
  · rw [hnode, if_neg (by rintro ⟨h0, -⟩; exact hH0 h0.symm)] at hb
    exact hdb.zero b hb
  · rw [hnode] at hb
    split_ifs at hb with h
    · cases hb
      obtain ⟨rfl, -⟩ := h
      exact ⟨hmem, rfl, hsize, c, hc, rfl⟩
    · obtain ⟨hl, hk, hs, hst⟩ := hdb.blobs x b hb hx
      exact ⟨List.mem_append_left _ hl, hk, hs, hst⟩
  · by_cases hH : H ∈ db.nodes
    · obtain ⟨b, hb⟩ := Option.isSome_iff_exists.mp ((hdb.mem_iff H).mp hH)
      rw [hnode, if_neg (fun h => h.2 hH), hb, hsame b hb]
    · rw [hnode, if_pos ⟨rfl, hH⟩]

/-- **`store` with a database**: a node embedded in its parent is returned as it is; any
other node is written under its hash (its cached hash, if it has one), with a reference to
each of its hashed children, and replaced by a hash node. -/
theorem store_db (hs : Hasher) (hleaf : hs.onleaf = none) {c : CNode} (hc : c.isInner)
    (force : Bool) {db : Database} (hn : db.NewestOk) (w : List (Atlantis.Hash × List UInt8)) :
    ∃ db' w', store keccak hs c ⟨some db, w⟩ force =
        some (storedRef keccak c force, ⟨some db', w ++ w'⟩) ∧ db'.NewestOk ∧
      if c.toItem.encode.length < 32 ∧ !force then db' = db ∧ w' = []
      else w' = [(Hash.ofBytes (c.cache.1.getD (keccak c.toItem.encode).bytes), c.toItem.encode)] ∧
        db.Adds db' (Hash.ofBytes (c.cache.1.getD (keccak c.toItem.encode).bytes)) c.toItem.encode := by
  rw [storedRef_inner keccak hc]
  split_ifs with hsmall
  · refine ⟨db, [], ?_, hn, rfl, rfl⟩
    cases c <;> simp [Node.isInner] at hc <;> simp [store, hsmall]
  · obtain ⟨db1, h1, hd1, hb1, hn1, hH1⟩ := Database.insert_spec hn
      (Hash.ofBytes (c.cache.1.getD (keccak c.toItem.encode).bytes)) c.toItem.encode
    obtain ⟨db2, h2, hs2⟩ := Database.references_spec c.hashChildren db1 hH1
    refine ⟨db2, _, ?_, hs2.newestOk hn1, rfl, Database.Adds.sameBlobs ⟨hd1, hb1⟩ hs2⟩
    have hforce : c.toItem.encode.length < 32 → force = true := by
      intro h
      by_contra hf
      exact hsmall ⟨h, by simpa using hf⟩
    cases c <;> simp [Node.isInner] at hc <;> simp [store, hleaf, h1, h2] <;> exact hforce

/-- Storing a blob over a database with nothing on disk keeps every blob it holds. -/
theorem Database.Adds.grows {db db' : Database} {H : Hash} {enc : List UInt8}
    (hadd : db.Adds db' H enc) (hdisk : ∀ k, db.diskdb k = none) : db.Grows db' := by
  intro x b hx
  have hb := hadd.blob x
  unfold Database.Node at hx ⊢
  rw [hadd.diskdb]
  cases hl : db.nodes.lookup x with
  | none => simp [hl, hdisk] at hx
  | some cn =>
    simp only [hl, Option.some.injEq] at hx
    have hmem : x ∈ db.nodes := AList.lookup_isSome.mp (by simp [hl])
    rw [if_neg (fun h => h.2 (h.1 ▸ hmem)), hl] at hb
    cases hl' : db'.nodes.lookup x <;> simp_all

/-- The hasher took the database `db` to `db'` writing the blobs `w'`: the flush-list can
still be appended to, the database grew, and, where Keccak tells apart the blobs of the log
of `db` and those written, `db'` holds what `DbOk` asks. -/
structure Database.Stores (keccak : List UInt8 → Atlantis.Hash) (db db' : Database)
    (w' : List (Atlantis.Hash × List UInt8)) : Prop where
  newest : db'.NewestOk
  diskdb : db'.diskdb = db.diskdb
  grows : db.Grows db'
  dbOk : ∀ log, DbOk keccak log db → LogOk keccak (log ++ w'.map Prod.snd) →
    DbOk keccak (log ++ w'.map Prod.snd) db'

theorem Database.Stores.refl {db : Database} (hn : db.NewestOk) : db.Stores keccak db [] :=
  ⟨hn, rfl, Database.Grows.refl db, fun log hdb _ => by simpa using hdb⟩

theorem Database.Stores.trans {db db₁ db₂ : Database} {w₁ w₂ : List (Atlantis.Hash × List UInt8)}
    (h₁ : db.Stores keccak db₁ w₁) (h₂ : db₁.Stores keccak db₂ w₂) :
    db.Stores keccak db₂ (w₁ ++ w₂) where
  newest := h₂.newest
  diskdb := h₂.diskdb.trans h₁.diskdb
  grows := h₁.grows.trans h₂.grows
  dbOk log hdb hlog := by
    have hlog₁ : LogOk keccak (log ++ w₁.map Prod.snd) :=
      hlog.mono fun b hb => by
        simp only [List.map_append, List.mem_append] at hb ⊢
        tauto
    have h := h₂.dbOk _ (h₁.dbOk log hdb hlog₁) (by simpa [List.append_assoc] using hlog)
    simpa [List.append_assoc] using h

/-- **`store` keeps the database right**: over a database with nothing on disk, a node
whose cached hash, if any, is the hash of its encoding is written under that hash, where
it is read back once Keccak tells the blobs apart. -/
theorem store_stores (hs : Hasher) (hleaf : hs.onleaf = none) {c : CNode} (hc : c.isInner)
    (hst : c.Storable) (hcache : ∀ h, c.cache.1 = some h → h = (keccak c.toItem.encode).bytes)
    (force : Bool) {db : Database} (hn : db.NewestOk) (hdisk : ∀ k, db.diskdb k = none)
    (w : List (Atlantis.Hash × List UInt8)) :
    ∃ db' w', store keccak hs c ⟨some db, w⟩ force =
        some (storedRef keccak c force, ⟨some db', w ++ w'⟩) ∧ db.Stores keccak db' w' ∧
      ∀ log, DbOk keccak log db → LogOk keccak (log ++ w'.map Prod.snd) →
        ¬(c.toItem.encode.length < 32 ∧ !force) →
          db'.Node (keccak c.toItem.encode) = some c.toItem.encode := by
  have hH : Hash.ofBytes (c.cache.1.getD (keccak c.toItem.encode).bytes) =
      keccak c.toItem.encode := by
    cases h : c.cache.1 with
    | none => exact Hash.ofBytes_bytes _
    | some b =>
      rw [Option.getD_some, hcache b h]
      exact Hash.ofBytes_bytes _
  obtain ⟨db', w', hstore, hn', hcase⟩ := store_db hs hleaf hc force hn w
  refine ⟨db', w', hstore, ?_⟩
  split_ifs at hcase with hsmall
  · -- embedded in the parent: nothing written
    obtain ⟨rfl, rfl⟩ := hcase
    exact ⟨Database.Stores.refl hn, fun _ _ _ h => absurd hsmall h⟩
  · -- written under the hash of its encoding
    obtain ⟨rfl, hadd⟩ := hcase
    rw [hH] at hadd
    have hok : ∀ log, DbOk keccak log db →
        LogOk keccak (log ++ [(keccak c.toItem.encode, c.toItem.encode)].map Prod.snd) →
        DbOk keccak (log ++ [c.toItem.encode]) db' ∧ db.Grows db' ∧
          db'.Node (keccak c.toItem.encode) = some c.toItem.encode :=
      fun log hdb hlog => hadd.dbOk hn' hdb hst (by simpa using hlog)
    refine ⟨⟨hn', hadd.diskdb, hadd.grows hdisk, fun log hdb hlog => ?_⟩,
      fun log hdb hlog _ => (hok log hdb hlog).2.2⟩
    simpa using (hok log hdb hlog).1

end Store

/-! ## Stored nodes read back -/

section Reload

variable {keccak : List UInt8 → Atlantis.Hash} {db : Database}

theorem Database.resolve_grows {db' : Database} (hg : db.Grows db') {gen : UInt16}
    {h : List UInt8} {n : MemNode} (hres : db.resolve gen h = some n) :
    db'.resolve gen h = some n := by
  unfold Database.resolve at hres ⊢
  cases hn : db.Node (Hash.ofBytes h) with
  | none => simp [hn] at hres
  | some enc =>
    rw [hn] at hres
    rw [hg _ _ hn]
    exact hres

/-- **A growing database keeps the maps of nodes**: a hash node resolves to the same node. -/
theorem Wf.grows {db' : Database} (hg : db.Grows db') {n : MemNode} {m : TrieMap}
    (hw : Wf db n m) : Wf db' n m := by
  induction hw with
  | nil => exact .nil
  | valueNode hv => exact .valueNode hv
  | shortNode flags hk _ hm ih => exact .shortNode flags hk ih hm
  | fullNode flags _ htwo ih => exact .fullNode flags ih htwo
  | hashNode hlen hres _ ih =>
    refine .hashNode hlen (fun gen => ?_) (fun gen n hn => ?_)
    · obtain ⟨x, hx⟩ := Option.isSome_iff_exists.mp (hres gen)
      simp [Database.resolve_grows hg hx]
    · obtain ⟨x, hx⟩ := Option.isSome_iff_exists.mp (hres gen)
      rw [Database.resolve_grows hg hx, Option.some.injEq] at hn
      subst hn
      exact ih gen x hx

/-- The key of a short node of the canonical shape holds the terminator at most at its end,
and there exactly when the child is a value. -/
theorem shaped_key {k : Nibbles} {v : MemNode}
    (hkv : if v.isValue then KeyMap.Terminated 16 k else (16 : Nibble) ∉ k) :
    (16 : Nibble) ∉ k.dropLast ∧ hasTerm k = v.isValue := by
  cases hv : v.isValue <;> simp only [hv, Bool.false_eq_true, if_false, if_true] at hkv
  · refine ⟨fun h => hkv (List.mem_of_mem_dropLast h), ?_⟩
    cases ht : hasTerm k
    · rfl
    · simp only [hasTerm, beq_iff_eq] at ht
      exact absurd (List.mem_of_getLast? ht) hkv
  · obtain ⟨l, rfl, hl⟩ := hkv
    rw [List.dropLast_concat]
    exact ⟨hl, hasTerm_append_terminator l⟩

/-- Every hash cached in a node or held by a hash node below it is 32 bytes long, as the
hasher and the decoder make them. -/
def Node.HashLen : MemNode → Prop
  | .shortNode _ v flags => (∀ h, flags.hash = some h → h.length = 32) ∧ v.HashLen
  | .fullNode cs flags => (∀ h, flags.hash = some h → h.length = 32) ∧ ∀ i, (cs i).HashLen
  | .hashNode h => h.length = 32
  | _ => True

/-- Right flags cache hashes of 32 bytes. -/
theorem Good.hashLen {r c : Bool} {n : MemNode} (hg : Good keccak db r c n) : n.HashLen := by
  induction n generalizing r c with
  | shortNode k v flags ih =>
    refine ⟨fun h hh => ?_, ih hg.2.2⟩
    have hfl := hg.1
    simp only [FlagsOk, Node.cache, hh] at hfl
    rw [hfl.1]
    exact (keccak _).length_bytes
  | fullNode cs flags ih =>
    refine ⟨fun h hh => ?_, fun i => ih i (hg.2.2 i)⟩
    have hfl := hg.1
    simp only [FlagsOk, Node.cache, hh] at hfl
    rw [hfl.1]
    exact (keccak _).length_bytes
  | hashNode h => exact hg
  | nil => trivial
  | valueNode _ => trivial

/-- The reference to a short or full child is one the decoder reads back. -/
theorem refStorable_childRef_inner {v : MemNode} (hin : v.isInner)
    (hlen : ∀ h, v.cache.1 = some h → h.length = 32) (hst : (collapse keccak v).Storable) :
    RefStorable (childRef keccak v).Storable (childRef keccak v) := by
  simp only [childRef, isNil_of_isInner hin, Bool.false_eq_true, if_false, cacheRef]
  cases hc : v.cache.1 with
  | some h => exact hlen h hc
  | none =>
    rw [storedRef_inner keccak (isInner_collapse keccak hin)]
    split_ifs with hs
    · cases v <;> simp [Node.isInner] at hin <;> exact ⟨hst, hs.1⟩
    · rw [cache_collapse, hc]
      exact (keccak _).length_bytes

/-- The reference to a child other than a value is one the decoder reads back. -/
theorem refStorable_childRef {v : MemNode} (hl : v.HashLen) (hv : v.isValue = false)
    (ih : v.isInner → (collapse keccak v).Storable) :
    RefStorable (childRef keccak v).Storable (childRef keccak v) := by
  cases v with
  | nil => rfl
  | valueNode u => simp [Node.isValue] at hv
  | hashNode h => exact hl
  | shortNode k w f => exact refStorable_childRef_inner rfl hl.1 (ih rfl)
  | fullNode cs f => exact refStorable_childRef_inner rfl hl.1 (ih rfl)

/-- **The hasher encodes what the decoder reads back**: the collapsed form of a node of the
canonical shape whose cached hashes are 32 bytes long is storable. -/
theorem storable_collapse_of_hashLen (n : MemNode) :
    n.Shaped → n.HashLen → n.isInner → (collapse keccak n).Storable := by
  induction n with
  | shortNode k v flags ih =>
    intro hsh hl _
    obtain ⟨-, hkv, hvs⟩ := hsh
    obtain ⟨hdrop, hterm⟩ := shaped_key hkv
    refine ⟨k, rfl, hdrop, ?_⟩
    rw [hterm]
    cases hv : v.isValue
    · -- a child other than a value is referenced
      have hnv : ∀ u, v ≠ .valueNode u := by
        intro u hu
        simp [hu, Node.isValue] at hv
      rw [if_neg Bool.false_ne_true, shortRef_collapse keccak hnv]
      exact refStorable_childRef hl.2 hv (ih hvs hl.2)
    · cases v <;> simp [Node.isValue] at hv
      exact ⟨_, rfl⟩
  | fullNode cs flags ih =>
    intro hsh hl _
    obtain ⟨h16, hval, hcs⟩ := hsh
    refine ⟨fun i hi => ?_, ?_⟩
    · have href : (if i = 16 then (if (cs 16).isNil then .valueNode [] else asCollapsed (cs 16))
          else if (cs i).isNil then .valueNode []
          else cacheRef keccak false (cs i) (collapse keccak (cs i))) = childRef keccak (cs i) := by
        simp [hi, childRef]
      dsimp only
      rw [href]
      exact refStorable_childRef (hl.2 i) (hval i hi) (ih i (hcs i) (hl.2 i))
    · -- the value slot holds a string
      simp only [if_true]
      rcases h16 with h | h
      · exact ⟨[], by simp [h]⟩
      · cases h' : cs 16 <;> simp [h', Node.isValue] at h
        exact ⟨_, rfl⟩
  | _ => intro _ _ hin; simp [Node.isInner] at hin

/-- The collapsed form of a node of the canonical shape whose flags are right is storable. -/
theorem storable_collapse (n : MemNode) :
    ∀ {r c : Bool}, n.Shaped → Good keccak db r c n → n.isInner → (collapse keccak n).Storable :=
  fun hsh hg hin => storable_collapse_of_hashLen n hsh hg.hashLen hin

/-- A hash node under which the database stores the encoding of a node that reads back,
in every generation, as a node holding `m`, holds `m`. -/
theorem Wf.hashNode_of_stored {log : List (List UInt8)} (hdb : DbOk keccak log db) {v : MemNode}
    {m : TrieMap} {h : List UInt8} (hlen : h.length = HashLength)
    (hnode : db.Node (Hash.ofBytes h) = some (encoding keccak v)) (hst : (collapse keccak v).Storable)
    (hwf : ∀ gen, Wf db (expand (some h) gen (collapse keccak v)) m) : Wf db (.hashNode h) m := by
  obtain ⟨-, -, hsize, -⟩ := hdb.node_storable hnode (Rlp.encode_ne_nil _)
  have hres : ∀ gen, db.resolve gen h = some (expand (some h) gen (collapse keccak v)) :=
    fun gen => Database.resolve_of_node gen hnode hst hsize
  refine .hashNode hlen (fun gen => by simp [hres gen]) (fun gen n hn => ?_)
  rw [hres gen, Option.some.injEq] at hn
  subst hn
  exact hwf gen

/-- The reference to a clean short or full child reads back as a node holding the child's
map: a hash under which the child is stored, or the child embedded. -/
theorem Wf.expandRef_childRef_inner {log : List (List UInt8)} (hdb : DbOk keccak log db)
    {v : MemNode} {m : TrieMap} (hin : v.isInner) (hfl : FlagsOk keccak db false v)
    (hd : v.dirty = false) (hst : (collapse keccak v).Storable)
    (hexp : ∀ hash gen, Wf db (expand hash gen (collapse keccak v)) m) (gen : UInt16) :
    Wf db (expandRef (expand none gen (childRef keccak v)) (childRef keccak v)) m := by
  simp only [childRef, isNil_of_isInner hin, Bool.false_eq_true, if_false, cacheRef]
  cases hc : v.cache.1 with
  | some h =>
    simp only [FlagsOk, hc] at hfl
    have hlen : h.length = HashLength := by
      rw [hfl.1]
      exact (keccak _).length_bytes
    exact Wf.hashNode_of_stored hdb hlen (hfl.2.1 hd) hst (hexp (some h))
  | none =>
    simp only [FlagsOk, hc] at hfl
    rw [storedRef_inner keccak (isInner_collapse keccak hin), if_pos ⟨(hfl hd).1, rfl⟩]
    cases v <;> simp [Node.isInner] at hin <;> exact hexp none gen

theorem Wf.expandRef_childRef {log : List (List UInt8)} (hdb : DbOk keccak log db) {v : MemNode}
    {m : TrieMap} (hw : Wf db v m) (hg : Good keccak db false true v) (hv : v.isValue = false)
    (hst : v.isInner → (collapse keccak v).Storable)
    (hexp : v.isInner → ∀ hash gen, Wf db (expand hash gen (collapse keccak v)) m) (gen : UInt16) :
    Wf db (expandRef (expand none gen (childRef keccak v)) (childRef keccak v)) m := by
  cases v with
  | nil => cases hw; exact .nil
  | valueNode u => simp [Node.isValue] at hv
  | hashNode h => exact hw
  | shortNode k w f =>
    exact Wf.expandRef_childRef_inner hdb rfl hg.1 (hg.2.1 rfl) (hst rfl) (hexp rfl) gen
  | fullNode cs f =>
    exact Wf.expandRef_childRef_inner hdb rfl hg.1 (hg.2.1 rfl) (hst rfl) (hexp rfl) gen

/-- The value slot of a full node reads back as the value. -/
theorem Wf.valueSlot {v : MemNode} {m : TrieMap} (hw : Wf db v m) (h : v.isNil ∨ v.isValue) :
    Wf db (valueSlot (if v.isNil then .valueNode [] else asCollapsed v)) m := by
  cases hw with
  | nil => exact .nil
  | valueNode hv =>
    simp only [Node.isNil, Bool.false_eq_true, if_false, asCollapsed, Node.mapKey, Trie.valueSlot,
      List.length_pos_iff, hv, ne_eq, not_false_eq_true, if_true]
    exact .valueNode hv
  | _ => simp [Node.isNil, Node.isValue] at h

/-- **A stored node reads back as a node holding its map**: decoding the encoding of a clean
node of the canonical shape gives a node holding the same map, in any generation and with
any hash. -/
theorem Wf.expand_collapse {log : List (List UInt8)} (hdb : DbOk keccak log db) {n : MemNode}
    {m : TrieMap} (hw : Wf db n m) :
    ∀ {b : Bool}, n.Shaped → Good keccak db b true n →
      ∀ hash gen, Wf db (expand hash gen (collapse keccak n)) m := by
  induction hw with
  | nil => intros; exact .nil
  | valueNode hv => intros; exact .valueNode hv
  | hashNode hlen hres hwf => intros; exact .hashNode hlen hres hwf
  | shortNode flags hk hc hm ih =>
    rename_i k c m'
    intro b hsh hg hash gen
    obtain ⟨-, hkv, hcs⟩ := hsh
    obtain ⟨hdrop, hterm⟩ := shaped_key hkv
    have hkey : (compactToHex (hexToCompact k)).getD [] = k := by
      rw [compactToHex_hexToCompact k hdrop]
      rfl
    have hgc : Good keccak db false true c := by simpa [hg.2.1 rfl] using hg.2.2
    simp only [collapse, expand, hkey, hterm]
    refine .shortNode _ hk ?_ hm
    cases hv : c.isValue
    · -- a child other than a value is read back through its reference
      have hnv : ∀ u, c ≠ .valueNode u := by
        intro u hu
        simp [hu, Node.isValue] at hv
      rw [if_neg Bool.false_ne_true, shortRef_collapse keccak hnv]
      exact Wf.expandRef_childRef hdb hc hgc hv (storable_collapse c hcs hgc)
        (fun _ => ih hcs hgc) gen
    · cases c <;> simp [Node.isValue] at hv
      exact hc
  | fullNode flags hcs htwo ih =>
    rename_i cs ms
    intro b hsh hg hash gen
    obtain ⟨h16, hval, hsc⟩ := hsh
    have hgc : ∀ i, Good keccak db false true (cs i) := fun i => by
      simpa [hg.2.1 rfl] using hg.2.2 i
    refine .fullNode _ (fun i => ?_) htwo
    by_cases hi : i = 16
    · subst hi
      simpa [collapse, expand] using Wf.valueSlot (hcs 16) h16
    · simp only [hi, if_false]
      exact Wf.expandRef_childRef hdb (hcs i) (hgc i) (hval i hi)
        (storable_collapse (cs i) (hsc i) (hgc i)) (fun _ => ih i (hsc i) (hgc i)) gen

end Reload

end Atlantis.Trie
