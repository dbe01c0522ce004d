import Atlantis.Trie.Commit

/-!
# Sessions on a trie

`runRandTest` (`trie/trie_test.go`) drives a trie over one node database through a
sequence of operations: updates, deletes, lookups, hashing, commits, and resets, a commit
followed by reopening the trie with `New` at the root hash the commit returned.  The cache
limit may be set at any point.  A session here is such a run, and `expectedOps` what a
finite map from keys to values says the lookups return.

The run lemma carries an invariant through every operation: the database holds, under
their hashes, the blobs the commits wrote (`DbOk`), the root holds the map under the hex
keys (`Wf`, `Represents`), and its flags are right (`Good`).  Commits and reopening read
nodes back from the database, so the run is correct where Keccak tells apart the blobs the
commits write (`Distinct`).
-/

set_option linter.dupNamespace false

namespace Atlantis.Trie

/-- The trie of a session and the node database it sits on. -/
structure Session where
  trie : Trie
  db : Database

/-- The operations of `runRandTest`, and setting the cache limit. -/
inductive Op where
  | update (key value : List UInt8)
  | delete (key : List UInt8)
  | get (key : List UInt8)
  | hash
  | commit
  | reset
  | setCacheLimit (limit : UInt16)

namespace Op

variable (keccak : List UInt8 → Atlantis.Hash)

/-- The key an operation reads or writes, empty for the others. -/
def key : Op → List UInt8
  | update k _ => k
  | delete k => k
  | get k => k
  | _ => []

/-- An operation on a session, with `fuel` for the recursions of the model: the session it
leaves, the value a lookup returns, and the blobs a commit writes; `none` where the model
fails. -/
def run (fuel : Nat) (s : Session) :
    Op → Option (Session × List (List UInt8) × List (Atlantis.Hash × List UInt8))
  | update k v => (s.trie.TryUpdate fuel s.db k v).toOption.map fun t => (⟨t, s.db⟩, [], [])
  | delete k => (s.trie.TryDelete fuel s.db k).toOption.map fun t => (⟨t, s.db⟩, [], [])
  | get k => (s.trie.TryGet fuel s.db k).toOption.map fun r => (⟨r.2, s.db⟩, [r.1], [])
  | hash => (s.trie.Hash keccak).map fun r => (⟨r.2, s.db⟩, [], [])
  | commit => (s.trie.Commit keccak s.db none).map fun r => (⟨r.2.1, r.2.2.1⟩, [], r.2.2.2)
  | reset => (s.trie.Commit keccak s.db none).bind fun r =>
      (New r.1 r.2.2.1).toOption.map fun t => (⟨t, r.2.2.1⟩, [], r.2.2.2)
  | setCacheLimit l => some (⟨s.trie.SetCacheLimit l, s.db⟩, [], [])

/-- The blobs the commit of an operation writes. -/
def writes (s : Session) : Op → List (Atlantis.Hash × List UInt8)
  | commit | reset => ((s.trie.Commit keccak s.db none).map fun r => r.2.2.2).getD []
  | _ => []

/-- What an operation does to the map from keys to values: an update with an empty value
removes the key, as a delete does. -/
def apply (r : KeyMap UInt8 (List UInt8)) : Op → KeyMap UInt8 (List UInt8)
  | update k v => r.set k (storedValue v)
  | delete k => r.set k none
  | _ => r

/-- What the map says an operation returns: a lookup returns the value, empty when the key
is absent. -/
def expected (r : KeyMap UInt8 (List UInt8)) : Op → List (List UInt8)
  | get k => [(r k).getD []]
  | _ => []

end Op

section Run

variable (keccak : List UInt8 → Atlantis.Hash) (fuel : Nat)

/-- The operations performed in turn, collecting the values returned and the blobs
written; the first that fails ends the run. -/
def runOps : Session → List Op →
    Option (Session × List (List UInt8) × List (Atlantis.Hash × List UInt8))
  | s, [] => some (s, [], [])
  | s, op :: ops => (op.run keccak fuel s).bind fun r =>
      (runOps r.1 ops).map fun r' => (r'.1, r.2.1 ++ r'.2.1, r.2.2 ++ r'.2.2)

/-- The values the map says the lookups of a run return, starting from `r`. -/
def expectedOps : KeyMap UInt8 (List UInt8) → List Op → List (List UInt8)
  | _, [] => []
  | r, op :: ops => op.expected r ++ expectedOps (op.apply r) ops

/-- Keccak tells apart the blobs the commits of a run write, after those of `log`: for the
commit of every operation reached, the blobs written up to it and by it. -/
def Distinct (log : List (List UInt8)) (s : Session) (ops : List Op) : Prop :=
  ∀ pre op post s' outs w, ops = pre ++ op :: post → runOps keccak fuel s pre = some (s', outs, w) →
    LogOk keccak (log ++ (w ++ op.writes keccak s').map Prod.snd)

end Run

/-- The invariant of a session holding the map `r`, whose database holds the blobs of
`log`. -/
structure Session.Inv (keccak : List UInt8 → Atlantis.Hash) (log : List (List UInt8))
    (s : Session) (r : KeyMap UInt8 (List UInt8)) : Prop where
  dbOk : DbOk keccak log s.db
  wf : ∃ M, Wf s.db s.trie.root M ∧ Represents M r
  good : Good keccak s.db true false s.trie.root

section Proofs

variable {keccak : List UInt8 → Atlantis.Hash} {fuel : Nat}

/-- A new database holds only the meta-root. -/
theorem dbOk_newDatabase : DbOk keccak [] (Database.NewDatabase fun _ => none) where
  disk _ := rfl
  newest := .inl rfl
  zero b hb := by
    simpa [Database.Node, Database.NewDatabase, AList.lookup, AList.singleton_entries] using hb.symm
  blobs h b hb hh := by
    simp [Database.Node, Database.NewDatabase, AList.lookup, AList.singleton_entries,
      List.dlookup, Ne.symm hh] at hb

/-- **One operation keeps the invariant**, returns what the map says, and writes the blobs
of its commit. -/
theorem Op.run_inv {log : List (List UInt8)} {s : Session} {r : KeyMap UInt8 (List UInt8)}
    (hinv : s.Inv keccak log r) (op : Op) (hfuel : 4 * op.key.length + 4 ≤ fuel)
    (hlog : LogOk keccak (log ++ (op.writes keccak s).map Prod.snd)) :
    ∃ s', op.run keccak fuel s = some (s', op.expected r, op.writes keccak s) ∧
      s'.Inv keccak (log ++ (op.writes keccak s).map Prod.snd) (op.apply r) := by
  obtain ⟨hdb, ⟨M, hw, hrep⟩, hg⟩ := hinv
  have hterm := hrep.terminatedBelow
  cases op with
  | update k v =>
    obtain ⟨root, hrun, hwf⟩ := tryUpdate_spec s.trie s.db hw hterm k v hfuel
    refine ⟨⟨{ s.trie with root := root }, s.db⟩,
      by simp [Op.run, hrun, Except.toOption, Op.expected, Op.writes], ?_⟩
    simpa [Op.writes, Op.apply] using
      (⟨hdb, ⟨_, hwf, hrep.set k _⟩, tryUpdate_good hdb s.trie hrun hg⟩ :
        Session.Inv keccak log ⟨{ s.trie with root := root }, s.db⟩ _)
  | delete k =>
    obtain ⟨root, hrun, hwf⟩ := tryDelete_spec s.trie s.db hw hterm k hfuel
    refine ⟨⟨{ s.trie with root := root }, s.db⟩,
      by simp [Op.run, hrun, Except.toOption, Op.expected, Op.writes], ?_⟩
    simpa [Op.writes, Op.apply] using
      (⟨hdb, ⟨_, hwf, hrep.set k _⟩, tryDelete_good hdb s.trie hrun hg⟩ :
        Session.Inv keccak log ⟨{ s.trie with root := root }, s.db⟩ _)
  | get k =>
    -- the lookup returns the value the map holds under the key
    obtain ⟨root, hrun, hwf⟩ := tryGet_top s.trie s.db hw hterm k hfuel
    refine ⟨⟨{ s.trie with root := root }, s.db⟩, ?_, ?_⟩
    · simp [Op.run, hrun, Except.toOption, Op.expected, hrep.1 k, Op.writes]
    · simpa [Op.writes, Op.apply] using
        (⟨hdb, ⟨M, hwf, hrep⟩, TryGet_good hdb s.trie hw hterm hg hrun⟩ :
          Session.Inv keccak log ⟨{ s.trie with root := root }, s.db⟩ r)
  | hash =>
    obtain ⟨h, hhash⟩ := Hash_fill keccak s.trie hw
    refine ⟨⟨{ s.trie with root := fill keccak true s.trie.root }, s.db⟩,
      by simp [Op.run, hhash, Op.expected, Op.writes], ?_⟩
    simpa [Op.writes, Op.apply] using
      (⟨hdb, ⟨M, Wf.fill keccak hw true, hrep⟩, good_fill keccak _ hg⟩ :
        Session.Inv keccak log ⟨{ s.trie with root := fill keccak true s.trie.root }, s.db⟩ r)
  | commit =>
    obtain ⟨b, db', w', -, hcommit, hst, hok⟩ :=
      Commit_spec keccak s.trie hdb.newest hdb.disk hg hw hterm
    have hwr : Op.commit.writes keccak s = w' := by simp [Op.writes, hcommit]
    rw [hwr] at hlog ⊢
    obtain ⟨hg', hw'⟩ := hok log hdb hlog
    refine ⟨⟨{ s.trie with
        root := commitFill keccak ⟨s.trie.cachegen, s.trie.cachelimit, none⟩ true s.trie.root
        cachegen := s.trie.cachegen + 1 }, db'⟩, ?_,
      hst.dbOk log hdb hlog, ⟨M, hw', hrep⟩, hg'.of_clean false⟩
    simp [Op.run, hcommit, Op.expected]
  | reset =>
    -- a commit, then `New` at the root hash it returned
    obtain ⟨b, db', w', hroot, hcommit, hst, hok⟩ :=
      Commit_spec keccak s.trie hdb.newest hdb.disk hg hw hterm
    have hwr : Op.reset.writes keccak s = w' := by simp [Op.writes, hcommit]
    rw [hwr] at hlog ⊢
    obtain ⟨hg', hw'⟩ := hok log hdb hlog
    have hdb' := hst.dbOk log hdb hlog
    rcases hroot with ⟨hnil, rfl⟩ | hb
    · -- the empty trie reopens empty
      rw [hnil] at hw
      cases hw
      refine ⟨⟨⟨.nil, emptyRoot, 0, 0⟩, db'⟩, ?_, hdb', ⟨_, .nil, hrep⟩, trivial⟩
      simp [Op.run, hcommit, Op.expected, New, Except.toOption]
    · have hwb := Wf.hashNode_root keccak hdb' hw' (hw'.shaped hterm) (hw'.isValue_root hterm) hg'
        (by rw [ref_true_commitFill]; exact hb)
      obtain ⟨t, hnew, hwt, hgt⟩ := New_of_stored keccak hdb' hlog hwb
      exact ⟨⟨t, db'⟩, by simp [Op.run, hcommit, hnew, Except.toOption, Op.expected],
        hdb', ⟨M, hwt, hrep⟩, hgt.of_clean false⟩
  | setCacheLimit l =>
    exact ⟨_, rfl, by simpa [Op.writes, Op.apply] using
      (⟨hdb, ⟨M, hw, hrep⟩, hg⟩ : Session.Inv keccak log ⟨s.trie.SetCacheLimit l, s.db⟩ r)⟩

/-- An operation writes the blobs of its commit. -/
theorem Op.run_written {s s' : Session} {op : Op} {out : List (List UInt8)}
    {w : List (Atlantis.Hash × List UInt8)} (h : op.run keccak fuel s = some (s', out, w)) :
    w = op.writes keccak s := by
  cases op with
  | commit =>
    obtain ⟨r, hr, hrw⟩ := Option.map_eq_some_iff.mp h
    cases hrw
    simp [Op.writes, hr]
  | reset =>
    obtain ⟨r, hr, hrw⟩ := Option.bind_eq_some_iff.mp h
    obtain ⟨t, -, htw⟩ := Option.map_eq_some_iff.mp hrw
    cases htw
    simp [Op.writes, hr]
  | update k v =>
    obtain ⟨t, -, htw⟩ := Option.map_eq_some_iff.mp h
    cases htw
    rfl
  | delete k =>
    obtain ⟨t, -, htw⟩ := Option.map_eq_some_iff.mp h
    cases htw
    rfl
  | get k =>
    obtain ⟨t, -, htw⟩ := Option.map_eq_some_iff.mp h
    cases htw
    rfl
  | hash =>
    obtain ⟨t, -, htw⟩ := Option.map_eq_some_iff.mp h
    cases htw
    rfl
  | setCacheLimit l =>
    cases h
    rfl

/-- The commits of a run up to an operation, and that operation's, write the first blobs
the whole run writes. -/
theorem runOps_writes_prefix :
    ∀ {pre : List Op} {op : Op} {post : List Op} {s s' sf : Session}
      {outs outsf : List (List UInt8)} {w wf : List (Atlantis.Hash × List UInt8)},
      runOps keccak fuel s (pre ++ op :: post) = some (sf, outsf, wf) →
      runOps keccak fuel s pre = some (s', outs, w) →
      ∃ rest, wf = w ++ op.writes keccak s' ++ rest
  | [], op, post, s, s', sf, outs, outsf, w, wf, h, hpre => by
    rw [runOps, Option.some.injEq, Prod.mk.injEq, Prod.mk.injEq] at hpre
    obtain ⟨rfl, -, rfl⟩ := hpre
    rw [List.nil_append, runOps] at h
    obtain ⟨r, hr, h⟩ := Option.bind_eq_some_iff.mp h
    obtain ⟨r', -, h⟩ := Option.map_eq_some_iff.mp h
    cases h
    exact ⟨r'.2.2, by rw [Op.run_written hr, List.nil_append]⟩
  | p :: pre, op, post, s, s', sf, outs, outsf, w, wf, h, hpre => by
    -- the first operation is the same in both runs; the rest by induction
    rw [List.cons_append, runOps] at h
    rw [runOps] at hpre
    obtain ⟨r, hr, h⟩ := Option.bind_eq_some_iff.mp h
    obtain ⟨r', hr', h⟩ := Option.map_eq_some_iff.mp h
    cases h
    obtain ⟨q, hq, hpre⟩ := Option.bind_eq_some_iff.mp hpre
    obtain ⟨q', hq', hpre⟩ := Option.map_eq_some_iff.mp hpre
    cases hpre
    rw [hr, Option.some.injEq] at hq
    subst hq
    obtain ⟨rest, hrest⟩ := runOps_writes_prefix hr' hq'
    exact ⟨rest, by rw [hrest, List.append_assoc, List.append_assoc, List.append_assoc]⟩

/-- Keccak tells apart the blobs of every commit of a run where it tells apart all the blobs
the run writes. -/
theorem distinct_of_runOps {log : List (List UInt8)} {s sf : Session} {ops : List Op}
    {outsf : List (List UInt8)} {wf : List (Atlantis.Hash × List UInt8)}
    (hrun : runOps keccak fuel s ops = some (sf, outsf, wf))
    (hlog : LogOk keccak (log ++ wf.map Prod.snd)) : Distinct keccak fuel log s ops := by
  intro pre op post s' outs w hsplit hpre
  subst hsplit
  obtain ⟨rest, hrest⟩ := runOps_writes_prefix hrun hpre
  refine hlog.mono fun b hb => ?_
  rw [hrest]
  simp only [List.mem_append, List.map_append] at hb ⊢
  tauto

/-- **A run keeps the invariant**, and its lookups return what the map says. -/
theorem runOps_inv :
    ∀ (ops : List Op) {log : List (List UInt8)} {s : Session} {r : KeyMap UInt8 (List UInt8)},
      s.Inv keccak log r → (∀ op ∈ ops, 4 * op.key.length + 4 ≤ fuel) →
      Distinct keccak fuel log s ops →
      ∃ s' w, runOps keccak fuel s ops = some (s', expectedOps r ops, w) ∧
        s'.Inv keccak (log ++ w.map Prod.snd) (ops.foldl Op.apply r)
  | [], log, s, r, hinv, _, _ => ⟨s, [], rfl, by simpa using hinv⟩
  | op :: ops, log, s, r, hinv, hfuel, hdist => by
    have hlog : LogOk keccak (log ++ (op.writes keccak s).map Prod.snd) := by
      simpa using hdist [] op ops s [] [] rfl rfl
    obtain ⟨s₁, hrun₁, hinv₁⟩ := op.run_inv hinv (hfuel op (by simp)) hlog
    -- the writes of the rest of the run come after those of the first operation
    have hdist₁ : Distinct keccak fuel (log ++ (op.writes keccak s).map Prod.snd) s₁ ops := by
      intro pre op' post s' outs w hops hpre
      have h := hdist (op :: pre) op' post s' (op.expected r ++ outs) (op.writes keccak s ++ w)
        (by simp [hops]) (by simp [runOps, hrun₁, hpre])
      simpa [List.append_assoc] using h
    obtain ⟨s₂, w₂, hrun₂, hinv₂⟩ :=
      runOps_inv ops hinv₁ (fun op' h => hfuel op' (by simp [h])) hdist₁
    refine ⟨s₂, op.writes keccak s ++ w₂, by simp [runOps, hrun₁, hrun₂, expectedOps], ?_⟩
    simpa [List.append_assoc] using hinv₂

/-- **Lookups return the values written.**  From a new trie over a new database, with
fuel for the longest key, every run of updates, deletes, lookups, hashing, commits, resets
and changes of the cache limit succeeds, and its lookups return the values a map from
keys to values holds when updates set them, updates with an empty value and deletes
remove them, and absent keys read as empty; where Keccak tells apart the blobs the
commits write. -/
theorem session_get_reference (keccak : List UInt8 → Atlantis.Hash) (fuel : Nat) (ops : List Op)
    (hfuel : ∀ op ∈ ops, 4 * op.key.length + 4 ≤ fuel)
    (hdist : Distinct keccak fuel [] ⟨⟨.nil, Hash.zero, 0, 0⟩, Database.NewDatabase fun _ => none⟩ ops) :
    ∃ s w, runOps keccak fuel ⟨⟨.nil, Hash.zero, 0, 0⟩, Database.NewDatabase fun _ => none⟩ ops =
      some (s, expectedOps KeyMap.empty ops, w) := by
  have hinv : Session.Inv keccak [] ⟨⟨.nil, Hash.zero, 0, 0⟩, Database.NewDatabase fun _ => none⟩
      KeyMap.empty := ⟨dbOk_newDatabase, ⟨_, .nil, Represents.empty⟩, trivial⟩
  obtain ⟨s, w, hrun, -⟩ := runOps_inv ops hinv hfuel hdist
  exact ⟨s, w, hrun⟩

/-- A run over the trie of `0x12` and `0x34` with a commit and a reset: the lookups after the
reset read the nodes back from the database, where `markHash` tells apart the three blobs
written. -/
theorem session_get_reference_reset :
    ∃ s w, runOps markHash 12 ⟨⟨.nil, Hash.zero, 0, 0⟩, Database.NewDatabase fun _ => none⟩
      [.update [0x12] [5], .update [0x34] longValue, .commit, .get [0x34], .update [0x56] [8],
        .reset, .get [0x12], .update [0x12] [], .get [0x12], .get [0x56]] =
        some (s, [longValue, [5], [], [8]], w) := by
  -- the blobs written, and that their hashes differ
  have hR : (runOps markHash 12 ⟨⟨.nil, Hash.zero, 0, 0⟩, Database.NewDatabase fun _ => none⟩
      [.update [0x12] [5], .update [0x34] longValue, .commit, .get [0x34], .update [0x56] [8],
        .reset, .get [0x12], .update [0x12] [], .get [0x12], .get [0x56]]).map
      (fun r => (decide ((r.2.2.map fun e => markHash e.2).Nodup),
        decide (∀ e ∈ r.2.2, markHash e.2 ≠ Hash.zero ∧ markHash e.2 ≠ emptyRoot ∧
          e.2.length < 2 ^ 64))) = some (true, true) := by
    decide +kernel
  obtain ⟨⟨sf, outsf, wf⟩, hrun, hv⟩ := Option.map_eq_some_iff.mp hR
  simp only [Prod.mk.injEq, decide_eq_true_eq] at hv
  obtain ⟨hnodup, hne⟩ := hv
  have hlog : LogOk markHash ([] ++ wf.map Prod.snd) := by
    rw [List.nil_append]
    refine ⟨fun x hx y hy hxy => List.inj_on_of_nodup_map (by rwa [List.map_map]) hx hy hxy,
      fun b hb => ?_⟩
    obtain ⟨e, he, rfl⟩ := List.mem_map.mp hb
    exact hne e he
  have h := session_get_reference markHash 12
    [.update [0x12] [5], .update [0x34] longValue, .commit, .get [0x34], .update [0x56] [8],
      .reset, .get [0x12], .update [0x12] [], .get [0x12], .get [0x56]] (by decide)
    (distinct_of_runOps hrun hlog)
  simpa [expectedOps, Op.expected, Op.apply, KeyMap.set_apply, KeyMap.empty_apply, storedValue,
    longValue] using h

end Proofs

end Atlantis.Trie
