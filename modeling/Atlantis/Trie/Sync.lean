import Atlantis.Trie.Iterator
import Atlantis.Lib.Heap
import Atlantis.Lib.AList
import Atlantis.Lib.Slices
import Atlantis.State.Object
import Atlantis.Lib.Rounding

/-!
# The trie sync scheduler

`trie/sync.go`: the scheduler of state sync.  It hands out the hashes of the trie nodes it
has not got (`Missing`), takes their data back (`Process`), asks for the children the data
names, and writes a node to its in-memory batch (`commit`) only when every child is written,
its own and, through the parent links of the requests, its ancestors' completion following.
`Commit` writes the batch to the database in the order of completion, "to prevent
out-of-order data loss": a database never holds a node whose children it lacks, so finding
a node there tells the next sync that its whole subtrie is there.

The requests are pointers in the source, their map keyed by hash, each holding pointers to
its parents.  Here the map is an association list holding the requests by value, every
mutation written back to it, and a parent is named by its hash.  A parent request stays in
the map while a child links to it (`Pre.parents`), so the hash names the object the pointer
does; a lookup that fails, where the source would follow a stale pointer, is `none`, as are
the source's panics, and neither happens (`Process_isSome`).

The leaf callback is the one `NewStateSync` installs: it reads an account from the leaf and
adds the account's storage trie and code under the node holding the leaf.  Here it returns
what it adds (`SyncWant`), which the scheduler then adds, in the order the callback does.
The queue is `prque` over `container/heap`, the highest priority popped first; a priority is
the `float32` of a depth, exact for every depth below `2 ^ 24`.  `Commit` writes into the
database the scheduler reads, as state sync does.

Beside the program's state the model keeps history variables that no step reads: the
database the sync started from, and the requests committed, in order.

The invariant `Pre` holds between operations (`Inv`) and, with the links still to be made,
inside them; each operation keeps it (`Pre.schedule`, `Pre.childrenLoop`, `Pre.commitF`,
`Inv.processLoop`, `Inv.Commit`), so it holds in every state a run reaches (`Reachable.inv`).
Read off it: no trie node is committed before what it needs (`written_needs_met`), though a
trie node first asked for as a raw entry is committed as one (`written_raw_merge`); `Process`
does not panic (`Process_isSome`), the dependency counts are exact (`requests_wellFormed`), and
`Missing` hands out the highest priorities first (`Missing_deepest`), the deepest nodes first
for depths below `2 ^ 24`.
-/

namespace Atlantis.Trie

open scoped List

/-- What the leaf callback of `NewStateSync` adds under the node it is called at. -/
inductive SyncWant where
  /-- `AddSubTrie(root, depth, parent, nil)`. -/
  | subTrie (root : Hash) (depth : Int)
  /-- `AddRawEntry(hash, depth, parent)`. -/
  | rawEntry (hash : Hash) (depth : Int)

/-- The `LeafCallback` of a sync, as `NewStateSync` writes it: from the value at a leaf, what
to add under the node holding it, or the error of decoding the leaf. -/
abbrev SyncCallback := List UInt8 → Except String (List SyncWant)

/-- `request`: a scheduled or in-flight retrieval.  `data` is `none` until the node is
delivered; `deps` counts the links from the requests of its children. -/
structure request where
  hash : Hash
  data : Option (List UInt8)
  raw : Bool
  parents : List Hash
  depth : Int
  deps : Int
  callback : Option SyncCallback

/-- `SyncResult`: a delivered node with the hash it was asked for under. -/
structure SyncResult where
  hash : Hash
  data : List UInt8

/-- The errors of `Process`: the sentinels, a node that fails to decode, and the callback's. -/
inductive SyncError where
  | ErrNotRequested
  | ErrAlreadyProcessed
  | decode (e : NodeError)
  | callback (e : String)

/-- Go's `float32` of an `int`, as the integer it is: rounded to the 24 significant bits of a
`float32`, to nearest with ties to even.  A Go `int` is below `2 ^ 63`, far from where a
`float32` overflows. -/
def float32 (n : Int) : Int := Rounding.int 24 n

/-- Below `2 ^ 24` a depth is its own priority. -/
theorem float32_of_natAbs_lt {n : Int} (h : n.natAbs < 2 ^ 24) : float32 n = n :=
  Rounding.int_of_natAbs_lt h

/-- A deeper request never has a lower priority. -/
theorem float32_mono : Monotone float32 := Rounding.int_mono (by decide)

/-- Depths `2 ^ 24` and `2 ^ 24 + 1` share a priority. -/
theorem float32_two_pow_24_add_one : float32 (2 ^ 24 + 1) = float32 (2 ^ 24) := by
  have h₁ : ((2 : Int) ^ 24 + 1).toNat = 2 ^ 24 + 1 := rfl
  have h₂ : ((2 : Int) ^ 24).toNat = 2 ^ 24 := rfl
  rw [float32, float32, Rounding.int, Rounding.int, if_pos (by decide), if_pos (by decide), h₁, h₂,
    Rounding.nat_two_pow_add_one (by decide), Rounding.nat_two_pow (by decide)]

/-- The order of `prque` on a hash and its priority: a higher priority pops first. -/
def queueKey (e : Hash × Int) : Int := -e.2

/-- `Sync`, with `membatch` as its two fields `batch` and `order`. -/
structure Sync where
  database : List UInt8 → Option (List UInt8)
  batch : AList fun _ : Hash => List UInt8
  order : List Hash
  requests : AList fun _ : Hash => request
  queue : ArrayHeap (Hash × Int)
  /-- History: the database the sync started from. -/
  initial : List UInt8 → Option (List UInt8)
  /-- History: the requests committed, in the order of `commit`. -/
  written : List request

namespace Sync

variable (keccak : List UInt8 → Atlantis.Hash)

/-- `schedule`: a request for a hash already requested only adds its parents to the old one. -/
def schedule (s : Sync) (req : request) : Sync :=
  match s.requests.lookup req.hash with
  | some old =>
    { s with requests := s.requests.replace req.hash { old with parents := old.parents ++ req.parents } }
  | none =>
    { s with queue := ArrayHeap.Push queueKey s.queue (req.hash, float32 req.depth),
             requests := s.requests.insert req.hash req }

/-- The end of `AddSubTrie` and `AddRawEntry`: the new request linked to its designated parent
(none for the zero hash), then scheduled; `none` where the source panics on a parent that is
not requested. -/
def link (s : Sync) (req : request) (parent : Hash) : Option Sync :=
  if parent ≠ Hash.zero then
    match s.requests.lookup parent with
    | none => none
    | some ancestor =>
      some (schedule
        { s with requests := s.requests.replace parent { ancestor with deps := ancestor.deps + 1 } }
        { req with parents := req.parents ++ [parent] })
  else some (s.schedule req)

/-- `AddSubTrie`: nothing for the empty trie or a root in the batch or decoding from the
database. -/
def AddSubTrie (s : Sync) (root : Hash) (depth : Int) (parent : Hash)
    (callback : Option SyncCallback) : Option Sync :=
  if root = emptyRoot then some s
  else if root ∈ s.batch then some s
  else if (decodeNode (some root.bytes) ((s.database root.bytes).getD []) 0).isOk then some s
  else s.link ⟨root, none, false, [], depth, 0, callback⟩ parent

/-- `AddRawEntry`: nothing for the empty code or an entry in the batch or the database. -/
def AddRawEntry (s : Sync) (hash : Hash) (depth : Int) (parent : Hash) : Option Sync :=
  if hash = emptyState keccak then some s
  else if hash ∈ s.batch then some s
  else if (s.database hash.bytes).isSome then some s
  else s.link ⟨hash, none, true, [], depth, 0, none⟩ parent

/-- What the callback asks for, added under `parent` in order. -/
def addWants (s : Sync) (parent : Hash) : List SyncWant → Option Sync
  | [] => some s
  | .subTrie root depth :: ws => (s.AddSubTrie root depth parent none).bind (addWants · parent ws)
  | .rawEntry hash depth :: ws =>
    (s.AddRawEntry keccak hash depth parent).bind (addWants · parent ws)

/-- `Missing`: up to `max` hashes popped from the queue (all of them for `0`). -/
def missingLoop (max : Nat) : Nat → Sync → List Hash → List Hash × Sync
  | 0, s, requests => (requests, s)
  | fuel + 1, s, requests =>
    if s.queue.n ≠ 0 ∧ (max = 0 ∨ requests.length < max) then
      let (queue, item) := ArrayHeap.Pop queueKey s.queue
      missingLoop max fuel { s with queue } (requests ++ [item.1])
    else (requests, s)

/-- `Missing`. -/
def Missing (s : Sync) (max : Nat) : List Hash × Sync := missingLoop max s.queue.n s []

/-- The children of a node, with their depths: the child of a short node, the children of a
full node that are not nil; `none` for any other node, where the source panics. -/
def childrenOf (depth : Int) : MemNode → Option (List (MemNode × Int))
  | .shortNode key val _ => some [(val, depth + key.length)]
  | .fullNode cs _ =>
    some ((List.finRange 17).filterMap fun i => if (cs i).isNil then none else some (cs i, depth + 1))
  | _ => none

/-- Notify any external watcher of a new key/value node: the callback at a value, its
additions made under the node; the callback's error otherwise. -/
def notify (s : Sync) (req : request) (child : MemNode) : Option (Except SyncError Sync) :=
  match req.callback, child with
  | some cb, .valueNode v =>
    match cb v with
    | .error e => some (.error (.callback e))
    | .ok wants => (s.addWants keccak req.hash wants).map .ok
  | _, _ => some (.ok s)

/-- The loop of `children`: the callback at each value, and a request for each hash child
that is neither in the batch nor in the database.  The state is returned with an error, since
the callback's additions stay made. -/
def childrenLoop (req : request) :
    List (MemNode × Int) → Sync → List request → Option (Sync × Except SyncError (List request))
  | [], s, requests => some (s, .ok requests)
  | (child, depth) :: rest, s, requests =>
    match s.notify keccak req child with
    | none => none
    | some (.error e) => some (s, .error e)
    | some (.ok s) =>
      match child with
      | .hashNode node =>
        let hash := Hash.ofBytes node
        if hash ∈ s.batch then childrenLoop req rest s requests
        else if (s.database node).isSome then childrenLoop req rest s requests
        else childrenLoop req rest s (requests ++ [⟨hash, none, false, [req.hash], depth, 0, req.callback⟩])
      | _ => childrenLoop req rest s requests

/-- `children`. -/
def children (s : Sync) (req : request) (object : MemNode) :
    Option (Sync × Except SyncError (List request)) :=
  (childrenOf req.depth object).bind fun cs => childrenLoop keccak req cs s []

/-- The write of `commit`: the node to the batch and the order, its request out of the map. -/
def commitWrite (s : Sync) (h : Hash) (req : request) : Sync :=
  { s with batch := s.batch.insert h (req.data.getD []), order := s.order ++ [h],
           requests := s.requests.erase h, written := s.written ++ [req] }

@[simp] theorem commitWrite_batch (s : Sync) (h : Hash) (req : request) :
    (s.commitWrite h req).batch = s.batch.insert h (req.data.getD []) := rfl
@[simp] theorem commitWrite_order (s : Sync) (h : Hash) (req : request) :
    (s.commitWrite h req).order = s.order ++ [h] := rfl
@[simp] theorem commitWrite_requests (s : Sync) (h : Hash) (req : request) :
    (s.commitWrite h req).requests = s.requests.erase h := rfl
@[simp] theorem commitWrite_written (s : Sync) (h : Hash) (req : request) :
    (s.commitWrite h req).written = s.written ++ [req] := rfl
@[simp] theorem commitWrite_database (s : Sync) (h : Hash) (req : request) :
    (s.commitWrite h req).database = s.database := rfl
@[simp] theorem commitWrite_initial (s : Sync) (h : Hash) (req : request) :
    (s.commitWrite h req).initial = s.initial := rfl

/-- One parent of a committed node: a dependency fewer, and committed in turn by `commit`
when it has none left; `none` when the parent is not in the map. -/
def commitParent (commit : Sync → Hash → Option Sync) (s : Sync) (p : Hash) : Option Sync :=
  match s.requests.lookup p with
  | none => none
  | some parent =>
    let s : Sync := { s with requests := s.requests.replace p { parent with deps := parent.deps - 1 } }
    if parent.deps - 1 = 0 then commit s p else some s

/-- `commit`, its recursion into the parents bounded by `fuel`.  `none` when the fuel runs out
or a request is not in the map; neither happens with `requests.length + 1` (`Pre.commitF`). -/
def commitF : Nat → Sync → Hash → Option Sync
  | 0, _, _ => none
  | fuel + 1, s, h =>
    match s.requests.lookup h with
    | none => none
    | some req => req.parents.foldlM (commitParent (commitF fuel)) (s.commitWrite h req)

/-- `commit` of the request under `h`. -/
def commit (s : Sync) (h : Hash) : Option Sync := commitF (s.requests.entries.length + 1) s h

/-- The body of `Process` for a trie node that decoded, its data stored: the children requested,
then the node committed when it needs nothing, or counted as waiting for them.  `k` goes on
with the next result. -/
def processNode (k : Sync → Bool → Option (Sync × Bool × Nat × Option SyncError)) (s : Sync)
    (request : request) (node : MemNode) (i : Nat) (committed : Bool) :
    Option (Sync × Bool × Nat × Option SyncError) :=
  match s.children keccak request node with
  | none => none
  | some (s, .error e) => some (s, committed, i, some e)
  | some (s, .ok requests) =>
    -- the callback's additions raised `deps` through the pointer in the map
    match s.requests.lookup request.hash with
    | none => none
    | some request =>
      if requests.length = 0 ∧ request.deps = 0 then
        (s.commit request.hash).bind fun s => k s true
      else
        let s := { s with requests := s.requests.replace request.hash
                            { request with deps := request.deps + requests.length } }
        k (requests.foldl schedule s) committed

/-- The loop of `Process` over the results, from index `i`: whether something was committed,
the index of a result that failed and the error; `none` where the source panics. -/
def processLoop : List SyncResult → Nat → Sync → Bool → Option (Sync × Bool × Nat × Option SyncError)
  | [], _, s, committed => some (s, committed, 0, none)
  | item :: results, i, s, committed =>
    match s.requests.lookup item.hash with
    | none => some (s, committed, i, some .ErrNotRequested)
    | some request =>
      if request.data.isSome then some (s, committed, i, some .ErrAlreadyProcessed)
      -- If the item is a raw entry request, commit directly
      else if request.raw then
        let s := { s with requests := s.requests.replace item.hash { request with data := some item.data } }
        (s.commit item.hash).bind fun s => processLoop results (i + 1) s true
      else
        match decodeNode (some item.hash.bytes) item.data 0 with
        | .error e => some (s, committed, i, some (.decode e))
        | .ok node =>
          let request := { request with data := some item.data }
          let s := { s with requests := s.requests.replace item.hash request }
          processNode keccak (processLoop results (i + 1)) s request node i committed

/-- `Process`. -/
def Process (s : Sync) (results : List SyncResult) : Option (Sync × Bool × Nat × Option SyncError) :=
  processLoop keccak results 0 s false

/-- `Commit`: the batch written to the database in the order of completion, then dropped. -/
def Commit (s : Sync) : Nat × Sync :=
  let database := s.order.foldl
    (fun (db : List UInt8 → Option (List UInt8)) key =>
      Function.update db key.bytes (some ((s.batch.lookup key).getD []))) s.database
  (s.order.length, { s with database, batch := ∅, order := [] })

/-- `Pending`. -/
def Pending (s : Sync) : Nat := s.requests.entries.length

/-- `NewSync`: an empty scheduler with the root's sub-trie added. -/
def NewSync (root : Hash) (database : List UInt8 → Option (List UInt8))
    (callback : Option SyncCallback) : Option Sync :=
  AddSubTrie ⟨database, ∅, [], ∅, ⟨fun _ => default, 0⟩, database, []⟩ root 0 Hash.zero callback

/-! ## What a node needs before it is written -/

/-- The number of links to `h` from the parents of the requests. -/
def links (s : Sync) (h : Hash) : Nat := (s.requests.entries.map fun e => e.2.parents.count h).sum

/-- Whether `h` is written: in the batch or in the database. -/
def Present (s : Sync) (h : Hash) : Prop := h ∈ s.batch ∨ (s.database h.bytes).isSome

end Sync

/-- Something a trie node needs written before itself: a hash child, or what the callback asks
for at a value. -/
inductive SyncNeed where
  | child (hash : Hash)
  | want (w : SyncWant)

namespace SyncNeed

/-- The hash a need is written under. -/
def hash : SyncNeed → Hash
  | .child h => h
  | .want (.subTrie root _) => root
  | .want (.rawEntry h _) => h

/-- A need met where `present` holds: the empty trie and the empty code need nothing. -/
def Met (keccak : List UInt8 → Atlantis.Hash) (present : Hash → Prop) : SyncNeed → Prop
  | .child h => present h
  | .want (.subTrie root _) => root = emptyRoot ∨ present root
  | .want (.rawEntry h _) => h = emptyState keccak ∨ present h

theorem Met.mono {keccak : List UInt8 → Atlantis.Hash} {p q : Hash → Prop} (hpq : ∀ h, p h → q h)
    {n : SyncNeed} (hn : n.Met keccak p) : n.Met keccak q := by
  rcases n with h | ⟨root, _⟩ | ⟨h, _⟩
  · exact hpq h hn
  · exact hn.imp_right (hpq root)
  · exact hn.imp_right (hpq h)

/-- A need whose hash is written is met. -/
theorem met_of_present {keccak : List UInt8 → Atlantis.Hash} {present : Hash → Prop} {n : SyncNeed}
    (h : present n.hash) : n.Met keccak present := by
  rcases n with h' | ⟨root, _⟩ | ⟨h', _⟩
  · exact h
  · exact .inr h
  · exact .inr h

end SyncNeed

/-- What the callback asks for at a child: something only at a value. -/
def wantsAt (cb : Option SyncCallback) (child : MemNode) : List SyncWant :=
  match cb, child with
  | some cb, .valueNode v => (cb v).toOption.getD []
  | _, _ => []

/-- The need of a child itself: the node a hash child names. -/
def hashNeed : MemNode → List SyncNeed
  | .hashNode node => [.child (Hash.ofBytes node)]
  | _ => []

/-- The needs of the children of a node, in the order `children` visits them. -/
def needsLoop (cb : Option SyncCallback) : List (MemNode × Int) → List SyncNeed
  | [] => []
  | (child, _) :: rest => (wantsAt cb child).map .want ++ hashNeed child ++ needsLoop cb rest

/-- The needs of a request, read from its data: none before it is delivered, or where the data
is not a trie node; those of the children of the trie node it decodes to, whatever the kind of
the request.  The callback's additions are linked to the node only when its hash is not the
zero hash, which `link` reads as no parent; under the zero hash only the hash children are
needs. -/
def request.needs (r : request) : List SyncNeed :=
  match r.data with
  | some d =>
    match decodeNode (some r.hash.bytes) d 0 with
    | .ok node =>
      ((Sync.childrenOf r.depth node).map
        (needsLoop (if r.hash = Hash.zero then none else r.callback))).getD []
    | .error _ => []
  | none => []

/-! ## What decoding gives -/

/-- A child reference as decoding makes it: a hash has 32 bytes, and it is not a value. -/
def RefShape (n : MemNode) : Prop := (∀ b, n = .hashNode b → b.length = 32) ∧ ∀ v, n ≠ .valueNode v

/-- A node as decoding makes it: a short node whose hash child has 32 bytes, or a full node
whose hash children have 32 bytes and whose only value is at index 16. -/
def Decoded : MemNode → Prop
  | .shortNode _ v _ => ∀ b, v = .hashNode b → b.length = 32
  | .fullNode cs _ =>
    (∀ i b, cs i = .hashNode b → b.length = 32) ∧ ∀ i, i ≠ 16 → ∀ v, cs i ≠ .valueNode v
  | _ => False

theorem Decoded.refShape {n : MemNode} (h : Decoded n) : RefShape n := by
  cases n with
  | shortNode => exact ⟨fun _ h => (by cases h), fun _ h => (by cases h)⟩
  | fullNode => exact ⟨fun _ h => (by cases h), fun _ h => (by cases h)⟩
  | _ => exact absurd h id

section Shape

variable {dec : List UInt8 → Except NodeError MemNode}

theorem decodeRef_shape (hdec : ∀ b n, dec b = .ok n → Decoded n) {buf : List UInt8} {n : MemNode}
    {rest : List UInt8} (h : decodeRef dec buf = .ok (n, rest)) : RefShape n := by
  unfold decodeRef at h
  cases hs : Rlp.split buf with
  | error e => simp [hs] at h
  | ok res =>
    obtain ⟨kind, val, rest'⟩ := res
    simp only [hs] at h
    by_cases hl : kind = .list
    · -- an embedded node, decoded by `dec`
      simp only [hl, if_true] at h
      by_cases hsz : buf.length - rest'.length > hashLen
      · simp [hsz] at h
      · simp only [hsz, if_false] at h
        cases hd : dec buf with
        | error e => simp [hd, Except.map] at h
        | ok m =>
          simp only [hd, Except.map, Except.ok.injEq, Prod.mk.injEq] at h
          obtain ⟨rfl, -⟩ := h
          exact (hdec _ _ hd).refShape
    · simp only [hl, if_false] at h
      split_ifs at h with h0 h32
      · simp only [Except.ok.injEq, Prod.mk.injEq] at h
        obtain ⟨rfl, -⟩ := h
        exact ⟨fun _ h => (by cases h), fun _ h => (by cases h)⟩
      · simp only [Except.ok.injEq, Prod.mk.injEq] at h
        obtain ⟨rfl, -⟩ := h
        exact ⟨fun _ hb => (by cases hb; exact h32.2), fun _ h => (by cases h)⟩

/-- The loop of `decodeFull` sets the references at indices other than 16. -/
theorem decodeChildren_shape (hdec : ∀ b n, dec b = .ok n → Decoded n) :
    ∀ (is : List (Fin 17)) (elems : List UInt8) (cs : Fin 17 → MemNode)
      (cs' : Fin 17 → MemNode) (rest : List UInt8), (∀ i ∈ is, i ≠ 16) →
      (∀ i, i ≠ 16 → RefShape (cs i)) → cs 16 = .nil →
      decodeChildren dec is elems cs = .ok (cs', rest) →
      (∀ i, i ≠ 16 → RefShape (cs' i)) ∧ cs' 16 = .nil
  | [], elems, cs, cs', rest, _, hcs, h16, h => by
    simp only [decodeChildren, Except.ok.injEq, Prod.mk.injEq] at h
    obtain ⟨rfl, -⟩ := h
    exact ⟨hcs, h16⟩
  | i :: is, elems, cs, cs', rest, his, hcs, h16, h => by
    simp only [decodeChildren] at h
    split at h
    · cases h
    · rename_i cld rest' hr
      have hi : i ≠ 16 := his i List.mem_cons_self
      refine decodeChildren_shape hdec is rest' _ cs' rest (fun j hj => his j (List.mem_cons_of_mem _ hj))
        (fun j hj => ?_) (by rw [Function.update_of_ne (Ne.symm hi)]; exact h16) h
      by_cases hji : j = i
      · subst hji
        rw [Function.update_self]
        exact decodeRef_shape hdec hr
      · rw [Function.update_of_ne hji]
        exact hcs j hj

theorem decodeShort_decoded (hdec : ∀ b n, dec b = .ok n → Decoded n)
    {hash : Option (List UInt8)} {elems : List UInt8} {gen : UInt16} {n : MemNode}
    (h : decodeShort dec hash elems gen = .ok n) : Decoded n := by
  unfold decodeShort at h
  repeat' split at h
  all_goals first
    | (simp only [Except.ok.injEq] at h; subst h; intro b hb; cases hb; done)
    | (simp only [Except.ok.injEq] at h; subst h
       exact (decodeRef_shape hdec ‹decodeRef dec _ = .ok _›).1)
    | simp at h

theorem decodeFull_decoded (hdec : ∀ b n, dec b = .ok n → Decoded n)
    {hash : Option (List UInt8)} {elems : List UInt8} {gen : UInt16} {n : MemNode}
    (h : decodeFull dec hash elems gen = .ok n) : Decoded n := by
  unfold decodeFull at h
  split at h
  · cases h
  · rename_i cs rest hcs
    obtain ⟨hshape, h16⟩ := decodeChildren_shape hdec childIndices _ _ cs rest (by decide)
      (fun _ _ => ⟨fun _ h => (by cases h), fun _ h => (by cases h)⟩) rfl hcs
    split at h
    · cases h
    · simp only [Except.ok.injEq] at h
      subst h
      -- the value, if any, goes to index 16, where no reference is
      refine ⟨fun i b hb => ?_, fun i hi v hv => ?_⟩
      · by_cases hi : i = 16
        · subst hi
          split at hb
          · simp at hb
          · rw [h16] at hb
            cases hb
        · split at hb
          · rw [Function.update_of_ne hi] at hb
            exact (hshape i hi).1 b hb
          · exact (hshape i hi).1 b hb
      · split at hv
        · rw [Function.update_of_ne hi] at hv
          exact (hshape i hi).2 v hv
        · exact (hshape i hi).2 v hv

/-- What `decodeNode` returns is a short or a full node of the decoded shape. -/
theorem decodeNodeF_decoded : ∀ {fuel : Nat} {hash : Option (List UInt8)} {buf : List UInt8}
    {gen : UInt16} {n : MemNode}, decodeNodeF fuel hash buf gen = .ok n → Decoded n
  | 0, _, _, _, _, h => by simp [decodeNodeF] at h
  | fuel + 1, hash, buf, gen, n, h => by
    simp only [decodeNodeF] at h
    have hdec : ∀ b m, decodeNodeF fuel none b gen = .ok m → Decoded m :=
      fun _ _ hm => decodeNodeF_decoded hm
    split at h
    · simp at h
    · split at h
      · simp at h
      · split at h
        · exact decodeShort_decoded hdec (mapError_eq_ok.mp h)
        · exact decodeFull_decoded hdec (mapError_eq_ok.mp h)
        · simp at h

/-- What `decodeNode` returns is a node as decoding makes it. -/
theorem decodeNode_decoded {hash : Option (List UInt8)} {buf : List UInt8} {gen : UInt16}
    {n : MemNode} (h : decodeNode hash buf gen = .ok n) : Decoded n :=
  decodeNodeF_decoded h

end Shape

/-- The children of a decoded node: a hash has 32 bytes, and only the last can be a value, so
the callback runs at most once, after every hash child. -/
def ChildShape (cs : List (MemNode × Int)) : Prop :=
  (∀ x ∈ cs, ∀ b, x.1 = .hashNode b → b.length = 32) ∧
    ∀ k x v, cs[k]? = some x → x.1 = .valueNode v → k + 1 = cs.length

theorem ChildShape.tail {c : MemNode × Int} {cs : List (MemNode × Int)} (h : ChildShape (c :: cs)) :
    ChildShape cs := by
  refine ⟨fun x hx => h.1 x (List.mem_cons_of_mem _ hx), fun k x v hk hv => ?_⟩
  have := h.2 (k + 1) x v (by simpa using hk) hv
  simp only [List.length_cons] at this
  omega

/-- A value among the children is the last of them. -/
theorem ChildShape.value_last {c : MemNode × Int} {cs : List (MemNode × Int)}
    (h : ChildShape (c :: cs)) {v : List UInt8} (hv : c.1 = .valueNode v) : cs = [] := by
  have := h.2 0 c v rfl hv
  simp only [List.length_cons, Nat.zero_add] at this
  exact List.eq_nil_of_length_eq_zero (by omega)

namespace Sync

/-- The children of a node that decodes: a short node's one child, or a full node's children,
the value at index 16 last. -/
theorem childrenOf_shape {n : MemNode} (hn : Decoded n) (d : Int) :
    ∃ cs, childrenOf d n = some cs ∧ ChildShape cs := by
  cases n with
  | shortNode key val flags =>
    refine ⟨_, rfl, fun x hx b hb => ?_, fun k x v hk _ => ?_⟩
    · rw [List.mem_singleton.mp hx] at hb
      exact hn b hb
    · have := (List.getElem?_eq_some_iff.mp hk).1
      simp only [List.length_singleton] at this ⊢
      omega
  | fullNode cs flags =>
    refine ⟨_, rfl, fun x hx b hb => ?_, fun k x v hk hv => ?_⟩
    · obtain ⟨i, -, hi⟩ := List.mem_filterMap.mp hx
      split at hi
      · cases hi
      · rw [Option.some.injEq] at hi
        subst hi
        exact hn.1 i b hb
    · -- the indices below 16 come first, and none of them holds a value
      rw [List.finRange_succ_last, List.filterMap_append] at hk ⊢
      set A := (List.map Fin.castSucc (List.finRange 16)).filterMap (fun i =>
        if (cs i).isNil then none else some (cs i, d + 1))
      set B := [Fin.last 16].filterMap (fun i =>
        if (cs i).isNil then none else some (cs i, d + 1))
      have hA : ∀ y ∈ A, y.1 ≠ .valueNode v := by
        intro y hy
        obtain ⟨i, hi, hy⟩ := List.mem_filterMap.mp hy
        obtain ⟨j, -, rfl⟩ := List.mem_map.mp hi
        split at hy
        · cases hy
        · rw [Option.some.injEq] at hy
          subst hy
          exact hn.2 _ (Fin.castSucc_lt_last j).ne v
      have hB : B.length ≤ 1 := by
        simp only [B, List.filterMap_cons, List.filterMap_nil]
        split <;> simp
      rw [List.getElem?_append] at hk
      split at hk
      · exact absurd hv (hA x (List.mem_of_getElem? hk))
      · have := (List.getElem?_eq_some_iff.mp hk).1
        rw [List.length_append]
        omega
  | _ => exact absurd hn id

end Sync

namespace Sync

/-! ## The requests map -/

section Links

variable {s : Sync} {k : Hash} {r : request}

theorem links_replace (hk : s.requests.lookup k = some r) (r' : request) {t : Sync}
    (ht : t.requests = s.requests.replace k r') (h : Hash) :
    t.links h + r.parents.count h = s.links h + r'.parents.count h := by
  unfold links
  rw [ht]
  exact AList.sum_replace (fun r : request => r.parents.count h) hk r'

theorem links_erase (hk : s.requests.lookup k = some r) {t : Sync}
    (ht : t.requests = s.requests.erase k) (h : Hash) :
    t.links h + r.parents.count h = s.links h := by
  unfold links
  rw [ht]
  exact AList.sum_erase (fun r : request => r.parents.count h) hk

theorem links_insert (hk : k ∉ s.requests) (r : request) {t : Sync}
    (ht : t.requests = s.requests.insert k r) (h : Hash) :
    t.links h = s.links h + r.parents.count h := by
  unfold links
  rw [ht, AList.entries_insert_of_notMem hk]
  simp [Nat.add_comm]

/-- Replacing a request keeps the size of the map. -/
theorem length_replace (hk : s.requests.lookup k = some r) (r' : request) :
    (s.requests.replace k r').entries.length = s.requests.entries.length := by
  simpa using AList.sum_replace (fun _ : request => 1) hk r'

/-- Erasing a request shortens the map by one. -/
theorem length_erase (hk : s.requests.lookup k = some r) :
    (s.requests.erase k).entries.length + 1 = s.requests.entries.length := by
  simpa using AList.sum_erase (fun _ : request => 1) hk

end Links

/-! ## The invariant between steps

`Pre keccak s pend ex` is the invariant of the scheduler, in the form it takes inside an
operation: `pend` holds the links from requests already committed to the parents `commit` has
not yet visited, and `ex` the request whose children `children` is visiting, which does not
yet wait for all its needs.  Between operations both are empty (`Inv`). -/

/-- A request waits for a need: the need's request is there and links to it. -/
def Waits (s : Sync) (h : Hash) (n : SyncNeed) : Prop :=
  ∃ q, s.requests.lookup n.hash = some q ∧ h ∈ q.parents

structure Pre (keccak : List UInt8 → Atlantis.Hash) (s : Sync) (pend : List Hash)
    (ex : Option Hash) : Prop where
  /-- Every request is held under its own hash. -/
  key : ∀ h r, s.requests.lookup h = some r → r.hash = h
  /-- A request's dependencies are the links to it. -/
  deps : ∀ h r, s.requests.lookup h = some r → r.deps = ((s.links h + pend.count h : Nat) : Int)
  /-- The parents of a request are requested. -/
  parents : ∀ h r, s.requests.lookup h = some r → ∀ p ∈ r.parents, p ∈ s.requests
  pend_mem : ∀ p ∈ pend, p ∈ s.requests
  /-- Only a delivered trie node has dependencies. -/
  delivered : ∀ h r, s.requests.lookup h = some r → 0 < r.deps → r.data.isSome ∧ r.raw = false
  /-- A node with dependencies has each need met, or waits for it. -/
  waits : ∀ h r, s.requests.lookup h = some r → some h ≠ ex → 0 < r.deps →
    ∀ n ∈ r.needs, n.Met keccak s.Present ∨ s.Waits h n
  batch : ∀ h, h ∈ s.batch → h ∈ s.order
  order : ∀ h ∈ s.order, h ∈ s.written.map request.hash
  /-- The database holds what it started with and committed nodes. -/
  database : ∀ h, (s.database h.bytes).isSome →
    (s.initial h.bytes).isSome ∨ h ∈ s.written.map request.hash
  /-- Every committed request was delivered. -/
  written_data : ∀ r ∈ s.written, r.data.isSome
  /-- Every committed trie request's needs were met by the database the sync started from and
  the nodes committed before it. -/
  ordered : ∀ k (hk : k < s.written.length), s.written[k].raw = false → ∀ n ∈ s.written[k].needs,
    n.Met keccak fun h => (s.initial h.bytes).isSome ∨ h ∈ (s.written.take k).map request.hash
  /-- The queue is a heap by priority. -/
  queue : ArrayHeap.Ordered queueKey s.queue.a s.queue.n

/-- The invariant of the scheduler between operations. -/
def Inv (keccak : List UInt8 → Atlantis.Hash) (s : Sync) : Prop := Pre keccak s [] none

variable {keccak : List UInt8 → Atlantis.Hash}

section PreLemmas

variable {s : Sync} {pend : List Hash} {ex : Option Hash}

/-- No request links to a hash that is not requested. -/
theorem Pre.links_eq_zero (hp : Pre keccak s pend ex) {x : Hash} (hx : x ∉ s.requests) :
    s.links x = 0 := by
  unfold links
  refine List.sum_eq_zero fun c hc => ?_
  obtain ⟨⟨h, r⟩, he, rfl⟩ := List.mem_map.mp hc
  have hr : s.requests.lookup h = some r := AList.mem_lookup_iff.mpr he
  exact List.count_eq_zero.mpr fun hm => hx (hp.parents h r hr x hm)

/-- A written hash stays written when the batch gains an entry. -/
theorem present_of_present {t : Sync} (hb : ∀ h, h ∈ s.batch → h ∈ t.batch)
    (hd : t.database = s.database) {h : Hash} (hs : s.Present h) : t.Present h :=
  hs.imp (hb h) (by rw [hd]; exact id)

end PreLemmas

/-! ## Operations that only add requests and links -/

/-- `s'` is `s` with requests added and parents added to requests: what `schedule`, `link`
and the callback's additions do. -/
structure Adds (s s' : Sync) : Prop where
  batch : s'.batch = s.batch
  order : s'.order = s.order
  database : s'.database = s.database
  initial : s'.initial = s.initial
  written : s'.written = s.written
  requests : ∀ h q, s.requests.lookup h = some q → ∃ q', s'.requests.lookup h = some q' ∧
    q'.hash = q.hash ∧ q'.data = q.data ∧ q'.raw = q.raw ∧ q'.depth = q.depth ∧
    q'.callback = q.callback ∧ ∀ p ∈ q.parents, p ∈ q'.parents

namespace Adds

variable {s s' s'' : Sync}

theorem refl (s : Sync) : Adds s s :=
  ⟨rfl, rfl, rfl, rfl, rfl, fun _ q hq => ⟨q, hq, rfl, rfl, rfl, rfl, rfl, fun _ hp => hp⟩⟩

theorem trans (h₁ : Adds s s') (h₂ : Adds s' s'') : Adds s s'' := by
  refine ⟨h₂.batch.trans h₁.batch, h₂.order.trans h₁.order, h₂.database.trans h₁.database,
    h₂.initial.trans h₁.initial, h₂.written.trans h₁.written, fun h q hq => ?_⟩
  obtain ⟨q', hq', e1, e2, e3, e4, e5, hp'⟩ := h₁.requests h q hq
  obtain ⟨q'', hq'', f1, f2, f3, f4, f5, hp''⟩ := h₂.requests h q' hq'
  exact ⟨q'', hq'', f1.trans e1, f2.trans e2, f3.trans e3, f4.trans e4, f5.trans e5,
    fun p hp => hp'' p (hp' p hp)⟩

theorem present_iff (ha : Adds s s') {h : Hash} : s'.Present h ↔ s.Present h := by
  simp only [Present, ha.batch, ha.database]

theorem mem (ha : Adds s s') {h : Hash} (hh : h ∈ s.requests) : h ∈ s'.requests := by
  obtain ⟨q, hq⟩ := Option.isSome_iff_exists.mp (AList.lookup_isSome.mpr hh)
  obtain ⟨q', hq', -⟩ := ha.requests h q hq
  exact AList.lookup_isSome.mp (by simp [hq'])

theorem waits (ha : Adds s s') {h : Hash} {n : SyncNeed} (hw : s.Waits h n) : s'.Waits h n := by
  obtain ⟨q, hq, hh⟩ := hw
  obtain ⟨q', hq', -, -, -, -, -, hp⟩ := ha.requests _ q hq
  exact ⟨q', hq', hp h hh⟩

/-- A need met or waited for stays so. -/
theorem met_or_waits (ha : Adds s s') {h : Hash} {n : SyncNeed}
    (hn : n.Met keccak s.Present ∨ s.Waits h n) : n.Met keccak s'.Present ∨ s'.Waits h n :=
  hn.imp (SyncNeed.Met.mono fun _ => ha.present_iff.mpr) ha.waits

end Adds

/-- The needs of a request read its hash, data, depth and callback only. -/
theorem needs_congr {q q' : request} (e1 : q'.hash = q.hash) (e2 : q'.data = q.data)
    (e4 : q'.depth = q.depth) (e5 : q'.callback = q.callback) :
    q'.needs = q.needs := by
  obtain ⟨_, _, _, _, _, _, _⟩ := q
  obtain ⟨_, _, _, _, _, _, _⟩ := q'
  simp only at e1 e2 e4 e5
  subst e1 e2 e4 e5
  rfl

/-- Replacing a request by one that differs in its dependencies and added parents only. -/
theorem adds_replace {s : Sync} {h : Hash} {r : request} (hr : s.requests.lookup h = some r)
    (q : request) (e1 : q.hash = r.hash) (e2 : q.data = r.data) (e3 : q.raw = r.raw)
    (e4 : q.depth = r.depth) (e5 : q.callback = r.callback) (hpar : ∀ p ∈ r.parents, p ∈ q.parents) :
    Adds s { s with requests := s.requests.replace h q } := by
  have hmem_h : h ∈ s.requests := AList.lookup_isSome.mp (by simp [hr])
  refine ⟨rfl, rfl, rfl, rfl, rfl, fun x q' hq' => ?_⟩
  by_cases hx : x = h
  · subst hx
    rw [hr, Option.some.injEq] at hq'
    subst hq'
    exact ⟨q, AList.lookup_replace_self _ hmem_h, e1, e2, e3, e4, e5, hpar⟩
  · exact ⟨q', by rw [AList.lookup_replace_of_ne _ _ hx]; exact hq', rfl, rfl, rfl, rfl, rfl,
      fun _ hp => hp⟩

section Schedule

variable {s : Sync} {req : request} {pend : List Hash} {ex : Option Hash}

theorem schedule_adds (s : Sync) (req : request) : Adds s (s.schedule req) := by
  unfold schedule
  split
  · rename_i old hold
    exact adds_replace hold _ rfl rfl rfl rfl rfl fun p hp => List.mem_append_left _ hp
  · rename_i hnone
    refine ⟨rfl, rfl, rfl, rfl, rfl, fun h q hq => ?_⟩
    have hh : h ≠ req.hash := by rintro rfl; simp [hnone] at hq
    exact ⟨q, by rw [AList.lookup_insert_ne hh]; exact hq, rfl, rfl, rfl, rfl, rfl, fun _ hp => hp⟩

/-- After `schedule`, the request for the hash has the new parents. -/
theorem schedule_waits (s : Sync) (req : request) :
    ∃ q, (s.schedule req).requests.lookup req.hash = some q ∧ ∀ p ∈ req.parents, p ∈ q.parents := by
  unfold schedule
  split
  · rename_i old hold
    exact ⟨_, AList.lookup_replace_self _ (AList.lookup_isSome.mp (by simp [hold])),
      fun p hp => List.mem_append_right _ hp⟩
  · exact ⟨req, AList.lookup_insert _, fun _ hp => hp⟩

/-- `schedule` moves the parents of the request from the pending links into the map. -/
theorem Pre.schedule (hp : Pre keccak s (req.parents ++ pend) ex) (hreq : req.deps = 0) :
    Pre keccak (s.schedule req) pend ex := by
  have ha := schedule_adds s req
  have hparents : ∀ p ∈ req.parents, p ∈ s.requests := fun p h =>
    hp.pend_mem p (List.mem_append_left _ h)
  unfold Sync.schedule at ha ⊢
  split
  · -- the hash is requested: the old request gains the parents
    rename_i old hold
    simp only [hold] at ha
    have hmem : req.hash ∈ s.requests := AList.lookup_isSome.mp (by simp [hold])
    have hlinks := fun h => links_replace hold { old with parents := old.parents ++ req.parents }
      (t := { s with
        requests := s.requests.replace req.hash { old with parents := old.parents ++ req.parents } })
      rfl h
    simp only [List.count_append] at hlinks
    refine ⟨fun h r hr => ?_, fun h r hr => ?_, fun h r hr => ?_, fun p hpm => ?_,
      fun h r hr => ?_, fun h r hr hex hd n hn => ?_, hp.batch, hp.order, hp.database,
      hp.written_data, hp.ordered, hp.queue⟩
    · rcases AList.lookup_replace_eq_some hmem hr with ⟨rfl, rfl⟩ | ⟨-, hr⟩
      · exact hp.key _ old hold
      · exact hp.key h r hr
    · have hl := hlinks h
      rcases AList.lookup_replace_eq_some hmem hr with ⟨rfl, rfl⟩ | ⟨-, hr⟩
      · have := hp.deps _ old hold
        simp only [List.count_append] at this ⊢
        omega
      · have := hp.deps h r hr
        simp only [List.count_append] at this ⊢
        omega
    · rcases AList.lookup_replace_eq_some hmem hr with ⟨rfl, rfl⟩ | ⟨-, hr⟩
      · intro p hpm
        rcases List.mem_append.mp hpm with hpm | hpm
        · exact AList.mem_replace.mpr (hp.parents _ old hold p hpm)
        · exact AList.mem_replace.mpr (hparents p hpm)
      · exact fun p hpm => AList.mem_replace.mpr (hp.parents h r hr p hpm)
    · exact AList.mem_replace.mpr (hp.pend_mem p (List.mem_append_right _ hpm))
    · rcases AList.lookup_replace_eq_some hmem hr with ⟨rfl, rfl⟩ | ⟨-, hr⟩
      · exact hp.delivered _ old hold
      · exact hp.delivered h r hr
    · rcases AList.lookup_replace_eq_some hmem hr with ⟨rfl, rfl⟩ | ⟨-, hr⟩
      · exact ha.met_or_waits (hp.waits _ old hold hex hd n hn)
      · exact ha.met_or_waits (hp.waits h r hr hex hd n hn)
  · -- a new request, which nothing links to yet
    rename_i hnone
    simp only [hnone] at ha
    have hnot : req.hash ∉ s.requests := AList.lookup_eq_none.mp hnone
    have hlinks := fun h => links_insert (s := s) hnot req
      (t := { s with
        queue := ArrayHeap.Push queueKey s.queue (req.hash, float32 req.depth),
        requests := s.requests.insert req.hash req }) rfl h
    have hzero : s.links req.hash = 0 := hp.links_eq_zero hnot
    have hself : req.parents.count req.hash = 0 :=
      List.count_eq_zero.mpr fun hm => hnot (hparents _ hm)
    have hpend : pend.count req.hash = 0 :=
      List.count_eq_zero.mpr fun hm => hnot (hp.pend_mem _ (List.mem_append_right _ hm))
    refine ⟨fun h r hr => ?_, fun h r hr => ?_, fun h r hr => ?_, fun p hpm => ?_,
      fun h r hr => ?_, fun h r hr hex hd n hn => ?_, hp.batch, hp.order, hp.database,
      hp.written_data, hp.ordered,
      (ArrayHeap.Push_spec hp.queue _).1⟩
    · rcases AList.lookup_insert_eq_some hr with ⟨rfl, rfl⟩ | ⟨-, hr⟩
      · rfl
      · exact hp.key h r hr
    · have hl := hlinks h
      rcases AList.lookup_insert_eq_some hr with ⟨rfl, rfl⟩ | ⟨-, hr⟩
      · rw [hreq, hl, hzero, hself, hpend]
        rfl
      · have := hp.deps h r hr
        simp only [List.count_append] at this
        rw [hl]
        omega
    · rcases AList.lookup_insert_eq_some hr with ⟨rfl, rfl⟩ | ⟨-, hr⟩
      · exact fun p hpm => (AList.mem_insert _).mpr (.inr (hparents p hpm))
      · exact fun p hpm => (AList.mem_insert _).mpr (.inr (hp.parents h r hr p hpm))
    · exact (AList.mem_insert _).mpr (.inr (hp.pend_mem p (List.mem_append_right _ hpm)))
    · rcases AList.lookup_insert_eq_some hr with ⟨rfl, rfl⟩ | ⟨-, hr⟩
      · intro hd
        rw [hreq] at hd
        exact absurd hd (lt_irrefl 0)
      · exact hp.delivered h r hr
    · rcases AList.lookup_insert_eq_some hr with ⟨rfl, rfl⟩ | ⟨-, hr⟩
      · rw [hreq] at hd
        exact absurd hd (lt_irrefl 0)
      · exact ha.met_or_waits (hp.waits h r hr hex hd n hn)

end Schedule

section Link

variable {s : Sync} {h : Hash} {r : request} {pend : List Hash} {ex : Option Hash}

/-- Replacing one request by another under the same hash with the same parents: the links stay,
and the invariant holds again when the new request's own fields satisfy it. -/
theorem Pre.replace (hp : Pre keccak s pend ex) (hr : s.requests.lookup h = some r) (q : request)
    (hkey : q.hash = r.hash) (hpar : q.parents = r.parents) (pend' : List Hash)
    (hdeps : q.deps = ((s.links h + pend'.count h : Nat) : Int))
    (hcount : ∀ x, x ≠ h → pend'.count x = pend.count x) (hmem : ∀ p ∈ pend', p ∈ s.requests)
    (hpos : 0 < q.deps → q.data.isSome ∧ q.raw = false)
    (hwait : some h ≠ ex → 0 < q.deps → ∀ n ∈ q.needs, n.Met keccak s.Present ∨ s.Waits h n) :
    Pre keccak { s with requests := s.requests.replace h q } pend' ex := by
  have hmem_h : h ∈ s.requests := AList.lookup_isSome.mp (by simp [hr])
  have hl : ∀ x, links { s with requests := s.requests.replace h q } x = s.links x := by
    intro x
    have := links_replace hr q (t := { s with requests := s.requests.replace h q }) rfl x
    rw [hpar] at this
    omega
  -- a request that waited still does: the parents are the same
  have hwaits : ∀ x n, s.Waits x n → Waits { s with requests := s.requests.replace h q } x n := by
    rintro x n ⟨q', hq', hxq⟩
    by_cases hn : n.hash = h
    · rw [hn, hr, Option.some.injEq] at hq'
      subst hq'
      exact ⟨q, by rw [hn]; exact AList.lookup_replace_self _ hmem_h, hpar ▸ hxq⟩
    · exact ⟨q', by rw [AList.lookup_replace_of_ne _ _ hn]; exact hq', hxq⟩
  refine ⟨fun x q' hq' => ?_, fun x q' hq' => ?_, fun x q' hq' => ?_,
    fun p hpm => AList.mem_replace.mpr (hmem p hpm), fun x q' hq' => ?_,
    fun x q' hq' hex hd' n hn => ?_, hp.batch, hp.order, hp.database, hp.written_data, hp.ordered,
    hp.queue⟩
  · rcases AList.lookup_replace_eq_some hmem_h hq' with ⟨rfl, rfl⟩ | ⟨-, hq'⟩
    · exact hkey.trans (hp.key _ r hr)
    · exact hp.key x q' hq'
  · rw [hl]
    rcases AList.lookup_replace_eq_some hmem_h hq' with ⟨rfl, rfl⟩ | ⟨hx, hq'⟩
    · exact hdeps
    · rw [hp.deps x q' hq', hcount x hx]
  · rcases AList.lookup_replace_eq_some hmem_h hq' with ⟨rfl, rfl⟩ | ⟨-, hq'⟩
    · exact fun p hpm => AList.mem_replace.mpr (hp.parents _ r hr p (hpar ▸ hpm))
    · exact fun p hpm => AList.mem_replace.mpr (hp.parents x q' hq' p hpm)
  · rcases AList.lookup_replace_eq_some hmem_h hq' with ⟨rfl, rfl⟩ | ⟨-, hq'⟩
    · exact hpos
    · exact hp.delivered x q' hq'
  · rcases AList.lookup_replace_eq_some hmem_h hq' with ⟨rfl, rfl⟩ | ⟨-, hq'⟩
    · exact (hwait hex hd' n hn).imp_right (hwaits _ n)
    · exact (hp.waits x q' hq' hex hd' n hn).imp_right (hwaits x n)

/-- Setting the dependencies of one request, the links pending on it moved to match: every
change `deps` undergoes (a link added, a child committed, the children counted in) is this. -/
theorem Pre.setDeps (hp : Pre keccak s pend ex) (hr : s.requests.lookup h = some r) (pend' : List Hash)
    (v : Int) (hv : v + pend.count h = r.deps + pend'.count h)
    (hcount : ∀ x, x ≠ h → pend'.count x = pend.count x) (hmem : ∀ p ∈ pend', p ∈ s.requests)
    (hpos : 0 < v → r.data.isSome ∧ r.raw = false) (hwait : 0 < v → some h ≠ ex → 0 < r.deps) :
    Pre keccak { s with requests := s.requests.replace h { r with deps := v } } pend' ex ∧
      Adds s { s with requests := s.requests.replace h { r with deps := v } } := by
  refine ⟨hp.replace hr { r with deps := v } rfl rfl pend' ?_ hcount hmem hpos
    fun hex hd' => hp.waits h r hr hex (hwait hd' hex), adds_replace hr _ rfl rfl rfl rfl rfl fun _ hp => hp⟩
  have := hp.deps h r hr
  push_cast at this ⊢
  omega

/-- One more dependency of the node whose children are visited, pending until its link is
scheduled. -/
theorem Pre.bump (hp : Pre keccak s [] (some h)) (hr : s.requests.lookup h = some r)
    (hd : r.data.isSome) (hraw : r.raw = false) :
    Pre keccak { s with requests := s.requests.replace h { r with deps := r.deps + 1 } } [h] (some h) ∧
      Adds s { s with requests := s.requests.replace h { r with deps := r.deps + 1 } } := by
  have hmem_h : h ∈ s.requests := AList.lookup_isSome.mp (by simp [hr])
  refine hp.setDeps hr [h] _ (by simp) (fun x hx => ?_) (fun p hpm => ?_) (fun _ => ⟨hd, hraw⟩)
    (fun _ hex => absurd rfl hex)
  · rw [List.count_singleton, if_neg (by simpa using Ne.symm hx), List.count_nil]
  · rw [List.mem_singleton.mp hpm]
    exact hmem_h

/-- `link` of a new request under the node whose children are visited: the request waits for
by that node, unless the node is under the zero hash. -/
theorem Pre.link (hp : Pre keccak s [] (some h)) (hr : s.requests.lookup h = some r)
    (hd : r.data.isSome) (hraw : r.raw = false) (req : request) (hreq : req.deps = 0)
    (hpar : req.parents = []) :
    ∃ s', s.link req h = some s' ∧ Pre keccak s' [] (some h) ∧ Adds s s' ∧
      (h ≠ Hash.zero → ∃ q, s'.requests.lookup req.hash = some q ∧ h ∈ q.parents) := by
  unfold Sync.link
  by_cases hz : h = Hash.zero
  · subst hz
    refine ⟨_, by simp, ?_, schedule_adds s req, fun hne => absurd rfl hne⟩
    exact Pre.schedule (by simpa [hpar] using hp) hreq
  · obtain ⟨hp', ha⟩ := hp.bump hr hd hraw
    have hsched : Pre keccak (Sync.schedule
        { s with requests := s.requests.replace h { r with deps := r.deps + 1 } }
        { req with parents := req.parents ++ [h] }) [] (some h) :=
      Pre.schedule (by simpa [hpar] using hp') hreq
    refine ⟨_, by simp [hz, hr], hsched, ha.trans (schedule_adds _ _), fun _ => ?_⟩
    obtain ⟨q, hq, hpq⟩ := schedule_waits
      { s with requests := s.requests.replace h { r with deps := r.deps + 1 } }
      { req with parents := req.parents ++ [h] }
    exact ⟨q, hq, hpq h (by simp)⟩

/-- Nothing decodes from no data. -/
theorem decodeNode_nil (hash : Option (List UInt8)) (gen : UInt16) :
    decodeNode hash [] gen = .error .errUnexpectedEOF := by
  simp [decodeNode, decodeNodeF]

/-- A sub-trie the callback adds is met, or waited for by the node. -/
theorem Pre.AddSubTrie (hp : Pre keccak s [] (some h)) (hr : s.requests.lookup h = some r)
    (hd : r.data.isSome) (hraw : r.raw = false) (root : Hash) (depth : Int) :
    ∃ s', s.AddSubTrie root depth h none = some s' ∧ Pre keccak s' [] (some h) ∧ Adds s s' ∧
      (h ≠ Hash.zero → (SyncNeed.want (.subTrie root depth)).Met keccak s'.Present ∨
        s'.Waits h (.want (.subTrie root depth))) := by
  unfold Sync.AddSubTrie
  split_ifs with h1 h2 h3
  · exact ⟨s, rfl, hp, .refl s, fun _ => .inl (.inl h1)⟩
  · exact ⟨s, rfl, hp, .refl s, fun _ => .inl (.inr (.inl h2))⟩
  · -- it decodes from the database, so it is there
    have hdb : (s.database root.bytes).isSome := by
      cases hdb : s.database root.bytes with
      | none => simp [hdb, decodeNode_nil, Except.isOk, Except.toBool] at h3
      | some _ => rfl
    exact ⟨s, rfl, hp, .refl s, fun _ => .inl (.inr (.inr hdb))⟩
  · obtain ⟨s', hs', hp', ha, hw⟩ :=
      hp.link hr hd hraw ⟨root, none, false, [], depth, 0, none⟩ rfl rfl
    exact ⟨s', hs', hp', ha, fun hz => .inr (hw hz)⟩

/-- A raw entry the callback adds is met, or waited for by the node. -/
theorem Pre.AddRawEntry (hp : Pre keccak s [] (some h)) (hr : s.requests.lookup h = some r)
    (hd : r.data.isSome) (hraw : r.raw = false) (hash : Hash) (depth : Int) :
    ∃ s', s.AddRawEntry keccak hash depth h = some s' ∧ Pre keccak s' [] (some h) ∧ Adds s s' ∧
      (h ≠ Hash.zero → (SyncNeed.want (.rawEntry hash depth)).Met keccak s'.Present ∨
        s'.Waits h (.want (.rawEntry hash depth))) := by
  unfold Sync.AddRawEntry
  split_ifs with h1 h2 h3
  · exact ⟨s, rfl, hp, .refl s, fun _ => .inl (.inl h1)⟩
  · exact ⟨s, rfl, hp, .refl s, fun _ => .inl (.inr (.inl h2))⟩
  · exact ⟨s, rfl, hp, .refl s, fun _ => .inl (.inr (.inr h3))⟩
  · obtain ⟨s', hs', hp', ha, hw⟩ :=
      hp.link hr hd hraw ⟨hash, none, true, [], depth, 0, none⟩ rfl rfl
    exact ⟨s', hs', hp', ha, fun hz => .inr (hw hz)⟩

/-- What the callback asks for is added in order; each want is then met or waited for. -/
theorem Pre.addWants (hp : Pre keccak s [] (some h)) (hr : s.requests.lookup h = some r)
    (hd : r.data.isSome) (hraw : r.raw = false) (ws : List SyncWant) :
    ∃ s', s.addWants keccak h ws = some s' ∧ Pre keccak s' [] (some h) ∧ Adds s s' ∧
      (h ≠ Hash.zero → ∀ w ∈ ws, (SyncNeed.want w).Met keccak s'.Present ∨
        s'.Waits h (.want w)) := by
  induction ws generalizing s r with
  | nil => exact ⟨s, rfl, hp, .refl s, fun _ _ hw => absurd hw List.not_mem_nil⟩
  | cons w ws ih =>
    -- one addition, then the rest from the state it leaves
    have step : ∃ s₁, (match w with
        | .subTrie root depth => s.AddSubTrie root depth h none
        | .rawEntry hash depth => s.AddRawEntry keccak hash depth h) = some s₁ ∧
        Pre keccak s₁ [] (some h) ∧ Adds s s₁ ∧
        (h ≠ Hash.zero → (SyncNeed.want w).Met keccak s₁.Present ∨ s₁.Waits h (.want w)) := by
      cases w with
      | subTrie root depth => exact hp.AddSubTrie hr hd hraw root depth
      | rawEntry hash depth => exact hp.AddRawEntry hr hd hraw hash depth
    obtain ⟨s₁, hs₁, hp₁, ha₁, hw₁⟩ := step
    obtain ⟨r₁, hr₁, -, e2, e3, -, -, -⟩ := ha₁.requests h r hr
    obtain ⟨s', hs', hp', ha', hrest⟩ := ih hp₁ hr₁ (e2 ▸ hd) (e3 ▸ hraw)
    refine ⟨s', ?_, hp', ha₁.trans ha', fun hz w' hw' => ?_⟩
    · cases w <;> simp only [addWants] at hs₁ ⊢ <;> rw [hs₁] <;> exact hs'
    · rcases List.mem_cons.mp hw' with rfl | hw'
      · exact ha'.met_or_waits (hw₁ hz)
      · exact hrest hz w' hw'

end Link

/-! ## The children of a delivered node -/

section Children

variable {s : Sync} {h : Hash} {r : request} {req : request}

/-- Only a value has wants. -/
theorem wantsAt_of_not_value {cb : Option SyncCallback} {child : MemNode}
    (hv : ∀ v, child ≠ .valueNode v) : wantsAt cb child = [] := by
  unfold wantsAt
  split
  · exact absurd rfl (hv _)
  · rfl

/-- The callback at one child: it adds what it asks for under the node, each want then met or
waited for; it fails only at a value, and elsewhere changes nothing. -/
theorem Pre.notify (hp : Pre keccak s [] (some h)) (hr : s.requests.lookup h = some r)
    (hd : r.data.isSome) (hraw : r.raw = false) (hh : req.hash = h)
    (hcb : req.callback = r.callback) (child : MemNode) :
    ∃ res, s.notify keccak req child = some res ∧
      (∀ s₁, res = .ok s₁ → Pre keccak s₁ [] (some h) ∧ Adds s s₁ ∧
        (∀ w ∈ wantsAt (if h = Hash.zero then none else r.callback) child,
          (SyncNeed.want w).Met keccak s₁.Present ∨ s₁.Waits h (.want w)) ∧
        ((∀ v, child ≠ .valueNode v) → s₁ = s)) ∧
      (∀ e, res = .error e → ∃ v, child = .valueNode v) := by
  by_cases hv : ∃ cb v, req.callback = some cb ∧ child = .valueNode v
  · -- a value with a callback: the callback's additions
    obtain ⟨cb, v, hc, rfl⟩ := hv
    have hnotify : s.notify keccak req (.valueNode v) = match cb v with
        | .error e => some (.error (.callback e))
        | .ok wants => (s.addWants keccak req.hash wants).map .ok := by
      simp only [Sync.notify, hc]
    rw [hnotify]
    cases hcv : cb v with
    | error e => exact ⟨_, rfl, fun _ he => (by cases he), fun _ _ => ⟨v, rfl⟩⟩
    | ok wants =>
      obtain ⟨s₁, hs₁, hp₁, ha₁, hw₁⟩ := hp.addWants hr hd hraw wants
      refine ⟨.ok s₁, by dsimp only; rw [hh, hs₁]; rfl, fun s₂ he => ?_, fun _ he => (by cases he)⟩
      cases he
      refine ⟨hp₁, ha₁, fun w hw => ?_, fun hne => absurd rfl (hne v)⟩
      by_cases hz : h = Hash.zero
      · simp [hz, wantsAt] at hw
      · rw [if_neg hz, ← hcb, hc] at hw
        simp only [wantsAt, hcv, Except.toOption, Option.getD_some] at hw
        exact hw₁ hz w hw
  · -- anything else: nothing happens, and nothing is wanted
    have hnotify : s.notify keccak req child = some (.ok s) := by
      rcases hc : req.callback with _ | cb
      · simp [Sync.notify, hc]
      · cases child with
        | valueNode v => exact absurd ⟨cb, v, hc, rfl⟩ hv
        | _ => simp [Sync.notify, hc]
    have hwants : wantsAt (if h = Hash.zero then none else r.callback) child = [] := by
      by_cases hz : h = Hash.zero
      · simp [hz, wantsAt]
      · rw [if_neg hz, ← hcb]
        rcases hc : req.callback with _ | cb
        · rfl
        · cases child with
          | valueNode v => exact absurd ⟨cb, v, hc, rfl⟩ hv
          | _ => rfl
    refine ⟨.ok s, hnotify, fun s₁ he => ?_, fun _ he => (by cases he)⟩
    cases he
    exact ⟨hp, .refl s, by simp [hwants], fun _ => rfl⟩

/-- The loop of `children` over children as decoding makes them: it does not fail, it keeps
the invariant, and each need of the children is met, waited for by the node, or the hash of a
request it returns; an error comes from the callback, before anything was added. -/
theorem Pre.childrenLoop (hh : req.hash = h) (cs : List (MemNode × Int)) (hcs : ChildShape cs)
    (hp : Pre keccak s [] (some h)) (hr : s.requests.lookup h = some r) (hd : r.data.isSome)
    (hraw : r.raw = false) (hcb : req.callback = r.callback) (acc : List request)
    (hacc : ∀ a ∈ acc, a.parents = [h] ∧ a.deps = 0) :
    ∃ s' res, childrenLoop keccak req cs s acc = some (s', res) ∧ Pre keccak s' [] (some h) ∧
      Adds s s' ∧
      (∀ acc', res = .ok acc' → (∀ a ∈ acc', a.parents = [h] ∧ a.deps = 0) ∧ (∀ a ∈ acc, a ∈ acc') ∧
        ∀ n ∈ needsLoop (if h = Hash.zero then none else r.callback) cs,
          n.Met keccak s'.Present ∨ s'.Waits h n ∨ ∃ a ∈ acc', n = .child a.hash) ∧
      (∀ e, res = .error e → s' = s) := by
  induction cs generalizing s r acc with
  | nil =>
    exact ⟨s, .ok acc, rfl, hp, .refl s, fun acc' he => by
      cases he
      exact ⟨hacc, fun _ ha => ha, fun _ hn => absurd hn List.not_mem_nil⟩, fun _ he => by cases he⟩
  | cons c rest ih =>
    obtain ⟨child, depth⟩ := c
    obtain ⟨res, hres, hok, herr⟩ := hp.notify hr hd hraw hh hcb child
    by_cases hv : ∃ v, child = .valueNode v
    · -- a value is the last child: the callback, and the loop ends
      obtain ⟨v, rfl⟩ := hv
      obtain rfl := hcs.value_last rfl
      rw [childrenLoop, hres]
      rcases res with e | s₁
      · exact ⟨s, .error e, rfl, hp, .refl s, fun _ he => (by cases he), fun _ _ => rfl⟩
      · obtain ⟨hp₁, ha₁, hw₁, -⟩ := hok s₁ rfl
        refine ⟨s₁, .ok acc, rfl, hp₁, ha₁, fun acc' he => ?_, fun _ he => (by cases he)⟩
        cases he
        refine ⟨hacc, fun _ ha => ha, fun n hn => ?_⟩
        simp only [needsLoop, hashNeed, List.append_nil, List.mem_map] at hn
        obtain ⟨w, hw, rfl⟩ := hn
        exact (hw₁ w hw).imp_right .inl
    · -- anything else leaves the state as it is and has no wants
      have hnv : ∀ v, child ≠ .valueNode v := fun v he => hv ⟨v, he⟩
      have hres' : res = .ok s := by
        rcases res with e | s₁
        · exact absurd (herr e rfl) hv
        · rw [(hok s₁ rfl).2.2.2 hnv]
      subst hres'
      -- the rest of the loop from the requests gathered so far, `acc₁`
      have cont : ∀ acc₁, (∀ a ∈ acc₁, a.parents = [h] ∧ a.deps = 0) → (∀ a ∈ acc, a ∈ acc₁) →
          (∀ n ∈ hashNeed child, n.Met keccak s.Present ∨ ∃ a ∈ acc₁, n = .child a.hash) →
          ∃ s' res, childrenLoop keccak req rest s acc₁ = some (s', res) ∧
            Pre keccak s' [] (some h) ∧ Adds s s' ∧
            (∀ acc', res = .ok acc' → (∀ a ∈ acc', a.parents = [h] ∧ a.deps = 0) ∧
              (∀ a ∈ acc, a ∈ acc') ∧
              ∀ n ∈ needsLoop (if h = Hash.zero then none else r.callback) ((child, depth) :: rest),
                n.Met keccak s'.Present ∨ s'.Waits h n ∨ ∃ a ∈ acc', n = .child a.hash) ∧
            (∀ e, res = .error e → s' = s) := by
        intro acc₁ hacc₁ hsub hhead
        obtain ⟨s', res, hloop, hp', ha', hok', herr'⟩ :=
          ih hcs.tail hp hr hd hraw hcb acc₁ hacc₁
        refine ⟨s', res, hloop, hp', ha', fun acc' he => ?_, herr'⟩
        obtain ⟨hall, hsub', hneeds⟩ := hok' acc' he
        refine ⟨hall, fun a ha => hsub' a (hsub a ha), fun n hn => ?_⟩
        simp only [needsLoop, wantsAt_of_not_value hnv, List.map_nil, List.nil_append,
          List.mem_append] at hn
        rcases hn with hn | hn
        · rcases hhead n hn with hm | ⟨a, ha, rfl⟩
          · exact .inl (SyncNeed.Met.mono (fun _ => ha'.present_iff.mpr) hm)
          · exact .inr (.inr ⟨a, hsub' a ha, rfl⟩)
        · exact hneeds n hn
      rw [childrenLoop, hres]
      cases child with
      | hashNode node =>
        have hlen : node.length = HashLength := hcs.1 _ List.mem_cons_self node rfl
        dsimp only
        by_cases hb : Hash.ofBytes node ∈ s.batch
        · rw [if_pos hb]
          exact cont acc hacc (fun _ ha => ha) fun n hn => by
            simp only [hashNeed, List.mem_singleton] at hn
            exact hn ▸ .inl (.inl hb)
        rw [if_neg hb]
        by_cases hdb : (s.database node).isSome
        · rw [if_pos hdb]
          exact cont acc hacc (fun _ ha => ha) fun n hn => by
            simp only [hashNeed, List.mem_singleton] at hn
            exact hn ▸ .inl (.inr (by rw [Hash.bytes_ofBytes hlen]; exact hdb))
        -- locally unknown node, scheduled for retrieval
        rw [if_neg hdb]
        refine cont _ (fun a ha => ?_) (fun a ha => List.mem_append_left _ ha) fun n hn => ?_
        · rcases List.mem_append.mp ha with ha | ha
          · exact hacc a ha
          · rw [List.mem_singleton.mp ha, hh]
            exact ⟨rfl, rfl⟩
        · simp only [hashNeed, List.mem_singleton] at hn
          exact hn ▸ .inr ⟨_, List.mem_append_right _ (List.mem_singleton_self _), rfl⟩
      | valueNode v => exact absurd rfl (hnv v)
      | nil => exact cont acc hacc (fun _ ha => ha) fun n hn => by simp [hashNeed] at hn
      | fullNode cs flags => exact cont acc hacc (fun _ ha => ha) fun n hn => by simp [hashNeed] at hn
      | shortNode key val flags =>
        exact cont acc hacc (fun _ ha => ha) fun n hn => by simp [hashNeed] at hn

end Children

/-! ## Commit -/

section Commit

variable {s : Sync} {pend : List Hash} {ex : Option Hash} {h : Hash} {r : request}

/-- A request that another waits for links to it. -/
theorem Waits.links_pos {n : SyncNeed} (hw : s.Waits h n) : 0 < s.links h := by
  obtain ⟨q, hq, hhq⟩ := hw
  have hmem : (⟨n.hash, q⟩ : Sigma fun _ : Hash => request) ∈ s.requests.entries :=
    AList.mem_lookup_iff.mp hq
  have hle : q.parents.count h ≤ links s h :=
    List.le_sum_of_mem (List.mem_map.mpr ⟨_, hmem, rfl⟩)
  have hpos : 0 < q.parents.count h := List.count_pos_iff.mpr hhq
  omega

/-- A written hash was there at the start or is a committed node's. -/
theorem Pre.present_written (hp : Pre keccak s pend ex) {x : Hash} (hx : s.Present x) :
    (s.initial x.bytes).isSome ∨ x ∈ s.written.map request.hash := by
  rcases hx with hb | hdb
  · exact .inr (hp.order x (hp.batch x hb))
  · exact hp.database x hdb

/-- A request with dependencies that nothing links to any more has every need met. -/
theorem Pre.ready (hp : Pre keccak s pend ex) (hr : s.requests.lookup h = some r)
    (hex : some h ≠ ex) (hd : 0 < r.deps) (hl : s.links h = 0) :
    ∀ n ∈ r.needs, n.Met keccak s.Present := by
  intro n hn
  rcases hp.waits h r hr hex hd n hn with hm | hw
  · exact hm
  · have := hw.links_pos
    omega

/-- The write of `commit`: the links from the committed request become pending on its
parents. -/
theorem Pre.write (hp : Pre keccak s pend none) (hr : s.requests.lookup h = some r)
    (hdeps : r.deps = 0) (hmet : r.raw = false → ∀ n ∈ r.needs, n.Met keccak s.Present)
    (hd : r.data.isSome) :
    Pre keccak (s.commitWrite h r) (r.parents ++ pend) none := by
  have hkey : r.hash = h := hp.key h r hr
  -- nothing links to the committed request, and nothing is pending on it
  have hzero : s.links h + pend.count h = 0 := by
    have := hp.deps h r hr
    omega
  have hnolink : ∀ x q, s.requests.lookup x = some q → h ∉ q.parents := by
    intro x q hq hm
    have : 0 < s.links h := Waits.links_pos (n := .child x) ⟨q, hq, hm⟩
    omega
  have hlinks : ∀ x, (s.commitWrite h r).links x + r.parents.count x = s.links x :=
    links_erase hr rfl
  have hpres : ∀ x, s.Present x → (s.commitWrite h r).Present x := fun x hx =>
    present_of_present (t := s.commitWrite h r) (fun y hy => (AList.mem_insert _).mpr (.inr hy))
      rfl hx
  have hpres_h : (s.commitWrite h r).Present h := .inl ((AList.mem_insert _).mpr (.inl rfl))
  refine ⟨fun x q hq => hp.key x q (AList.lookup_erase_eq_some hq).2, fun x q hq => ?_, fun x q hq p hpm => ?_,
    fun p hpm => ?_, fun x q hq => hp.delivered x q (AList.lookup_erase_eq_some hq).2,
    fun x q hq _ hd' n hn => ?_, fun x hx => ?_, fun x hx => ?_, fun x hx => ?_,
    fun q hq => ?_, fun k hk hraw n hn => ?_, hp.queue⟩
  · -- deps: the committed request's links to `x` are now pending
    have := hp.deps x q (AList.lookup_erase_eq_some hq).2
    have hl := hlinks x
    rw [List.count_append]
    push_cast at this ⊢
    omega
  · obtain ⟨-, hq⟩ := AList.lookup_erase_eq_some hq
    exact AList.mem_erase.mpr ⟨fun he => hnolink x q hq (he ▸ hpm), hp.parents x q hq p hpm⟩
  · rcases List.mem_append.mp hpm with hpm | hpm
    · exact AList.mem_erase.mpr ⟨fun he => hnolink h r hr (he ▸ hpm), hp.parents h r hr p hpm⟩
    · have hne : p ≠ h := fun he => by
        have := List.count_pos_iff.mpr (he ▸ hpm)
        omega
      exact AList.mem_erase.mpr ⟨hne, hp.pend_mem p hpm⟩
  · -- waits: a need waited for through the committed request is now met by the batch
    obtain ⟨-, hq⟩ := AList.lookup_erase_eq_some hq
    rcases hp.waits x q hq (by simp) hd' n hn with hm | ⟨q', hq', hxq⟩
    · exact .inl (SyncNeed.Met.mono hpres hm)
    · by_cases hn' : n.hash = h
      · exact .inl (SyncNeed.met_of_present (hn' ▸ hpres_h))
      · exact .inr ⟨q', by rwa [commitWrite_requests, AList.lookup_erase_ne hn'], hxq⟩
  · rw [commitWrite_batch, AList.mem_insert] at hx
    rw [commitWrite_order, List.mem_append, List.mem_singleton]
    exact hx.symm.imp_left (hp.batch x)
  · rw [commitWrite_order, List.mem_append, List.mem_singleton] at hx
    rw [commitWrite_written, List.map_append, List.mem_append]
    rcases hx with hx | rfl
    · exact .inl (hp.order x hx)
    · exact .inr (by simp [hkey])
  · rw [commitWrite_written, List.map_append, List.mem_append]
    exact (hp.database x hx).imp_right .inl
  · rw [commitWrite_written, List.mem_append, List.mem_singleton] at hq
    rcases hq with hq | rfl
    · exact hp.written_data q hq
    · exact hd
  · -- ordered: the committed request goes last, its needs met by what was written before it
    simp only [commitWrite_written, commitWrite_initial, List.length_append,
      List.length_singleton] at hk hn hraw ⊢
    by_cases hlt : k < s.written.length
    · rw [List.getElem_append_left hlt] at hn hraw
      rw [List.take_append_of_le_length hlt.le]
      exact hp.ordered k hlt hraw n hn
    · have hk' : k = s.written.length := by omega
      rw [List.getElem_concat_length hk'] at hn hraw
      rw [hk', List.take_left']
      · exact SyncNeed.Met.mono (fun x hx => hp.present_written hx) (hmet hraw n hn)
      · rfl

/-- A parent of a committed node: the dependency pending on it is dropped. -/
theorem Pre.decrement {p : Hash} {q : request} (hp : Pre keccak s (p :: pend) none)
    (hq : s.requests.lookup p = some q) :
    Pre keccak { s with requests := s.requests.replace p { q with deps := q.deps - 1 } } pend none := by
  refine (hp.setDeps hq pend _ ?_ (fun x hx => ?_) (fun x hx => hp.pend_mem x (List.mem_cons_of_mem _ hx))
    (fun hv => hp.delivered p q hq (by omega)) (fun hv _ => by omega)).1
  · rw [List.count_cons_self]
    push_cast
    omega
  · simp [Ne.symm hx]

/-- `commit` with fuel above the size of the map: it succeeds, keeps the invariant and takes
the request out of the map, with each ancestor it completes. -/
theorem Pre.commitF (fuel : Nat) (hp : Pre keccak s pend none) (hr : s.requests.lookup h = some r)
    (hdeps : r.deps = 0) (hmet : r.raw = false → ∀ n ∈ r.needs, n.Met keccak s.Present)
    (hd : r.data.isSome)
    (hfuel : s.requests.entries.length < fuel) :
    ∃ s', commitF fuel s h = some s' ∧ Pre keccak s' pend none ∧
      s'.requests.entries.length < s.requests.entries.length := by
  induction fuel generalizing s pend h r with
  | zero => exact absurd hfuel (Nat.not_lt_zero _)
  | succ fuel ih =>
    have hlen := length_erase hr
    -- one parent: its dependency goes, and it is committed in turn when that was the last
    have hstep : ∀ p l t, Pre keccak t ((p :: l) ++ pend) none ∧
        t.requests.entries.length < s.requests.entries.length →
        ∃ t', commitParent (commitF fuel) t p = some t' ∧ Pre keccak t' (l ++ pend) none ∧
          t'.requests.entries.length < s.requests.entries.length := by
      rintro p l t ⟨ht, htl⟩
      obtain ⟨q, hq⟩ := Option.isSome_iff_exists.mp
        (AList.lookup_isSome.mpr (ht.pend_mem p List.mem_cons_self))
      have ht1 := ht.decrement hq
      have hlen1 := length_replace hq { q with deps := q.deps - 1 }
      rw [commitParent, hq]
      dsimp only
      split_ifs with hz
      · have hpos : 0 < q.deps := by omega
        have hlinks : t.links p = 0 := by
          have := ht.deps p q hq
          rw [List.cons_append, List.count_cons_self] at this
          omega
        have hmet' : ∀ n ∈ q.needs, n.Met keccak t.Present := ht.ready hq (by simp) hpos hlinks
        obtain ⟨t', ht', hpt', hlt'⟩ := ih ht1
          (AList.lookup_replace_self _ (AList.lookup_isSome.mp (by simp [hq]))) hz (fun _ => hmet')
          (ht.delivered p q hq hpos).1 (by simp only; omega)
        exact ⟨t', ht', hpt', by simp only at hlt'; omega⟩
      · exact ⟨_, rfl, ht1, by simp only; omega⟩
    obtain ⟨s', hs', hp', hlen'⟩ := List.foldlM_some_of_step
      (P := fun l t => Pre keccak t (l ++ pend) none ∧
        t.requests.entries.length < s.requests.entries.length)
      hstep r.parents ⟨hp.write hr hdeps hmet hd, by simp only [commitWrite_requests]; omega⟩
    exact ⟨s', by rw [commitF, hr]; exact hs', hp', hlen'⟩

/-- `commit` of a request with no dependencies, whose needs are met where it is a trie request,
keeps the invariant. -/
theorem Pre.commit (hp : Inv keccak s) (hr : s.requests.lookup h = some r) (hdeps : r.deps = 0)
    (hmet : r.raw = false → ∀ n ∈ r.needs, n.Met keccak s.Present) (hd : r.data.isSome) :
    ∃ s', s.commit h = some s' ∧ Inv keccak s' := by
  obtain ⟨s', hs', hp', -⟩ := Pre.commitF _ hp hr hdeps hmet hd (Nat.lt_succ_self _)
  exact ⟨s', hs', hp'⟩

end Commit

/-! ## Process, Missing and Commit -/

section Process

variable {s : Sync} {pend : List Hash} {ex : Option Hash} {h : Hash} {r : request}

/-- A request not yet delivered has no dependencies. -/
theorem Pre.deps_eq_zero (hp : Pre keccak s pend ex) (hr : s.requests.lookup h = some r)
    (hdata : r.data = none) : r.deps = 0 := by
  have h0 := hp.deps h r hr
  by_contra hne
  have hd := (hp.delivered h r hr (by omega)).1
  rw [hdata] at hd
  cases hd

/-- The data of a request without dependencies is stored in it. -/
theorem Pre.deliver (hp : Pre keccak s pend ex) (hr : s.requests.lookup h = some r)
    (hdeps : r.deps = 0) (d : List UInt8) :
    Pre keccak { s with requests := s.requests.replace h { r with data := some d } } pend ex :=
  hp.replace hr { r with data := some d } rfl rfl pend (hp.deps h r hr) (fun _ _ => rfl) hp.pend_mem
    (fun hd => by dsimp only at hd; omega) (fun _ hd => by dsimp only at hd; omega)

/-- Outside an operation no request is exempt from waiting. -/
theorem Pre.exempt (hp : Pre keccak s pend none) (ex : Option Hash) : Pre keccak s pend ex :=
  { hp with waits := fun x r hr _ hd n hn => hp.waits x r hr (by simp) hd n hn }

/-- The node whose children were visited waits for every need it has not met: no request is
exempt any more. -/
theorem Pre.release (hp : Pre keccak s pend (some h))
    (hh : ∀ r, s.requests.lookup h = some r → 0 < r.deps →
      ∀ n ∈ r.needs, n.Met keccak s.Present ∨ s.Waits h n) :
    Pre keccak s pend none := by
  refine { hp with waits := fun x r hr _ hd n hn => ?_ }
  by_cases hx : x = h
  · subst hx
    exact hh r hr hd n hn
  · exact hp.waits x r hr (by simpa using hx) hd n hn

/-- The requests of the children of one node all link to it alone. -/
theorem flatMap_parents {acc : List request} (hacc : ∀ a ∈ acc, a.parents = [h]) :
    acc.flatMap request.parents = List.replicate acc.length h := by
  induction acc with
  | nil => rfl
  | cons a acc ih =>
    rw [List.flatMap_cons, hacc a List.mem_cons_self,
      ih fun b hb => hacc b (List.mem_cons_of_mem _ hb)]
    rfl

/-- Scheduling the children in turn: each takes the links of its parents from the pending ones,
and is then requested with those parents. -/
theorem Pre.scheduleAll {acc : List request} (hp : Pre keccak s (acc.flatMap request.parents ++ pend) ex)
    (hacc : ∀ a ∈ acc, a.deps = 0) :
    Pre keccak (acc.foldl Sync.schedule s) pend ex ∧ Adds s (acc.foldl Sync.schedule s) ∧
      ∀ a ∈ acc, ∃ q, (acc.foldl Sync.schedule s).requests.lookup a.hash = some q ∧
        ∀ p ∈ a.parents, p ∈ q.parents := by
  induction acc generalizing s with
  | nil => exact ⟨hp, .refl s, fun a ha => absurd ha List.not_mem_nil⟩
  | cons a acc ih =>
    rw [List.flatMap_cons, List.append_assoc] at hp
    obtain ⟨hp', ha', hw'⟩ := ih (Pre.schedule hp (hacc a List.mem_cons_self))
      fun b hb => hacc b (List.mem_cons_of_mem _ hb)
    refine ⟨hp', (schedule_adds s a).trans ha', fun b hb => ?_⟩
    rcases List.mem_cons.mp hb with rfl | hb
    · obtain ⟨q, hq, hpq⟩ := schedule_waits s b
      obtain ⟨q', hq', -, -, -, -, -, hpq'⟩ := ha'.requests _ q hq
      exact ⟨q', hq', fun p hp => hpq' p (hpq p hp)⟩
    · exact hw' b hb

/-- The needs of a delivered trie node are those of its children. -/
theorem needs_of_decode {q : request} {d : List UInt8} {node : MemNode}
    {cs : List (MemNode × Int)} (hd : q.data = some d)
    (hdec : decodeNode (some q.hash.bytes) d 0 = .ok node) (hcs : childrenOf q.depth node = some cs) :
    q.needs = needsLoop (if q.hash = Hash.zero then none else q.callback) cs := by
  simp only [request.needs, hd, hdec, hcs, Option.map_some, Option.getD_some]

/-- A node whose children were visited and that has no dependencies: each need it did not
meet would be a link to it, so all are met, and it is committed. -/
theorem Pre.commitReady {q : request} (hp : Pre keccak s [] (some h))
    (hq : s.requests.lookup h = some q) (hdeps : q.deps = 0) (hd : q.data.isSome)
    (hneeds : ∀ n ∈ q.needs, n.Met keccak s.Present ∨ s.Waits h n) :
    ∃ s', s.commit h = some s' ∧ Inv keccak s' := by
  have hlinks : s.links h = 0 := by
    have := hp.deps h q hq
    omega
  have hinv : Inv keccak s := hp.release fun q' hq' hpos => by
    rw [hq, Option.some.injEq] at hq'
    subst hq'
    omega
  refine Pre.commit hinv hq hdeps (fun _ n hn => ?_) hd
  rcases hneeds n hn with hm | hw
  · exact hm
  · have := hw.links_pos
    omega

/-- A node whose children were visited, waiting for the requests `acc` of the children it has
not got: its dependencies are counted up by them, they are scheduled, and then it waits for
every need it has not met. -/
theorem Pre.waitChildren {q : request} (hp : Pre keccak s [] (some h))
    (hq : s.requests.lookup h = some q) (hd : q.data.isSome) (hraw : q.raw = false)
    {acc : List request} (hall : ∀ a ∈ acc, a.parents = [h] ∧ a.deps = 0)
    (hneeds : ∀ n ∈ q.needs, n.Met keccak s.Present ∨ s.Waits h n ∨ ∃ a ∈ acc, n = .child a.hash) :
    Inv keccak (acc.foldl Sync.schedule
      { s with requests := s.requests.replace h { q with deps := q.deps + acc.length } }) := by
  have hflat := flatMap_parents fun a ha => (hall a ha).1
  have hmem : h ∈ s.requests := AList.lookup_isSome.mp (by simp [hq])
  -- the links of the children pending on the node until they are scheduled
  obtain ⟨hp₁, ha₁⟩ := hp.setDeps hq (acc.flatMap request.parents) (q.deps + acc.length)
    (by rw [hflat, List.count_replicate_self, List.count_nil]; push_cast; omega)
    (fun x hx => by rw [hflat, List.count_nil]; exact List.count_eq_zero.mpr (by simp [hx]))
    (fun p hpm => by rw [hflat] at hpm; rw [List.eq_of_mem_replicate hpm]; exact hmem)
    (fun _ => ⟨hd, hraw⟩) (fun _ hex => absurd rfl hex)
  have hp₁' : Pre keccak { s with requests := s.requests.replace h { q with deps := q.deps + acc.length } }
      (acc.flatMap request.parents ++ []) (some h) := by
    rw [List.append_nil]
    exact hp₁
  obtain ⟨hp₂, ha₂, hw₂⟩ := hp₁'.scheduleAll fun a ha => (hall a ha).2
  have ha := ha₁.trans ha₂
  refine hp₂.release fun q' hq' _ n hn => ?_
  obtain ⟨q₂, hq₂, f1, f2, f3, f4, f5, -⟩ := ha.requests h q hq
  rw [hq₂, Option.some.injEq] at hq'
  subst hq'
  rw [needs_congr f1 f2 f4 f5] at hn
  rcases hneeds n hn with hm | hw | ⟨a, ha', rfl⟩
  · exact .inl (SyncNeed.Met.mono (fun _ => ha.present_iff.mpr) hm)
  · exact .inr (ha.waits hw)
  · -- a child requested now waits with a link to the node
    obtain ⟨q', hq', hpq⟩ := hw₂ a ha'
    exact .inr ⟨q', hq', hpq h (by rw [(hall a ha').1]; exact List.mem_singleton_self h)⟩

/-- The body of `Process` for a trie node that decodes: the children visited, then the node
committed when it needs nothing more, or left waiting for the children it scheduled.  Either
way nothing panics and the rest of the loop starts from the invariant. -/
theorem Inv.processNode (hs : Inv keccak s) (hq : s.requests.lookup h = some r)
    (hdata : r.data = none) (hraw : r.raw = false) {d : List UInt8} {node : MemNode}
    (hdec : decodeNode (some h.bytes) d 0 = .ok node)
    {k : Sync → Bool → Option (Sync × Bool × Nat × Option SyncError)}
    (hk : ∀ s' c, Inv keccak s' → ∃ out, k s' c = some out ∧ Inv keccak out.1) (i : Nat)
    (committed : Bool) :
    ∃ out, processNode keccak k { s with requests := s.requests.replace h { r with data := some d } }
      { r with data := some d } node i committed = some out ∧ Inv keccak out.1 := by
  have hkey : r.hash = h := hs.key h r hq
  have hdeps : r.deps = 0 := hs.deps_eq_zero hq hdata
  have hmem : h ∈ s.requests := AList.lookup_isSome.mp (by simp [hq])
  -- the data stored, then the children visited
  have hp₁ := hs.deliver hq hdeps d
  have hr₁ : (s.requests.replace h { r with data := some d }).lookup h = some { r with data := some d } :=
    AList.lookup_replace_self _ hmem
  obtain ⟨cs, hcs, hshape⟩ := childrenOf_shape (decodeNode_decoded hdec) r.depth
  obtain ⟨s₂, res, hloop, hp₂, ha₂, hok, herr⟩ :=
    Pre.childrenLoop (show ({ r with data := some d } : request).hash = h from hkey) cs hshape
      (hp₁.exempt (some h)) hr₁ rfl hraw rfl [] fun _ ha => absurd ha List.not_mem_nil
  have hchildren : Sync.children keccak { s with requests := s.requests.replace h { r with data := some d } }
      { r with data := some d } node = some (s₂, res) := by
    unfold Sync.children
    dsimp only
    rw [hcs]
    exact hloop
  unfold Sync.processNode
  rw [hchildren]
  rcases res with e | acc
  · -- the callback failed before anything was added
    exact ⟨_, rfl, by rw [herr e rfl]; exact hp₁⟩
  obtain ⟨hall, -, hneeds⟩ := hok acc rfl
  obtain ⟨q, hq₂, e1, e2, e3, e4, e5, -⟩ := ha₂.requests h _ hr₁
  have hqh : q.hash = h := e1.trans hkey
  have hneeds_q : q.needs = needsLoop (if h = Hash.zero then none else r.callback) cs := by
    rw [needs_of_decode e2 (by rw [hqh]; exact hdec) (by rw [e4]; exact hcs), hqh, e5]
  dsimp only
  rw [hkey, hq₂]
  dsimp only
  rw [hqh]
  by_cases hc : acc.length = 0 ∧ q.deps = 0
  · -- no child requested and none added by the callback: the node is committed
    rw [if_pos hc]
    obtain ⟨s₃, hs₃, hinv₃⟩ := hp₂.commitReady hq₂ hc.2 (by rw [e2]; rfl) fun n hn => by
      rw [hneeds_q] at hn
      rcases hneeds n hn with hm | hw | ⟨a, ha, -⟩
      · exact .inl hm
      · exact .inr hw
      · rw [List.eq_nil_of_length_eq_zero hc.1] at ha
        exact absurd ha List.not_mem_nil
    rw [hs₃]
    exact hk s₃ true hinv₃
  · -- the node waits for the children it requested, which are scheduled
    rw [if_neg hc]
    have hinv₄ := hp₂.waitChildren hq₂ (by rw [e2]; rfl) (e3.trans hraw) hall fun n hn =>
      hneeds n (hneeds_q ▸ hn)
    rw [hqh] at hinv₄
    exact hk _ committed hinv₄

/-- The loop of `Process` from a state of the invariant: it does not panic, and every state it
returns, after an error too, is of the invariant. -/
theorem Inv.processLoop (results : List SyncResult) (i : Nat) (hs : Inv keccak s)
    (committed : Bool) :
    ∃ out, processLoop keccak results i s committed = some out ∧ Inv keccak out.1 := by
  induction results generalizing i s committed with
  | nil => exact ⟨_, rfl, hs⟩
  | cons item results ih =>
    rw [Sync.processLoop]
    rcases hq : s.requests.lookup item.hash with _ | r
    · exact ⟨_, rfl, hs⟩
    dsimp only
    by_cases hdata : r.data.isSome
    · rw [if_pos hdata]
      exact ⟨_, rfl, hs⟩
    rw [if_neg hdata]
    have hdata' : r.data = none := Option.not_isSome_iff_eq_none.mp hdata
    by_cases hraw : r.raw
    · -- a raw entry is committed directly
      rw [if_pos hraw]
      have hdeps := hs.deps_eq_zero hq hdata'
      obtain ⟨s₂, hs₂, hinv₂⟩ := Pre.commit (hs.deliver hq hdeps item.data)
        (AList.lookup_replace_self _ (AList.lookup_isSome.mp (by simp [hq]))) hdeps
        (fun hr => by simp [hraw] at hr) rfl
      rw [hs₂]
      exact ih (i + 1) hinv₂ true
    rw [if_neg hraw]
    cases hdec : decodeNode (some item.hash.bytes) item.data 0 with
    | error e => exact ⟨_, rfl, hs⟩
    | ok node =>
      exact hs.processNode hq hdata' (by simpa using hraw) hdec (fun s' c hs' => ih (i + 1) hs' c)
        i committed

/-- Of the queue the invariant reads only its heap order. -/
theorem Pre.withQueue (hp : Pre keccak s pend ex) {queue : ArrayHeap (Hash × Int)}
    (hq : ArrayHeap.Ordered queueKey queue.a queue.n) : Pre keccak { s with queue } pend ex :=
  ⟨hp.key, hp.deps, hp.parents, hp.pend_mem, hp.delivered, hp.waits, hp.batch, hp.order,
    hp.database, hp.written_data, hp.ordered, hq⟩

/-- `Missing` only pops the queue. -/
theorem Inv.missingLoop (max fuel : Nat) (hs : Inv keccak s) (requests : List Hash) :
    Inv keccak (missingLoop max fuel s requests).2 := by
  induction fuel generalizing s requests with
  | zero => exact hs
  | succ fuel ih =>
    rw [Sync.missingLoop]
    split_ifs with hc
    · exact ih (hs.withQueue (ArrayHeap.Pop_spec hs.queue (Nat.pos_of_ne_zero hc.1)).1) _
    · exact hs

/-- The root of the queue is at least as deep as every entry. -/
theorem le_root {queue : ArrayHeap (Hash × Int)} (hq : ArrayHeap.Ordered queueKey queue.a queue.n)
    {y : Hash × Int} (hy : y ∈ queue.toList) : y.2 ≤ (queue.a 0).2 := by
  obtain ⟨k, hk, rfl⟩ := List.mem_map.mp hy
  have := hq.root_le k (List.mem_range.mp hk)
  simp only [queueKey] at this
  omega

/-- The loop of `Missing` on a heap: it pops, one after another, entries of non-increasing
depth, each at least as deep as every entry it leaves, as many as the queue holds up to the
bound (all of them for `0`). -/
theorem missingLoop_spec (max fuel : Nat) {s : Sync}
    (hq : ArrayHeap.Ordered queueKey s.queue.a s.queue.n) (hfuel : s.queue.n ≤ fuel)
    (requests : List Hash) :
    ∃ items : List (Hash × Int),
      (missingLoop max fuel s requests).1 = requests ++ items.map Prod.fst ∧
      items.length = (if max = 0 then s.queue.n else min (max - requests.length) s.queue.n) ∧
      s.queue.toList ~ items ++ (missingLoop max fuel s requests).2.queue.toList ∧
      items.Pairwise (fun x y => y.2 ≤ x.2) ∧
      ∀ x ∈ items, ∀ y ∈ (missingLoop max fuel s requests).2.queue.toList, y.2 ≤ x.2 := by
  induction fuel generalizing s requests with
  | zero =>
    have hn : s.queue.n = 0 := by omega
    refine ⟨[], by simp [Sync.missingLoop], by simp [hn], by simp [Sync.missingLoop],
      List.Pairwise.nil, fun x hx => absurd hx List.not_mem_nil⟩
  | succ fuel ih =>
    by_cases hc : s.queue.n ≠ 0 ∧ (max = 0 ∨ requests.length < max)
    · -- the root popped, then the rest of the loop on the smaller heap
      obtain ⟨hord, hroot, hperm⟩ := ArrayHeap.Pop_spec hq (Nat.pos_of_ne_zero hc.1)
      have hn₁ : (ArrayHeap.Pop queueKey s.queue).1.n = s.queue.n - 1 := rfl
      obtain ⟨items, h1, h2, h3, h4, h5⟩ :=
        ih (s := { s with queue := (ArrayHeap.Pop queueKey s.queue).1 }) hord (by simp only; omega)
          (requests ++ [(ArrayHeap.Pop queueKey s.queue).2.1])
      have hloop : missingLoop max (fuel + 1) s requests =
          missingLoop max fuel { s with queue := (ArrayHeap.Pop queueKey s.queue).1 }
            (requests ++ [(ArrayHeap.Pop queueKey s.queue).2.1]) := by
        rw [Sync.missingLoop, if_pos hc]
      -- what the loop pops was in the queue, so is not deeper than the root
      have hdom : ∀ y ∈ items ++ (missingLoop max fuel { s with queue := (ArrayHeap.Pop queueKey s.queue).1 }
          (requests ++ [(ArrayHeap.Pop queueKey s.queue).2.1])).2.queue.toList,
          y.2 ≤ (ArrayHeap.Pop queueKey s.queue).2.2 := by
        intro y hy
        rw [hroot]
        exact le_root hq (hperm.symm.subset (List.mem_append_left _ (h3.symm.subset hy)))
      rw [hloop]
      refine ⟨(ArrayHeap.Pop queueKey s.queue).2 :: items, by rw [h1]; simp, ?_, ?_,
        List.pairwise_cons.mpr ⟨fun y hy => hdom y (List.mem_append_left _ hy), h4⟩, fun x hx y hy => ?_⟩
      · dsimp only at h2
        rw [List.length_cons, h2, hn₁, List.length_append, List.length_singleton]
        split_ifs <;> omega
      · calc s.queue.toList
            ~ (ArrayHeap.Pop queueKey s.queue).1.toList ++ [(ArrayHeap.Pop queueKey s.queue).2] := hperm
          _ ~ [(ArrayHeap.Pop queueKey s.queue).2] ++ (ArrayHeap.Pop queueKey s.queue).1.toList :=
            List.perm_append_comm
          _ ~ _ := (h3.append_left _)
      · rcases List.mem_cons.mp hx with rfl | hx
        · exact hdom y (List.mem_append_right _ hy)
        · exact h5 x hx y hy
    · -- the queue is empty, or the bound is reached
      have hloop : missingLoop max (fuel + 1) s requests = (requests, s) := by
        rw [Sync.missingLoop, if_neg hc]
      rw [hloop]
      refine ⟨[], by simp, ?_, by simp, List.Pairwise.nil, fun x hx => absurd hx List.not_mem_nil⟩
      simp only [List.length_nil]
      split_ifs <;> omega

/-- What `Commit` writes: the database afterwards holds a hash when it held it before or the
batch did. -/
theorem Commit_database (s : Sync) (x : Hash) :
    (s.Commit.2.database x.bytes).isSome ↔ (s.database x.bytes).isSome ∨ x ∈ s.order := by
  unfold Sync.Commit
  dsimp only
  rw [List.isSome_foldl_update Hash.bytes]
  exact or_congr_right ⟨fun ⟨k, hk, he⟩ => Hash.bytes_injective he ▸ hk, fun hx => ⟨x, hx, rfl⟩⟩

/-- `Commit` moves the batch into the database in order: the invariant holds after it. -/
theorem Inv.Commit (hs : Inv keccak s) : Inv keccak s.Commit.2 := by
  have hpres : ∀ x, s.Present x → s.Commit.2.Present x := fun x hx =>
    .inr ((Commit_database s x).mpr (hx.imp_left (hs.batch x)).symm)
  refine ⟨hs.key, hs.deps, hs.parents, hs.pend_mem, hs.delivered,
    fun x r hr hex hd n hn => (hs.waits x r hr hex hd n hn).imp_left (SyncNeed.Met.mono hpres),
    fun x hx => absurd hx (AList.notMem_empty x), fun x hx => absurd hx List.not_mem_nil,
    fun x hx => ?_, hs.written_data, hs.ordered, hs.queue⟩
  rcases (Commit_database s x).mp hx with hdb | ho
  · exact hs.database x hdb
  · exact .inr (hs.order x ho)

end Process

/-! ## Runs of the scheduler -/

section Runs

variable {s : Sync}

/-- The scheduler `NewSync` builds before adding the root: nothing requested or written. -/
theorem Inv.empty (database : List UInt8 → Option (List UInt8)) :
    Inv keccak ⟨database, ∅, [], ∅, ⟨fun _ => default, 0⟩, database, []⟩ := by
  refine ⟨fun h r hr => ?_, fun h r hr => ?_, fun h r hr => ?_, fun p hp => absurd hp List.not_mem_nil,
    fun h r hr => ?_, fun h r hr => ?_, fun x hx => absurd hx (AList.notMem_empty x),
    fun x hx => absurd hx List.not_mem_nil, fun x hx => .inl hx,
    fun r hr => absurd hr List.not_mem_nil, fun k hk => absurd hk (Nat.not_lt_zero k),
    fun c _ hc _ => absurd hc (Nat.not_lt_zero c)⟩ <;>
  simp at hr

/-- `AddSubTrie` under no parent, as its callers outside the scheduler use it. -/
theorem Inv.AddSubTrie (hs : Inv keccak s) (root : Hash) (depth : Int)
    (callback : Option SyncCallback) :
    ∃ s', s.AddSubTrie root depth Hash.zero callback = some s' ∧ Inv keccak s' := by
  unfold Sync.AddSubTrie
  split_ifs
  · exact ⟨s, rfl, hs⟩
  · exact ⟨s, rfl, hs⟩
  · exact ⟨s, rfl, hs⟩
  · exact ⟨s.schedule ⟨root, none, false, [], depth, 0, callback⟩, by simp [Sync.link],
      Pre.schedule hs rfl⟩

/-- `AddRawEntry` under no parent. -/
theorem Inv.AddRawEntry (hs : Inv keccak s) (hash : Hash) (depth : Int) :
    ∃ s', s.AddRawEntry keccak hash depth Hash.zero = some s' ∧ Inv keccak s' := by
  unfold Sync.AddRawEntry
  split_ifs
  · exact ⟨s, rfl, hs⟩
  · exact ⟨s, rfl, hs⟩
  · exact ⟨s, rfl, hs⟩
  · exact ⟨s.schedule ⟨hash, none, true, [], depth, 0, none⟩, by simp [Sync.link],
      Pre.schedule hs rfl⟩

/-- The states of a sync: from `NewSync`, by the operations its users call.  Entries are added
from outside under no parent, as `NewSync` adds the root. -/
inductive Reachable (keccak : List UInt8 → Atlantis.Hash) : Sync → Prop
  | init {s : Sync} (root : Hash) (database : List UInt8 → Option (List UInt8))
      (callback : Option SyncCallback) : Sync.NewSync root database callback = some s →
      Reachable keccak s
  | addSubTrie {s s' : Sync} (root : Hash) (depth : Int) (callback : Option SyncCallback) :
      Reachable keccak s → s.AddSubTrie root depth Hash.zero callback = some s' → Reachable keccak s'
  | addRawEntry {s s' : Sync} (hash : Hash) (depth : Int) :
      Reachable keccak s → s.AddRawEntry keccak hash depth Hash.zero = some s' → Reachable keccak s'
  | missing {s : Sync} (max : Nat) : Reachable keccak s → Reachable keccak (s.Missing max).2
  | process {s : Sync} {out : Sync × Bool × Nat × Option SyncError} (results : List SyncResult) :
      Reachable keccak s → s.Process keccak results = some out → Reachable keccak out.1
  | commit {s : Sync} : Reachable keccak s → Reachable keccak s.Commit.2

/-- Every state a sync reaches is of the invariant. -/
theorem Reachable.inv (hs : Reachable keccak s) : Inv keccak s := by
  induction hs with
  | init root database callback hnew =>
    obtain ⟨s', hs', hinv⟩ := (Inv.empty database).AddSubTrie root 0 callback
    rw [Sync.NewSync, hs', Option.some.injEq] at hnew
    exact hnew ▸ hinv
  | addSubTrie root depth callback _ hadd ih =>
    obtain ⟨s', hs', hinv⟩ := ih.AddSubTrie root depth callback
    rw [hs', Option.some.injEq] at hadd
    exact hadd ▸ hinv
  | addRawEntry hash depth _ hadd ih =>
    obtain ⟨s', hs', hinv⟩ := ih.AddRawEntry hash depth
    rw [hs', Option.some.injEq] at hadd
    exact hadd ▸ hinv
  | missing max _ ih => exact ih.missingLoop max _ []
  | process results _ hproc ih =>
    obtain ⟨out, hout, hinv⟩ := ih.processLoop results 0 false
    rw [Sync.Process, hout, Option.some.injEq] at hproc
    exact hproc ▸ hinv
  | commit _ ih => exact ih.Commit

/-- The operations a user of the scheduler calls, in any order. -/
inductive SyncOp where
  | AddSubTrie (root : Hash) (depth : Int) (callback : Option SyncCallback)
  | AddRawEntry (hash : Hash) (depth : Int)
  | Missing (max : Nat)
  | Process (results : List SyncResult)
  | Commit

/-- One operation, entries added under no parent; `none` where the source panics. -/
def apply (keccak : List UInt8 → Atlantis.Hash) (s : Sync) : SyncOp → Option Sync
  | .AddSubTrie root depth callback => s.AddSubTrie root depth Hash.zero callback
  | .AddRawEntry hash depth => s.AddRawEntry keccak hash depth Hash.zero
  | .Missing max => some (s.Missing max).2
  | .Process results => (s.Process keccak results).map Prod.fst
  | .Commit => some s.Commit.2

/-- A run of operations. -/
def run (keccak : List UInt8 → Atlantis.Hash) (s : Sync) : List SyncOp → Option Sync
  | [] => some s
  | op :: ops => (s.apply keccak op).bind fun s => s.run keccak ops

/-- A run from a reached state reaches its end. -/
theorem Reachable.run {ops : List SyncOp} {s' : Sync} (hs : Reachable keccak s)
    (hrun : s.run keccak ops = some s') : Reachable keccak s' := by
  induction ops generalizing s with
  | nil =>
    rw [Sync.run, Option.some.injEq] at hrun
    exact hrun ▸ hs
  | cons op ops ih =>
    rw [Sync.run, Option.bind_eq_some_iff] at hrun
    obtain ⟨s₁, h₁, hrun⟩ := hrun
    refine ih ?_ hrun
    cases op with
    | AddSubTrie root depth callback => exact hs.addSubTrie root depth callback h₁
    | AddRawEntry hash depth => exact hs.addRawEntry hash depth h₁
    | Missing max =>
      rw [Sync.apply, Option.some.injEq] at h₁
      exact h₁ ▸ hs.missing max
    | Process results =>
      rw [Sync.apply, Option.map_eq_some_iff] at h₁
      obtain ⟨out, hout, rfl⟩ := h₁
      exact hs.process results hout
    | Commit =>
      rw [Sync.apply, Option.some.injEq] at h₁
      exact h₁ ▸ hs.commit

/-- The end of a run from `NewSync` is reached, and what is computed of it holds of it. -/
theorem Reachable.of_run {β : Type} {root : Hash} {database : List UInt8 → Option (List UInt8)}
    {callback : Option SyncCallback} {ops : List SyncOp} {f : Sync → β} {v : β}
    (h : ((Sync.NewSync root database callback).bind fun s => s.run keccak ops).map f = some v) :
    ∃ s, Reachable keccak s ∧ f s = v := by
  obtain ⟨s, hs, hv⟩ := Option.map_eq_some_iff.mp h
  obtain ⟨s₀, h₀, hrun⟩ := Option.bind_eq_some_iff.mp hs
  exact ⟨s, (Reachable.init _ _ _ h₀).run hrun, hv⟩

end Runs

/-! ## What every run of the scheduler guarantees -/

/-- No out-of-order data loss for trie nodes: in every state a sync reaches, each node committed
so far was delivered, and each trie request among them had each of its needs (its hash
children, and what the callback added under it) in the database the sync started from or
committed before it; and the database holds only what it started with and committed nodes.
A raw request is committed as it is delivered, whatever its data names. -/
theorem written_needs_met {s : Sync} (hs : Reachable keccak s) :
    (∀ x, (s.database x.bytes).isSome → (s.initial x.bytes).isSome ∨ x ∈ s.written.map request.hash) ∧
    ∀ k (hk : k < s.written.length), s.written[k].data.isSome ∧
      (s.written[k].raw = false → ∀ n ∈ s.written[k].needs, n.Met keccak fun x =>
        (s.initial x.bytes).isSome ∨ x ∈ (s.written.take k).map request.hash) := by
  have hinv := hs.inv
  exact ⟨hinv.database, fun k hk => ⟨hinv.written_data _ (List.getElem_mem hk), hinv.ordered k hk⟩⟩

/-- A run that delivers an extension node and then the leaf its hash child names: the leaf is
committed first, the extension after it. -/
theorem written_needs_met_leaf :
    ∃ s, Reachable (fun _ => Hash.zero) s ∧
      s.written.map request.hash = [⟨List.replicate 32 1, rfl⟩, ⟨List.replicate 32 2, rfl⟩] ∧
      (∀ x, (s.database x.bytes).isSome → (s.initial x.bytes).isSome ∨ x ∈ s.written.map request.hash) ∧
      ∀ k (hk : k < s.written.length), s.written[k].data.isSome ∧
        (s.written[k].raw = false → ∀ n ∈ s.written[k].needs, n.Met (fun _ => Hash.zero) fun x =>
          (s.initial x.bytes).isSome ∨ x ∈ (s.written.take k).map request.hash) := by
  have hR : ((Sync.NewSync ⟨List.replicate 32 2, rfl⟩ (fun _ => none) none).bind fun s =>
      s.run (fun _ => Hash.zero)
        [.Process [⟨⟨List.replicate 32 2, rfl⟩, [0xe2, 0x11, 0xa0] ++ List.replicate 32 1⟩],
         .Process [⟨⟨List.replicate 32 1, rfl⟩, [0xc2, 0x20, 0x07]⟩]]).map
      (fun s => s.written.map request.hash) =
        some [⟨List.replicate 32 1, rfl⟩, ⟨List.replicate 32 2, rfl⟩] := by
    decide +kernel
  obtain ⟨s, hreach, hw⟩ := Reachable.of_run hR
  exact ⟨s, hreach, hw, written_needs_met hreach⟩

/-- `Process` never panics in a state a sync reaches, whatever results it is given: no parent
pointer is stale, no node of an unknown kind is met, and the recursion of `commit` ends. -/
theorem Process_isSome {s : Sync} (hs : Reachable keccak s) (results : List SyncResult) :
    (s.Process keccak results).isSome := by
  obtain ⟨out, hout, -⟩ := hs.inv.processLoop results 0 false
  rw [Sync.Process, hout]
  rfl

/-- The extension node delivered, its leaf is requested; delivering the leaf then does not
panic. -/
theorem Process_isSome_leaf :
    ∃ s, Reachable (fun _ => Hash.zero) s ∧
      s.requests.keys = [⟨List.replicate 32 1, rfl⟩, ⟨List.replicate 32 2, rfl⟩] ∧
      (s.Process (fun _ => Hash.zero) [⟨⟨List.replicate 32 1, rfl⟩, [0xc2, 0x20, 0x07]⟩]).isSome := by
  have hR : ((Sync.NewSync ⟨List.replicate 32 2, rfl⟩ (fun _ => none) none).bind fun s =>
      s.run (fun _ => Hash.zero)
        [.Process [⟨⟨List.replicate 32 2, rfl⟩, [0xe2, 0x11, 0xa0] ++ List.replicate 32 1⟩]]).map
      (fun s => s.requests.keys) =
        some [⟨List.replicate 32 1, rfl⟩, ⟨List.replicate 32 2, rfl⟩] := by
    decide +kernel
  obtain ⟨s, hreach, hk⟩ := Reachable.of_run hR
  exact ⟨s, hreach, hk, Process_isSome hreach _⟩

/-- The request graph in every state a sync reaches: a request is held under its own hash, its
`deps` counts exactly the requests naming it as a parent, each parent named is requested, and
a request with dependencies is a delivered trie node each of whose needs is written or is
requested with a link back to it. -/
theorem requests_wellFormed {s : Sync} (hs : Reachable keccak s) (h : Hash) (r : request)
    (hr : s.requests.lookup h = some r) :
    r.hash = h ∧ r.deps = s.links h ∧ (∀ p ∈ r.parents, p ∈ s.requests) ∧
      (0 < r.deps → r.data.isSome ∧ r.raw = false ∧
        ∀ n ∈ r.needs, n.Met keccak s.Present ∨ s.Waits h n) := by
  have hinv := hs.inv
  refine ⟨hinv.key h r hr, by simpa using hinv.deps h r hr, hinv.parents h r hr, fun hd => ?_⟩
  obtain ⟨hdata, hraw⟩ := hinv.delivered h r hr hd
  exact ⟨hdata, hraw, hinv.waits h r hr (by simp) hd⟩

/-- The extension node delivered: it waits for its leaf, one dependency. -/
theorem requests_wellFormed_extension :
    ∃ s r, Reachable (fun _ => Hash.zero) s ∧
      s.requests.lookup ⟨List.replicate 32 2, rfl⟩ = some r ∧ r.deps = 1 ∧
      r.hash = ⟨List.replicate 32 2, rfl⟩ ∧ r.deps = s.links ⟨List.replicate 32 2, rfl⟩ ∧
      (∀ p ∈ r.parents, p ∈ s.requests) ∧
      (0 < r.deps → r.data.isSome ∧ r.raw = false ∧ ∀ n ∈ r.needs,
        n.Met (fun _ => Hash.zero) s.Present ∨ s.Waits ⟨List.replicate 32 2, rfl⟩ n) := by
  have hR : ((Sync.NewSync ⟨List.replicate 32 2, rfl⟩ (fun _ => none) none).bind fun s =>
      s.run (fun _ => Hash.zero)
        [.Process [⟨⟨List.replicate 32 2, rfl⟩, [0xe2, 0x11, 0xa0] ++ List.replicate 32 1⟩]]).map
      (fun s => (s.requests.lookup ⟨List.replicate 32 2, rfl⟩).map request.deps) = some (some 1) := by
    decide +kernel
  obtain ⟨s, hreach, hd⟩ := Reachable.of_run hR
  obtain ⟨r, hr, hr1⟩ := Option.map_eq_some_iff.mp hd
  exact ⟨s, r, hreach, hr, hr1, requests_wellFormed hreach _ r hr⟩

/-- `Missing` hands out the highest priorities first: in every state a sync reaches it pops as
many queued entries as the bound allows (all for `0`), in order of non-increasing priority,
each of a priority at least that of every entry it leaves queued, and the queue loses exactly
those.  A priority is the `float32` of the depth the hash was scheduled at: it grows with the
depth and is the depth below `2 ^ 24`, so there the deepest requests go first; at `2 ^ 24` and
`2 ^ 24 + 1` the two depths share one. -/
theorem Missing_deepest {s : Sync} (hs : Reachable keccak s) (max : Nat) :
    (Monotone float32 ∧ (∀ d : Int, d.natAbs < 2 ^ 24 → float32 d = d) ∧
      float32 (2 ^ 24 + 1) = float32 (2 ^ 24)) ∧
    ∃ items : List (Hash × Int), (s.Missing max).1 = items.map Prod.fst ∧
      items.length = (if max = 0 then s.queue.n else min max s.queue.n) ∧
      s.queue.toList ~ items ++ (s.Missing max).2.queue.toList ∧
      items.Pairwise (fun x y => y.2 ≤ x.2) ∧
      ∀ x ∈ items, ∀ y ∈ (s.Missing max).2.queue.toList, y.2 ≤ x.2 := by
  obtain ⟨items, h1, h2, h3, h4, h5⟩ := missingLoop_spec max s.queue.n hs.inv.queue le_rfl []
  rw [List.nil_append] at h1
  rw [List.length_nil, Nat.sub_zero] at h2
  exact ⟨⟨float32_mono, fun _ => float32_of_natAbs_lt, float32_two_pow_24_add_one⟩,
    items, h1, h2, h3, h4, h5⟩

/-- Two roots queued at depths 0 and 5: one hash asked for, the deeper root is handed out. -/
theorem Missing_deepest_two :
    ∃ s, Reachable (fun _ => Hash.zero) s ∧ (s.Missing 1).1 = [⟨List.replicate 32 5, rfl⟩] ∧
      (Monotone float32 ∧ (∀ d : Int, d.natAbs < 2 ^ 24 → float32 d = d) ∧
        float32 (2 ^ 24 + 1) = float32 (2 ^ 24)) ∧
      ∃ items : List (Hash × Int), (s.Missing 1).1 = items.map Prod.fst ∧
        items.length = (if 1 = 0 then s.queue.n else min 1 s.queue.n) ∧
        s.queue.toList ~ items ++ (s.Missing 1).2.queue.toList ∧
        items.Pairwise (fun x y => y.2 ≤ x.2) ∧
        ∀ x ∈ items, ∀ y ∈ (s.Missing 1).2.queue.toList, y.2 ≤ x.2 := by
  have hR : ((Sync.NewSync ⟨List.replicate 32 2, rfl⟩ (fun _ => none) none).bind fun s =>
      s.run (fun _ => Hash.zero) [.AddSubTrie ⟨List.replicate 32 5, rfl⟩ 5 none]).map
      (fun s => (s.Missing 1).1) = some [⟨List.replicate 32 5, rfl⟩] := by
    decide +kernel
  obtain ⟨s, hreach, hm⟩ := Reachable.of_run hR
  exact ⟨s, hreach, hm, Missing_deepest hreach 1⟩

end Sync

/-- The callback of `NewStateSync`, given the decoding of an account from a leaf: the
account's storage trie and its code, at depth 64. -/
def stateSyncCallback (decodeAccount : List UInt8 → Except String State.Account) : SyncCallback :=
  fun leaf => (decodeAccount leaf).map fun obj =>
    [.subTrie obj.root 64, .rawEntry (Hash.ofBytes obj.codeHash) 64]

/-- `NewStateSync`. -/
def NewStateSync (decodeAccount : List UInt8 → Except String State.Account) (root : Hash)
    (database : List UInt8 → Option (List UInt8)) : Option Sync :=
  Sync.NewSync root database (some (stateSyncCallback decodeAccount))

end Atlantis.Trie
