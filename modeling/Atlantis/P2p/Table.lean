import Atlantis.P2p.Netutil
import Mathlib.Algebra.BigOperators.Fin

/-!
# The discovery table

`p2p/discover/table.go`: the Kademlia table of the discovery protocol.  A node goes to the
bucket of its log distance from the table's own node; a bucket holds at most `bucketSize`
entries, most recently seen first, and `maxReplacements` replacements.  Each bucket and the
table count the addresses they hold per `/24` subnet in a `DistinctNetSet`, and refuse a node
whose subnet is full.

The operations are those of the source under the table's lock: `add`, `stuff`, `delete`, and
the two outcomes of revalidation, `bucket.bump` when the node answered and `replace` when it
did not.  A bucket is addressed by its index, where the source passes a pointer; the random
pick of `replace` is an argument.

The counts are exact (`Exact`) in the empty table, and adding a node of a fresh ID keeps them
exact.  They are not kept by a node that comes back with its ID and another address: `bump`
stores the new node and leaves the counts alone, so the old subnet keeps a count that no node
holds, and the new subnet holds a node it does not count (`add_rebinds_ip`).  Nor by `delete`
of a node that is not an entry, which uncounts its address all the same
(`Exact.delete_absent`); and `add` takes in the table's own node (`Table.self_mem_add_self`).
-/

namespace Atlantis.Discover

open Netutil

/-- `bucketSize`: the entries of a bucket. -/
def bucketSize : Nat := 16

/-- `maxReplacements`: the replacements of a bucket. -/
def maxReplacements : Nat := 10

/-- `hashBits`: the bits of a `common.Hash`. -/
def hashBits : Nat := 32 * 8

/-- `nBuckets`: buckets for the upper fifteenth of distances. -/
def nBuckets : Nat := hashBits / 15

instance : NeZero nBuckets := ⟨by decide⟩

/-- `bucketMinDistance`: the log distance of the closest bucket. -/
def bucketMinDistance : Nat := hashBits - nBuckets

/-- `bucketIPLimit` and `bucketSubnet`: at most two addresses of a `/24` in a bucket. -/
def bucketIPLimit : Nat := 2

def bucketSubnet : Nat := 24

/-- `tableIPLimit` and `tableSubnet`: at most ten addresses of a `/24` in the table. -/
def tableIPLimit : Nat := 10

def tableSubnet : Nat := 24

/-- `Node`: its address, its ID, and the hash of its ID that places it. -/
structure Node where
  IP : List UInt8
  ID : Vector UInt8 64
  sha : Vector UInt8 32
  deriving DecidableEq, Repr

/-- The source's table `lzcount`: the leading zero bits of a byte. -/
def lzcount (x : UInt8) : Nat :=
  ((List.range 8).takeWhile fun k => !x.toNat.testBit (7 - k)).length

/-- The loop of `logdist` over the byte pairs: eight zeros for each equal pair, up to the
first that differs. -/
def lzLoop : List (UInt8 × UInt8) → Nat
  | [] => 0
  | (x, y) :: rest => if x ^^^ y = 0 then 8 + lzLoop rest else lzcount (x ^^^ y)

/-- `logdist`: the bits of a hash after the common prefix of `a` and `b`. -/
def logdist (a b : Vector UInt8 32) : Nat :=
  32 * 8 - lzLoop (a.toList.zip b.toList)

theorem logdist_le (a b : Vector UInt8 32) : logdist a b ≤ hashBits := by
  unfold logdist hashBits
  omega

/-- `bucket`: the entries, most recently seen first, the replacements, and the count of
their addresses. -/
structure bucket where
  entries : List Node
  replacements : List Node
  ips : DistinctNetSet

/-- `Table`: the buckets, the count of all their addresses, and the table's own node. -/
structure Table where
  buckets : Fin nBuckets → bucket
  ips : DistinctNetSet
  self : Node

/-- `newTable`: empty buckets and counts, with the source's subnets and limits. -/
def newTable (self : Node) : Table where
  buckets := fun _ => ⟨[], [], ⟨bucketSubnet, bucketIPLimit, fun _ => 0⟩⟩
  ips := ⟨tableSubnet, tableIPLimit, fun _ => 0⟩
  self := self

/-- `Table.bucket`: the bucket of a hash, by its log distance from the table's own node;
all distances up to `bucketMinDistance` share the first. -/
def Table.bucket (tab : Table) (sha : Vector UInt8 32) : Fin nBuckets :=
  if logdist tab.self.sha sha ≤ bucketMinDistance then ⟨0, by decide⟩
  else ⟨logdist tab.self.sha sha - bucketMinDistance - 1, by
    have := logdist_le tab.self.sha sha
    unfold bucketMinDistance nBuckets hashBits at *
    omega⟩

/-- The bucket at `i` set to `b`, as the source writes through the bucket's pointer. -/
def Table.setBucket (tab : Table) (i : Fin nBuckets) (b : Discover.bucket) : Table :=
  { tab with buckets := Function.update tab.buckets i b }

@[simp] theorem Table.buckets_setBucket (tab : Table) (i : Fin nBuckets) (b : Discover.bucket) :
    (tab.setBucket i b).buckets = Function.update tab.buckets i b := rfl

@[simp] theorem Table.ips_setBucket (tab : Table) (i : Fin nBuckets) (b : Discover.bucket) :
    (tab.setBucket i b).ips = tab.ips := rfl

@[simp] theorem Table.self_setBucket (tab : Table) (i : Fin nBuckets) (b : Discover.bucket) :
    (tab.setBucket i b).self = tab.self := rfl

/-- `pushNode`: `n` in front, keeping at most `max`; the node pushed out, if any. -/
def pushNode (list : List Node) (n : Node) (max : Nat) : List Node × Option Node :=
  if list.length < max then (n :: list, none) else (n :: list.dropLast, list.getLast?)

/-- `deleteNode`: the list without its first node of `n`'s ID. -/
def deleteNode : List Node → Node → List Node
  | [], _ => []
  | m :: l, n => if m.ID = n.ID then l else m :: deleteNode l n

/-- `Table.addIP`: count the address in the table and in the bucket at `i`, unless either
subnet is full; a local address is not counted. -/
def Table.addIP (tab : Table) (i : Fin nBuckets) (ip : List UInt8) : Bool × Table :=
  if IsLAN ip then (true, tab)
  else if !(tab.ips.Add ip).1 then (false, tab)
  -- the bucket refuses: the table's count is taken back
  else if !((tab.buckets i).ips.Add ip).1 then (false, { tab with ips := (tab.ips.Add ip).2.Remove ip })
  else (true, { tab with ips := (tab.ips.Add ip).2 }.setBucket i
    { tab.buckets i with ips := ((tab.buckets i).ips.Add ip).2 })

/-- `Table.removeIP`: uncount the address in the table and in the bucket at `i`. -/
def Table.removeIP (tab : Table) (i : Fin nBuckets) (ip : List UInt8) : Table :=
  if IsLAN ip then tab
  else { tab with ips := tab.ips.Remove ip }.setBucket i
    { tab.buckets i with ips := (tab.buckets i).ips.Remove ip }

/-- `Table.addReplacement`: put `n` in front of the replacements of the bucket at `i`,
unless its ID is there or its subnet is full; the replacement pushed out is uncounted. -/
def Table.addReplacement (tab : Table) (i : Fin nBuckets) (n : Node) : Table :=
  if (tab.buckets i).replacements.any (·.ID == n.ID) then tab
  else if !(tab.addIP i n.IP).1 then (tab.addIP i n.IP).2
  else
    let tab := (tab.addIP i n.IP).2
    let b := tab.buckets i
    let tab' := tab.setBucket i { b with replacements := (pushNode b.replacements n maxReplacements).1 }
    match (pushNode b.replacements n maxReplacements).2 with
    | none => tab'
    | some removed => tab'.removeIP i removed.IP

/-- `Table.deleteInBucket`: drop the entry of `n`'s ID and uncount `n`'s address. -/
def Table.deleteInBucket (tab : Table) (i : Fin nBuckets) (n : Node) : Table :=
  (tab.setBucket i { tab.buckets i with entries := deleteNode (tab.buckets i).entries n }).removeIP
    i n.IP

/-- `Table.replace`: if `last` is still the last entry of the bucket at `i`, put the
replacement at `k` (the source draws it at random) in its place and uncount `last`, or drop
`last` when there is no replacement. -/
def Table.replace (tab : Table) (i : Fin nBuckets) (last : Node) (k : Nat) :
    Table × Option Node :=
  let b := tab.buckets i
  match b.entries.getLast? with
  | none => (tab, none)
  | some e =>
    if e.ID ≠ last.ID then (tab, none)
    else if b.replacements = [] then (tab.deleteInBucket i last, none)
    else
      let r := b.replacements.getD (k % b.replacements.length) last
      let b' : Discover.bucket :=
        { b with
          replacements := deleteNode b.replacements r
          entries := b.entries.set (b.entries.length - 1) r }
      ((tab.setBucket i b').removeIP i last.IP, some r)

/-- `bucket.bump`: move the entry of `n`'s ID to the front, as `n`.  The source's copy shifts
the entries before it back by one, which leaves the others in order. -/
def bucket.bump (b : bucket) (n : Node) : Bool × bucket :=
  if b.entries.any (·.ID == n.ID) then (true, { b with entries := n :: deleteNode b.entries n })
  else (false, b)

/-- `Table.bumpOrAdd`: bump `n` in the bucket at `i`, or add it in front if the bucket has
room and its subnet is not full; whether `n` is now an entry. -/
def Table.bumpOrAdd (tab : Table) (i : Fin nBuckets) (n : Node) : Bool × Table :=
  if ((tab.buckets i).bump n).1 then (true, tab.setBucket i ((tab.buckets i).bump n).2)
  else if (tab.buckets i).entries.length ≥ bucketSize then (false, tab)
  else if !(tab.addIP i n.IP).1 then (false, (tab.addIP i n.IP).2)
  else
    let tab := (tab.addIP i n.IP).2
    let b := tab.buckets i
    let b' : Discover.bucket :=
      { b with
        entries := (pushNode b.entries n bucketSize).1
        replacements := deleteNode b.replacements n }
    (true, tab.setBucket i b')

/-- `Table.add`: bump or add `new` in its bucket, else make it a replacement. -/
def Table.add (tab : Table) (new : Node) : Table :=
  if (tab.bumpOrAdd (tab.bucket new.sha) new).1 then (tab.bumpOrAdd (tab.bucket new.sha) new).2
  else (tab.bumpOrAdd (tab.bucket new.sha) new).2.addReplacement (tab.bucket new.sha) new

/-- `Table.stuff`: bump or add each node, other than the table's own, whose bucket has room. -/
def Table.stuff (tab : Table) (nodes : List Node) : Table :=
  nodes.foldl (fun tab n =>
    if n.ID = tab.self.ID then tab
    else if (tab.buckets (tab.bucket n.sha)).entries.length < bucketSize then
      (tab.bumpOrAdd (tab.bucket n.sha) n).2
    else tab) tab

/-- `Table.delete`: drop the node from its bucket. -/
def Table.delete (tab : Table) (node : Node) : Table :=
  tab.deleteInBucket (tab.bucket node.sha) node

/-! ## Exact accounting -/

/-- The nodes a bucket holds: its entries and its replacements. -/
def bucket.nodes (b : bucket) : List Node := b.entries ++ b.replacements

/-- The nodes of `l` that count against the subnet `k` of a set keyed by `key`: those with a
non-local address in it. -/
def countIn (key : List UInt8 → List UInt8) (k : List UInt8) (l : List Node) : Nat :=
  (l.filter fun n => !IsLAN n.IP && key n.IP == k).length

/-- The counts are exact: each bucket's set counts the addresses of its own nodes, and the
table's set those of all nodes. -/
structure Exact (tab : Table) : Prop where
  bucket_ips : ∀ i k,
    (tab.buckets i).ips.members k = countIn (tab.buckets i).ips.key k (tab.buckets i).nodes
  table_ips : ∀ k, tab.ips.members k = ∑ i, countIn tab.ips.key k (tab.buckets i).nodes

/-- The empty table's counts are exact. -/
theorem exact_newTable (self : Node) : Exact (newTable self) where
  bucket_ips i k := rfl
  table_ips k := by simp [newTable, bucket.nodes, countIn]

theorem countIn_cons (key : List UInt8 → List UInt8) (k : List UInt8) (m : Node) (l : List Node) :
    countIn key k (m :: l) = countIn key k l + if IsLAN m.IP = false ∧ key m.IP = k then 1 else 0 := by
  unfold countIn
  by_cases h : IsLAN m.IP = false ∧ key m.IP = k
  · simp [h]
  · rw [if_neg h, List.filter_cons, if_neg (by simpa [Bool.not_eq_true'] using h)]
    rfl

/-! ## The operations on a fresh node and on a known one -/

section Operations

variable {tab : Table} {i : Fin nBuckets} {n : Node}

/-- The bucket of a hash depends on the table's own node only. -/
theorem Table.bucket_congr {tab' : Table} (h : tab'.self = tab.self) : tab'.bucket = tab.bucket := by
  funext sha
  simp only [Table.bucket, h]

theorem deleteNode_of_forall_ne {l : List Node} (h : ∀ e ∈ l, e.ID ≠ n.ID) : deleteNode l n = l := by
  induction l with
  | nil => rfl
  | cons m l ih =>
    rw [deleteNode, if_neg (h m List.mem_cons_self),
      ih fun e he => h e (List.mem_cons_of_mem m he)]

theorem bucket.bump_of_forall_ne {b : bucket} (h : ∀ e ∈ b.entries, e.ID ≠ n.ID) :
    b.bump n = (false, b) := by
  rw [bucket.bump, if_neg]
  simpa using h

/-- Bumping the ID of the first entry replaces that entry by the new node. -/
theorem bucket.bump_of_head {b : bucket} {m : Node} {es : List Node} (he : b.entries = m :: es)
    (h : m.ID = n.ID) : b.bump n = (true, { b with entries := n :: es }) := by
  rw [bucket.bump, if_pos (by simp [he, h]), he, deleteNode, if_pos h]

/-- `addIP` of a non-local address whose subnet has room in the table and in the bucket. -/
theorem Table.addIP_of_lt {ip : List UInt8} (hlan : IsLAN ip = false)
    (ht : tab.ips.members (tab.ips.key ip) < tab.ips.Limit)
    (hb : (tab.buckets i).ips.members ((tab.buckets i).ips.key ip) < (tab.buckets i).ips.Limit) :
    tab.addIP i ip = (true, { tab with ips := (tab.ips.Add ip).2 }.setBucket i
      { tab.buckets i with ips := ((tab.buckets i).ips.Add ip).2 }) := by
  simp [Table.addIP, hlan, ht, hb]

/-- The table with `n` counted and put in front of the entries of the bucket at `i`. -/
def Table.pushed (tab : Table) (i : Fin nBuckets) (n : Node) : Table :=
  { tab with ips := (tab.ips.Add n.IP).2 }.setBucket i
    { tab.buckets i with
      entries := n :: (tab.buckets i).entries
      ips := ((tab.buckets i).ips.Add n.IP).2 }

@[simp] theorem Table.self_pushed : (tab.pushed i n).self = tab.self := rfl

/-- The hypotheses under which `add` takes a node in: its ID is new to its bucket, the
bucket has room, and its address is not local and has room in both counts. -/
structure Fresh (tab : Table) (n : Node) : Prop where
  new_id : ∀ e ∈ (tab.buckets (tab.bucket n.sha)).nodes, e.ID ≠ n.ID
  room : (tab.buckets (tab.bucket n.sha)).entries.length < bucketSize
  not_lan : IsLAN n.IP = false
  table_room : tab.ips.members (tab.ips.key n.IP) < tab.ips.Limit
  bucket_room : (tab.buckets (tab.bucket n.sha)).ips.members
    ((tab.buckets (tab.bucket n.sha)).ips.key n.IP) < (tab.buckets (tab.bucket n.sha)).ips.Limit

/-- `add` of a fresh node pushes it in front of its bucket and counts it. -/
theorem Table.add_of_fresh (h : Fresh tab n) : tab.add n = tab.pushed (tab.bucket n.sha) n := by
  have hbump := bucket.bump_of_forall_ne fun e he =>
    h.new_id e (List.mem_append_left _ he)
  have hrep : deleteNode (tab.buckets (tab.bucket n.sha)).replacements n =
      (tab.buckets (tab.bucket n.sha)).replacements :=
    deleteNode_of_forall_ne fun e he => h.new_id e (List.mem_append_right _ he)
  have hor : tab.bumpOrAdd (tab.bucket n.sha) n = (true, tab.pushed (tab.bucket n.sha) n) := by
    rw [Table.bumpOrAdd, hbump, Table.addIP_of_lt h.not_lan h.table_room h.bucket_room]
    simp [Nat.not_le.mpr h.room, pushNode, h.room, hrep, Table.pushed, Table.setBucket]
  rw [Table.add, hor]
  rfl

/-- `add` of a node whose ID is the first entry of its bucket only bumps it: the node
replaces the entry and the counts stay. -/
theorem Table.add_of_head {m : Node} {es : List Node}
    (he : (tab.buckets (tab.bucket n.sha)).entries = m :: es) (h : m.ID = n.ID) :
    tab.add n = tab.setBucket (tab.bucket n.sha)
      { tab.buckets (tab.bucket n.sha) with entries := n :: es } := by
  rw [Table.add, Table.bumpOrAdd, bucket.bump_of_head he h]
  rfl

end Operations

/-! ## The accounting -/

section Accounting

variable {tab : Table} {i : Fin nBuckets} {n : Node}

/-- Pushing a counted node keeps the counts exact: the node is counted once in its bucket
and once in the table, under the subnet of its address. -/
theorem Exact.pushed (hx : Exact tab) (hlan : IsLAN n.IP = false)
    (ht : tab.ips.members (tab.ips.key n.IP) < tab.ips.Limit)
    (hb : (tab.buckets i).ips.members ((tab.buckets i).ips.key n.IP) < (tab.buckets i).ips.Limit) :
    Exact (tab.pushed i n) := by
  -- the bucket at `i` holds `n` in front of its nodes; the others are as they were
  have hnodes : ∀ j, ((tab.pushed i n).buckets j).nodes =
      if j = i then n :: (tab.buckets j).nodes else (tab.buckets j).nodes := by
    intro j
    by_cases hj : j = i
    · subst hj
      simp [Table.pushed, bucket.nodes]
    · simp [Table.pushed, hj]
  constructor
  · intro j k
    by_cases hj : j = i
    · subst hj
      rw [hnodes, if_pos rfl, countIn_cons]
      simp only [Table.pushed, Table.buckets_setBucket, Function.update_self,
        DistinctNetSet.key_Add]
      rw [DistinctNetSet.members_Add _ _ hb, hx.bucket_ips]
      simp [hlan, eq_comm]
    · rw [hnodes, if_neg hj]
      simp only [Table.pushed, Table.buckets_setBucket, Function.update_of_ne hj]
      exact hx.bucket_ips j k
  · intro k
    have hsum : ∀ j, countIn (tab.pushed i n).ips.key k ((tab.pushed i n).buckets j).nodes =
        countIn tab.ips.key k (tab.buckets j).nodes +
          if j = i then (if tab.ips.key n.IP = k then 1 else 0) else 0 := by
      intro j
      simp only [Table.pushed, Table.ips_setBucket, DistinctNetSet.key_Add]
      rw [← Table.pushed, hnodes]
      by_cases hj : j = i
      · simp [hj, countIn_cons, hlan]
      · simp [hj]
    rw [Finset.sum_congr rfl fun j _ => hsum j, Finset.sum_add_distrib, Finset.sum_ite_eq',
      if_pos (Finset.mem_univ i), ← hx.table_ips]
    simp only [Table.pushed, Table.ips_setBucket]
    rw [DistinctNetSet.members_Add _ _ ht]
    simp [eq_comm]

/-- **The counts go wrong when a node comes back with another address.**  From exact counts,
`add` of a fresh node keeps them exact; `add` of a node of the same ID and hash whose address
is local or in another subnet then bumps it without touching the counts, and they are exact
no more: the old subnet counts a node that is gone. -/
theorem add_rebinds_ip (tab : Table) (hx : Exact tab) (n n' : Node) (hn : Fresh tab n)
    (hid : n'.ID = n.ID) (hsha : n'.sha = n.sha)
    (hkey : IsLAN n'.IP = true ∨
      (tab.buckets (tab.bucket n.sha)).ips.key n'.IP ≠ (tab.buckets (tab.bucket n.sha)).ips.key n.IP) :
    Exact (tab.add n) ∧ ¬ Exact ((tab.add n).add n') := by
  have hx₁ : Exact (tab.add n) := by
    rw [Table.add_of_fresh hn]
    exact hx.pushed hn.not_lan hn.table_room hn.bucket_room
  refine ⟨hx₁, fun hx₂ => ?_⟩
  set i := tab.bucket n.sha
  set k := (tab.buckets i).ips.key n.IP
  have hkey' : ¬ (IsLAN n'.IP = false ∧ (tab.buckets i).ips.key n'.IP = k) := by
    rintro ⟨h₁, h₂⟩
    rcases hkey with h | h
    · simp [h] at h₁
    · exact h h₂
  -- `n'` falls in the bucket of `n`, whose first entry is `n`, and takes its place
  have hbk : (tab.add n).bucket n'.sha = i := by
    rw [Table.add_of_fresh hn, Table.bucket_congr Table.self_pushed, hsha]
  have hb₁ : (tab.add n).buckets i = { tab.buckets i with
      entries := n :: (tab.buckets i).entries
      ips := ((tab.buckets i).ips.Add n.IP).2 } := by
    simp [Table.add_of_fresh hn, Table.pushed, i]
  have hb₂ : ((tab.add n).add n').buckets i =
      { (tab.add n).buckets i with entries := n' :: (tab.buckets i).entries } := by
    have hhead : ((tab.add n).buckets ((tab.add n).bucket n'.sha)).entries =
        n :: (tab.buckets i).entries := by
      rw [hbk, hb₁]
    rw [Table.add_of_head hhead hid.symm, hbk]
    simp
  -- the subnet of `n` counts the bucket's old nodes and `n`, before the bump and after it
  have hbefore := hx₁.bucket_ips i k
  have hafter := hx₂.bucket_ips i k
  rw [hb₂, hb₁] at hafter
  rw [hb₁] at hbefore
  simp only [bucket.nodes, List.cons_append, countIn_cons, DistinctNetSet.key_Add] at hbefore hafter
  rw [if_pos ⟨hn.not_lan, rfl⟩] at hbefore
  rw [if_neg hkey'] at hafter
  omega

/-- A table's own node, and nodes at log distance 256 from it, two of one ID. -/
def selfNode : Node := ⟨[127, 0, 0, 1], Vector.replicate 64 0, Vector.replicate 32 0⟩

def nodeA : Node := ⟨[1, 2, 3, 1], (Vector.replicate 64 0).set 0 1, (Vector.replicate 32 0).set 0 0x80⟩

def nodeA' : Node := ⟨[5, 6, 7, 1], (Vector.replicate 64 0).set 0 1, (Vector.replicate 32 0).set 0 0x80⟩

def nodeB : Node := ⟨[5, 6, 7, 2], (Vector.replicate 64 0).set 0 2, (Vector.replicate 32 0).set 0 0x81⟩

def nodeC : Node := ⟨[5, 6, 7, 3], (Vector.replicate 64 0).set 0 3, (Vector.replicate 32 0).set 0 0x82⟩

/-- `A` at `1.2.3.1`, then `A` again at `5.6.7.1`, then `B` and `C` in `5.6.7.0/24`: the
last bucket ends with three entries of that subnet, over its limit of two. -/
theorem add_rebinds_ip_three_in_subnet :
    (Exact ((newTable selfNode).add nodeA) ∧
      ¬ Exact (((newTable selfNode).add nodeA).add nodeA')) ∧
    countIn ((newTable selfNode).buckets 16).ips.key [52, 5, 6, 7]
      ((((((newTable selfNode).add nodeA).add nodeA').add nodeB).add nodeC).buckets 16).entries = 3 :=
  ⟨add_rebinds_ip (newTable selfNode) (exact_newTable selfNode) nodeA nodeA'
    ⟨by decide, by decide, by decide, by decide, by decide⟩ rfl rfl (by decide), by decide +kernel⟩

/-- `delete` of a node that is not an entry of its bucket still uncounts its address: from
exact counts, with that subnet counting some node of the bucket, the counts go wrong. -/
theorem Exact.delete_absent (hx : Exact tab)
    (hid : ∀ e ∈ (tab.buckets (tab.bucket n.sha)).entries, e.ID ≠ n.ID) (hlan : IsLAN n.IP = false)
    (hpos : 0 < (tab.buckets (tab.bucket n.sha)).ips.members
      ((tab.buckets (tab.bucket n.sha)).ips.key n.IP)) :
    ¬ Exact (tab.delete n) := by
  intro hx'
  set i := tab.bucket n.sha
  set k := (tab.buckets i).ips.key n.IP
  have hb : (tab.delete n).buckets i =
      { tab.buckets i with ips := (tab.buckets i).ips.Remove n.IP } := by
    simp [Table.delete, Table.deleteInBucket, deleteNode_of_forall_ne hid, Table.removeIP, hlan, i]
  have hafter := hx'.bucket_ips i k
  have hbefore := hx.bucket_ips i k
  rw [hb, DistinctNetSet.members_Remove, if_pos rfl, DistinctNetSet.key_Remove] at hafter
  simp only [bucket.nodes] at hafter hbefore
  omega

/-- `add` does not refuse the table's own node: with room for it, it becomes an entry. -/
theorem Table.self_mem_add_self (h : Fresh tab tab.self) :
    tab.self ∈ ((tab.add tab.self).buckets (tab.bucket tab.self.sha)).entries := by
  simp [Table.add_of_fresh h, Table.pushed]

end Accounting

end Atlantis.Discover
