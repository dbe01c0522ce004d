import Atlantis.Crypto.Sha3

/-!
# The binary Merkle tree hash

`swarm/bmt/bmt.go`: a chunk of at most `SegmentCount` segments of `SegmentSize` bytes is
hashed as the root of a binary tree over its segments, zero-padded to a power of two.  Two
segments make a section, and the sections are the leaves.  `Hasher` computes the root while
the data streams in.  `Write` keeps the open segment (`cur`, `offset`, `segment`) and hands
every finished section to `writeSection`, which hashes it and pushes the hash up the tree
(`run`).  A node hashes its two children when the second of them arrives, told by the parity
of its `state` counter (`toggle`).  `Sum` closes the path of the last segment with the hashes
of zero subtrees (`finalise`, `zerohashes`) and writes the last section.  `RefHasher`
(`bmt_r.go`) is the reference: the plain recursion over the zero-padded data.

The goroutines that `writeSection` starts are run to completion one after another, in the
order the sequential program starts them: one of the schedules the source allows.  A panic
or a receive that blocks for ever is `none`.

The base hash is a parameter (`BaseHasher`): what a fresh hasher returns from `Sum(nil)`
after the bytes are written.  Writes into one hasher are one write of their concatenation
(`Sha3.Keccak256_foldlM_Write`), so `bh.Write(a); bh.Write(b); bh.Sum(nil)` is
`hash (a ++ b)`.

`Write` pushes a full segment only when the next byte comes, and `offset = 0` stands both
for an empty segment and for a full one not yet pushed.  A write that ends on a segment
boundary is therefore overwritten by the next write: two writes of one segment each hash as
the second alone (`hashWrites_drops_segment`), whatever the base hash.
-/

namespace Atlantis.Swarm.Bmt

/-- Go's `copy(dst[off:], src)`: as much of `src` as fits from `off` on. -/
def copyAt {α : Type} (dst : List α) (off : Nat) (src : List α) : List α :=
  dst.take off ++ src.take (dst.length - off) ++ dst.drop (off + src.length)

/-- A base hash as a `BaseHasherFunc` gives it: the digest of a fresh hasher after the bytes
are written, and its `Size()`. -/
structure BaseHasher where
  hash : List UInt8 → List UInt8
  Size : Nat

/-- Keccak-256, the base hash swarm uses. -/
def keccak256 : BaseHasher := ⟨Sha3.Keccak256, 32⟩

/-- The loop `for c := 2; c < n; c *= 2 { d++ }` of `calculateDepthFor` and
`NewRefHasher`: the last `c` and `d`, with fuel for `n` rounds. -/
def doubling (n : Nat) : Nat → Nat → Nat → Nat × Nat
  | 0, c, d => (c, d)
  | fuel + 1, c, d => if c < n then doubling n fuel (c * 2) (d + 1) else (c, d)

/-- `calculateDepthFor`: the number of levels of the tree over `n` segments. -/
def calculateDepthFor (n : Nat) : Nat := (doubling n n 2 0).2 + 1

/-! ## The tree -/

/-- `node`.  Its `parent` is the node at half its index on the level above, so it is not
stored. -/
structure node where
  isLeft : Bool
  state : Nat
  left : List UInt8
  right : List UInt8
  deriving Inhabited, DecidableEq

/-- `newNode`. -/
def newNode (index : Nat) : node := ⟨index % 2 == 0, 0, [], []⟩

/-- `toggle`: the counter goes up; true when the node now waits for its sister. -/
def node.toggle (n : node) : node × Bool :=
  ({ n with state := n.state + 1 }, (n.state + 1) % 2 == 1)

/-- `tree`: the nodes level by level, leaves first (the source's `leaves` and parent links),
the open segment and section, the result channel of capacity one, and the span.  `depth`
and `hash` are written and never read, and are left out. -/
structure tree where
  nodes : List (List node)
  cur : Nat
  offset : Nat
  segment : List UInt8
  /-- `section` (a keyword of Lean). -/
  sec : List UInt8
  result : Option (List UInt8)
  span : Option (List UInt8)
  deriving DecidableEq

/-- `newTree`: `2 ^ k` nodes on the `k`-th level from the root, `depth` levels (at least one). -/
def newTree (segmentSize depth : Nat) : tree where
  nodes := ((List.range (depth - 1 + 1)).map fun k => (List.range (2 ^ k)).map newNode).reverse
  cur := 0
  offset := 0
  segment := List.replicate segmentSize 0
  sec := List.replicate (2 * segmentSize) 0
  result := none
  span := none

/-- `run`: `s` arrives at node `i` of the first of `levels`, as its left or right child.  The
first child to arrive stops; the second hashes both and goes on to the parent, and from the
root the hash goes to the result channel.  The levels after, and what was sent. -/
def run (hash : List UInt8 → List UInt8) :
    List (List node) → Nat → Bool → List UInt8 → List (List node) × Option (List UInt8)
  | [], _, _, _ => ([], none)
  | lv :: up, i, isLeft, s =>
    let n := lv.getD i default
    let n := if isLeft then { n with left := s } else { n with right := s }
    let (n, first) := n.toggle
    if first then (lv.set i n :: up, none)
    else
      let s := hash (n.left ++ n.right)
      match up with
      | [] => ([lv.set i n], some s)
      | _ :: _ =>
        let r := run hash up (i / 2) n.isLeft s
        (lv.set i n :: r.1, r.2)

/-- The loop of `finalise` from node `i` of the first of `levels` up to the root: on a path
through a left child, the right child is the zero subtree of its level, and the node is
toggled as if it had arrived. -/
def finaliseLoop (zerohashes : List (List UInt8)) :
    List (List node) → Nat → Nat → Bool → Bool → List (List node)
  | [], _, _, _, _ => []
  | lv :: up, level, i, isLeft, skip =>
    let n := lv.getD i default
    let n := if isLeft && !skip then ({ n with right := zerohashes.getD level [] }).toggle.1 else n
    lv.set i n :: finaliseLoop zerohashes up (level + 1) (i / 2) n.isLeft false

/-! ## The pool -/

/-- `TreePool`: the channel of free trees (oldest first), the base hash, the shape of the
trees, how many were ever made, and the roots of the zero subtrees of each level.
`Datalength` is read by `DataLength` only, and is left out. -/
structure TreePool where
  c : List tree
  hasher : BaseHasher
  SegmentSize : Nat
  SegmentCount : Nat
  Capacity : Nat
  Depth : Nat
  count : Nat
  zerohashes : List (List UInt8)

/-- `NewTreePool`. -/
def NewTreePool (hasher : BaseHasher) (segmentCount capacity : Nat) : TreePool :=
  let depth := calculateDepthFor segmentCount
  let segmentSize := hasher.Size
  { c := []
    hasher := hasher
    SegmentSize := segmentSize
    SegmentCount := segmentCount
    Capacity := capacity
    Depth := depth
    count := 0
    zerohashes := List.iterate (fun zeros => hasher.hash (zeros ++ zeros))
      (List.replicate segmentSize 0) depth }

namespace TreePool

/-- `reserve`: a free tree from the channel, or a new one while fewer than `Capacity` exist;
`none` where every tree is taken and the source blocks. -/
def reserve (p : TreePool) : Option (tree × TreePool) :=
  if p.count = p.Capacity then
    match p.c with
    | [] => none
    | t :: c => some (t, { p with c := c })
  else
    match p.c with
    | t :: c => some (t, { p with c := c })
    | [] => some (newTree p.SegmentSize p.Depth, { p with count := p.count + 1 })

/-- `release`: the tree goes to the back of the channel. -/
def release (p : TreePool) (t : tree) : TreePool := { p with c := p.c ++ [t] }

/-- `writeSection`: the hash of section `i / 2` goes up from its leaf. -/
def writeSection (p : TreePool) (i : Nat) (sec : List UInt8) (t : tree) : tree :=
  let n := (t.nodes.headD []).getD (i / 2) default
  let sum := p.hasher.hash sec
  match t.nodes with
  | lv :: up@(_ :: _) =>
    let r := run p.hasher.hash up (i / 2 / 2) n.isLeft sum
    { t with nodes := lv :: r.1, result := r.2.or t.result }
  -- the leaf is the root
  | _ => { t with result := some sum }

/-- `finalise`, from the leaf of the open segment. -/
def finalise (p : TreePool) (skip : Bool) (t : tree) : tree :=
  { t with nodes := finaliseLoop p.zerohashes t.nodes 0 (t.cur / 2) (t.cur % 2 == 0) skip }

/-- The loop of `Write`: push the segment read last (the second of a section goes up with
it), then read the next one.  The tree and the `size` of the last segment read; each round
reads at least one byte, so fuel for every byte is enough. -/
def writeLoop (p : TreePool) :
    Nat → tree → List UInt8 → Nat → Nat → Nat → tree × Nat
  | 0, t, _, _, _, size => (t, size)
  | fuel + 1, t, b, need, rest, size =>
    if need = 0 then (t, size)
    else
      let t := if t.cur % 2 = 0 then { t with sec := copyAt t.sec 0 t.segment }
        else p.writeSection t.cur (copyAt t.sec p.SegmentSize t.segment)
          { t with sec := copyAt t.sec p.SegmentSize t.segment }
      let size := min p.SegmentSize need
      let t := { t with segment := copyAt t.segment 0 ((b.drop rest).take size), cur := t.cur + 1 }
      writeLoop p fuel t b (need - size) (rest + size) size

/-- The body of `Write` on the hasher's tree: complete the open segment, read the others,
and keep the cursor in the last one. -/
def writeTree (p : TreePool) (t : tree) (b : List UInt8) : tree :=
  let l := b.length
  let need := min ((p.SegmentCount - t.cur) * p.SegmentSize) l
  -- calculate missing bit to complete current open segment
  let rest := min (p.SegmentSize - t.offset) need
  let t' := { t with segment := copyAt t.segment t.offset (b.take rest) }
  let size := (t.offset + rest) % p.SegmentSize
  let r := writeLoop p l t' b (need - rest) rest size
  { r.1 with offset := r.2 % p.SegmentSize }

/-- The tree part of `sum` with sections: close the path of the last segment, pad the
segment with zeros, and write the last section. -/
def sumTree (p : TreePool) (t : tree) : tree :=
  let t := p.finalise true t
  let zeros := p.zerohashes.getD 0 []
  let t := if 0 < t.offset then { t with segment := copyAt t.segment t.offset zeros } else t
  let t := if t.cur % 2 = 1 then { t with sec := copyAt t.sec p.SegmentSize t.segment }
    else { t with sec := copyAt (copyAt t.sec 0 t.segment) p.SegmentSize zeros }
  p.writeSection t.cur t.sec t

end TreePool

/-! ## The hasher -/

/-- `Hasher`: the pool, and the tree it holds between `Reset` and `Sum`. -/
structure Hasher where
  pool : TreePool
  bmt : Option tree

/-- `New`. -/
def New (p : TreePool) : Hasher := ⟨p, none⟩

namespace Hasher

/-- `getTree`: the tree held, or one reserved from the pool. -/
def getTree (h : Hasher) : Option Hasher :=
  match h.bmt with
  | some _ => some h
  | none => h.pool.reserve.map fun r => { pool := r.2, bmt := some r.1 }

/-- `Reset`. -/
def Reset (h : Hasher) : Option Hasher := h.getTree

/-- `ResetWithLength`. -/
def ResetWithLength (h : Hasher) (span : List UInt8) : Option Hasher :=
  h.Reset.map fun h => { h with bmt := h.bmt.map fun t => { t with span := some span } }

/-- `releaseTree`: the tree, reset, goes back to the pool. -/
def releaseTree (h : Hasher) : Hasher :=
  match h.bmt with
  | none => h
  | some t => { pool := h.pool.release { t with cur := 0, offset := 0, span := none }, bmt := none }

/-- `Write`: the number of bytes written; without a tree the source dereferences nil. -/
def Write (h : Hasher) (b : List UInt8) : Option (Nat × Hasher) :=
  if b.length = 0 then some (0, h)
  else h.bmt.map fun t => (b.length, { h with bmt := some (h.pool.writeTree t b) })

/-- `sum`: the root, read from the result channel, hashed after the span when there is one
and appended to `b`.  Without sections the source panics. -/
def sum (h : Hasher) (b : List UInt8) (release sec : Bool) : Option (List UInt8 × Hasher) :=
  match h.bmt, sec with
  | none, _ => none
  | some _, false => none
  | some t, true =>
    let t := h.pool.sumTree t
    match t.result with
    | none => none
    | some bmtHash =>
      let h' : Hasher := { h with bmt := some { t with result := none } }
      let h' := if release then h'.releaseTree else h'
      match t.span with
      | none => some (bmtHash, h')
      | some span => some (b ++ h.pool.hasher.hash (span ++ bmtHash), h')

/-- `Sum`. -/
def Sum (h : Hasher) (b : List UInt8) : Option (List UInt8 × Hasher) := h.sum b true true

/-- The writes one after another. -/
def writeAll (h : Hasher) (ws : List (List UInt8)) : Option Hasher :=
  ws.foldlM (fun h w => (h.Write w).map Prod.snd) h

/-- `Reset`, or `ResetWithLength(span)` when a span is given. -/
def resetWith (h : Hasher) : Option (List UInt8) → Option Hasher
  | none => h.Reset
  | some span => h.ResetWithLength span

/-- One hash of a stream: the reset, the writes, and `Sum(nil)`. -/
def hashWrites (h : Hasher) (span : Option (List UInt8)) (ws : List (List UInt8)) :
    Option (List UInt8 × Hasher) :=
  ((h.resetWith span).bind fun h => h.writeAll ws).bind fun h => h.Sum []

/-- Hashes one after another on one hasher. -/
def hashAll (h : Hasher) : List (Option (List UInt8) × List (List UInt8)) → Option Hasher
  | [] => some h
  | (span, ws) :: hs => (h.hashWrites span ws).bind fun r => r.2.hashAll hs

end Hasher

/-- `Hash`: the hash of the data under a span. -/
def Hash (h : Hasher) (span data : List UInt8) : Option (List UInt8 × Hasher) :=
  h.hashWrites (some span) [data]

/-! ## The reference hasher -/

/-- `RefHasher`. -/
structure RefHasher where
  maxDataLength : Nat
  sectionLength : Nat
  hasher : BaseHasher

/-- `NewRefHasher`: room for the least power of two of segments, from two, that holds
`count`. -/
def NewRefHasher (hasher : BaseHasher) (count : Nat) : RefHasher :=
  let c := (doubling count count 2 0).1
  { sectionLength := 2 * hasher.Size
    maxDataLength := c * hasher.Size
    hasher := hasher }

namespace RefHasher

/-- `hash`: a section is hashed, a longer slice is the hash of the roots of its halves.
Each level halves `length`, so fuel for `length` levels is enough. -/
def hash (rh : RefHasher) : Nat → List UInt8 → Nat → List UInt8
  | 0, data, _ => rh.hasher.hash data
  | fuel + 1, data, length =>
    if length = rh.sectionLength then rh.hasher.hash data
    else
      rh.hasher.hash (rh.hash fuel (data.take (length / 2)) (length / 2) ++
        rh.hash fuel (data.drop (length / 2)) (length / 2))

/-- `Hash`: the data, cut or zero-padded to `maxDataLength`. -/
def Hash (rh : RefHasher) (data : List UInt8) : List UInt8 :=
  let length := min data.length rh.maxDataLength
  let d := copyAt (List.replicate rh.maxDataLength 0) 0 (data.take length)
  rh.hash rh.maxDataLength d rh.maxDataLength

end RefHasher

/-! ## A write that ends on a segment boundary -/

theorem length_copyAt {α : Type} (dst : List α) (off : Nat) (src : List α)
    (h : off ≤ dst.length) : (copyAt dst off src).length = dst.length := by
  simp only [copyAt, List.length_append, List.length_take, List.length_drop]
  omega

/-- What a copy to the front leaves after itself is the destination's own. -/
theorem drop_copyAt_zero {α : Type} (dst src : List α) :
    (copyAt dst 0 src).drop src.length = dst.drop src.length := by
  simp only [copyAt, List.take_zero, List.nil_append, Nat.sub_zero, Nat.zero_add]
  by_cases h : src.length ≤ dst.length
  · rw [List.take_of_length_le h, List.drop_left]
  · rw [List.drop_of_length_le (by omega : dst.length ≤ src.length), List.append_nil,
      List.drop_of_length_le (by rw [List.length_take]; omega)]

/-- A copy to the front is undone by another of the same length. -/
theorem copyAt_copyAt_zero {α : Type} (s b1 b2 : List α) (h : b1.length = b2.length) :
    copyAt (copyAt s 0 b1) 0 b2 = copyAt s 0 b2 := by
  have hlen := length_copyAt s 0 b1 (Nat.zero_le _)
  have hdrop := drop_copyAt_zero s b1
  rw [h] at hdrop
  simp only [copyAt, List.take_zero, List.nil_append, Nat.sub_zero, Nat.zero_add] at hlen hdrop ⊢
  rw [hlen, hdrop]

theorem copyAt_zero_self {α : Type} (s : List α) : copyAt s 0 s = s := by
  simp [copyAt]

namespace TreePool

variable (p : TreePool)

theorem writeLoop_zero (fuel : Nat) (t : tree) (b : List UInt8) (rest size : Nat) :
    p.writeLoop fuel t b 0 rest size = (t, size) := by
  cases fuel <;> simp [writeLoop]

/-- **A write of one segment at a boundary** fills the segment and leaves `offset` at zero:
nothing is pushed. -/
theorem writeTree_segment (t : tree) (b : List UInt8) (ht : t.offset = 0)
    (hcur : t.cur < p.SegmentCount) (hb : b.length = p.SegmentSize) :
    p.writeTree t b = { t with segment := copyAt t.segment 0 b } := by
  have hneed : min ((p.SegmentCount - t.cur) * p.SegmentSize) b.length = p.SegmentSize := by
    rw [hb]
    exact Nat.min_eq_right (Nat.le_mul_of_pos_left _ (by omega))
  -- the segment takes all of `b`, and nothing is left for the loop
  simp only [writeTree, hneed, ht, Nat.sub_zero, Nat.min_self, Nat.sub_self, writeLoop_zero,
    Nat.zero_add, Nat.mod_self, Nat.zero_mod, List.take_of_length_le (Nat.le_of_eq hb)]

/-- **The next write overwrites it**: a segment written at a boundary is lost. -/
theorem writeTree_writeTree (t : tree) (b1 b2 : List UInt8) (ht : t.offset = 0)
    (hcur : t.cur < p.SegmentCount) (h1 : b1.length = p.SegmentSize)
    (h2 : b2.length = p.SegmentSize) :
    p.writeTree (p.writeTree t b1) b2 = p.writeTree t b2 := by
  rw [writeTree_segment p t b1 ht hcur h1,
    writeTree_segment p { t with segment := copyAt t.segment 0 b1 } b2 ht hcur h2,
    writeTree_segment p t b2 ht hcur h2, copyAt_copyAt_zero _ _ _ (h1.trans h2.symm)]

end TreePool

/-! ## Between two hashes -/

/-- The pool as every hash leaves it: each free tree is reset, and the segments are those it
was made with. -/
structure TreePool.Ready (p : TreePool) (size count : Nat) : Prop where
  clean : ∀ t ∈ p.c, t.cur = 0 ∧ t.offset = 0
  segmentSize : p.SegmentSize = size
  segmentCount : p.SegmentCount = count

theorem NewTreePool_ready (hasher : BaseHasher) (segmentCount capacity : Nat) :
    (NewTreePool hasher segmentCount capacity).Ready hasher.Size segmentCount :=
  ⟨by simp [NewTreePool], rfl, rfl⟩

namespace TreePool

variable {p p' : TreePool} {t : tree} {size count : Nat}

/-- What `reserve` can do: take the first free tree, or make a new one. -/
theorem reserve_cases (h : p.reserve = some (t, p')) :
    (∃ c, p.c = t :: c ∧ p' = { p with c := c }) ∨
      (p.c = [] ∧ t = newTree p.SegmentSize p.Depth ∧ p' = { p with count := p.count + 1 }) := by
  rcases hc : p.c with _ | ⟨t₀, c⟩
  · -- no free tree: a new one, unless every tree is taken
    simp only [reserve, hc] at h
    split at h
    · cases h
    · simp only [Option.some.injEq, Prod.mk.injEq] at h
      exact .inr ⟨rfl, h.1.symm, h.2.symm⟩
  · have h' : some (t₀, { p with c := c }) = some (t, p') := by
      rw [← h]
      simp only [reserve, hc, ite_self]
    simp only [Option.some.injEq, Prod.mk.injEq] at h'
    exact .inl ⟨c, by rw [h'.1], h'.2.symm⟩

theorem Ready.reserve (hp : p.Ready size count) (h : p.reserve = some (t, p')) :
    p'.Ready size count ∧ t.cur = 0 ∧ t.offset = 0 := by
  rcases reserve_cases h with ⟨c, hc, rfl⟩ | ⟨-, rfl, rfl⟩
  · have hclean := hp.clean
    rw [hc] at hclean
    exact ⟨⟨fun t' ht' => hclean t' (List.mem_cons_of_mem _ ht'), hp.segmentSize,
      hp.segmentCount⟩, hclean t List.mem_cons_self⟩
  · exact ⟨⟨hp.clean, hp.segmentSize, hp.segmentCount⟩, rfl, rfl⟩

theorem Ready.release (hp : p.Ready size count) (ht : t.cur = 0 ∧ t.offset = 0) :
    (p.release t).Ready size count where
  clean t' ht' := by
    rcases List.mem_append.mp ht' with h | h
    · exact hp.clean t' h
    · rw [List.mem_singleton.mp h]
      exact ht
  segmentSize := hp.segmentSize
  segmentCount := hp.segmentCount

end TreePool

namespace Hasher

variable {h h' : Hasher} {size count : Nat}

/-- A reset of a hasher that holds no tree takes a reset one from the pool. -/
theorem Reset_spec (hb : h.bmt = none) (hp : h.pool.Ready size count)
    (hr : h.Reset = some h') :
    h'.pool.Ready size count ∧ ∃ t, h'.bmt = some t ∧ t.cur = 0 ∧ t.offset = 0 := by
  simp only [Reset, getTree, hb, Option.map_eq_some_iff] at hr
  obtain ⟨⟨t, p'⟩, hres, rfl⟩ := hr
  obtain ⟨hp', hcur, hoff⟩ := hp.reserve hres
  exact ⟨hp', t, rfl, hcur, hoff⟩

theorem resetWith_spec (hb : h.bmt = none) (hp : h.pool.Ready size count)
    (span : Option (List UInt8)) (hr : h.resetWith span = some h') :
    h'.pool.Ready size count ∧ ∃ t, h'.bmt = some t ∧ t.cur = 0 ∧ t.offset = 0 := by
  cases span with
  | none => exact Reset_spec hb hp hr
  | some span =>
    -- `ResetWithLength` sets the span of the tree `Reset` took
    simp only [resetWith, ResetWithLength, Option.map_eq_some_iff] at hr
    obtain ⟨h₀, hr₀, rfl⟩ := hr
    obtain ⟨hp', t, ht, hcur, hoff⟩ := Reset_spec hb hp hr₀
    exact ⟨hp', { t with span := some span }, by simp [ht], hcur, hoff⟩

theorem Write_of_bmt {t : tree} (hb : h.bmt = some t) {b : List UInt8} (hlen : 0 < b.length) :
    h.Write b = some (b.length, { h with bmt := some (h.pool.writeTree t b) }) := by
  simp [Write, hb, Nat.pos_iff_ne_zero.mp hlen]

theorem Write_pool (w : List UInt8) (hw : (h.Write w).map Prod.snd = some h') :
    h'.pool = h.pool := by
  unfold Write at hw
  split at hw
  · simp only [Option.map_some, Option.some.injEq] at hw
    rw [hw]
  · simp only [Option.map_map, Option.map_eq_some_iff] at hw
    obtain ⟨t, -, rfl⟩ := hw
    rfl

/-- Writes keep the pool. -/
theorem writeAll_pool : ∀ (ws : List (List UInt8)) (h h' : Hasher),
    h.writeAll ws = some h' → h'.pool = h.pool
  | [], h, h', hw => by
    simp only [writeAll, List.foldlM_nil] at hw
    cases hw
    rfl
  | w :: ws, h, h', hw => by
    simp only [writeAll, List.foldlM_cons, Option.bind_eq_bind, Option.bind_eq_some_iff] at hw
    obtain ⟨h₁, hw₁, hws⟩ := hw
    rw [writeAll_pool ws h₁ h' hws, Write_pool w hw₁]

/-- `Sum` gives the tree back to the pool, reset. -/
theorem Sum_idle (hp : h.pool.Ready size count) (b : List UInt8) {r : List UInt8}
    (hs : h.Sum b = some (r, h')) : h'.bmt = none ∧ h'.pool.Ready size count := by
  rcases hbmt : h.bmt with _ | t
  · simp [Sum, sum, hbmt] at hs
  · simp only [Sum, sum, hbmt, if_true] at hs
    split at hs
    · cases hs
    · -- the hasher after the receive, whether the span is hashed in or not
      have hh' : h' = ⟨h.pool.release
          { h.pool.sumTree t with result := none, cur := 0, offset := 0, span := none }, none⟩ := by
        split at hs <;> simp only [Option.some.injEq, Prod.mk.injEq] at hs <;>
          exact hs.2.symm
      rw [hh']
      exact ⟨rfl, hp.release ⟨rfl, rfl⟩⟩

/-- **A hash leaves the hasher idle** on a ready pool. -/
theorem hashWrites_idle (hb : h.bmt = none) (hp : h.pool.Ready size count)
    (span : Option (List UInt8)) (ws : List (List UInt8)) {r : List UInt8}
    (hw : h.hashWrites span ws = some (r, h')) : h'.bmt = none ∧ h'.pool.Ready size count := by
  simp only [hashWrites, Option.bind_eq_some_iff] at hw
  obtain ⟨h₂, ⟨h₁, hr, hws⟩, hs⟩ := hw
  have hp₂ : h₂.pool.Ready size count := writeAll_pool ws h₁ h₂ hws ▸ (resetWith_spec hb hp span hr).1
  exact Sum_idle hp₂ [] hs

/-- So does every history of hashes. -/
theorem hashAll_idle : ∀ (hs : List (Option (List UInt8) × List (List UInt8))) (h h' : Hasher),
    h.bmt = none → h.pool.Ready size count → h.hashAll hs = some h' →
      h'.bmt = none ∧ h'.pool.Ready size count
  | [], h, h', hb, hp, hr => by
    simp only [hashAll, Option.some.injEq] at hr
    exact hr ▸ ⟨hb, hp⟩
  | (span, ws) :: hs, h, h', hb, hp, hr => by
    simp only [hashAll, Option.bind_eq_some_iff] at hr
    obtain ⟨⟨r, h₁⟩, hw, hrest⟩ := hr
    obtain ⟨hb₁, hp₁⟩ := hashWrites_idle hb hp span ws hw
    exact hashAll_idle hs h₁ h' hb₁ hp₁ hrest

/-- **Two writes of a segment each, from a boundary, are the second alone.** -/
theorem writeAll_segments {t : tree} (hb : h.bmt = some t) (ht : t.offset = 0)
    (hcur : t.cur < h.pool.SegmentCount) (b1 b2 : List UInt8)
    (h1 : b1.length = h.pool.SegmentSize) (h2 : b2.length = h.pool.SegmentSize) :
    h.writeAll [b1, b2] = h.writeAll [b2] := by
  by_cases hz : h.pool.SegmentSize = 0
  · -- segments of no bytes: the writes do nothing
    rw [hz, List.length_eq_zero_iff] at h1 h2
    subst h1 h2
    simp [writeAll, Write]
  · have hw1 := Write_of_bmt hb (b := b1) (by omega)
    have hw2 := Write_of_bmt hb (b := b2) (by omega)
    have hw12 := Write_of_bmt (h := { h with bmt := some (h.pool.writeTree t b1) }) rfl
      (b := b2) (by omega)
    simp only [writeAll, List.foldlM_cons, List.foldlM_nil, hw1, hw2, hw12, Option.map_some,
      Option.bind_eq_bind, Option.bind_some]
    rw [TreePool.writeTree_writeTree h.pool t b1 b2 ht hcur h1 h2]

/-- Writing a tree's own segment back at a boundary leaves the hasher as it is. -/
theorem writeAll_own_segment {t : tree} (hb : h.bmt = some t) (ht : t.offset = 0)
    (hcur : t.cur < h.pool.SegmentCount) (hlen : t.segment.length = h.pool.SegmentSize) :
    h.writeAll [t.segment] = h.writeAll [] := by
  by_cases hz : t.segment.length = 0
  · rw [List.length_eq_zero_iff.mp hz]
    simp [writeAll, Write]
  · simp only [writeAll, List.foldlM_cons, List.foldlM_nil, Write_of_bmt hb (Nat.pos_of_ne_zero hz),
      Option.map_some, Option.bind_eq_bind, Option.bind_some]
    rw [TreePool.writeTree_segment h.pool t t.segment ht hcur hlen, copyAt_zero_self]
    cases h with
    | mk pool bmt =>
      simp only at hb
      rw [hb]

end Hasher

/-- **Reset, a write of one segment, a write of another, and `Sum` hash the second segment
alone**, after every history of hashes on the pool, for every base hash and segment count. -/
theorem hashWrites_drops_segment (H : BaseHasher) (count capacity : Nat)
    (hs : List (Option (List UInt8) × List (List UInt8))) (h : Hasher)
    (hrun : (New (NewTreePool H count capacity)).hashAll hs = some h) (hcount : 0 < count)
    (span : Option (List UInt8)) (b1 b2 : List UInt8) (h1 : b1.length = H.Size)
    (h2 : b2.length = H.Size) :
    h.hashWrites span [b1, b2] = h.hashWrites span [b2] := by
  obtain ⟨hb, hp⟩ := Hasher.hashAll_idle hs _ h rfl (NewTreePool_ready H count capacity) hrun
  unfold Hasher.hashWrites
  cases hr : h.resetWith span with
  | none => rfl
  | some h₁ =>
    obtain ⟨hp₁, t, ht, hcur, hoff⟩ := Hasher.resetWith_spec hb hp span hr
    simp only [Option.bind_some]
    rw [Hasher.writeAll_segments ht hoff (by rw [hcur, hp₁.segmentCount]; exact hcount) b1 b2
      (by rw [h1, hp₁.segmentSize]) (by rw [h2, hp₁.segmentSize])]

theorem hashWrites_drops_segment_keccak :
    (New (NewTreePool keccak256 2 1)).hashAll [] = some (New (NewTreePool keccak256 2 1)) ∧
      0 < 2 ∧ (List.replicate 32 (1 : UInt8)).length = keccak256.Size ∧
      (List.replicate 32 (0 : UInt8)).length = keccak256.Size ∧
      (New (NewTreePool keccak256 2 1)).hashWrites none
          [List.replicate 32 1, List.replicate 32 0] =
        (New (NewTreePool keccak256 2 1)).hashWrites none [List.replicate 32 0] :=
  ⟨rfl, by decide, rfl, rfl,
    hashWrites_drops_segment keccak256 2 1 [] _ rfl (by decide) none _ _ rfl rfl⟩

/-- Under Keccak-256 over two segments, a segment of ones and then one of zeros do not hash
as the reference hash of their concatenation. -/
example :
    ((New (NewTreePool keccak256 2 1)).hashWrites none
        [List.replicate 32 1, List.replicate 32 0]).map Prod.fst ≠
      some ((NewRefHasher keccak256 2).Hash (List.replicate 32 1 ++ List.replicate 32 0)) := by
  decide +kernel

/-- **`releaseTree` keeps the segment**: a hash of no data on the next tree of the pool is
the hash of the segment that tree was left with. -/
theorem hashWrites_nil_stale (h : Hasher) (hb : h.bmt = none) {t : tree} {c : List tree}
    (hc : h.pool.c = t :: c) (hcur : t.cur = 0) (hoff : t.offset = 0)
    (hcount : 0 < h.pool.SegmentCount) (hlen : t.segment.length = h.pool.SegmentSize)
    (span : Option (List UInt8)) :
    h.hashWrites span [] = h.hashWrites span [t.segment] := by
  -- both resets take `t`, and writing its own segment back leaves it as it is
  have hres : h.pool.reserve = some (t, { h.pool with c := c }) := by
    simp only [TreePool.reserve, hc, ite_self]
  unfold Hasher.hashWrites
  cases span with
  | none =>
    have hr : h.resetWith none = some ⟨{ h.pool with c := c }, some t⟩ := by
      simp [Hasher.resetWith, Hasher.Reset, Hasher.getTree, hb, hres]
    rw [hr, Option.bind_some, Option.bind_some,
      Hasher.writeAll_own_segment (h := ⟨{ h.pool with c := c }, some t⟩) rfl hoff
        (by rw [hcur]; exact hcount) hlen]
  | some span =>
    have hr : h.resetWith (some span) =
        some ⟨{ h.pool with c := c }, some { t with span := some span }⟩ := by
      simp [Hasher.resetWith, Hasher.ResetWithLength, Hasher.Reset, Hasher.getTree, hb, hres]
    rw [hr, Option.bind_some, Option.bind_some,
      Hasher.writeAll_own_segment (h := ⟨{ h.pool with c := c }, some { t with span := some span }⟩)
        rfl hoff (by rw [hcur]; exact hcount) hlen]

/-- Under Keccak-256 over two segments with one tree: after a hash of a segment of ones, the
tree goes back to the pool with its segment, and a hash of no data on it is the hash of that
segment, not the reference hash of no data. -/
theorem hashWrites_nil_stale_ones :
    ∃ h, (New (NewTreePool keccak256 2 1)).hashAll [(none, [List.replicate 32 1])] = some h ∧
      h.bmt = none ∧ ∃ t c, h.pool.c = t :: c ∧ t.cur = 0 ∧ t.offset = 0 ∧
        0 < h.pool.SegmentCount ∧ t.segment.length = h.pool.SegmentSize ∧
        t.segment = List.replicate 32 1 ∧
        h.hashWrites none [] = h.hashWrites none [List.replicate 32 1] ∧
        (h.hashWrites none []).map Prod.fst ≠ some ((NewRefHasher keccak256 2).Hash []) := by
  have hR : ((New (NewTreePool keccak256 2 1)).hashAll [(none, [List.replicate 32 1])]).bind
      (fun h => h.pool.c.head?.map fun t =>
        (decide (h.bmt = none ∧ t.cur = 0 ∧ t.offset = 0 ∧ 0 < h.pool.SegmentCount ∧
          t.segment.length = h.pool.SegmentSize ∧ t.segment = List.replicate 32 1),
        decide ((h.hashWrites none []).map Prod.fst ≠ some ((NewRefHasher keccak256 2).Hash [])))) =
      some (true, true) := by
    decide +kernel
  obtain ⟨h, hh, hv⟩ := Option.bind_eq_some_iff.mp hR
  obtain ⟨t, ht, hv⟩ := Option.map_eq_some_iff.mp hv
  simp only [Prod.mk.injEq, decide_eq_true_eq] at hv
  obtain ⟨⟨hb, hcur, hoff, hcount, hlen, hseg⟩, hne⟩ := hv
  obtain ⟨c, hc⟩ : ∃ c, h.pool.c = t :: c := by
    cases hpc : h.pool.c with
    | nil => simp [hpc] at ht
    | cons t' c =>
      rw [hpc, List.head?_cons, Option.some.injEq] at ht
      exact ⟨c, by rw [ht]⟩
  refine ⟨h, hh, hb, t, c, hc, hcur, hoff, hcount, hlen, hseg, ?_, hne⟩
  rw [hashWrites_nil_stale h hb hc hcur hoff hcount hlen none, hseg]

end Atlantis.Swarm.Bmt
