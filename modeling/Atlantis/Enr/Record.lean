import Atlantis.Rlp.Stream
import Atlantis.Lib.Search

/-!
# Node records

`p2p/enr` (EIP-778): a node record is a sequence number, a signature, the signed encoding,
and a list of key/value pairs sorted by key.  `Set` inserts or replaces a pair and drops
the signature, `SetSig` checks a signature with the record's identity scheme and stores it
with the encoding, and `SignV4` signs with the `"v4"` scheme.

Keys are Go strings, compared bytewise: here byte strings with the lexicographic order of
`List UInt8`.  A pair's value is raw RLP; an entry is its key and the RLP value it encodes
to.  The registry of identity schemes holds the one scheme `"v4"`, registered at start-up;
the cryptography it uses (Keccak-256, signing, signature verification and public key
compression) is a parameter.  A panic of the source is `none`.  `Load` decodes the value of
a pair with the decoder of the entry it loads into.

The sequence number moves by `invalidate`, which increments it only when the record is
*not* signed (`Set_seq`): a `Set` on a signed record keeps its number, and a record signed
again with `SetSig` carries new pairs under the old number (`SetSig_after_Set_seq`), while
the documentation of `Set` and `SetSeq` says that setting a key in a signed record
increments the number.
-/

namespace Atlantis.Enr

open Rlp

/-- `SizeLimit`: the largest encoded record, in bytes. -/
def SizeLimit : Nat := 300

/-- The errors of `enr`: a `keyError` is a `KeyError`, which names its key, and `rlp` an
error of the RLP stream.  `invalidPublicKey` is the error of `v4ID.Verify` for a public key
that is not 33 bytes long, and `sign` an error of `crypto.Sign`. -/
inductive Error where
  | errNoID
  | errInvalidSig
  | errNotSorted
  | errDuplicateKey
  | errIncompletePair
  | errTooBig
  | errEncodeUnsigned
  | errNotFound
  | invalidPublicKey
  | sign
  | keyError (key : List UInt8) (err : Error)
  | rlp (err : StreamError)
  deriving DecidableEq, Repr

/-- `pair`: a key and a raw RLP value. -/
structure Pair where
  k : List UInt8
  v : List UInt8
  deriving DecidableEq, Repr

/-- `Record`.  The signature is `none` where the source's is `nil`, and the encoding is
empty where the source's is `nil`. -/
structure Record where
  seq : UInt64
  signature : Option (List UInt8)
  raw : List UInt8
  pairs : List Pair
  deriving DecidableEq, Repr

/-- An `Entry`: its `ENRKey` and the RLP value it encodes to. -/
structure Entry where
  key : List UInt8
  value : Item

/-- The cryptography of the `"v4"` scheme, over a type of private keys: Keccak-256,
`crypto.Sign` (a signature with its recovery byte, or an error), `crypto.VerifySignature`
(public key, digest, signature without the recovery byte) and `crypto.CompressPubkey` of the
public key of a private key. -/
structure Crypto (PrivateKey : Type) where
  keccak256 : List UInt8 → List UInt8
  sign : List UInt8 → PrivateKey → Option (List UInt8)
  verifySignature : List UInt8 → List UInt8 → List UInt8 → Bool
  compressPubkey : PrivateKey → List UInt8

/-- The key `"id"`. -/
def idKey : List UInt8 := [0x69, 0x64]

/-- The key `"secp256k1"`. -/
def secp256k1Key : List UInt8 := [0x73, 0x65, 0x63, 0x70, 0x32, 0x35, 0x36, 0x6b, 0x31]

/-- The name `"v4"` of the default identity scheme. -/
def IDv4 : List UInt8 := [0x76, 0x34]

/-- The identity schemes the registry can hold. -/
inductive IdentityScheme where
  | v4ID
  deriving DecidableEq, Repr

/-- `FindIdentityScheme`: the registry holds `"v4"` only. -/
def FindIdentityScheme (name : List UInt8) : Option IdentityScheme :=
  if name = IDv4 then some .v4ID else none

/-- The encoding of a list whose elements are encoded in `payload`. -/
def encodeListPayload (payload : List UInt8) : List UInt8 :=
  puthead 0xC0 0xF7 payload.length ++ payload

namespace Record

variable {PrivateKey : Type}

/-- `Signed`. -/
def Signed (r : Record) : Bool :=
  r.signature.isSome

/-- `SetSeq`: updates the sequence number and drops the signature. -/
def SetSeq (r : Record) (s : UInt64) : Record :=
  { r with signature := none, raw := [], seq := s }

/-- The predicate of the searches over the pairs: `pairs[i].k >= key`. -/
def atOrAfter (pairs : List Pair) (key : List UInt8) (i : Nat) : Bool :=
  match pairs[i]? with
  | some p => !decide (p.k < key)
  | none => true

/-- Where `sort.Search` places `key` among the pairs. -/
def position (pairs : List Pair) (key : List UInt8) : Nat :=
  Search.search pairs.length (atOrAfter pairs key)

/-- `Load`: the value under `key`, decoded by the decoder of the entry it loads into. -/
def Load {α : Type} (r : Record) (key : List UInt8) (dec : List UInt8 → Except StreamError α) :
    Except Error α :=
  match r.pairs[position r.pairs key]? with
  | some p =>
    if p.k = key then
      match dec p.v with
      | .ok a => .ok a
      | .error e => .error (.keyError key (.rlp e))
    else .error (.keyError key .errNotFound)
  | none => .error (.keyError key .errNotFound)

/-- `invalidate`: drops the signature and the encoding, and increments the sequence number
when the record is not signed. -/
def invalidate (r : Record) : Record :=
  { r with seq := if r.signature = none then r.seq + 1 else r.seq, signature := none, raw := [] }

/-- `Set`: adds the entry, or replaces the value under its key. -/
def Set (r : Record) (e : Entry) : Record :=
  let blob := e.value.encode
  let r := r.invalidate
  let pairs := r.pairs
  let i := position pairs e.key
  let pairs :=
    if pairs[i]?.map Pair.k = some e.key then
      -- element is present at r.pairs[i]
      pairs.modify i fun p => { p with v := blob }
    else if i < r.pairs.length then
      -- insert pair before i-th elem
      pairs.insertIdx i ⟨e.key, blob⟩
    else
      -- element should be placed at the end of r.pairs
      pairs ++ [⟨e.key, blob⟩]
  { r with pairs := pairs }

/-- The encoded elements of `AppendElements`: the sequence number and the pairs. -/
def elements (r : Record) : List UInt8 :=
  encodeUint r.seq.toNat ++ r.pairs.flatMap fun p => encodeString p.k ++ p.v

/-- `encode`: the signed encoding `[sig, seq, k, v, ...]`, at most `SizeLimit` bytes. -/
def encode (r : Record) (sig : List UInt8) : Except Error (List UInt8) :=
  let raw := encodeListPayload (encodeString sig ++ r.elements)
  if SizeLimit < raw.length then .error .errTooBig else .ok raw

/-- `EncodeRLP`: the encoding of a signed record. -/
def EncodeRLP (r : Record) : Except Error (List UInt8) :=
  if r.Signed then .ok r.raw else .error .errEncodeUnsigned

/-- `idScheme`: the name under `"id"` and the scheme the registry holds under it. -/
def idScheme (r : Record) : List UInt8 × Option IdentityScheme :=
  match r.Load idKey (Stream.decodeBytes Stream.bytes) with
  | .ok id => (id, FindIdentityScheme id)
  | .error _ => ([], none)

end Record

/-- `Verify` of an identity scheme.  `v4ID.Verify`: the signature must verify against the
compressed public key under `"secp256k1"` over the Keccak-256 hash of `[seq, k, v, ...]`. -/
def IdentityScheme.Verify {PrivateKey : Type} (c : Crypto PrivateKey) :
    IdentityScheme → Record → List UInt8 → Except Error Unit
  | .v4ID, r, sig => do
    let entry ← r.Load secp256k1Key (Stream.decodeBytes Stream.bytes)
    if entry.length ≠ 33 then throw .invalidPublicKey
    if !c.verifySignature entry (c.keccak256 (encodeListPayload r.elements)) sig then
      throw .errInvalidSig

namespace Record

variable {PrivateKey : Type}

/-- `SetSig`: stores a signature that the record's identity scheme accepts, with the
encoding.  A record without a known scheme, or with another scheme than `idscheme`,
panics. -/
def SetSig (c : Crypto PrivateKey) (r : Record) (idscheme sig : List UInt8) :
    Option (Except Error Record) :=
  match r.idScheme with
  | (_, none) => none
  | (id, some s) =>
    if id ≠ idscheme then none
    else some do
      s.Verify c r sig
      let raw ← r.encode sig
      pure { r with signature := some sig, raw := raw }

/-- The entry `ID("v4")`. -/
def idEntry : Entry := ⟨idKey, .str IDv4⟩

/-- The entry `Secp256k1` of the public key of `privkey`, encoded compressed. -/
def secp256k1Entry (c : Crypto PrivateKey) (privkey : PrivateKey) : Entry :=
  ⟨secp256k1Key, .str (c.compressPubkey privkey)⟩

/-- `SignV4`: sets the scheme and the public key on a copy of the record, signs it and
returns the signed copy; on an error the record is left as it is. -/
def SignV4 (c : Crypto PrivateKey) (r : Record) (privkey : PrivateKey) :
    Option (Except Error Record) :=
  let cpy := (r.Set idEntry).Set (secp256k1Entry c privkey)
  match c.sign (c.keccak256 (encodeListPayload cpy.elements)) privkey with
  | none => some (.error .sign)
  -- remove v
  | some sig => cpy.SetSig c IDv4 sig.dropLast

/-! ## The pairs stay sorted -/

/-- The keys of the pairs are strictly increasing. -/
def Sorted (pairs : List Pair) : Prop :=
  pairs.Pairwise fun p q => p.k < q.k

instance (pairs : List Pair) : Decidable (Sorted pairs) :=
  inferInstanceAs (Decidable (pairs.Pairwise fun p q => p.k < q.k))

/-- The value under `key`. -/
def lookup (pairs : List Pair) (key : List UInt8) : Option (List UInt8) :=
  (pairs.find? fun p => decide (p.k = key)).map Pair.v

theorem modify_append_length {α : Type} (pre post : List α) (a : α) (f : α → α) :
    (pre ++ a :: post).modify pre.length f = pre ++ f a :: post := by
  induction pre with
  | nil => simp
  | cons b pre ih => simp [ih]

theorem insertIdx_append_length {α : Type} (pre post : List α) (x : α) :
    (pre ++ post).insertIdx pre.length x = pre ++ x :: post := by
  induction pre with
  | nil => simp [List.insertIdx_zero]
  | cons b pre ih => simp [List.insertIdx_succ_cons, ih]

/-- No pair below `key` holds it. -/
theorem find?_below {pre : List Pair} {key : List UInt8} (hpre : ∀ p ∈ pre, p.k < key) :
    pre.find? (fun p => decide (p.k = key)) = none :=
  List.find?_eq_none.mpr fun p hp h => by
    have := hpre p hp
    rw [of_decide_eq_true h] at this
    exact List.lt_irrefl _ this

section Split

variable {pre post : List Pair} {key : List UInt8}

/-- The search of `key` stops at the first pair that is not below it. -/
theorem position_split (hs : Sorted (pre ++ post)) (hpre : ∀ p ∈ pre, p.k < key)
    (hpost : ∀ p ∈ post.head?, ¬ p.k < key) : position (pre ++ post) key = pre.length := by
  refine Search.search_eq ?_ ⟨by simp, fun k hk => ?_, fun hk => ?_⟩
  · -- the predicate is monotone since the keys increase
    intro a b hab hb ha
    have ha' : a < (pre ++ post).length := by omega
    simp only [atOrAfter, List.getElem?_eq_getElem ha', List.getElem?_eq_getElem hb,
      Bool.not_eq_eq_eq_not, Bool.not_true, decide_eq_false_iff_not] at ha ⊢
    rcases Nat.lt_or_eq_of_le hab with hlt | rfl
    · exact fun hbk => ha (List.lt_trans (List.pairwise_iff_getElem.mp hs a b ha' hb hlt) hbk)
    · exact ha
  · rw [atOrAfter, List.getElem?_append_left hk, List.getElem?_eq_getElem hk]
    simpa using hpre _ (List.getElem_mem hk)
  · obtain ⟨q, post', rfl⟩ : ∃ q post', post = q :: post' := by
      cases post with
      | nil => simp at hk
      | cons q post' => exact ⟨q, post', rfl⟩
    rw [atOrAfter, List.getElem?_append_right (le_refl _), Nat.sub_self]
    simpa using hpost q (by simp)

/-- The pairs past the first that is not below `key`, or past `key` itself, are above
`key`. -/
theorem above_split (hs : Sorted (pre ++ post)) (hpost : ∀ p ∈ post.head?, ¬ p.k < key) :
    ∀ b ∈ (if post.head?.map Pair.k = some key then post.tail else post), key < b.k := by
  have hpost' : Sorted post := (List.pairwise_append.mp hs).2.1
  cases post with
  | nil => simp
  | cons q post' =>
    have hq : ¬ q.k < key := hpost q (by simp)
    have hrest : ∀ b ∈ post', q.k < b.k := (List.pairwise_cons.mp hpost').1
    -- `key ≤ q.k`, so everything above `q` is above `key`
    have hle : key = q.k ∨ key < q.k := by
      by_cases h1 : key < q.k
      · exact Or.inr h1
      · exact Or.inl (Std.Trichotomous.trichotomous (r := fun a b : List UInt8 => a < b)
          key q.k h1 hq)
    intro b hb
    split at hb
    · exact hle.elim (fun h => h ▸ hrest b hb) (fun h => List.lt_trans h (hrest b hb))
    · next hne =>
      have hkq : key < q.k := hle.resolve_left fun h => hne (by simp [h])
      rcases List.mem_cons.mp hb with rfl | hb
      · exact hkq
      · exact List.lt_trans hkq (hrest b hb)

end Split

/-- Any pairs split at `key` into the pairs below it and the rest. -/
theorem split_key (pairs : List Pair) (key : List UInt8) :
    ∃ pre post, pairs = pre ++ post ∧ (∀ p ∈ pre, p.k < key) ∧
      ∀ p ∈ post.head?, ¬ p.k < key := by
  refine ⟨pairs.takeWhile (fun p => decide (p.k < key)), pairs.dropWhile (fun p => decide (p.k < key)),
    List.takeWhile_append_dropWhile.symm, fun p hp => ?_, fun p hp => ?_⟩
  · simpa using List.mem_takeWhile_imp hp
  · have := List.head?_dropWhile_not (fun p => decide (p.k < key)) pairs
    rw [Option.mem_def] at hp
    rw [hp] at this
    simpa using this

/-- **`Load` reads the value under the key** of sorted pairs. -/
theorem Load_eq {α : Type} {r : Record} (hs : Sorted r.pairs) (key : List UInt8)
    (dec : List UInt8 → Except StreamError α) :
    r.Load key dec =
      match lookup r.pairs key with
      | some v => (dec v).mapError fun e => .keyError key (.rlp e)
      | none => .error (.keyError key .errNotFound) := by
  obtain ⟨pre, post, hsplit, hpre, hpost⟩ := split_key r.pairs key
  rw [hsplit] at hs
  have hpos := position_split hs hpre hpost
  unfold Load lookup
  rw [hsplit, hpos, List.getElem?_append_right (le_refl _), Nat.sub_self, List.find?_append,
    find?_below hpre, Option.none_or]
  cases post with
  | nil => simp
  | cons q post' =>
    simp only [List.getElem?_cons_zero, List.find?_cons]
    by_cases hq : q.k = key
    · simp only [hq, decide_true, if_true, Option.map_some]
      cases dec q.v <;> rfl
    · -- past `q` every key is above `key`
      have habove := above_split hs hpost
      simp only [List.head?_cons, Option.map_some, Option.some.injEq, hq, if_false] at habove
      have hnone : post'.find? (fun p => decide (p.k = key)) = none :=
        List.find?_eq_none.mpr fun b hb h => by
          have := habove b (List.mem_cons_of_mem q hb)
          rw [of_decide_eq_true h] at this
          exact List.lt_irrefl _ this
      simp [hq, hnone]

section SetSplit

variable {r : Record} {e : Entry} {pre post : List Pair}

/-- What `Set` makes of sorted pairs: the new pair between those below its key and those
above it. -/
theorem Set_pairs (hsplit : r.pairs = pre ++ post) (hs : Sorted r.pairs)
    (hpre : ∀ p ∈ pre, p.k < e.key) (hpost : ∀ p ∈ post.head?, ¬ p.k < e.key) :
    (r.Set e).pairs = pre ++ ⟨e.key, e.value.encode⟩ ::
      (if post.head?.map Pair.k = some e.key then post.tail else post) := by
  rw [hsplit] at hs
  have hpos := position_split hs hpre hpost
  simp only [Set, invalidate, hsplit, hpos, List.getElem?_append_right (le_refl _), Nat.sub_self]
  cases post with
  | nil =>
    -- past the end: appended
    simp
  | cons q post' =>
    simp only [List.getElem?_cons_zero, Option.map_some, List.head?_cons, List.tail_cons]
    by_cases hq : q.k = e.key
    · -- the key is present: its value replaced
      rw [modify_append_length]
      cases q
      simp_all
    · -- inserted before the first pair above the key
      simp [hq, insertIdx_append_length]

/-- What follows the new pair is a sublist of what followed the key. -/
theorem sublist_after :
    List.Sublist (if post.head?.map Pair.k = some e.key then post.tail else post) post := by
  split
  · exact List.tail_sublist _
  · exact List.Sublist.refl _

end SetSplit

/-- **`Set` keeps the pairs sorted.** -/
theorem Set_sorted {r : Record} (hs : Sorted r.pairs) (e : Entry) : Sorted (r.Set e).pairs := by
  obtain ⟨pre, post, hsplit, hpre, hpost⟩ := split_key r.pairs e.key
  have hs' := hs
  rw [hsplit] at hs'
  have habove := above_split hs' hpost
  obtain ⟨hpreS, hpostS, hcross⟩ := List.pairwise_append.mp hs'
  rw [Set_pairs hsplit hs hpre hpost, Sorted, List.pairwise_append, List.pairwise_cons]
  refine ⟨hpreS, ⟨habove, hpostS.sublist sublist_after⟩, fun a ha b hb => ?_⟩
  rcases List.mem_cons.mp hb with rfl | hb
  · exact hpre a ha
  · exact hcross a ha b (sublist_after.subset hb)

/-- **`Set` updates the value under its key and leaves the other keys.** -/
theorem lookup_Set {r : Record} (hs : Sorted r.pairs) (e : Entry) (key : List UInt8) :
    lookup (r.Set e).pairs key =
      if key = e.key then some e.value.encode else lookup r.pairs key := by
  obtain ⟨pre, post, hsplit, hpre, hpost⟩ := split_key r.pairs e.key
  unfold lookup
  rw [Set_pairs hsplit hs hpre hpost, hsplit, List.find?_append, List.find?_append,
    List.find?_cons]
  by_cases hk : key = e.key
  · subst hk
    simp [find?_below hpre]
  · rw [decide_eq_false (Ne.symm hk), if_neg hk]
    -- the pair replaced, if any, held the key of the entry
    suffices h : (if post.head?.map Pair.k = some e.key then post.tail else post).find?
        (fun p => decide (p.k = key)) = post.find? (fun p => decide (p.k = key)) by
      simp only [h]
    split
    · next hq =>
      cases post with
      | nil => simp at hq
      | cons q post' =>
        simp only [List.head?_cons, Option.map_some, Option.some.injEq] at hq
        have : decide (q.k = key) = false := by simp [hq, Ne.symm hk]
        simp [this]
    · rfl

/-- **`Load` after `Set`.** -/
theorem Load_Set {α : Type} {r : Record} (hs : Sorted r.pairs) (e : Entry) (key : List UInt8)
    (dec : List UInt8 → Except StreamError α) :
    (r.Set e).Load key dec =
      if key = e.key then (dec e.value.encode).mapError fun err => .keyError key (.rlp err)
      else r.Load key dec := by
  rw [Load_eq (Set_sorted hs e), lookup_Set hs, Load_eq hs]
  by_cases hk : key = e.key
  · simp only [hk, if_true]
  · simp only [hk, if_false]

/-! ## The sequence number -/

/-- **`Set` increments the sequence number only on a record that is not signed**, and
leaves the record unsigned. -/
theorem Set_seq (r : Record) (e : Entry) :
    (r.Set e).seq = if r.Signed then r.seq else r.seq + 1 := by
  cases h : r.signature <;> simp [Set, invalidate, Signed, h]

theorem Signed_Set (r : Record) (e : Entry) : (r.Set e).Signed = false := by
  simp [Set, invalidate, Signed]

/-- A signature `SetSig` accepts is stored with the encoding; the sequence number and the
pairs stay. -/
theorem SetSig_ok {PrivateKey : Type} {c : Crypto PrivateKey} {r r' : Record}
    {idscheme sig : List UInt8} (h : r.SetSig c idscheme sig = some (.ok r')) :
    r.encode sig = .ok r'.raw ∧ r' = { r with signature := some sig, raw := r'.raw } := by
  unfold SetSig at h
  split at h
  · cases h
  · next id s _ =>
    split at h
    · cases h
    · simp only [Option.some.injEq] at h
      cases hv : s.Verify c r sig with
      | error err => simp [hv, bind, Except.bind] at h
      | ok u =>
        cases he : r.encode sig with
        | error err => simp [hv, he, bind, Except.bind] at h
        | ok raw =>
          simp only [hv, he, bind, Except.bind, pure, Except.pure, Except.ok.injEq] at h
          subst h
          exact ⟨rfl, rfl⟩

/-- **A record modified and signed again keeps its sequence number.**  A `Set` on a signed
record does not increment the number, so when a signature for the new pairs is then set,
two signed versions with different pairs carry the same number. -/
theorem SetSig_after_Set_seq {PrivateKey : Type} (c : Crypto PrivateKey) {r r' : Record}
    (hr : r.Signed = true) (hs : Sorted r.pairs) (e : Entry)
    (he : lookup r.pairs e.key ≠ some e.value.encode) (sig : List UInt8)
    (h : (r.Set e).SetSig c IDv4 sig = some (.ok r')) :
    r'.Signed = true ∧ r'.seq = r.seq ∧ r'.pairs ≠ r.pairs := by
  obtain ⟨-, hr'⟩ := SetSig_ok h
  have hseq : (r.Set e).seq = r.seq := by rw [Set_seq, hr, if_pos rfl]
  refine ⟨by rw [hr']; rfl, by rw [hr', ← hseq], fun hp => he ?_⟩
  have hl := lookup_Set hs e e.key
  rw [if_pos rfl] at hl
  rw [← hl, ← hp, hr']

/-- A signed record with an identity and a public key, given a key `"z"` and signed
again: the signature and the encoding are checked by a verifier that accepts any
signature. -/
theorem SetSig_after_Set_seq_z :
    let c : Crypto Unit := ⟨fun b => b, fun _ _ => none, fun _ _ _ => true, fun _ => []⟩
    let r : Record := ⟨1, some [1], [],
      [⟨idKey, encodeString IDv4⟩, ⟨secp256k1Key, encodeString (List.replicate 33 2)⟩]⟩
    let e : Entry := ⟨[0x7a], .str [7]⟩
    ∃ r', (r.Set e).SetSig c IDv4 [1] = some (.ok r') ∧
      r'.Signed = true ∧ r'.seq = r.seq ∧ r'.pairs ≠ r.pairs := by
  intro c r e
  have hok : ((r.Set e).SetSig c IDv4 [1]).map Except.toBool = some true := by decide
  cases h : (r.Set e).SetSig c IDv4 [1] with
  | none => simp [h] at hok
  | some res =>
    cases res with
    | error err => simp [h, Except.toBool] at hok
    | ok r' => exact ⟨r', rfl, SetSig_after_Set_seq c (by decide) (by decide) e (by decide) [1] h⟩

end Record

end Atlantis.Enr
