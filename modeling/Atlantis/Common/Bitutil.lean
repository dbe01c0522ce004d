import Atlantis.Lib.Bits

/-!
# Sparse bitset compression

`common/bitutil/compress.go`.  A byte string with many zero bytes is written as the bitset
of its non-zero bytes, itself compressed the same way, followed by the non-zero bytes.  The
bitset has one bit a byte, most significant bit first.  An all-zero string compresses to
nothing, and a single byte to itself.  `CompressBytes` keeps the input when this does not
shrink it.  Decompression needs the length of the output.  It decodes the bitset
recursively, for the target `(target + 7) / 8`, then places the bytes, and it refuses zero
content bytes, bits beyond the target and unread input.

Both recursions are on the length (the bitset of `n ≥ 2` bytes has `(n + 7) / 8 < n` bytes),
so they end.  Abstractly a bitset and its bytes spread over a string by `scatter`, which
`gather` undoes.  Decoding the encoding of a string gives it back with any input after it
(`bitsetDecodePartialBytes_encode`).  What decoding accepts is the encoding of what it
returns (`encode_of_bitsetDecodePartialBytes`).

A target is a `Nat`: the source panics in `make` for a negative one.
-/

namespace Atlantis.Bitutil

/-- The errors of decompression. -/
inductive CompressError where
  | errMissingData
  | errUnreferencedData
  | errExceededTarget
  | errZeroContent
  deriving DecidableEq, Repr

/-- Bit `i` of a bitset: `bitset[i/8] & (1 << (7 - i%8)) != 0`, and clear past its end. -/
def bitAt (bitset : List UInt8) (i : Nat) : Bool :=
  bitset.getD (i / 8) 0 &&& (1 <<< UInt8.ofNat (7 - i % 8)) != 0

/-- One byte `b` at index `i` of the loop of `bitsetEncodeBytes`. -/
def encodeStep (acc : List UInt8 × List UInt8) (bi : UInt8 × Nat) : List UInt8 × List UInt8 :=
  if bi.1 ≠ 0 then
    (acc.1.modify (bi.2 / 8) (· ||| 1 <<< UInt8.ofNat (7 - bi.2 % 8)), acc.2 ++ [bi.1])
  else acc

/-- The loop of `bitsetEncodeBytes`: the bitset of the non-zero bytes, then those bytes. -/
def encodeLoop (data : List UInt8) : List UInt8 × List UInt8 :=
  data.zipIdx.foldl encodeStep (List.replicate ((data.length + 7) / 8) 0, [])

theorem length_foldl_encodeStep (l : List (UInt8 × Nat)) (acc : List UInt8 × List UInt8) :
    (l.foldl encodeStep acc).1.length = acc.1.length := by
  induction l generalizing acc with
  | nil => rfl
  | cons bi l ih =>
    rw [List.foldl_cons, ih]
    unfold encodeStep
    split_ifs <;> simp

theorem length_encodeLoop_fst (data : List UInt8) :
    (encodeLoop data).1.length = (data.length + 7) / 8 := by
  rw [encodeLoop, length_foldl_encodeStep, List.length_replicate]

/-- `bitsetEncodeBytes`: nothing for no bytes, a single byte as itself unless it is zero, and
otherwise the encoded bitset followed by the non-zero bytes, or nothing if there are none. -/
def bitsetEncodeBytes (data : List UInt8) : List UInt8 :=
  if data.length = 0 then []
  else if data.length = 1 then (if data.getD 0 0 = 0 then [] else data)
  else if (encodeLoop data).2.length = 0 then []
  else bitsetEncodeBytes (encodeLoop data).1 ++ (encodeLoop data).2
termination_by data.length
decreasing_by
  rw [length_encodeLoop_fst]
  omega

/-- `CompressBytes`: the encoding when it is shorter, else the input. -/
def CompressBytes (data : List UInt8) : List UInt8 :=
  if (bitsetEncodeBytes data).length < data.length then bitsetEncodeBytes data else data

/-- The loop of `bitsetDecodePartialBytes` over the bits `i` of the bitset, `fuel` of them
left: each set bit takes the byte at `ptr`, which must exist, land inside the target and not
be zero. -/
def decodeLoop (data bitset : List UInt8) :
    Nat → Nat → Nat → List UInt8 → Except CompressError (List UInt8 × Nat)
  | 0, _, ptr, decomp => .ok (decomp, ptr)
  | fuel + 1, i, ptr, decomp =>
    if bitAt bitset i then
      if ptr ≥ data.length then .error .errMissingData
      else if i ≥ decomp.length then .error .errExceededTarget
      else if data.getD ptr 0 = 0 then .error .errZeroContent
      else decodeLoop data bitset fuel (i + 1) (ptr + 1) (decomp.set i (data.getD ptr 0))
    else decodeLoop data bitset fuel (i + 1) ptr decomp

/-- `bitsetDecodePartialBytes`: the output and how much of the input it used. -/
def bitsetDecodePartialBytes (data : List UInt8) (target : Nat) :
    Except CompressError (List UInt8 × Nat) :=
  if target = 0 then .ok ([], 0)
  else if data.length = 0 then .ok (List.replicate target 0, 0)
  else if target = 1 then .ok ([data.getD 0 0], if data.getD 0 0 ≠ 0 then 1 else 0)
  else
    match bitsetDecodePartialBytes data ((target + 7) / 8) with
    | .error e => .error e
    | .ok (nonZeroBitset, ptr) =>
      decodeLoop data nonZeroBitset (8 * nonZeroBitset.length) 0 ptr (List.replicate target 0)
termination_by target
decreasing_by omega

/-- `bitsetDecodeBytes`: a partial decoding that used all the input. -/
def bitsetDecodeBytes (data : List UInt8) (target : Nat) : Except CompressError (List UInt8) :=
  match bitsetDecodePartialBytes data target with
  | .error e => .error e
  | .ok (out, size) => if size ≠ data.length then .error .errUnreferencedData else .ok out

/-- `DecompressBytes`: input of the target's length was not compressed. -/
def DecompressBytes (data : List UInt8) (target : Nat) : Except CompressError (List UInt8) :=
  if data.length > target then .error .errExceededTarget
  else if data.length = target then .ok data
  else bitsetDecodeBytes data target

/-! ## Bits of a bitset -/

section Bits

theorem bitAt_eq_testBit (l : List UInt8) (i : Nat) :
    bitAt l i = (l.getD (i / 8) 0).toNat.testBit (7 - i % 8) := by
  have h := UInt8.and_one_shiftLeft_ne_zero_iff (l.getD (i / 8) 0) (k := 7 - i % 8) (by omega)
  rw [Bool.eq_iff_iff, bitAt, bne_iff_ne, h]

theorem bitAt_of_length_le {l : List UInt8} {i : Nat} (h : 8 * l.length ≤ i) :
    bitAt l i = false := by
  rw [bitAt_eq_testBit, List.getD_eq_default _ _ (by omega)]
  simp

@[simp] theorem bitAt_replicate_zero (n i : Nat) : bitAt (List.replicate n 0) i = false := by
  rw [bitAt_eq_testBit, List.getD_eq_getElem?_getD, List.getElem?_replicate]
  split_ifs <;> simp

/-- Setting bit `i`, inside the bitset, sets it and no other. -/
theorem bitAt_modify {l : List UInt8} {i : Nat} (hi : i / 8 < l.length) (j : Nat) :
    bitAt (l.modify (i / 8) (· ||| 1 <<< UInt8.ofNat (7 - i % 8))) j =
      (bitAt l j || decide (j = i)) := by
  rw [bitAt_eq_testBit, bitAt_eq_testBit, List.getD_eq_getElem?_getD, List.getElem?_modify,
    List.getD_eq_getElem?_getD]
  by_cases hj : i / 8 = j / 8
  · rw [List.getElem?_eq_getElem (by omega)]
    simp only [Option.map_eq_map, Option.map_some, hj, if_true, Option.getD_some]
    rw [UInt8.testBit_or_one_shiftLeft _ (by omega)]
    congr 1
    exact decide_eq_decide.mpr (by omega)
  · cases l[j / 8]? with
    | none => simp [show j ≠ i by omega]
    | some x => simp [hj, show j ≠ i by omega]

/-- Two bitsets of one length with the same bits are equal. -/
theorem eq_of_bitAt {l₁ l₂ : List UInt8} (hlen : l₁.length = l₂.length)
    (h : ∀ j, bitAt l₁ j = bitAt l₂ j) : l₁ = l₂ := by
  refine List.ext_getElem hlen fun k hk₁ hk₂ => UInt8.toNat_inj.mp (Nat.eq_of_testBit_eq ?_)
  intro t
  by_cases ht : t < 8
  · have hb := h (8 * k + (7 - t))
    rw [bitAt_eq_testBit, bitAt_eq_testBit, show (8 * k + (7 - t)) / 8 = k by omega,
      show 7 - (8 * k + (7 - t)) % 8 = t by omega, List.getD_eq_getElem _ _ hk₁,
      List.getD_eq_getElem _ _ hk₂] at hb
    exact hb
  · rw [UInt8.testBit_toNat_of_le _ (by omega), UInt8.testBit_toNat_of_le _ (by omega)]

end Bits

/-! ## The encoder -/

section Encoder

/-- The loop of `bitsetEncodeBytes` over the bytes `l`, into a bitset with room for them:
it sets the bits of the non-zero bytes and collects them. -/
theorem foldl_encodeStep (B nz : List UInt8) :
    ∀ l : List UInt8, l.length ≤ 8 * B.length →
      (l.zipIdx.foldl encodeStep (B, nz)).2 = nz ++ l.filter (· != 0) ∧
      ∀ j, bitAt (l.zipIdx.foldl encodeStep (B, nz)).1 j = (bitAt B j || l.getD j 0 != 0) := by
  intro l
  induction l using List.reverseRecOn with
  | nil => simp
  | append_singleton l x ih =>
    intro hl
    rw [List.length_append, List.length_singleton] at hl
    obtain ⟨ih₂, ih₁⟩ := ih (by omega)
    have hlen : (l.zipIdx.foldl encodeStep (B, nz)).1.length = B.length :=
      length_foldl_encodeStep _ _
    rw [List.zipIdx_append, List.foldl_append, List.zipIdx_singleton, List.foldl_cons,
      List.foldl_nil, Nat.zero_add]
    -- the new byte sits at index `l.length`
    have hget : ∀ j, (l ++ [x]).getD j 0 =
        if j < l.length then l.getD j 0 else if j = l.length then x else 0 := by
      intro j
      split_ifs with h₁ h₂
      · exact List.getD_append _ _ _ _ h₁
      · subst h₂
        simp
      · obtain ⟨k, hk⟩ : ∃ k, j - l.length = k + 1 := ⟨j - l.length - 1, by omega⟩
        rw [List.getD_append_right _ _ _ _ (by omega), hk]
        simp
    generalize l.zipIdx.foldl encodeStep (B, nz) = S at ih₁ ih₂ hlen
    by_cases hx : x = 0
    · subst hx
      have hstep : encodeStep S (0, l.length) = S := if_neg (by simp)
      refine ⟨by simp [hstep, ih₂], fun j => ?_⟩
      rw [hstep, ih₁, hget]
      split_ifs with h₁ h₂
      · rfl
      · subst h₂
        simp
      · rw [List.getD_eq_default _ _ (by omega)]
    · have hstep : encodeStep S (x, l.length) =
          (S.1.modify (l.length / 8) (· ||| 1 <<< UInt8.ofNat (7 - l.length % 8)), S.2 ++ [x]) :=
        if_pos hx
      refine ⟨by simp [hstep, ih₂, hx], fun j => ?_⟩
      rw [hstep, bitAt_modify (by omega), ih₁, hget]
      by_cases hj : j < l.length
      · simp [hj, show j ≠ l.length by omega]
      · rw [List.getD_eq_default _ _ (by omega)]
        by_cases hj' : j = l.length <;> simp [hj, hj', hx]

/-- `encodeLoop` on a whole string: its bitset has bit `j` set exactly when byte `j` is not
zero, and the bytes it collects are the non-zero ones. -/
theorem encodeLoop_spec (data : List UInt8) :
    (encodeLoop data).1.length = (data.length + 7) / 8 ∧
    (encodeLoop data).2 = data.filter (· != 0) ∧
    ∀ j, bitAt (encodeLoop data).1 j = (data.getD j 0 != 0) := by
  obtain ⟨h₂, h₁⟩ := foldl_encodeStep (List.replicate ((data.length + 7) / 8) 0) [] data
    (by simp; omega)
  exact ⟨length_encodeLoop_fst data, by simpa [encodeLoop] using h₂,
    fun j => by simpa [encodeLoop] using h₁ j⟩

/-- `bitsetEncodeBytes` of two bytes or more. -/
theorem bitsetEncodeBytes_of_two_le {data : List UInt8} (h : 2 ≤ data.length) :
    bitsetEncodeBytes data = if data.filter (· != 0) = [] then []
      else bitsetEncodeBytes (encodeLoop data).1 ++ data.filter (· != 0) := by
  rw [bitsetEncodeBytes, if_neg (by omega), if_neg (by omega), (encodeLoop_spec data).2.1]
  simp only [List.length_eq_zero_iff]

/-- A string of zero bytes encodes to nothing. -/
theorem bitsetEncodeBytes_of_forall_zero {data : List UInt8} (h : ∀ x ∈ data, x = 0) :
    bitsetEncodeBytes data = [] := by
  have hnz : data.filter (· != 0) = [] := List.filter_eq_nil_iff.mpr fun x hx => by simp [h x hx]
  match data, h with
  | [], _ => simp [bitsetEncodeBytes]
  | [b], h => simp [bitsetEncodeBytes, h b List.mem_cons_self]
  | _ :: _ :: _, _ => rw [bitsetEncodeBytes_of_two_le (by simp), if_pos hnz]

end Encoder

/-! ## Spreading bytes over a bitset -/

section Scatter

/-- The bytes a bitset and its content bytes stand for: each set bit takes the next content
byte, which must not be zero, and each clear bit is a zero byte; the unread content comes
back too. -/
def scatter : List Bool → List UInt8 → Option (List UInt8 × List UInt8)
  | [], src => some ([], src)
  | false :: bits, src => (scatter bits src).map fun r => (0 :: r.1, r.2)
  | true :: _, [] => none
  | true :: bits, x :: src => if x = 0 then none else (scatter bits src).map fun r => (x :: r.1, r.2)

/-- `scatter` undoes the split of a string into its non-zero pattern and its non-zero bytes. -/
theorem scatter_gather (rest : List UInt8) :
    ∀ d : List UInt8, scatter (d.map (· != 0)) (d.filter (· != 0) ++ rest) = some (d, rest)
  | [] => rfl
  | x :: d => by
    by_cases hx : x = 0
    · subst hx
      simp [scatter, scatter_gather rest d]
    · have hb : (x != 0) = true := bne_iff_ne.mpr hx
      rw [List.map_cons, List.filter_cons_of_pos (p := fun y => y != 0) hb, List.cons_append, hb,
        scatter, if_neg hx,
        scatter_gather rest d]
      rfl

/-- What `scatter` returns has the bitset as its non-zero pattern, and the content as its
non-zero bytes. -/
theorem gather_of_scatter :
    ∀ {bits : List Bool} {src d rest : List UInt8}, scatter bits src = some (d, rest) →
      d.map (· != 0) = bits ∧ src = d.filter (· != 0) ++ rest
  | [], src, d, rest, h => by
    simp only [scatter, Option.some.injEq, Prod.mk.injEq] at h
    obtain ⟨rfl, rfl⟩ := h
    simp
  | false :: bits, src, d, rest, h => by
    simp only [scatter, Option.map_eq_some_iff] at h
    obtain ⟨⟨d', rest'⟩, hs, hr⟩ := h
    simp only [Prod.mk.injEq] at hr
    obtain ⟨rfl, rfl⟩ := hr
    obtain ⟨h₁, h₂⟩ := gather_of_scatter hs
    simp [h₁, h₂]
  | true :: bits, [], d, rest, h => by simp [scatter] at h
  | true :: bits, x :: src, d, rest, h => by
    simp only [scatter] at h
    split_ifs at h with hx
    simp only [Option.map_eq_some_iff] at h
    obtain ⟨⟨d', rest'⟩, hs, hr⟩ := h
    simp only [Prod.mk.injEq] at hr
    obtain ⟨rfl, rfl⟩ := hr
    obtain ⟨h₁, h₂⟩ := gather_of_scatter hs
    simp [h₁, h₂, hx]

end Scatter

/-! ## The decoder -/

section Decoder

/-- The placed byte `l[i]` moves from the spread to the kept prefix. -/
theorem take_append_take_cons {α : Type} {l : List α} {i : Nat} (ys : List α)
    (h : i < l.length) :
    l.take i ++ (l[i] :: ys).take (l.length - i) = l.take (i + 1) ++ ys.take (l.length - (i + 1)) := by
  have ht : l.take (i + 1) = l.take i ++ [l[i]] := by
    rw [List.take_add_one, List.getElem?_eq_getElem h]
    rfl
  rw [show l.length - i = l.length - (i + 1) + 1 by omega, List.take_succ_cons, ht,
    List.append_assoc, List.singleton_append]

/-- **The loop of the decoder** places the content bytes as `scatter` spreads them over the
bits it reads, into a target that holds zeros from the bit it starts at.  It succeeds
exactly when the spread succeeds and every set bit lies inside the target. -/
theorem decodeLoop_eq_ok (data B : List UInt8) :
    ∀ (fuel i ptr : Nat) (decomp out : List UInt8) (p : Nat),
      decomp.length ≤ i + fuel → (∀ j, i ≤ j → decomp.getD j 0 = 0) → ptr ≤ data.length →
      (decodeLoop data B fuel i ptr decomp = .ok (out, p) ↔
        ∃ d rest, scatter ((List.range' i fuel).map (bitAt B)) (data.drop ptr) = some (d, rest) ∧
          (∀ j, i ≤ j → j < i + fuel → bitAt B j → j < decomp.length) ∧
          out = decomp.take i ++ d.take (decomp.length - i) ∧ p = data.length - rest.length)
  | 0, i, ptr, decomp, out, p, hlen, _, hptr => by
    have htake : decomp.take i = decomp := List.take_of_length_le (by omega)
    simp only [decodeLoop, Except.ok.injEq, Prod.mk.injEq, List.range'_zero, List.map_nil,
      scatter, Option.some.injEq, htake]
    constructor
    · rintro ⟨rfl, rfl⟩
      exact ⟨[], _, ⟨rfl, rfl⟩, fun j h₁ h₂ => by omega, by simp, by simp; omega⟩
    · rintro ⟨d, rest, ⟨rfl, rfl⟩, -, rfl, rfl⟩
      exact ⟨by simp, by simp; omega⟩
  | fuel + 1, i, ptr, decomp, out, p, hlen, hzero, hptr => by
    rw [List.range'_succ, List.map_cons]
    have hzero' : ∀ j, i + 1 ≤ j → decomp.getD j 0 = 0 := fun j hj => hzero j (by omega)
    -- the window of bits splits into bit `i` and the window from `i + 1`
    have hwin : (∀ j, i ≤ j → j < i + (fuel + 1) → bitAt B j → j < decomp.length) ↔
        (bitAt B i → i < decomp.length) ∧
          ∀ j, i + 1 ≤ j → j < i + 1 + fuel → bitAt B j → j < decomp.length :=
      ⟨fun h => ⟨h i le_rfl (by omega), fun j h₁ h₂ => h j (by omega) (by omega)⟩,
        fun h j h₁ h₂ => (Nat.eq_or_lt_of_le h₁).elim (fun e => e ▸ h.1)
          fun h₃ => h.2 j h₃ (by omega)⟩
    cases hb : bitAt B i with
    | false =>
      rw [decodeLoop, hb, if_neg (by simp),
        decodeLoop_eq_ok data B fuel (i + 1) ptr decomp out p (by omega) hzero' hptr, hwin]
      -- a clear bit is a zero byte, which the target already holds
      have hout : ∀ d : List UInt8, decomp.take i ++ (0 :: d).take (decomp.length - i) =
          decomp.take (i + 1) ++ d.take (decomp.length - (i + 1)) := by
        intro d
        by_cases hi : i < decomp.length
        · have h0 : decomp[i] = 0 := by rw [← List.getD_eq_getElem _ 0 hi]; exact hzero i le_rfl
          rw [← h0, take_append_take_cons d hi]
        · rw [show decomp.length - i = 0 by omega, show decomp.length - (i + 1) = 0 by omega,
            List.take_of_length_le (by omega : decomp.length ≤ i),
            List.take_of_length_le (by omega : decomp.length ≤ i + 1)]
          simp
      constructor
      · rintro ⟨d, rest, hs, hw, rfl, rfl⟩
        refine ⟨0 :: d, rest, ?_, ⟨by simp [hb], hw⟩, (hout d).symm, rfl⟩
        rw [scatter, hs]
        rfl
      · rintro ⟨d, rest, hs, ⟨-, hw⟩, rfl, rfl⟩
        simp only [scatter, Option.map_eq_some_iff] at hs
        obtain ⟨⟨d', rest'⟩, hs', hr⟩ := hs
        simp only [Prod.mk.injEq] at hr
        obtain ⟨rfl, rfl⟩ := hr
        exact ⟨d', rest', hs', hw, hout d', rfl⟩
    | true =>
      rw [decodeLoop, hb, if_pos rfl, hwin]
      by_cases hp : ptr ≥ data.length
      · -- no content byte is left for the set bit
        rw [if_pos hp, List.drop_eq_nil_of_le hp]
        simp [scatter]
      by_cases hi : i ≥ decomp.length
      · rw [if_neg hp, if_pos hi]
        simp only [reduceCtorEq, false_iff, not_exists, not_and]
        intro _ _ _ hw
        have := hw.1 hb
        omega
      have hdrop : data.drop ptr = data.getD ptr 0 :: data.drop (ptr + 1) := by
        rw [List.drop_eq_getElem_cons (by omega), List.getD_eq_getElem _ _ (by omega)]
      by_cases hx : data.getD ptr 0 = 0
      · rw [if_neg hp, if_neg hi, if_pos hx, hdrop, hx]
        simp [scatter]
      rw [if_neg hp, if_neg hi, if_neg hx, hdrop]
      -- the set bit takes the content byte at `ptr`
      have hset : ∀ j, i + 1 ≤ j → (decomp.set i (data.getD ptr 0)).getD j 0 = 0 := by
        intro j hj
        rw [List.getD_eq_getElem?_getD, List.getElem?_set_ne (by omega), ← List.getD_eq_getElem?_getD]
        exact hzero' j hj
      have hlen' : (decomp.set i (data.getD ptr 0)).length = decomp.length := List.length_set
      have hout : ∀ d : List UInt8, decomp.take i ++ (data.getD ptr 0 :: d).take (decomp.length - i) =
          (decomp.set i (data.getD ptr 0)).take (i + 1) ++ d.take (decomp.length - (i + 1)) := by
        intro d
        have hi' : i < (decomp.set i (data.getD ptr 0)).length := by rw [hlen']; omega
        have h := take_append_take_cons d hi'
        rw [List.getElem_set_self, List.take_set_of_le le_rfl, hlen'] at h
        exact h
      rw [decodeLoop_eq_ok data B fuel (i + 1) (ptr + 1) _ out p (by rw [hlen']; omega) hset
        (by omega), hlen']
      constructor
      · rintro ⟨d, rest, hs, hw, rfl, rfl⟩
        refine ⟨data.getD ptr 0 :: d, rest, ?_, ⟨fun _ => by omega, hw⟩, (hout d).symm, rfl⟩
        rw [scatter, if_neg hx, hs]
        rfl
      · rintro ⟨d, rest, hs, ⟨-, hw⟩, rfl, rfl⟩
        simp only [scatter, if_neg hx, Option.map_eq_some_iff] at hs
        obtain ⟨⟨d', rest'⟩, hs', hr⟩ := hs
        simp only [Prod.mk.injEq] at hr
        obtain ⟨rfl, rfl⟩ := hr
        exact ⟨d', rest', hs', hw, hout d', rfl⟩

/-- Decoding no input: zeros, none of the input used. -/
theorem bitsetDecodePartialBytes_nil (t : Nat) :
    bitsetDecodePartialBytes [] t = .ok (List.replicate t 0, 0) := by
  rw [bitsetDecodePartialBytes]
  by_cases ht : t = 0
  · simp [ht]
  · rw [if_neg ht, if_pos List.length_nil]

/-- A set bit lies in a non-zero byte. -/
theorem exists_ne_zero_of_bitAt {l : List UInt8} {j : Nat} (h : bitAt l j = true) :
    ∃ x ∈ l, x ≠ 0 := by
  by_cases hj : j / 8 < l.length
  · refine ⟨l[j / 8], List.getElem_mem hj, fun h0 => ?_⟩
    rw [bitAt, List.getD_eq_getElem _ _ hj, h0] at h
    simp at h
  · rw [bitAt_of_length_le (by omega)] at h
    cases h

/-- The whole width of the bitset of a string: its non-zero pattern, padded with zeros. -/
theorem map_bitAt_encodeLoop (data : List UInt8) :
    (List.range' 0 (8 * (encodeLoop data).1.length)).map (bitAt (encodeLoop data).1) =
      (data ++ List.replicate (8 * (encodeLoop data).1.length - data.length) 0).map (· != 0) := by
  have hlen := length_encodeLoop_fst data
  apply List.ext_getElem
  · simp only [List.length_map, List.length_range', List.length_append, List.length_replicate]
    omega
  · intro k h₁ h₂
    rw [List.getElem_map, List.getElem_map, List.getElem_range', (encodeLoop_spec data).2.2,
      Nat.zero_add, Nat.one_mul]
    by_cases hk : k < data.length
    · rw [List.getElem_append_left hk, List.getD_eq_getElem _ _ hk]
    · rw [List.getElem_append_right (by omega), List.getElem_replicate,
        List.getD_eq_default _ _ (by omega)]

/-- The prefix of the input that ends where the content bytes after `ptr` end. -/
theorem take_sub_length_of_drop {data nz rest : List UInt8} {ptr : Nat} (hptr : ptr ≤ data.length)
    (h : data.drop ptr = nz ++ rest) :
    data.take (data.length - rest.length) = data.take ptr ++ nz := by
  have hlen : data.length - rest.length = ptr + nz.length := by
    have := congrArg List.length h
    rw [List.length_drop, List.length_append] at this
    omega
  rw [hlen, List.take_add, h, List.take_left' rfl]

/-- **Decoding inverts encoding**, with any input after the encoding, as long as the decoder
cannot read that input as part of it: an all-zero string encodes to nothing, and the
decoder would then read what follows. -/
theorem bitsetDecodePartialBytes_encode (d rest : List UInt8)
    (h : (∃ x ∈ d, x ≠ 0) ∨ rest = []) :
    bitsetDecodePartialBytes (bitsetEncodeBytes d ++ rest) d.length =
      .ok (d, (bitsetEncodeBytes d).length) := by
  by_cases hz : ∀ x ∈ d, x = 0
  · have hr : rest = [] := h.resolve_left fun ⟨x, hx, hx0⟩ => hx0 (hz x hx)
    have hd : List.replicate d.length 0 = d := (List.eq_replicate_iff.mpr ⟨rfl, hz⟩).symm
    rw [hr, bitsetEncodeBytes_of_forall_zero hz, List.append_nil, bitsetDecodePartialBytes_nil, hd]
    rfl
  obtain ⟨x, hx, hx0⟩ : ∃ x ∈ d, x ≠ 0 := by
    push Not at hz
    exact hz
  by_cases h1 : d.length = 1
  · -- a single non-zero byte is its own encoding
    obtain ⟨y, rfl⟩ := List.length_eq_one_iff.mp h1
    have hy : y ≠ 0 := by
      rw [List.mem_singleton] at hx
      exact hx ▸ hx0
    rw [bitsetEncodeBytes, if_neg (by simp), if_pos List.length_singleton, if_neg (by simpa),
      bitsetDecodePartialBytes, if_neg (by simp), if_neg (by simp), if_pos List.length_singleton]
    simp [hy]
  have h2 : 2 ≤ d.length := by
    have := List.length_pos_of_mem hx
    omega
  obtain ⟨hBlen, -, hbits⟩ := encodeLoop_spec d
  have hnz : d.filter (· != 0) ≠ [] := fun he =>
    (List.filter_eq_nil_iff.mp he) x hx (bne_iff_ne.mpr hx0)
  -- the bitset has a set bit, at the index of `x`
  have hB : ∃ y ∈ (encodeLoop d).1, y ≠ 0 := by
    obtain ⟨j, hj, rfl⟩ := List.mem_iff_getElem.mp hx
    refine exists_ne_zero_of_bitAt (j := j) ?_
    rw [hbits, List.getD_eq_getElem _ _ hj]
    exact bne_iff_ne.mpr hx0
  have hrec := bitsetDecodePartialBytes_encode (encodeLoop d).1 (d.filter (· != 0) ++ rest)
    (Or.inl hB)
  rw [hBlen] at hrec
  have hnzlen := List.length_pos_iff.mpr hnz
  rw [bitsetEncodeBytes_of_two_le h2, if_neg hnz, List.append_assoc, bitsetDecodePartialBytes,
    if_neg (by omega), if_neg (by rw [List.length_append, List.length_append]; omega), if_neg h1,
    hrec]
  dsimp only
  -- the content bytes spread over the padded string
  refine (decodeLoop_eq_ok _ _ _ 0 _ _ d _ (by simp [hBlen]; omega) (fun j _ => by simp)
    (by simp)).mpr ⟨d ++ List.replicate (8 * (encodeLoop d).1.length - d.length) 0, rest, ?_,
      ?_, by simp, by simp only [List.length_append]; omega⟩
  · have hfilter : (d ++ List.replicate (8 * (encodeLoop d).1.length - d.length) 0).filter
        (· != 0) = d.filter (· != 0) := by simp
    rw [List.drop_left, map_bitAt_encodeLoop, ← hfilter]
    exact scatter_gather rest _
  · intro j _ _ hj
    rw [hbits] at hj
    rw [List.length_replicate]
    by_contra hlt
    rw [List.getD_eq_default _ _ (by omega)] at hj
    simp at hj
termination_by d.length
decreasing_by
  rw [length_encodeLoop_fst]
  omega

/-- **What decoding accepts is the encoding of what it returns**: the output has the
target's length, and the input it used encodes it. -/
theorem encode_of_bitsetDecodePartialBytes (data : List UInt8) (t : Nat) (out : List UInt8)
    (p : Nat) (h : bitsetDecodePartialBytes data t = .ok (out, p)) :
    out.length = t ∧ p ≤ data.length ∧ bitsetEncodeBytes out = data.take p := by
  rw [bitsetDecodePartialBytes] at h
  split_ifs at h with h0 hd h1 hy <;> try simp only [Except.ok.injEq, Prod.mk.injEq] at h
  · obtain ⟨rfl, rfl⟩ := h
    simp [h0, bitsetEncodeBytes]
  · obtain ⟨rfl, rfl⟩ := h
    exact ⟨by simp, by simp, by simp [bitsetEncodeBytes_of_forall_zero]⟩
  -- one byte: it is used exactly when it is not zero
  · obtain ⟨rfl, rfl⟩ := h
    have hne : data ≠ [] := fun he => hd (by simp [he])
    obtain ⟨y, ys, rfl⟩ := List.exists_cons_of_ne_nil hne
    simp only [List.getD_cons_zero] at hy ⊢
    simp [bitsetEncodeBytes, hy, h1]
  · obtain ⟨rfl, rfl⟩ := h
    have hne : data ≠ [] := fun he => hd (by simp [he])
    obtain ⟨y, ys, rfl⟩ := List.exists_cons_of_ne_nil hne
    simp only [List.getD_cons_zero, ne_eq, not_not] at hy ⊢
    simp [bitsetEncodeBytes, hy, h1]
  cases hrec : bitsetDecodePartialBytes data ((t + 7) / 8) with
  | error e =>
    rw [hrec] at h
    cases h
  | ok r =>
    obtain ⟨B, ptr⟩ := r
    rw [hrec] at h
    dsimp only at h
    obtain ⟨hBlen, hptr, hB⟩ := encode_of_bitsetDecodePartialBytes data ((t + 7) / 8) B ptr hrec
    rw [decodeLoop_eq_ok _ _ _ 0 _ _ out p (by simp; omega) (fun j _ => by simp) hptr] at h
    obtain ⟨d, rest, hs, hw, rfl, rfl⟩ := h
    obtain ⟨hmap, hsrc⟩ := gather_of_scatter hs
    have hdlen : d.length = 8 * B.length := by simpa using congrArg List.length hmap
    -- byte `j` of the spread string is non-zero exactly when bit `j` is set
    have hdbit : ∀ j, (d.getD j 0 != 0) = bitAt B j := by
      intro j
      by_cases hj : j < d.length
      · have := congrArg (·[j]?) hmap
        simp only [List.getElem?_map, List.getElem?_eq_getElem hj,
          List.getElem?_eq_getElem (show j < (List.range' 0 (8 * B.length)).length by simp; omega),
          Option.map_some, Option.some.injEq, List.getElem_range'] at this
        rw [List.getD_eq_getElem _ _ hj, this]
        simp
      · rw [List.getD_eq_default _ _ (by omega), bitAt_of_length_le (by omega)]
        rfl
    -- no bit is set at or past the target
    have hclear : ∀ j, t ≤ j → bitAt B j = false := by
      intro j hj
      by_cases hjB : j < 8 * B.length
      · by_contra hb
        have := hw j (Nat.zero_le _) (by omega) (by simpa using hb)
        simp at this
        omega
      · exact bitAt_of_length_le (by omega)
    simp only [List.take_zero, List.nil_append, List.length_replicate, Nat.sub_zero]
    have hout : ∀ j, ((d.take t).getD j 0 != 0) = bitAt B j := by
      intro j
      by_cases hj : j < t
      · rw [List.getD_eq_getElem?_getD, List.getElem?_take_of_lt hj, ← List.getD_eq_getElem?_getD,
          hdbit]
      · rw [hclear j (by omega), List.getD_eq_default _ _ (by simp; omega)]
        rfl
    have hBeq : (encodeLoop (d.take t)).1 = B := by
      refine eq_of_bitAt ?_ fun j => ?_
      · rw [length_encodeLoop_fst, hBlen, List.length_take_of_le (by omega)]
      · rw [(encodeLoop_spec _).2.2, hout]
    have hfilter : (d.take t).filter (· != 0) = d.filter (· != 0) := by
      have hdrop : (d.drop t).filter (· != 0) = [] := by
        refine List.filter_eq_nil_iff.mpr fun x hx => ?_
        obtain ⟨k, hk, rfl⟩ := List.mem_iff_getElem.mp hx
        rw [List.getElem_drop, ← List.getD_eq_getElem _ 0, hdbit, hclear _ (by omega)]
        simp
      conv_rhs => rw [← List.take_append_drop t d]
      rw [List.filter_append, hdrop, List.append_nil]
    refine ⟨List.length_take_of_le (by omega), by omega, ?_⟩
    rw [take_sub_length_of_drop hptr hsrc, bitsetEncodeBytes_of_two_le
      (by rw [List.length_take_of_le (by omega)]; omega), hfilter, hBeq, ← hB]
    split_ifs with hnil
    · -- no content bytes: the bitset is clear, and encodes to nothing
      have hzero : B = List.replicate B.length 0 := by
        refine eq_of_bitAt (by simp) fun j => ?_
        rw [bitAt_replicate_zero, ← hdbit]
        by_cases hj : j < d.length
        · have := (List.filter_eq_nil_iff.mp hnil) d[j] (List.getElem_mem hj)
          rw [List.getD_eq_getElem _ _ hj]
          simpa using this
        · rw [List.getD_eq_default _ _ (by omega)]
          rfl
      rw [hnil, List.append_nil, hzero, bitsetEncodeBytes_of_forall_zero (by simp)]
    · rfl
termination_by t
decreasing_by omega

end Decoder

/-- **Compression round-trips, and the bitset decoder is canonical**: decompressing the
compression of a string at its length gives the string back, and every input the bitset
decoder accepts is the encoding of what it returns. -/
theorem compress_roundtrip_canonical :
    (∀ d : List UInt8, DecompressBytes (CompressBytes d) d.length = .ok d) ∧
    ∀ (c : List UInt8) (t : Nat) (d : List UInt8), bitsetDecodeBytes c t = .ok d →
      bitsetEncodeBytes d = c := by
  refine ⟨fun d => ?_, fun c t d h => ?_⟩
  · rw [CompressBytes]
    split_ifs with hlt
    · -- the shorter encoding decodes, with all of it used
      have hdec := bitsetDecodePartialBytes_encode d [] (Or.inr rfl)
      rw [List.append_nil] at hdec
      rw [DecompressBytes, if_neg (by omega), if_neg (by omega), bitsetDecodeBytes, hdec]
      simp
    · rw [DecompressBytes, if_neg (lt_irrefl _), if_pos rfl]
  · rw [bitsetDecodeBytes] at h
    cases hp : bitsetDecodePartialBytes c t with
    | error e =>
      rw [hp] at h
      cases h
    | ok r =>
      obtain ⟨out, size⟩ := r
      rw [hp] at h
      dsimp only at h
      split_ifs at h with hs
      cases h
      obtain ⟨-, -, henc⟩ := encode_of_bitsetDecodePartialBytes c t _ size hp
      rw [henc, not_not.mp hs, List.take_length]

end Atlantis.Bitutil
