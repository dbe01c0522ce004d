import Atlantis.Abi.Pack

/-!
# Arguments: packing and unpacking

`accounts/abi/argument.go` and `unpack.go`: `Pack` lays the arguments out as a head of one
32-byte word per argument (the packed value, or the offset of its tail for a string, bytes or
slice) followed by the tails; a static array is packed inline.  `UnpackValues` reads each
argument at its word of the head, a static array counting as many words as it has elements
at every depth.

An unsigned integer of any width, and a signed one of 8, 16, 32 or 64 bits, comes back as it
was packed (`UnpackValues_Pack_uint`, `UnpackValues_Pack_int_native`).  The two sides part in
two places.  `readInteger` reads an integer of a big-integer kind with `SetBytes`, as an
unsigned number: a negative `intN` with `N` not 8, 16, 32 or 64 packs to its two's complement
and unpacks to `2 ^ 256` more than it was (`UnpackValues_Pack_int_big`).  And `Pack` counts an
array argument as `32 * Size` bytes of the head where it takes 32 bytes for each element at
every depth, so the offset of a dynamic argument after a nested array points into the head
(`Pack_nested_array_offset`).
-/

namespace Atlantis.Abi

/-- The signed value of the `n`-byte two's complement `x`. -/
def toSigned (n x : Nat) : Int :=
  if x < 2 ^ (8 * n - 1) then x else (x : Int) - 2 ^ (8 * n)

/-- The last `n` bytes of a word, big-endian. -/
def lastBytes (b : List UInt8) (n : Nat) : Nat :=
  Rlp.bigEndian (b.drop (b.length - n))

/-- `readInteger`: a Go integer of the kind from the last bytes of the word; a big integer
from all of it, by `SetBytes`. -/
def readInteger (kind : Kind) (b : List UInt8) : Value :=
  match kind with
  | .uint8 => .int (lastBytes b 1)
  | .uint16 => .int (lastBytes b 2)
  | .uint32 => .int (lastBytes b 4)
  | .uint64 => .int (lastBytes b 8)
  | .int8 => .int (toSigned 1 (lastBytes b 1))
  | .int16 => .int (toSigned 2 (lastBytes b 2))
  | .int32 => .int (toSigned 4 (lastBytes b 4))
  | .int64 => .int (toSigned 8 (lastBytes b 8))
  | _ => .int (Rlp.bigEndian b)

/-- `readBool`. -/
def readBool (word : List UInt8) : Except Error Bool :=
  if (word.take 31).any (· != 0) then .error .errBadBool
  else match word.getD 31 0 with
    | 0 => .ok false
    | 1 => .ok true
    | _ => .error .errBadBool

/-- The bytes `output[start:end]`. -/
def slice (output : List UInt8) (start end_ : Nat) : List UInt8 :=
  (output.drop start).take (end_ - start)

/-- `lengthPrefixPointsTo`: the start and length of a tail from the offset at `index`. -/
def lengthPrefixPointsTo (index : Nat) (output : List UInt8) : Except Error (Nat × Nat) :=
  let bigOffsetEnd := Rlp.bigEndian (slice output index (index + 32)) + 32
  if bigOffsetEnd > output.length then .error .offsetOverBoundary
  else if bigOffsetEnd ≥ 2 ^ 63 then .error .largerThanInt64
  else
    let lengthBig := Rlp.bigEndian (slice output (bigOffsetEnd - 32) bigOffsetEnd)
    let totalSize := bigOffsetEnd + lengthBig
    if totalSize ≥ 2 ^ 63 then .error .largerThanInt64
    else if totalSize > output.length then .error .lengthInsufficient
    else .ok (bigOffsetEnd, lengthBig)

/-- `getFullElemSize`: the bytes of an element of an array, 32 for each element of its
nested arrays. -/
def getFullElemSize : Ty → Nat
  | .array elem size => size * getFullElemSize elem
  | _ => 32

/-- `getArraySize`: the elements of an array, counting nested arrays. -/
def getArraySize : Ty → Nat
  | .array elem size => size * getArraySize elem
  | _ => 1

/-- `forEachUnpack`, with the decoder of an element at a position. -/
def forEachUnpack (output : List UInt8) (start size elemSize : Nat)
    (decode : Nat → Except Error Value) : Except Error Value :=
  if start + 32 * size > output.length then .error .arrayOverBoundary
  else ((List.range size).mapM fun j => decode (start + j * elemSize)).map .list

/-- `toGoType`: the value of a type whose word is at `index`. -/
def toGoType (index : Nat) : Ty → List UInt8 → Except Error Value
  | t, output =>
    if index + 32 > output.length then .error .lengthInsufficient
    else
      let returnOutput := slice output index (index + 32)
      match t with
      | .slice elem => do
        let (begin, end_) ← lengthPrefixPointsTo index output
        forEachUnpack output begin end_ 32 fun i => toGoType i elem output
      | .array elem size =>
        forEachUnpack output index size (getFullElemSize elem) fun i => toGoType i elem output
      | .string => do
        let (begin, end_) ← lengthPrefixPointsTo index output
        .ok (.bytes (slice output begin (begin + end_)))
      | .int size => .ok (readInteger (reflectIntKind false size) returnOutput)
      | .uint size => .ok (readInteger (reflectIntKind true size) returnOutput)
      | .bool => (readBool returnOutput).map .bool
      | .address => .ok (.bytes (returnOutput.drop 12))
      | .bytes => do
        let (begin, end_) ← lengthPrefixPointsTo index output
        .ok (.bytes (slice output begin (begin + end_)))
      | .fixedBytes size => .ok (.bytes (returnOutput.take size))

/-- The loop of `UnpackValues` from argument `index`, `virtualArgs` words on. -/
def unpackLoop (data : List UInt8) : List Ty → Nat → Nat → Except Error (List Value)
  | [], _, _ => .ok []
  | t :: ts, index, virtualArgs => do
    let marshalledValue ← toGoType ((index + virtualArgs) * 32) t data
    let virtualArgs := match t with
      | .array _ _ => virtualArgs + getArraySize t - 1
      | _ => virtualArgs
    let rest ← unpackLoop data ts (index + 1) virtualArgs
    .ok (marshalledValue :: rest)

/-- `UnpackValues`: the values of the (non-indexed) arguments. -/
def UnpackValues (arguments : List Ty) (data : List UInt8) : Except Error (List Value) :=
  unpackLoop data arguments 0 0

/-- The head size `Pack` assumes: 32 bytes per argument, `32 * Size` for an array. -/
def inputOffset (arguments : List Ty) : Nat :=
  arguments.foldl (fun inputOffset t =>
    match t with
    | .array _ size => inputOffset + 32 * size
    | _ => inputOffset + 32) 0

/-- The loop of `Pack`: the head so far and the tails so far. -/
def packLoop (offset : Nat) : List Ty → List Value → List UInt8 → List UInt8 →
    Except Error (List UInt8)
  | t :: ts, a :: as, ret, variableInput => do
    let packed ← t.pack a
    if t.requiresLengthPrefix then
      packLoop offset ts as (ret ++ packNum (offset + variableInput.length)) (variableInput ++ packed)
    else packLoop offset ts as (ret ++ packed) variableInput
  | _, _, ret, variableInput => .ok (ret ++ variableInput)

/-- `Pack`. -/
def Pack (arguments : List Ty) (args : List Value) : Except Error (List UInt8) :=
  if args.length ≠ arguments.length then .error .argumentCount
  else packLoop (inputOffset arguments) arguments args [] []

/-! ## Packing and unpacking one integer -/

/-- The last `k` bytes of a packed number are the number modulo `2 ^ (8 * k)`. -/
theorem lastBytes_packNum (v : Int) {k : Nat} (hk : k ≤ 32) :
    (lastBytes (packNum v) k : Int) = v % 2 ^ (8 * k) := by
  have hsplit := bytesBE_add (v % 2 ^ 256).toNat (32 - k) k
  rw [Nat.sub_add_cancel hk] at hsplit
  have hdrop : (packNum v).drop (32 - k) = bytesBE (v % 2 ^ 256).toNat k := by
    rw [packNum, U256, hsplit, List.drop_left' (length_bytesBE _ _)]
  have hdvd : (2 : Int) ^ (8 * k) ∣ 2 ^ 256 := pow_dvd_pow 2 (by omega)
  have h256 : ((256 ^ k : Nat) : Int) = 2 ^ (8 * k) := by
    rw [pow_mul]
    norm_num
  rw [lastBytes, length_packNum, hdrop, bigEndian_bytesBE, Int.natCast_mod,
    Int.toNat_of_nonneg (Int.emod_nonneg _ (by decide)), h256, Int.emod_emod_of_dvd _ hdvd]

/-- A number in the range of `k` bytes is read back from its last `k` bytes, unsigned. -/
theorem lastBytes_packNum_of_lt (v : Int) {k : Nat} (hk : k ≤ 32) (hv : 0 ≤ v ∧ v < 2 ^ (8 * k)) :
    (lastBytes (packNum v) k : Int) = v := by
  rw [lastBytes_packNum v hk, Int.emod_eq_of_lt hv.1 hv.2]

/-- A number in the signed range of `k` bytes is read back from its last `k` bytes as two's
complement. -/
theorem toSigned_lastBytes_packNum (v : Int) {k : Nat} (hk : 0 < k ∧ k ≤ 32)
    (hv : -2 ^ (8 * k - 1) ≤ v ∧ v < 2 ^ (8 * k - 1)) :
    toSigned k (lastBytes (packNum v) k) = v := by
  have hlast := lastBytes_packNum v hk.2
  have hm : (2 : Int) ^ (8 * k) = 2 * 2 ^ (8 * k - 1) := by
    rw [← pow_succ']
    congr 1
    omega
  have hpos : (0 : Int) < 2 ^ (8 * k - 1) := by positivity
  rw [hm] at hlast
  unfold toSigned
  -- the word is `v` for a non-negative `v`, and `v + 2 ^ (8 * k)` for a negative one
  rcases le_or_gt 0 v with hnn | hneg
  · rw [Int.emod_eq_of_lt hnn (by omega)] at hlast
    rw [if_pos (by exact_mod_cast (show (lastBytes (packNum v) k : Int) < 2 ^ (8 * k - 1) by omega))]
    exact hlast
  · have hwrap : v % (2 * 2 ^ (8 * k - 1)) = v + 2 * 2 ^ (8 * k - 1) := by
      rw [← Int.add_emod_right]
      exact Int.emod_eq_of_lt (by omega) (by omega)
    rw [hwrap] at hlast
    rw [if_neg (by exact_mod_cast (show ¬ (lastBytes (packNum v) k : Int) < 2 ^ (8 * k - 1) by omega)),
      hm]
    omega

/-- `Pack` of one integer argument is its number word. -/
theorem Pack_integer {t : Ty} {size : Nat} (ht : t = .int size ∨ t = .uint size) (v : Int) :
    Pack [t] [.int v] = .ok (packNum v) := by
  rcases ht with rfl | rfl <;>
    simp [Pack, packLoop, Ty.pack, typeCheck, packElement, Ty.requiresLengthPrefix, bind,
      Except.bind]

/-- One integer argument is read back by `readInteger` of its kind. -/
theorem UnpackValues_Pack_integer {t : Ty} {size : Nat} (ht : t = .int size ∨ t = .uint size)
    (v : Int) : (Pack [t] [.int v] >>= UnpackValues [t]) = .ok [readInteger t.kind (packNum v)] := by
  have hword : slice (packNum v) 0 32 = packNum v := by
    simp [slice, List.take_of_length_le]
  rw [Pack_integer ht]
  rcases ht with rfl | rfl <;>
    simp only [bind, Except.bind, UnpackValues, unpackLoop, toGoType, Nat.add_zero, Nat.zero_mul,
      length_packNum, hword, Nat.zero_add, lt_self_iff_false, if_false, Ty.kind]

/-- **An unsigned integer of any width round-trips.** -/
theorem UnpackValues_Pack_uint (size : Nat) (hsize : size ≤ 256) (v : Int)
    (hv : 0 ≤ v ∧ v < 2 ^ size) :
    (Pack [.uint size] [.int v] >>= UnpackValues [.uint size]) = .ok [.int v] := by
  rw [UnpackValues_Pack_integer (Or.inr rfl)]
  simp only [Ty.kind, reflectIntKind]
  -- a Go integer of 8, 16, 32 or 64 bits, or a big integer
  split
  · rw [if_pos trivial]
    show Except.ok [Value.int (lastBytes (packNum v) 1)] = _
    rw [lastBytes_packNum_of_lt v (by omega) (by simpa using hv)]
  · rw [if_pos trivial]
    show Except.ok [Value.int (lastBytes (packNum v) 2)] = _
    rw [lastBytes_packNum_of_lt v (by omega) (by simpa using hv)]
  · rw [if_pos trivial]
    show Except.ok [Value.int (lastBytes (packNum v) 4)] = _
    rw [lastBytes_packNum_of_lt v (by omega) (by simpa using hv)]
  · rw [if_pos trivial]
    show Except.ok [Value.int (lastBytes (packNum v) 8)] = _
    rw [lastBytes_packNum_of_lt v (by omega) (by simpa using hv)]
  · have hbig : v < 2 ^ 256 := lt_of_lt_of_le hv.2 (pow_le_pow_right₀ (by norm_num) hsize)
    show Except.ok [Value.int (Rlp.bigEndian (packNum v))] = _
    rw [bigEndian_packNum, Int.emod_eq_of_lt hv.1 hbig]

/-- `uint256` `2 ^ 256 - 1` round-trips. -/
theorem UnpackValues_Pack_uint_max :
    256 ≤ 256 ∧ (0 ≤ (2 ^ 256 - 1 : Int) ∧ (2 ^ 256 - 1 : Int) < 2 ^ 256) ∧
      (Pack [.uint 256] [.int (2 ^ 256 - 1)] >>= UnpackValues [.uint 256]) =
        .ok [.int (2 ^ 256 - 1)] :=
  ⟨le_refl _, by norm_num, UnpackValues_Pack_uint 256 (le_refl _) _ (by norm_num)⟩

/-- **A signed integer of 8, 16, 32 or 64 bits round-trips.** -/
theorem UnpackValues_Pack_int_native (size : Nat) (hsize : size ∈ [8, 16, 32, 64]) (v : Int)
    (hv : -2 ^ (size - 1) ≤ v ∧ v < 2 ^ (size - 1)) :
    (Pack [.int size] [.int v] >>= UnpackValues [.int size]) = .ok [.int v] := by
  rw [UnpackValues_Pack_integer (Or.inl rfl)]
  simp only [List.mem_cons, List.not_mem_nil, or_false] at hsize
  rcases hsize with rfl | rfl | rfl | rfl
  · show Except.ok [Value.int (toSigned 1 (lastBytes (packNum v) 1))] = _
    rw [toSigned_lastBytes_packNum v (by omega) hv]
  · show Except.ok [Value.int (toSigned 2 (lastBytes (packNum v) 2))] = _
    rw [toSigned_lastBytes_packNum v (by omega) hv]
  · show Except.ok [Value.int (toSigned 4 (lastBytes (packNum v) 4))] = _
    rw [toSigned_lastBytes_packNum v (by omega) hv]
  · show Except.ok [Value.int (toSigned 8 (lastBytes (packNum v) 8))] = _
    rw [toSigned_lastBytes_packNum v (by omega) hv]

/-- `int8` `-128` round-trips. -/
theorem UnpackValues_Pack_int8_min :
    8 ∈ [8, 16, 32, 64] ∧ (-2 ^ (8 - 1) ≤ (-128 : Int) ∧ (-128 : Int) < 2 ^ (8 - 1)) ∧
      (Pack [.int 8] [.int (-128)] >>= UnpackValues [.int 8]) = .ok [.int (-128)] :=
  ⟨by decide, by norm_num, UnpackValues_Pack_int_native 8 (by decide) _ (by norm_num)⟩

/-! ## The head of a nested array -/

theorem pack_uint (size : Nat) (x : Int) : (Ty.uint size).pack (.int x) = .ok (packNum x) := by
  simp [Ty.pack, typeCheck, packElement]

/-- Integers of an integer type pack one word each. -/
theorem mapM_pack_ints (size : Nat) (xs : List Int) :
    (xs.map Value.int).mapM (Ty.uint size).pack = .ok (xs.map packNum) := by
  induction xs with
  | nil => rfl
  | cons x xs ih =>
    simp only [List.map_cons, List.mapM_cons, pack_uint, ih]
    rfl

/-- An array of `m` integers packs inline, one word each. -/
theorem pack_array_ints (size m : Nat) (xs : List Int) (hm : xs.length = m) :
    (Ty.array (.uint size) m).pack (.list (xs.map .int)) = .ok (xs.map packNum).flatten := by
  rw [Ty.pack]
  simp only [typeCheck, List.length_map, hm, beq_self_eq_true, Bool.not_true,
    Bool.false_eq_true, if_false, mapM_pack_ints]
  rfl

/-- Arrays of `m` integers pack one after the other. -/
theorem mapM_pack_rows (size m : Nat) (rows : List (List Int)) (hm : ∀ r ∈ rows, r.length = m) :
    (rows.map fun r => .list (r.map .int)).mapM (Ty.array (.uint size) m).pack =
      .ok (rows.map fun r => (r.map packNum).flatten) := by
  induction rows with
  | nil => rfl
  | cons r rows ih =>
    have hr := pack_array_ints size m r (hm r List.mem_cons_self)
    have hrows := ih fun r' hr' => hm r' (List.mem_cons_of_mem r hr')
    simp only [List.map_cons, List.mapM_cons, hr, hrows]
    rfl

/-- An array of `n` arrays of `m` integers packs inline, one word each. -/
theorem pack_array_rows (size m n : Nat) (rows : List (List Int)) (hn : rows.length = n)
    (hm : ∀ r ∈ rows, r.length = m) :
    (Ty.array (.array (.uint size) m) n).pack (.list (rows.map fun r => .list (r.map .int))) =
      .ok (rows.map fun r => (r.map packNum).flatten).flatten := by
  rw [Ty.pack]
  simp only [typeCheck, List.length_map, hn, beq_self_eq_true, Bool.not_true,
    Bool.false_eq_true, if_false, mapM_pack_rows size m rows hm]
  rfl

/-- The packed rows take `32 * (n * m)` bytes. -/
theorem length_packed_rows (m n : Nat) (rows : List (List Int)) (hn : rows.length = n)
    (hm : ∀ r ∈ rows, r.length = m) :
    (rows.map fun r => (r.map packNum).flatten).flatten.length = 32 * (n * m) := by
  subst hn
  induction rows with
  | nil => simp
  | cons r rows ih =>
    have hrows := ih fun r' hr' => hm r' (List.mem_cons_of_mem r hr')
    simp only [List.map_cons, List.flatten_cons, List.length_append, hrows, List.length_flatten,
      List.map_map, Function.comp_def, length_packNum, List.map_const', List.sum_replicate,
      smul_eq_mul, hm r List.mem_cons_self, List.length_cons]
    ring

/-- **`Pack` writes the offset of a dynamic argument after a nested array** as if the array
took `32 * Size` bytes of the head: behind an `n × m` array of integers the string's offset
is `32 * n + 32`, where its tail starts at `32 * (n * m) + 32`. -/
theorem Pack_nested_array_offset (size m n : Nat) (rows : List (List Int))
    (hn : rows.length = n) (hm : ∀ r ∈ rows, r.length = m) (s : List UInt8) :
    ∃ head, head.length = 32 * (n * m) ∧
      Pack [.array (.array (.uint size) m) n, .string]
          [.list (rows.map fun r => .list (r.map .int)), .bytes s] =
        .ok (head ++ packNum (32 * n + 32) ++ packBytesSlice s s.length) := by
  refine ⟨_, length_packed_rows m n rows hn hm, ?_⟩
  have hstring : Ty.string.pack (.bytes s) = .ok (packBytesSlice s s.length) := by
    simp [Ty.pack, typeCheck, packElement]
  simp only [Pack, inputOffset, List.foldl_cons, List.foldl_nil, List.length_cons, List.length_nil,
    ne_eq, not_true_eq_false, if_false, packLoop, pack_array_rows size m n rows hn hm, hstring,
    Ty.requiresLengthPrefix, bind, Except.bind]
  simp

/-- A `uint256[3][2]` then a string: the offset word says 96, the tail starts at 224. -/
theorem Pack_nested_array_offset_two_three :
    ([[1, 2, 3], [4, 5, 6]] : List (List Int)).length = 2 ∧
      (∀ r ∈ ([[1, 2, 3], [4, 5, 6]] : List (List Int)), r.length = 3) ∧
      ∃ head : List UInt8, head.length = 32 * (2 * 3) ∧
        Pack [.array (.array (.uint 256) 3) 2, .string]
            [.list (([[1, 2, 3], [4, 5, 6]] : List (List Int)).map fun r => .list (r.map .int)),
              .bytes [0x61]] =
          .ok (head ++ packNum (32 * 2 + 32) ++ packBytesSlice [0x61] 1) :=
  ⟨rfl, by decide, Pack_nested_array_offset 256 3 2 _ rfl (by decide) [0x61]⟩

/-- **An integer of a big-integer kind comes back modulo `2 ^ 256`**: `readInteger` reads it
with `SetBytes`, unsigned, so a negative one comes back `2 ^ 256` larger. -/
theorem UnpackValues_Pack_int_big (size : Nat) (hsize : size ∉ [8, 16, 32, 64]) (v : Int) :
    (Pack [.int size] [.int v] >>= UnpackValues [.int size]) = .ok [.int (v % 2 ^ 256)] := by
  have hkind : (Ty.int size).kind = .ptr := by
    simp only [List.mem_cons, List.not_mem_nil, or_false, not_or] at hsize
    unfold Ty.kind reflectIntKind
    split <;> simp_all
  rw [UnpackValues_Pack_integer (Or.inl rfl), hkind]
  show Except.ok [Value.int (Rlp.bigEndian (packNum v))] = _
  rw [bigEndian_packNum]

/-- `int256` `-1` packs to 32 bytes `0xff` and unpacks to `2 ^ 256 - 1`. -/
theorem UnpackValues_Pack_int_minus_one :
    256 ∉ [8, 16, 32, 64] ∧
      (Pack [.int 256] [.int (-1)] >>= UnpackValues [.int 256]) = .ok [.int (2 ^ 256 - 1)] := by
  refine ⟨by decide, ?_⟩
  rw [UnpackValues_Pack_int_big 256 (by decide) (-1)]
  have hmod : (-1 : Int) % 2 ^ 256 = 2 ^ 256 - 1 := by decide
  rw [hmod]

end Atlantis.Abi
