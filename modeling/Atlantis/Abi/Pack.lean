import Atlantis.Rlp.Raw

/-!
# ABI types and packing

`accounts/abi/type.go` and `pack.go`: an ABI type is an integer of a bit size, a bool, a
string, a slice or a fixed array of a type, an address, fixed bytes or bytes (the `T` tag of
the source is the constructor; hash, fixed point and function types are left out).  Each type
has the reflect kind of the Go value it packs from and unpacks to: an integer of 8, 16, 32 or
64 bits is a Go integer of that width, any other integer a `*big.Int`.

The Go values are untyped here: an integer (of any of the integer kinds, or a `*big.Int`), a
bool, bytes (a string, a byte slice, a byte array or an address) and a list (a slice or an
array).  `Type.pack` checks the shape of a value against the type and packs it; a number is
its 32 big-endian bytes modulo `2^256`, the two's complement of a negative one.
-/

namespace Atlantis.Abi

/-- `Type`, by its `T` tag. -/
inductive Ty where
  | int (size : Nat)
  | uint (size : Nat)
  | bool
  | string
  | slice (elem : Ty)
  | array (elem : Ty) (size : Nat)
  | address
  | fixedBytes (size : Nat)
  | bytes
  deriving DecidableEq, Repr

/-- The reflect kinds of the Go values of ABI types. -/
inductive Kind where
  | uint8 | uint16 | uint32 | uint64 | int8 | int16 | int32 | int64 | ptr
  | bool | string | slice | array
  deriving DecidableEq, Repr

/-- A Go value handed to `Pack` or returned by `UnpackValues`. -/
inductive Value where
  | int (i : Int)
  | bool (b : Bool)
  | bytes (b : List UInt8)
  | list (vs : List Value)
  deriving Repr

/-- The errors of packing and unpacking. -/
inductive Error where
  /-- `typeErr`: "abi: cannot use ... as type ... as argument". -/
  | typeErr
  /-- "argument count mismatch". -/
  | argumentCount
  /-- "abi: cannot marshal in to go type: length insufficient". -/
  | lengthInsufficient
  /-- "abi: cannot marshal in to go slice: offset ... would go over slice boundary". -/
  | offsetOverBoundary
  /-- "abi offset larger than int64" and "abi length larger than int64". -/
  | largerThanInt64
  /-- "abi: cannot marshal in to go array: offset ... would go over slice boundary". -/
  | arrayOverBoundary
  /-- `errBadBool`. -/
  | errBadBool
  deriving DecidableEq, Repr

/-- `reflectIntKindAndType`: the kind of an integer type of a bit size. -/
def reflectIntKind (unsigned : Bool) (size : Nat) : Kind :=
  match size with
  | 8 => if unsigned then .uint8 else .int8
  | 16 => if unsigned then .uint16 else .int16
  | 32 => if unsigned then .uint32 else .int32
  | 64 => if unsigned then .uint64 else .int64
  | _ => .ptr

/-- The `Kind` field of a type, as `NewType` sets it. -/
def Ty.kind : Ty → Kind
  | .int size => reflectIntKind false size
  | .uint size => reflectIntKind true size
  | .bool => .bool
  | .string => .string
  | .slice _ => .slice
  | .array _ _ => .array
  | .address => .array
  | .fixedBytes _ => .array
  | .bytes => .slice

/-- `requiresLengthPrefix`: string, bytes and slices go to the tail behind an offset. -/
def Ty.requiresLengthPrefix : Ty → Bool
  | .string | .bytes | .slice _ => true
  | _ => false

/-! ## Numbers and bytes -/

/-- The `n` low bytes of `x`, big-endian. -/
def bytesBE (x : Nat) : Nat → List UInt8
  | 0 => []
  | n + 1 => bytesBE (x / 256) n ++ [UInt8.ofNat (x % 256)]

/-- `U256` then `PaddedBigBytes(_, 32)`: a number modulo `2^256`, in 32 big-endian bytes. -/
def U256 (i : Int) : List UInt8 :=
  bytesBE (i % 2 ^ 256).toNat 32

/-- `packNum`. -/
def packNum (i : Int) : List UInt8 :=
  U256 i

/-- `common.RightPadBytes`. -/
def RightPadBytes (slice : List UInt8) (l : Nat) : List UInt8 :=
  if l ≤ slice.length then slice else slice ++ List.replicate (l - slice.length) 0

/-- `common.LeftPadBytes`. -/
def LeftPadBytes (slice : List UInt8) (l : Nat) : List UInt8 :=
  if l ≤ slice.length then slice else List.replicate (l - slice.length) 0 ++ slice

/-- `packBytesSlice`: the length, then the bytes padded to a multiple of 32. -/
def packBytesSlice (bytes : List UInt8) (l : Nat) : List UInt8 :=
  packNum l ++ RightPadBytes bytes ((l + 31) / 32 * 32)

/-- `packElement`: a value of an elementary type. -/
def packElement (t : Ty) (v : Value) : List UInt8 :=
  match t, v with
  | .int _, .int i | .uint _, .int i => packNum i
  | .string, .bytes b => packBytesSlice b b.length
  | .address, .bytes b => LeftPadBytes b 32
  | .bool, .bool b => packNum (if b then 1 else 0)
  | .bytes, .bytes b => packBytesSlice b b.length
  | .fixedBytes _, .bytes b => RightPadBytes b 32
  | _, _ => []

/-- `typeCheck`, on the shape of the value: an array of the type's length, bytes of a fixed
bytes type's size, and a value of the kind of an elementary type. -/
def typeCheck (t : Ty) (v : Value) : Bool :=
  match t, v with
  | .slice _, .list _ => true
  | .array _ size, .list vs => vs.length == size
  | .int _, .int _ | .uint _, .int _ | .bool, .bool _ => true
  | .string, .bytes _ | .address, .bytes _ | .bytes, .bytes _ => true
  | .fixedBytes size, .bytes b => b.length == size
  | _, _ => false

/-- `Type.pack`: the elements of a slice or an array one after the other, a slice behind
its length. -/
def Ty.pack : Ty → Value → Except Error (List UInt8)
  | t@(.slice elem), v@(.list vs) =>
    if !typeCheck t v then .error .typeErr
    else (vs.mapM elem.pack).map fun packed =>
      packBytesSlice packed.flatten vs.length
  | t@(.array elem _), v@(.list vs) =>
    if !typeCheck t v then .error .typeErr
    else (vs.mapM elem.pack).map List.flatten
  | t, v => if !typeCheck t v then .error .typeErr else .ok (packElement t v)

/-! ## Numbers read back -/

@[simp] theorem length_bytesBE (x n : Nat) : (bytesBE x n).length = n := by
  induction n generalizing x with
  | zero => rfl
  | succ n ih => simp [bytesBE, ih]

theorem bytesBE_add (x n k : Nat) : bytesBE x (n + k) = bytesBE (x / 256 ^ k) n ++ bytesBE x k := by
  induction k generalizing x with
  | zero => simp [bytesBE]
  | succ k ih =>
    rw [← Nat.add_assoc, bytesBE, ih, bytesBE, List.append_assoc, Nat.div_div_eq_div_mul, pow_succ']

/-- **`bytesBE` is read back by the big-endian reading**, modulo `256 ^ n`. -/
theorem bigEndian_bytesBE (x n : Nat) : Rlp.bigEndian (bytesBE x n) = x % 256 ^ n := by
  induction n generalizing x with
  | zero => simp [bytesBE, Rlp.bigEndian, Nat.mod_one]
  | succ n ih =>
    rw [bytesBE, Rlp.bigEndian_append_single, ih, pow_succ', Nat.mod_mul]
    simp only [UInt8.toNat_ofNat', Nat.reducePow, Nat.mod_mod]
    omega

@[simp] theorem length_packNum (i : Int) : (packNum i).length = 32 := by
  simp [packNum, U256]

/-- A packed number reads back as the number modulo `2 ^ 256`. -/
theorem bigEndian_packNum (i : Int) : (Rlp.bigEndian (packNum i) : Int) = i % 2 ^ 256 := by
  have hnonneg : 0 ≤ i % 2 ^ 256 := Int.emod_nonneg _ (by decide)
  have hlt : i % 2 ^ 256 < 2 ^ 256 := Int.emod_lt_of_pos _ (by decide)
  rw [packNum, U256, bigEndian_bytesBE, Nat.mod_eq_of_lt (by omega), Int.toNat_of_nonneg hnonneg]

end Atlantis.Abi
