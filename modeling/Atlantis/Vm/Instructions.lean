import Mathlib.Data.Int.Bitwise
import Mathlib.Data.Nat.Digits.Defs

/-!
# The word instructions

`opAdd` to `opSAR` of `core/vm/instructions.go`, with the big-integer helpers of
`common/math/big.go` they use (`U256`, `S256`, `Exp`, `Byte`).

A stack entry is a `big.Int`, here an integer, and the stack is a list with its top
first.  The instructions pop their operands and change the entry under them in place, or
push a new one; what they leave on the stack is what is modelled.  The interpreter checks
the stack's depth before an instruction runs (`validateStack`), so an instruction on a
stack too short for it is `none` here.  The integer pool the source recycles entries
through holds nothing the stack shows, and is left out.
-/

namespace Atlantis.Vm

/-- `tt255`. -/
def tt255 : Int := 2 ^ 255

/-- `tt256`. -/
def tt256 : Int := 2 ^ 256

/-- `math.U256`: `x & (2^256 - 1)`, which in two's complement is the remainder of `x`
mod `2^256`. -/
def U256 (x : Int) : Int := x % tt256

/-- `math.S256`: a word read as a two's complement number. -/
def S256 (x : Int) : Int := if x < tt255 then x else x - tt256

/-- `wordBits` and `wordBytes`: the size of a `big.Word` on a 64-bit platform. -/
def wordBits : Nat := 64

def wordBytes : Nat := 8

/-- `big.Int.Bits`: the words of the absolute value, least significant first. -/
def Bits (x : Int) : List Nat := Nat.digits (2 ^ wordBits) x.natAbs

/-- The inner loop of `math.Exp` over the `i` low bits of one word of the exponent, lowest
first: the result multiplied by the base where the bit is set, and the base squared, each
truncated to 256 bits. -/
def expBits (result base : Int) (word : Nat) : Nat → Int × Int
  | 0 => (result, base)
  | i + 1 =>
    let result := if word % 2 = 1 then U256 (result * base) else result
    expBits result (U256 (base * base)) (word / 2) i

/-- `math.Exp`: exponentiation by squaring over the words of the exponent. -/
def Exp (base exponent : Int) : Int :=
  ((Bits exponent).foldl (fun acc word => expBits acc.1 acc.2 word wordBits) (1, base)).1

/-- `bigEndianByteAt`: the byte at position `n` counted from the least significant one. -/
def bigEndianByteAt (bigint : Int) (n : Nat) : UInt8 :=
  let words := Bits bigint
  let i := n / wordBytes
  match words[i]? with
  | none => 0
  | some word => UInt8.ofNat (word >>> (8 * (n % wordBytes)))

/-- `math.Byte`: the byte at position `n` of the number padded to `padlength` bytes,
counted from the most significant one. -/
def Byte (bigint : Int) (padlength n : Nat) : UInt8 :=
  if n ≥ padlength then 0 else bigEndianByteAt bigint (padlength - 1 - n)

/-! ## The instructions -/

/-- `opAdd`. -/
def opAdd : List Int → Option (List Int)
  | x :: y :: rest => some (U256 (x + y) :: rest)
  | _ => none

/-- `opSub`. -/
def opSub : List Int → Option (List Int)
  | x :: y :: rest => some (U256 (x - y) :: rest)
  | _ => none

/-- `opMul`. -/
def opMul : List Int → Option (List Int)
  | x :: y :: rest => some (U256 (x * y) :: rest)
  | _ => none

/-- `opDiv`: `big.Int.Div` is Euclidean division, as `/` on integers. -/
def opDiv : List Int → Option (List Int)
  | x :: y :: rest => some ((if y.sign ≠ 0 then U256 (x / y) else 0) :: rest)
  | _ => none

/-- `opSdiv`: the quotient of the absolute values, negated where the signs differ. -/
def opSdiv : List Int → Option (List Int)
  | x :: y :: rest =>
    let x := S256 x
    let y := S256 y
    let res : Int :=
      if y.sign = 0 ∨ x.sign = 0 then 0
      else if x.sign ≠ y.sign then U256 (-((x.natAbs / y.natAbs : Nat) : Int))
      else U256 ((x.natAbs / y.natAbs : Nat) : Int)
    some (res :: rest)
  | _ => none

/-- `opMod`: `big.Int.Mod` is the Euclidean modulus, as `%` on integers. -/
def opMod : List Int → Option (List Int)
  | x :: y :: rest => some ((if y.sign = 0 then 0 else U256 (x % y)) :: rest)
  | _ => none

/-- `opSmod`: the remainder of the absolute values, with the sign of the dividend. -/
def opSmod : List Int → Option (List Int)
  | x :: y :: rest =>
    let x := S256 x
    let y := S256 y
    let res : Int :=
      if y.sign = 0 then 0
      else if x.sign < 0 then U256 (-((x.natAbs % y.natAbs : Nat) : Int))
      else U256 ((x.natAbs % y.natAbs : Nat) : Int)
    some (res :: rest)
  | _ => none

/-- `opExp`. -/
def opExp : List Int → Option (List Int)
  | base :: exponent :: rest => some (Exp base exponent :: rest)
  | _ => none

/-- `opSignExtend`: below byte 31, the bits above the sign bit of byte `back` are set to
it; from byte 31 on, the number is left as it is. -/
def opSignExtend : List Int → Option (List Int)
  | back :: num :: rest =>
    if back < 31 then
      let bit := back.toNat * 8 + 7
      let mask := (1 : Int) <<< bit - 1
      some (U256 (if num.testBit bit then num.lor mask.lnot else num.land mask) :: rest)
    else some (num :: rest)
  | _ => none

/-- `opNot`. -/
def opNot : List Int → Option (List Int)
  | x :: rest => some (U256 x.lnot :: rest)
  | _ => none

/-- `opLt`. -/
def opLt : List Int → Option (List Int)
  | x :: y :: rest => some ((if x < y then 1 else 0) :: rest)
  | _ => none

/-- `opGt`. -/
def opGt : List Int → Option (List Int)
  | x :: y :: rest => some ((if x > y then 1 else 0) :: rest)
  | _ => none

/-- `opSlt`: a word from `tt255` on is negative. -/
def opSlt : List Int → Option (List Int)
  | x :: y :: rest =>
    let res : Int :=
      if tt255 ≤ x ∧ y < tt255 then 1
      else if x < tt255 ∧ tt255 ≤ y then 0
      else if x < y then 1 else 0
    some (res :: rest)
  | _ => none

/-- `opSgt`. -/
def opSgt : List Int → Option (List Int)
  | x :: y :: rest =>
    let res : Int :=
      if tt255 ≤ x ∧ y < tt255 then 0
      else if x < tt255 ∧ tt255 ≤ y then 1
      else if x > y then 1 else 0
    some (res :: rest)
  | _ => none

/-- `opEq`. -/
def opEq : List Int → Option (List Int)
  | x :: y :: rest => some ((if x = y then 1 else 0) :: rest)
  | _ => none

/-- `opIszero`. -/
def opIszero : List Int → Option (List Int)
  | x :: rest => some ((if x.sign > 0 then 0 else 1) :: rest)
  | _ => none

/-- `opAnd`. -/
def opAnd : List Int → Option (List Int)
  | x :: y :: rest => some (x.land y :: rest)
  | _ => none

/-- `opOr`. -/
def opOr : List Int → Option (List Int)
  | x :: y :: rest => some (x.lor y :: rest)
  | _ => none

/-- `opXor`. -/
def opXor : List Int → Option (List Int)
  | x :: y :: rest => some (Int.xor x y :: rest)
  | _ => none

/-- `opByte`: byte `th` of the word, counted from the most significant one. -/
def opByte : List Int → Option (List Int)
  | th :: val :: rest => some ((if th < 32 then ((Byte val 32 th.toNat).toNat : Int) else 0) :: rest)
  | _ => none

/-- `opAddmod`. -/
def opAddmod : List Int → Option (List Int)
  | x :: y :: z :: rest => some ((if z > 0 then U256 ((x + y) % z) else 0) :: rest)
  | _ => none

/-- `opMulmod`. -/
def opMulmod : List Int → Option (List Int)
  | x :: y :: z :: rest => some ((if z > 0 then U256 ((x * y) % z) else 0) :: rest)
  | _ => none

/-- `opSHL`: EIP-145's shift left. -/
def opSHL : List Int → Option (List Int)
  | shift :: value :: rest =>
    let shift := U256 shift
    let value := U256 value
    some ((if shift ≥ 256 then 0 else U256 (value <<< shift.toNat)) :: rest)
  | _ => none

/-- `opSHR`: EIP-145's logical shift right. -/
def opSHR : List Int → Option (List Int)
  | shift :: value :: rest =>
    let shift := U256 shift
    let value := U256 value
    some ((if shift ≥ 256 then 0 else U256 (value >>> shift.toNat)) :: rest)
  | _ => none

/-- `opSAR`: EIP-145's arithmetic shift right; by 256 or more, a value that is not
positive becomes `-1`. -/
def opSAR : List Int → Option (List Int)
  | shift :: value :: rest =>
    let shift := U256 shift
    let value := S256 value
    if shift ≥ 256 then
      some (U256 (if value.sign > 0 then 0 else -1) :: rest)
    else some (U256 (value >>> shift.toNat) :: rest)
  | _ => none

/-- The instructions on words. -/
inductive WordOp where
  | ADD | MUL | SUB | DIV | SDIV | MOD | SMOD | ADDMOD | MULMOD | EXP | SIGNEXTEND
  | LT | GT | SLT | SGT | EQ | ISZERO | AND | OR | XOR | NOT | BYTE | SHL | SHR | SAR
  deriving DecidableEq, Repr

namespace WordOp

/-- The `execute` function of each instruction in the jump table. -/
def execute : WordOp → List Int → Option (List Int)
  | ADD => opAdd
  | MUL => opMul
  | SUB => opSub
  | DIV => opDiv
  | SDIV => opSdiv
  | MOD => opMod
  | SMOD => opSmod
  | ADDMOD => opAddmod
  | MULMOD => opMulmod
  | EXP => opExp
  | SIGNEXTEND => opSignExtend
  | LT => opLt
  | GT => opGt
  | SLT => opSlt
  | SGT => opSgt
  | EQ => opEq
  | ISZERO => opIszero
  | AND => opAnd
  | OR => opOr
  | XOR => opXor
  | NOT => opNot
  | BYTE => opByte
  | SHL => opSHL
  | SHR => opSHR
  | SAR => opSAR

end WordOp

end Atlantis.Vm
