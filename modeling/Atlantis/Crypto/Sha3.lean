import Mathlib

/-!
# Keccak

`crypto/sha3`: the permutation Keccak-f[1600] (`keccakF1600`) and the sponge of `state`
(`Write`, `padAndPermute`, `Read`, `Sum`), with the parameters of `NewKeccak256`.

A lane is a number below `2 ^ 64`.  The source unrolls four rounds per loop and merges the
five steps of a round into two, as the Keccak reference code it is translated from does; one
round here is the five steps θ, ρ, π, χ, ι of that reference, in order.  The generic byte order
of `xorInGeneric` and `copyOutGeneric` (little endian) is the one modelled.

The sponge absorbs what it is given in blocks of `rate` bytes: `Write` is `absorb` of the
buffered bytes and the new ones (`Write_eq`), so a stream written in any number of pieces has
the hash of the whole (`Write_append`).
-/

namespace Atlantis.Sha3

/-! ## The permutation -/

/-- `rc`: the round constants of ι. -/
def rc : List Nat :=
  [0x0000000000000001, 0x0000000000008082, 0x800000000000808A, 0x8000000080008000,
   0x000000000000808B, 0x0000000080000001, 0x8000000080008081, 0x8000000000008009,
   0x000000000000008A, 0x0000000000000088, 0x0000000080008009, 0x000000008000000A,
   0x000000008000808B, 0x800000000000008B, 0x8000000000008089, 0x8000000000008003,
   0x8000000000008002, 0x8000000000000080, 0x000000000000800A, 0x800000008000000A,
   0x8000000080008081, 0x8000000000008080, 0x0000000080000001, 0x8000000080008008]

/-- `x<<r | x>>(64-r)` on a lane. -/
def rotl (x r : Nat) : Nat := ((x <<< r) ||| (x >>> (64 - r))) % 2 ^ 64

/-- The rotation of ρ for the lane `a[x + 5 y]`. -/
def rotations : List Nat :=
  [0, 1, 62, 28, 27, 36, 44, 6, 55, 20, 3, 10, 43, 25, 39, 41, 45, 15, 21, 8, 18, 2, 61, 56, 14]

/-- θ: each lane xored with the parities of two neighbouring columns, `bc` and `d` of the
source. -/
def theta (a : List Nat) : List Nat :=
  let bc := (List.range 5).map fun x =>
    a.getD x 0 ^^^ a.getD (x + 5) 0 ^^^ a.getD (x + 10) 0 ^^^ a.getD (x + 15) 0 ^^^ a.getD (x + 20) 0
  let d := (List.range 5).map fun x => bc.getD ((x + 4) % 5) 0 ^^^ rotl (bc.getD ((x + 1) % 5) 0) 1
  (List.range 25).map fun i => a.getD i 0 ^^^ d.getD (i % 5) 0

/-- ρ and π: the lane at `(x, y)` is the one at `((x + 3 y) mod 5, x)`, rotated. -/
def rhoPi (a : List Nat) : List Nat :=
  (List.range 25).map fun j =>
    let i := (j % 5 + 3 * (j / 5)) % 5 + 5 * (j % 5)
    rotl (a.getD i 0) (rotations.getD i 0)

/-- χ: `bc0 ^ (bc2 &^ bc1)` along each row. -/
def chi (b : List Nat) : List Nat :=
  (List.range 25).map fun i =>
    b.getD i 0 ^^^ ((b.getD ((i % 5 + 1) % 5 + 5 * (i / 5)) 0 ^^^ (2 ^ 64 - 1)) &&&
      b.getD ((i % 5 + 2) % 5 + 5 * (i / 5)) 0)

/-- One round; ι xors the round constant into the first lane. -/
def round (a : List Nat) (c : Nat) : List Nat :=
  match chi (rhoPi (theta a)) with
  | [] => []
  | x :: xs => (x ^^^ c) :: xs

/-- `keccakF1600`: the 24 rounds. -/
def keccakF1600 (a : List Nat) : List Nat := rc.foldl round a

/-! ## Lanes and bytes -/

/-- `binary.LittleEndian.Uint64`. -/
def uint64LE (b : List UInt8) : Nat :=
  (List.range 8).foldl (fun acc i => acc ||| (b.getD i 0).toNat <<< (8 * i)) 0

/-- `binary.LittleEndian.PutUint64`. -/
def putUint64LE (x : Nat) : List UInt8 := (List.range 8).map fun i => ((x >>> (8 * i)) % 256).toUInt8

/-- `xorIn`: the first `len(buf) / 8` lanes xored with the words of the buffer. -/
def xorIn (a : List Nat) (buf : List UInt8) : List Nat :=
  (List.range 25).map fun i =>
    if i < buf.length / 8 then a.getD i 0 ^^^ uint64LE (buf.drop (8 * i)) else a.getD i 0

/-- `copyOut` into a buffer of `n` bytes: the lanes, eight bytes each, while they fit. -/
def copyOut (a : List Nat) (n : Nat) : List UInt8 :=
  ((List.range (n / 8)).map fun i => putUint64LE (a.getD i 0)).flatten

/-! ## The sponge -/

/-- `state`: the lanes, the bytes of `buf`, the parameters, and the direction. -/
structure state where
  a : List Nat
  buf : List UInt8
  rate : Nat
  dsbyte : UInt8
  outputLen : Nat
  squeezing : Bool

namespace state

/-- `permute`: absorbing, the buffer goes into the lanes first; squeezing, the buffer is
refilled from the lanes after. -/
def permute (d : state) : state :=
  if d.squeezing then
    let a := keccakF1600 d.a
    { d with a := a, buf := copyOut a d.rate }
  else { d with a := keccakF1600 (xorIn d.a d.buf), buf := [] }

/-- `padAndPermute`: the domain byte, zeros to the rate, the last bit of the block, and the
turn to squeezing. -/
def padAndPermute (d : state) (dsbyte : UInt8) : state :=
  let buf := d.buf ++ [dsbyte]
  let buf := buf ++ List.replicate (d.rate - buf.length) 0
  let buf := buf.set (d.rate - 1) (buf.getD (d.rate - 1) 0 ^^^ 0x80)
  let d := permute { d with buf := buf }
  { d with squeezing := true, buf := copyOut d.a d.rate }

/-- The loop of `Write`, for at most `fuel` rounds: a whole block straight into the lanes when
the buffer is empty, otherwise into the buffer, permuting when it is full. -/
def writeLoop : Nat → state → List UInt8 → state
  | 0, d, _ => d
  | fuel + 1, d, p =>
    if p = [] then d
    else if d.buf = [] ∧ d.rate ≤ p.length then
      writeLoop fuel { d with a := keccakF1600 (xorIn d.a (p.take d.rate)) } (p.drop d.rate)
    else
      let todo := min (d.rate - d.buf.length) p.length
      let d := { d with buf := d.buf ++ p.take todo }
      writeLoop fuel (if d.buf.length = d.rate then d.permute else d) (p.drop todo)

/-- `Write`; it panics after a read (`none`). -/
def Write (d : state) (p : List UInt8) : Option state :=
  if d.squeezing then none else some (writeLoop p.length d p)

/-- The loop of `Read`, for at most `fuel` rounds: copy from the buffer, and permute when it
runs out. -/
def readLoop : Nat → state → List UInt8 → Nat → List UInt8 × state
  | 0, d, out, _ => (out, d)
  | fuel + 1, d, out, n =>
    if n = 0 then (out, d)
    else
      let k := min n d.buf.length
      let d' := { d with buf := d.buf.drop k }
      readLoop fuel (if d'.buf = [] then d'.permute else d') (out ++ d.buf.take k) (n - k)

/-- `Read` of `n` bytes, padding first if the sponge was absorbing. -/
def Read (d : state) (n : Nat) : List UInt8 × state :=
  let d := if d.squeezing then d else d.padAndPermute d.dsbyte
  readLoop (n + 1) d [] n

/-- `Sum`: `b` and `outputLen` bytes read from a copy of the sponge. -/
def Sum (d : state) (b : List UInt8) : List UInt8 := b ++ (d.Read d.outputLen).1

end state

/-- `NewKeccak256`. -/
def NewKeccak256 : state := ⟨List.replicate 25 0, [], 136, 0x01, 32, false⟩

/-- The Keccak-256 hash of the bytes, as `NewKeccak256`, `Write` and `Sum(nil)` compute it. -/
def Keccak256 (data : List UInt8) : List UInt8 :=
  ((NewKeccak256.Write data).map fun d => d.Sum []).getD []

/-! ## What `Write` absorbs -/

/-- Absorbing a stream from the lanes `a`: each whole block of `rate` bytes xored in and
permuted; the bytes left over wait in the buffer. -/
def absorb (rate : Nat) (a : List Nat) (p : List UInt8) : List Nat × List UInt8 :=
  if _h : 0 < rate ∧ rate ≤ p.length then
    absorb rate (keccakF1600 (xorIn a (p.take rate))) (p.drop rate)
  else (a, p)
termination_by p.length
decreasing_by simp only [List.length_drop]; omega

section Absorb

variable {rate : Nat} {a : List Nat} {p : List UInt8}

theorem absorb_of_lt (h : p.length < rate) : absorb rate a p = (a, p) := by
  rw [absorb, dif_neg (by omega)]

theorem absorb_of_le (h0 : 0 < rate) (h : rate ≤ p.length) :
    absorb rate a p = absorb rate (keccakF1600 (xorIn a (p.take rate))) (p.drop rate) := by
  rw [absorb, dif_pos ⟨h0, h⟩]

/-- Less than a block waits. -/
theorem length_absorb_snd (h0 : 0 < rate) (a : List Nat) (p : List UInt8) :
    (absorb rate a p).2.length < rate := by
  fun_induction absorb rate a p with
  | case1 a p h ih => exact ih
  | case2 a p h =>
    simp only
    omega

/-- Absorbing a stream in two parts: the second starts where the first left the lanes, after
the bytes the first left waiting. -/
theorem absorb_append (h0 : 0 < rate) (a : List Nat) (p q : List UInt8) :
    absorb rate a (p ++ q) = absorb rate (absorb rate a p).1 ((absorb rate a p).2 ++ q) := by
  fun_induction absorb rate a p with
  | case1 a p h ih =>
    rw [absorb_of_le h0 (by simp only [List.length_append]; omega),
      List.take_append_of_le_length h.2, List.drop_append_of_le_length h.2, ih]
  | case2 a p h => rfl

end Absorb

namespace state

variable {d : state}

theorem permute_of_absorbing (h : d.squeezing = false) :
    d.permute = { d with a := keccakF1600 (xorIn d.a d.buf), buf := [] } := by
  simp [permute, h]

/-- **The loop of `Write` absorbs** the buffered bytes and the new ones, given fuel for every
byte. -/
theorem writeLoop_eq : ∀ (fuel : Nat) (d : state) (p : List UInt8), d.squeezing = false →
    d.buf.length < d.rate → p.length ≤ fuel →
    writeLoop fuel d p =
      { d with a := (absorb d.rate d.a (d.buf ++ p)).1, buf := (absorb d.rate d.a (d.buf ++ p)).2 }
  | 0, d, p, _, hbuf, hp => by
    obtain rfl := List.length_eq_zero_iff.mp (Nat.le_zero.mp hp)
    rw [writeLoop, List.append_nil, absorb_of_lt hbuf]
  | fuel + 1, d, p, hsq, hbuf, hp => by
    by_cases hp0 : p = []
    · subst hp0
      rw [writeLoop, if_pos rfl, List.append_nil, absorb_of_lt hbuf]
    rw [writeLoop, if_neg hp0]
    have hlen : 0 < p.length := List.length_pos_iff.mpr hp0
    by_cases hfast : d.buf = [] ∧ d.rate ≤ p.length
    · -- a whole block straight into the lanes
      obtain ⟨hb, hle⟩ := hfast
      rw [if_pos ⟨hb, hle⟩, writeLoop_eq fuel { d with a := keccakF1600 (xorIn d.a (p.take d.rate)) }
        (p.drop d.rate) hsq (by simp only [hb, List.length_nil]; omega)
        (by simp only [List.length_drop]; omega)]
      simp only [hb, List.nil_append]
      rw [absorb_of_le (by omega) hle]
    rw [if_neg hfast]
    dsimp only
    by_cases hfull : (d.buf ++ p.take (min (d.rate - d.buf.length) p.length)).length = d.rate
    · -- the buffer fills up, and is absorbed with the block it ends
      have htodo : min (d.rate - d.buf.length) p.length = d.rate - d.buf.length := by
        simp only [List.length_append, List.length_take] at hfull
        omega
      rw [if_pos hfull, htodo,
        permute_of_absorbing (d := { d with buf := d.buf ++ p.take (d.rate - d.buf.length) }) hsq]
      rw [writeLoop_eq fuel
        { d with a := keccakF1600 (xorIn d.a (d.buf ++ p.take (d.rate - d.buf.length))), buf := [] }
        (p.drop (d.rate - d.buf.length)) hsq (by simp only [List.length_nil]; omega)
        (by simp only [List.length_drop]; omega)]
      have hblock : (d.buf ++ p).take d.rate = d.buf ++ p.take (d.rate - d.buf.length) := by
        rw [List.take_append, List.take_of_length_le (by omega)]
      have hrest : (d.buf ++ p).drop d.rate = p.drop (d.rate - d.buf.length) := by
        rw [List.drop_append, List.drop_of_length_le (by omega), List.nil_append]
      rw [absorb_of_le (a := d.a) (by omega) (by simp only [List.length_append]; omega), hblock,
        hrest, List.nil_append]
    · -- the bytes all wait in the buffer
      have htodo : min (d.rate - d.buf.length) p.length = p.length := by
        simp only [List.length_append, List.length_take] at hfull
        omega
      have hlt : (d.buf ++ p).length < d.rate := by
        simp only [List.length_append, List.length_take] at hfull ⊢
        omega
      rw [if_neg hfull, htodo, List.take_length, List.drop_length,
        writeLoop_eq fuel { d with buf := d.buf ++ p } [] hsq hlt (Nat.zero_le _)]
      simp only [List.append_nil]

/-- **`Write` absorbs** the buffered bytes and the new ones. -/
theorem Write_eq (hsq : d.squeezing = false) (hbuf : d.buf.length < d.rate) (p : List UInt8) :
    d.Write p = some { d with
      a := (absorb d.rate d.a (d.buf ++ p)).1
      buf := (absorb d.rate d.a (d.buf ++ p)).2 } := by
  rw [Write, if_neg (by simp [hsq]), writeLoop_eq p.length d p hsq hbuf (Nat.le_refl _)]

/-- **Writing in two pieces is writing the whole.** -/
theorem Write_append (hsq : d.squeezing = false) (hbuf : d.buf.length < d.rate)
    (p q : List UInt8) : (d.Write p).bind (·.Write q) = d.Write (p ++ q) := by
  have h0 : 0 < d.rate := by omega
  rw [Write_eq hsq hbuf p, Option.bind_some,
    Write_eq (d := { d with
      a := (absorb d.rate d.a (d.buf ++ p)).1
      buf := (absorb d.rate d.a (d.buf ++ p)).2 }) hsq (length_absorb_snd h0 _ _) q,
    Write_eq hsq hbuf (p ++ q), ← List.append_assoc, absorb_append h0 d.a (d.buf ++ p) q]

/-- The pieces of a stream, written one after another. -/
theorem foldlM_Write (ws : List (List UInt8)) : ∀ d : state, d.squeezing = false →
    d.buf.length < d.rate → ws.foldlM Write d = d.Write ws.flatten := by
  induction ws with
  | nil =>
    intro d hsq hbuf
    rw [List.foldlM_nil, List.flatten_nil, Write_eq hsq hbuf, List.append_nil, absorb_of_lt hbuf]
    rfl
  | cons w ws ih =>
    intro d hsq hbuf
    have h0 : 0 < d.rate := by omega
    rw [List.foldlM_cons, List.flatten_cons, ← Write_append hsq hbuf, Write_eq hsq hbuf w,
      Option.bind_eq_bind, Option.bind_some, Option.bind_some]
    exact ih { d with
      a := (absorb d.rate d.a (d.buf ++ w)).1
      buf := (absorb d.rate d.a (d.buf ++ w)).2 } hsq (length_absorb_snd h0 _ _)

end state

/-- **A stream written in pieces hashes as the whole**: `Write` after `Write` into a new
Keccak-256 sponge, then `Sum(nil)`, is the hash of the concatenation. -/
theorem Keccak256_foldlM_Write (ws : List (List UInt8)) :
    (ws.foldlM state.Write NewKeccak256).map (fun d => d.Sum []) = some (Keccak256 ws.flatten) := by
  have hnew : NewKeccak256.buf.length < NewKeccak256.rate := by decide
  rw [state.foldlM_Write ws _ rfl hnew, Keccak256, state.Write_eq rfl hnew]
  rfl


end Atlantis.Sha3

example : Atlantis.Sha3.Keccak256 [] =
  [0xc5, 0xd2, 0x46, 0x01, 0x86, 0xf7, 0x23, 0x3c, 0x92, 0x7e, 0x7d, 0xb2, 0xdc, 0xc7, 0x03, 0xc0,
   0xe5, 0x00, 0xb6, 0x53, 0xca, 0x82, 0x27, 0x3b, 0x7b, 0xfa, 0xd8, 0x04, 0x5d, 0x85, 0xa4, 0x70] := by
  decide +kernel
