import Atlantis.Rlp.Stream
import Atlantis.Rlp.Encbuf

/-!
# Typed values through the stream

`EncodeToBytes` and `DecodeBytes` (`rlp/encode.go`, `rlp/decode.go`) on values of a type
built from unsigned integers, booleans, strings, non-negative `*big.Int`, and structs,
arrays and slices of these.  As the source's reflection does, an array or a slice of
`uint8` is a byte string: the writers `writeByteArray` and `writeBytes`, the decoders
`decodeByteArray` and `decodeByteSlice`.

The stream is the one of the source, with its state: the bytes not read yet, the stack of
the lists it reads inside (the innermost first), and the header of the next value, which
`Kind` reads once and keeps until an operation reads the value (`willRead` rearms it).
`DecodeBytes` reads from a `bytes.Reader` with its length as the input limit, so the limit
left is the length of the bytes not read.  A failed `Kind` leaves a sticky error in the
source, which no decoder reads: each returns the error.  The context the source adds for
the type decoded at the top (`Stream.Decode`) is not modelled.

The loop of `decodeSliceElems` reads elements until the stream reports the end of the
list.  It runs here with a bound on its turns, and `fuelExhausted` is what it returns when
the bound runs out; `DecodeBytes` gives each loop as many turns as the input has bytes.

`decodeByteArray` reads a one-byte array through `Uint` and drops its error, which for a
zero byte comes before `Uint` rearms the stream: the zero byte stays cached, and the next
decoder reads it again (`decodeByteArray_cached_zero`).  `[1]byte{0}` followed by a field
does not decode, and a slice of `[1]byte` never reaches the end of its list
(`byteArray_zero_rereads`).
-/

namespace Atlantis.Rlp.Typed

/-- The types of the values the codec reads and writes. -/
inductive Ty where
  | uint (bits : Nat)
  | bool
  | string
  | bigInt
  | struct (fields : List (String × Ty))
  | array (n : Nat) (elem : Ty)
  | slice (elem : Ty)

/-- Values: the elements of a struct, an array and a slice in order; those of an array or a
slice of bytes as `uint` values. -/
inductive Val where
  | uint (n : Nat)
  | bool (b : Bool)
  | string (s : List UInt8)
  | bigInt (n : Nat)
  | list (vs : List Val)

/-- The errors of decoding: an error of the stream, `errNotInList`, the error of `Bool` on a
value other than 0 and 1, a `decodeError` with its message, type and context, and the end
of the bound on the turns of a loop. -/
inductive DecodeError where
  | stream (e : StreamError)
  | errNotInList
  | invalidBool (n : Nat)
  | decode (msg : String) (typ : Ty) (ctx : List String)
  | fuelExhausted

/-- `listpos`: how far the stream has read into a list, and the list's size. -/
structure ListPos where
  pos : Nat
  size : Nat

/-- `Stream`: the input not read yet, the lists it reads inside (the innermost first), and
the cached header of the next value (`kind` is `none` where the source holds `-1`). -/
structure Stream where
  r : List UInt8
  stack : List ListPos
  kind : Option Kind
  size : Nat
  byteval : UInt8

namespace Stream

/-- `NewStream` on a `bytes.Reader` of `b`. -/
def ofBytes (b : List UInt8) : Stream := ⟨b, [], none, 0, 0⟩

/-- `willRead`: rearms `Kind`, and checks that `n` bytes fit in the innermost list and in
the input. -/
def willRead (n : Nat) (s : Stream) : Except StreamError Stream :=
  let s := { s with kind := none }
  match s.stack with
  | tos :: outer =>
    -- check list overflow
    if n > tos.size - tos.pos then .error .errElemTooLarge
    else if n > s.r.length then .error .errValueTooLarge
    else .ok { s with stack := { tos with pos := tos.pos + n } :: outer }
  | [] => if n > s.r.length then .error .errValueTooLarge else .ok s

/-- `readByte`. -/
def readByte (s : Stream) : Except StreamError (UInt8 × Stream) :=
  (willRead 1 s).bind fun s =>
    match s.r with
    | b :: r => .ok (b, { s with r := r })
    -- not reached: `willRead` checked the input left
    | [] => .error .errValueTooLarge

/-- `readFull`. -/
def readFull (n : Nat) (s : Stream) : Except StreamError (List UInt8 × Stream) :=
  (willRead n s).map fun s => (s.r.take n, { s with r := s.r.drop n })

/-- `readUint`: a big-endian value of `size` bytes, without a leading zero byte when there
are several. -/
def readUint (size : Nat) (s : Stream) : Except StreamError (Nat × Stream) :=
  match size with
  | 0 => .ok (0, { s with kind := none })
  | 1 => (readByte s).map fun (b, s) => (b.toNat, s)
  | size => (readFull size s).bind fun (buf, s) =>
      if buf.headD 0 = 0 then .error .errCanonSize else .ok (bigEndian buf, s)

/-- `readKind`: the header of the next value. -/
def readKind (s : Stream) : Except StreamError ((Kind × Nat) × Stream) :=
  match readByte s with
  | .error e =>
    -- at toplevel, adjust the error to actual EOF
    .error (if s.stack = [] ∧ e = .errValueTooLarge then .eof else e)
  | .ok (b, s) =>
    let s := { s with byteval := 0 }
    if b.toNat < 0x80 then .ok ((.byte, 0), { s with byteval := b })
    else if b.toNat < 0xB8 then .ok ((.string, b.toNat - 0x80), s)
    else if b.toNat < 0xC0 then
      (readUint (b.toNat - 0xB7) s).bind fun (size, s) =>
        if size < 56 then .error .errCanonSize else .ok ((.string, size), s)
    else if b.toNat < 0xF8 then .ok ((.list, b.toNat - 0xC0), s)
    else
      (readUint (b.toNat - 0xF7) s).bind fun (size, s) =>
        if size < 56 then .error .errCanonSize else .ok ((.list, size), s)

/-- A header read afresh, checked against the input left at the top level and against the
list left inside a list, and cached. -/
def readChecked (s : Stream) : Except StreamError ((Kind × Nat) × Stream) :=
  (readKind s).bind fun ((k, size), s) =>
    let fits : Bool := match s.stack with
      | [] => decide (size ≤ s.r.length)
      | tos :: _ => decide (size ≤ tos.size - tos.pos)
    if fits then .ok ((k, size), { s with kind := some k, size := size })
    else .error (if s.stack = [] then .errValueTooLarge else .errElemTooLarge)

/-- `Kind`: the cached header, or a header read afresh; at the end of the innermost list
there is none. -/
def Kind (s : Stream) : Except StreamError ((Rlp.Kind × Nat) × Stream) :=
  match s.kind with
  | some k => .ok ((k, s.size), s)
  | none =>
    match s.stack with
    | tos :: _ => if tos.pos = tos.size then .error .eol else readChecked s
    | [] => readChecked s

/-- `Bytes`. -/
def bytes (s : Stream) : Except StreamError (List UInt8 × Stream) :=
  (Kind s).bind fun ((k, size), s) =>
    match k with
    | .byte => .ok ([s.byteval], { s with kind := none })
    | .string =>
      (readFull size s).bind fun (b, s) =>
        if size = 1 ∧ (b.headD 0).toNat < 128 then .error .errCanonSize else .ok (b, s)
    | .list => .error .errExpectedString

/-- `uint`: an integer of at most `maxbits` bits.  A zero byte is an error, returned before
the stream is rearmed. -/
def uint (maxbits : Nat) (s : Stream) : Except StreamError (Nat × Stream) :=
  (Kind s).bind fun ((k, size), s) =>
    match k with
    | .byte =>
      if s.byteval = 0 then .error .errCanonInt
      else .ok (s.byteval.toNat, { s with kind := none })
    | .string =>
      if size > maxbits / 8 then .error .errUintOverflow
      else
        match readUint size s with
        -- Adjust error because we're not reading a size right now.
        | .error .errCanonSize => .error .errCanonInt
        | .error e => .error e
        | .ok (v, s) => if 0 < size ∧ v < 128 then .error .errCanonSize else .ok (v, s)
    | .list => .error .errExpectedString

/-- `Bool`. -/
def bool (s : Stream) : Except DecodeError (Bool × Stream) :=
  match uint 8 s with
  | .error e => .error (.stream e)
  | .ok (0, s) => .ok (false, s)
  | .ok (1, s) => .ok (true, s)
  | .ok (n, _) => .error (.invalidBool n)

/-- `List`: enters a list of the size its header announces. -/
def list (s : Stream) : Except StreamError (Nat × Stream) :=
  (Kind s).bind fun ((k, size), s) =>
    if k = .list then .ok (size, { s with stack := ⟨0, size⟩ :: s.stack, kind := none, size := 0 })
    else .error .errExpectedList

/-- `ListEnd`: the stream must be at the end of the innermost list, which then counts as
read in the enclosing one. -/
def listEnd (s : Stream) : Except DecodeError Stream :=
  match s.stack with
  | [] => .error .errNotInList
  | tos :: outer =>
    if tos.pos ≠ tos.size then .error (.stream .errNotAtEOL)
    else
      let outer := match outer with
        | parent :: rest => { parent with pos := parent.pos + tos.size } :: rest
        | [] => []
      .ok { s with stack := outer, kind := none, size := 0 }

end Stream

/-! ## Decoders -/

/-- A decoder of one value. -/
abbrev Decoder := Stream → Except DecodeError (Val × Stream)

/-- `wrapStreamError`. -/
def wrapStreamError (err : DecodeError) (typ : Ty) : DecodeError :=
  match err with
  | .stream .errCanonInt => .decode "non-canonical integer (leading zero bytes)" typ []
  | .stream .errCanonSize => .decode "non-canonical size information" typ []
  | .stream .errExpectedList => .decode "expected input list" typ []
  | .stream .errExpectedString => .decode "expected input string or byte" typ []
  | .stream .errUintOverflow => .decode "input string too long" typ []
  | .stream .errNotAtEOL => .decode "input list has too many elements" typ []
  | e => e

/-- `addErrorContext`. -/
def addErrorContext (err : DecodeError) (ctx : String) : DecodeError :=
  match err with
  | .decode msg typ c => .decode msg typ (c ++ [ctx])
  | e => e

/-- `decodeUint`. -/
def decodeUint (bits : Nat) : Decoder := fun s =>
  match Stream.uint bits s with
  | .error e => .error (wrapStreamError (.stream e) (.uint bits))
  | .ok (n, s) => .ok (.uint n, s)

/-- `decodeBool`. -/
def decodeBool : Decoder := fun s =>
  match Stream.bool s with
  | .error e => .error (wrapStreamError e .bool)
  | .ok (b, s) => .ok (.bool b, s)

/-- `decodeString`. -/
def decodeString : Decoder := fun s =>
  match Stream.bytes s with
  | .error e => .error (wrapStreamError (.stream e) .string)
  | .ok (b, s) => .ok (.string b, s)

/-- `decodeBigInt`: leading zero bytes are rejected. -/
def decodeBigInt : Decoder := fun s =>
  match Stream.bytes s with
  | .error e => .error (wrapStreamError (.stream e) .bigInt)
  | .ok (b, s) =>
    if 0 < b.length ∧ b.headD 0 = 0 then .error (wrapStreamError (.stream .errCanonInt) .bigInt)
    else .ok (.bigInt (bigEndian b), s)

/-- The bytes of a byte array or slice as values. -/
def byteVals (b : List UInt8) : Val :=
  .list (b.map fun x => .uint x.toNat)

/-- `decodeByteSlice`. -/
def decodeByteSlice : Decoder := fun s =>
  match Stream.bytes s with
  | .error e => .error (wrapStreamError (.stream e) (.slice (.uint 8)))
  | .ok (b, s) => .ok (byteVals b, s)

/-- `decodeByteArray` into `[vlen]byte`.  A single byte is read by `Uint`, whose error is
dropped: for a zero byte it comes before `Uint` rearms the stream, which is left as `Kind`
left it, the byte still cached. -/
def decodeByteArray (vlen : Nat) : Decoder := fun s =>
  let typ : Ty := .array vlen (.uint 8)
  match Stream.Kind s with
  | .error e => .error (.stream e)
  | .ok ((k, size), s) =>
    match k with
    | .byte =>
      if vlen = 0 then .error (.decode "input string too long" typ [])
      else if vlen > 1 then .error (.decode "input string too short" typ [])
      else
        -- bv, _ := s.Uint()
        match Stream.uint 64 s with
        | .ok (bv, s') => .ok (.list [.uint bv], s')
        | .error _ => .ok (.list [.uint 0], s)
    | .string =>
      if vlen < size then .error (.decode "input string too long" typ [])
      else if vlen > size then .error (.decode "input string too short" typ [])
      else
        match Stream.readFull vlen s with
        | .error e => .error (.stream e)
        | .ok (b, s) =>
          -- Reject cases where single byte encoding should have been used.
          if size = 1 ∧ (b.headD 0).toNat < 128 then
            .error (wrapStreamError (.stream .errCanonSize) typ)
          else .ok (byteVals b, s)
    | .list => .error (wrapStreamError (.stream .errExpectedString) typ)

/-- The loop of `decodeListArray` over at most `k` elements, the `i`-th next; the end of
the list stops it. -/
def arrayElems (elemdec : Decoder) : Nat → Nat → Stream → Except DecodeError (List Val × Stream)
  | 0, _, s => .ok ([], s)
  | k + 1, i, s =>
    match elemdec s with
    | .error (.stream .eol) => .ok ([], s)
    | .error e => .error (addErrorContext e ("[" ++ toString i ++ "]"))
    | .ok (v, s) => (arrayElems elemdec k (i + 1) s).map fun (vs, s) => (v :: vs, s)

/-- `decodeListArray`: exactly `vlen` elements. -/
def decodeListArray (typ : Ty) (vlen : Nat) (elemdec : Decoder) : Decoder := fun s =>
  match Stream.list s with
  | .error e => .error (wrapStreamError (.stream e) typ)
  | .ok (_, s) =>
    match arrayElems elemdec vlen 0 s with
    | .error e => .error e
    | .ok (vs, s) =>
      if vs.length < vlen then .error (.decode "input list has too few elements" typ [])
      else
        match Stream.listEnd s with
        | .error e => .error (wrapStreamError e typ)
        | .ok s => .ok (.list vs, s)

/-- `decodeSliceElems`: elements until the end of the list, the `i`-th next, within a bound
of `fuel` turns. -/
def decodeSliceElems (elemdec : Decoder) : Nat → Nat → Stream →
    Except DecodeError (List Val × Stream)
  | 0, _, _ => .error .fuelExhausted
  | fuel + 1, i, s =>
    match elemdec s with
    | .error (.stream .eol) => .ok ([], s)
    | .error e => .error (addErrorContext e ("[" ++ toString i ++ "]"))
    | .ok (v, s) => (decodeSliceElems elemdec fuel (i + 1) s).map fun (vs, s) => (v :: vs, s)

/-- `decodeListSlice`. -/
def decodeListSlice (typ : Ty) (fuel : Nat) (elemdec : Decoder) : Decoder := fun s =>
  match Stream.list s with
  | .error e => .error (wrapStreamError (.stream e) typ)
  | .ok (size, s) =>
    if size = 0 then (Stream.listEnd s).map fun s => (.list [], s)
    else
      match decodeSliceElems elemdec fuel 0 s with
      | .error e => .error e
      | .ok (vs, s) => (Stream.listEnd s).map fun s => (.list vs, s)

mutual
/-- The decoder `makeDecoder` chooses for a type, each loop over the elements of a slice
bounded by `fuel` turns. -/
def decodeValue (fuel : Nat) : Ty → Decoder
  | .uint bits => decodeUint bits
  | .bool => decodeBool
  | .string => decodeString
  | .bigInt => decodeBigInt
  | .array n (.uint 8) => decodeByteArray n
  | .slice (.uint 8) => decodeByteSlice
  | .array n t => decodeListArray (.array n t) n (decodeValue fuel t)
  | .slice t => decodeListSlice (.slice t) fuel (decodeValue fuel t)
  | .struct fields => fun s =>
    match Stream.list s with
    | .error e => .error (wrapStreamError (.stream e) (.struct fields))
    | .ok (_, s) =>
      match decodeFields fuel (.struct fields) fields s with
      | .error e => .error e
      | .ok (vs, s) =>
        match Stream.listEnd s with
        | .error e => .error (wrapStreamError e (.struct fields))
        | .ok s => .ok (.list vs, s)

/-- The fields of a struct (`makeStructDecoder`), each in its turn. -/
def decodeFields (fuel : Nat) (typ : Ty) : List (String × Ty) → Stream →
    Except DecodeError (List Val × Stream)
  | [], s => .ok ([], s)
  | (name, t) :: rest, s =>
    match decodeValue fuel t s with
    | .error (.stream .eol) => .error (.decode "too few elements" typ [])
    | .error e => .error (addErrorContext e ("." ++ name))
    | .ok (v, s) => (decodeFields fuel typ rest s).map fun (vs, s) => (v :: vs, s)
end

/-- `DecodeBytes`: one value, and no bytes after it. -/
def DecodeBytes (typ : Ty) (b : List UInt8) : Except DecodeError Val :=
  match decodeValue (b.length + 1) typ (Stream.ofBytes b) with
  | .error e => .error e
  | .ok (v, s) => if s.r = [] then .ok v else .error (.stream .errMoreThanOneValue)

/-! ## Writers -/

/-- `writeUint`. -/
def writeUint (i : Nat) (w : Encbuf) : Encbuf :=
  if i = 0 then { w with str := w.str ++ [0x80] }
  else if i < 128 then
    -- fits single byte
    { w with str := w.str ++ [UInt8.ofNat i] }
  else { w with str := w.str ++ (UInt8.ofNat (0x80 + (putint i).length) :: putint i) }

/-- `writeBool`. -/
def writeBool (b : Bool) (w : Encbuf) : Encbuf :=
  if b then { w with str := w.str ++ [0x01] } else { w with str := w.str ++ [0x80] }

/-- `writeBigInt` on a non-negative integer, whose `Bytes` are its big-endian bytes without
leading zeros. -/
def writeBigInt (i : Nat) (w : Encbuf) : Encbuf :=
  if i = 0 then { w with str := w.str ++ [0x80] } else w.encodeString (putint i)

/-- `writeString`. -/
def writeString (s : List UInt8) (w : Encbuf) : Encbuf :=
  if s.length = 1 ∧ (s.headD 0).toNat ≤ 0x7F then
    -- fits single byte, no string header
    { w with str := w.str ++ [s.headD 0] }
  else
    let w := w.encodeStringHeader s.length
    { w with str := w.str ++ s }

/-- The bytes of a byte array or slice. -/
def valBytes (vs : List Val) : List UInt8 :=
  vs.map fun | .uint n => UInt8.ofNat n | _ => 0

mutual
/-- The writer `makeWriter` chooses for a type, on a value of the type. -/
def writeValue : Ty → Val → Encbuf → Encbuf
  | .uint _, .uint i, w => writeUint i w
  | .bool, .bool b, w => writeBool b w
  | .string, .string s, w => writeString s w
  | .bigInt, .bigInt i, w => writeBigInt i w
  | .slice (.uint 8), .list vs, w => w.encodeString (valBytes vs)
  | .array _ (.uint 8), .list vs, w => w.encodeString (valBytes vs)
  | .slice t, .list vs, w =>
    let (w, lh) := w.list
    (writeElems t vs w).listEnd lh
  | .array _ t, .list vs, w =>
    let (w, lh) := w.list
    (writeElems t vs w).listEnd lh
  | .struct fields, .list vs, w =>
    let (w, lh) := w.list
    (writeFields fields vs w).listEnd lh
  | _, _, w => w

/-- The elements of an array or a slice. -/
def writeElems (t : Ty) : List Val → Encbuf → Encbuf
  | [], w => w
  | v :: vs, w => writeElems t vs (writeValue t v w)

/-- The fields of a struct. -/
def writeFields : List (String × Ty) → List Val → Encbuf → Encbuf
  | (_, t) :: fields, v :: vs, w => writeFields fields vs (writeValue t v w)
  | _, _, w => w
end

/-- `EncodeToBytes` on a value of a type. -/
def EncodeToBytes (typ : Ty) (v : Val) : List UInt8 :=
  (writeValue typ v Encbuf.reset).toBytes

/-! ## The typed writer lays out an encoding -/

theorem appends_writeUint (i : Nat) : Appends (writeUint i) :=
  Appends.of_str fun w => by
    unfold writeUint
    split_ifs <;> rfl

theorem appends_writeBool (b : Bool) : Appends (writeBool b) :=
  Appends.of_str fun w => by
    unfold writeBool
    split_ifs <;> rfl

theorem appends_encodeString (b : List UInt8) : Appends fun w => w.encodeString b :=
  Appends.of_str fun w => by simp [Encbuf.encodeString_str, Encbuf.reset]

theorem appends_writeBigInt (i : Nat) : Appends (writeBigInt i) :=
  Appends.of_str fun w => by
    unfold writeBigInt
    split_ifs
    · rfl
    · simp [Encbuf.encodeString_str, Encbuf.reset]

/-- **The typed writer is a writer**: every value of every type is written the same onto
any buffer, the headers of its lists laid out in what it writes. -/
theorem appends_writeValue (t : Ty) (v : Val) : Appends (writeValue t v) :=
  writeValue.induct (fun t v _ => Appends (writeValue t v))
    (fun fields vs _ => Appends (writeFields fields vs)) (fun t vs _ => Appends (writeElems t vs))
    (fun _ i _ => appends_writeUint i)
    (fun b _ => appends_writeBool b)
    (fun s _ => appends_encodeString s)
    (fun i _ => appends_writeBigInt i)
    (fun vs _ => appends_encodeString (valBytes vs))
    (fun _ vs _ => appends_encodeString (valBytes vs))
    (fun t vs _ ht _ _ _ ih => by
      have h : writeValue t.slice (.list vs) = fun w => (writeElems t vs w.list.1).listEnd w.list.2 :=
        funext fun w => writeValue.eq_7 w t vs ht
      rw [h]
      exact ih.wrap)
    (fun n t vs _ ht _ _ _ ih => by
      have h : writeValue (.array n t) (.list vs) =
          fun w => (writeElems t vs w.list.1).listEnd w.list.2 :=
        funext fun w => writeValue.eq_8 w n t vs ht
      rw [h]
      exact ih.wrap)
    (fun fields vs _ _ _ _ ih => ih.wrap)
    (fun v t _ h₁ h₂ h₃ h₄ h₅ h₆ h₇ h₈ h₉ => by
      have h : writeValue t v = fun w => w :=
        funext fun w => writeValue.eq_10 t v w h₁ h₂ h₃ h₄ h₅ h₆ h₇ h₈ h₉
      rw [h]
      exact Appends.id)
    (fun _ _ _ _ _ _ ih₁ ih₂ => ih₁.comp ih₂)
    (fun vs fields _ h => by
      have hid : writeFields fields vs = fun w => w := funext fun w => writeFields.eq_2 fields vs w h
      rw [hid]
      exact Appends.id)
    (fun _ _ => Appends.id)
    (fun _ _ _ _ ih₁ ih₂ => ih₁.comp ih₂)
    t v Encbuf.reset

/-! ## A zero byte read twice -/

namespace Stream

/-- `Kind` returns a cached header and leaves the stream as it is. -/
theorem Kind_cached {s : Stream} {k : Rlp.Kind} (h : s.kind = some k) :
    Kind s = .ok ((k, s.size), s) := by
  simp [Kind, h]

/-- `Uint` on a cached zero byte fails with `ErrCanonInt`, before it rearms the stream. -/
theorem uint_cached_zero {s : Stream} (hk : s.kind = some .byte) (hb : s.byteval = 0)
    (maxbits : Nat) : uint maxbits s = .error .errCanonInt := by
  simp [uint, Kind_cached hk, Except.bind, hb]

end Stream

/-- **A cached zero byte is read again**: `decodeByteArray` into `[1]byte` drops the error
of `Uint`, and returns the byte with the stream as it found it, the byte still cached. -/
theorem decodeByteArray_cached_zero {s : Stream} (hk : s.kind = some .byte)
    (hb : s.byteval = 0) : decodeByteArray 1 s = .ok (.list [.uint 0], s) := by
  simp [decodeByteArray, Stream.Kind_cached hk, Stream.uint_cached_zero hk hb]

/-- A loop over the elements of a slice whose element decoder returns the stream it was
given never reaches the end of the list: it runs out of every bound. -/
theorem decodeSliceElems_stuck {elemdec : Decoder} {s : Stream} {v : Val}
    (h : elemdec s = .ok (v, s)) : ∀ fuel i, decodeSliceElems elemdec fuel i s = .error .fuelExhausted
  | 0, _ => rfl
  | fuel + 1, i => by
    rw [decodeSliceElems, h]
    simp only
    rw [decodeSliceElems_stuck h fuel (i + 1)]
    rfl

/-- `[1]byte{0}` followed by a field, and a slice of `[1]byte{0}`: the encoder writes the
zero byte as itself, and the decoder reads it again for the next field, or for the next
element with no end, whatever the bound on the loop. -/
theorem byteArray_zero_rereads :
    EncodeToBytes (.struct [("A", .array 1 (.uint 8)), ("B", .uint 64)])
        (.list [.list [.uint 0], .uint 5]) = [0xC2, 0x00, 0x05] ∧
      DecodeBytes (.struct [("A", .array 1 (.uint 8)), ("B", .uint 64)]) [0xC2, 0x00, 0x05] =
        .error (.decode "non-canonical integer (leading zero bytes)" (.uint 64) [".B"]) ∧
      EncodeToBytes (.slice (.array 1 (.uint 8))) (.list [.list [.uint 0]]) = [0xC1, 0x00] ∧
      ∀ fuel, decodeValue fuel (.slice (.array 1 (.uint 8))) (Stream.ofBytes [0xC1, 0x00]) =
        .error .fuelExhausted := by
  refine ⟨rfl, rfl, rfl, ?_⟩
  intro fuel
  -- the list header opens a list of one byte; its first element caches the zero byte and
  -- returns it, and every element after reads it again
  have hlist : Stream.list (Stream.ofBytes [0xC1, 0x00]) =
      .ok (1, ⟨[0x00], [⟨0, 1⟩], none, 0, 0⟩) := rfl
  have hfirst : decodeByteArray 1 ⟨[0x00], [⟨0, 1⟩], none, 0, 0⟩ =
      .ok (.list [.uint 0], ⟨[], [⟨1, 1⟩], some .byte, 0, 0⟩) := rfl
  have hagain := decodeByteArray_cached_zero (s := ⟨[], [⟨1, 1⟩], some .byte, 0, 0⟩) rfl rfl
  have hloop : decodeSliceElems (decodeByteArray 1) fuel 0 ⟨[0x00], [⟨0, 1⟩], none, 0, 0⟩ =
      .error .fuelExhausted := by
    cases fuel with
    | zero => rfl
    | succ fuel =>
      rw [decodeSliceElems, hfirst]
      simp only
      rw [decodeSliceElems_stuck hagain]
      rfl
  simp only [decodeValue, decodeListSlice, hlist, one_ne_zero, if_false, hloop]

end Atlantis.Rlp.Typed
