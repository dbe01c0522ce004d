import Atlantis.Rlp.Raw

/-!
# Reading values from an RLP stream

The parts of `rlp.Stream` (`rlp/decode.go`) that decoders built on it use: `Kind`, `Bytes`,
`Raw`, `Uint`, `List` and `ListEnd`, and `DecodeBytes`, which decodes one value and rejects
trailing bytes.

A stream reads either at the top level of its input, limited to the bytes that remain, or
inside a list, limited to what remains of the list.  Both are modelled by the bytes the
stream may still read and a flag `top`; the flag decides which error a value too large for
what remains raises (`ErrValueTooLarge` at the top level, `ErrElemTooLarge` in a list) and
what the end of the input is (`io.EOF`, or `EOL` at the end of a list).  The stream's
cached kind is not modelled: every operation reads its value's header anew, as the source
does after each value.  The source wraps some of these errors with the type being decoded;
the model keeps the error itself.

Unlike the raw splitting functions of `rlp/raw.go`, `Kind` accepts a one-byte string that
should have been a single byte; `Bytes` and `Uint` reject it afterwards.
-/

namespace Atlantis.Rlp

/-- The errors of `rlp.Stream`. -/
inductive StreamError where
  | eol
  | eof
  | errValueTooLarge
  | errElemTooLarge
  | errCanonSize
  | errCanonInt
  | errUintOverflow
  | errExpectedString
  | errExpectedList
  | errNotAtEOL
  | errMoreThanOneValue
  deriving DecidableEq, Repr

/-- What a header announces: the kind, the content size (zero for a single byte), the
byte of a single byte, and the input after the header. -/
structure Head where
  kind : Kind
  size : Nat
  byteval : UInt8
  rest : List UInt8

namespace Stream

/-- The error of a read past the end of what the stream may read. -/
def tooLarge (top : Bool) : StreamError :=
  if top then .errValueTooLarge else .errElemTooLarge

/-- `readUint`: the big-endian value of the next `size` bytes, for a length in a header or
an integer.  A leading zero byte is not canonical. -/
def readUint (top : Bool) (size : Nat) (b : List UInt8) : Except StreamError (Nat × List UInt8) :=
  if size = 0 then .ok (0, b)
  else if b.length < size then .error (tooLarge top)
  else if size = 1 then .ok ((b.headD 0).toNat, b.drop 1)
  else if b.headD 0 = 0 then .error .errCanonSize
  else .ok (bigEndian (b.take size), b.drop size)

/-- `readKind`: the header of the next value. -/
def readHead (top : Bool) (x : UInt8) (rest : List UInt8) : Except StreamError Head :=
  if x.toNat < 0x80 then .ok ⟨.byte, 0, x, rest⟩
  else if x.toNat < 0xB8 then .ok ⟨.string, x.toNat - 0x80, 0, rest⟩
  else if x.toNat < 0xC0 then
    (readUint top (x.toNat - 0xB7) rest).bind fun (size, rest) =>
      if size < 56 then .error .errCanonSize else .ok ⟨.string, size, 0, rest⟩
  else if x.toNat < 0xF8 then .ok ⟨.list, x.toNat - 0xC0, 0, rest⟩
  else
    (readUint top (x.toNat - 0xF7) rest).bind fun (size, rest) =>
      if size < 56 then .error .errCanonSize else .ok ⟨.list, size, 0, rest⟩

/-- `Kind`: the header of the next value, which must fit in what the stream may read; at
the end of the input or of the list there is no value. -/
def kind (top : Bool) : List UInt8 → Except StreamError Head
  | [] => .error (if top then .eof else .eol)
  | x :: rest =>
    (readHead top x rest).bind fun h =>
      if h.rest.length < h.size then .error (tooLarge top) else .ok h

/-- `Bytes`: the content of a string. -/
def bytes (top : Bool) (b : List UInt8) : Except StreamError (List UInt8 × List UInt8) :=
  (kind top b).bind fun h =>
    match h.kind with
    | .byte => .ok ([h.byteval], h.rest)
    | .string =>
      let content := h.rest.take h.size
      if h.size = 1 ∧ (content.headD 0).toNat < 128 then .error .errCanonSize
      else .ok (content, h.rest.drop h.size)
    | .list => .error .errExpectedString

/-- `Raw`: the encoding of the next value, its header written anew by `puthead`. -/
def raw (top : Bool) (b : List UInt8) : Except StreamError (List UInt8 × List UInt8) :=
  (kind top b).bind fun h =>
    match h.kind with
    | .byte => .ok ([h.byteval], h.rest)
    | .string => .ok (puthead 0x80 0xB7 h.size ++ h.rest.take h.size, h.rest.drop h.size)
    | .list => .ok (puthead 0xC0 0xF7 h.size ++ h.rest.take h.size, h.rest.drop h.size)

/-- `Uint`: an integer of at most eight bytes without leading zeros. -/
def uint (top : Bool) (b : List UInt8) : Except StreamError (Nat × List UInt8) :=
  (kind top b).bind fun h =>
    match h.kind with
    | .byte => if h.byteval = 0 then .error .errCanonInt else .ok (h.byteval.toNat, h.rest)
    | .string =>
      if 8 < h.size then .error .errUintOverflow
      else
        match readUint top h.size h.rest with
        -- Adjust error because we're not reading a size right now.
        | .error .errCanonSize => .error .errCanonInt
        | .error e => .error e
        | .ok (v, rest) => if 0 < h.size ∧ v < 128 then .error .errCanonSize else .ok (v, rest)
    | .list => .error .errExpectedString

/-- `List`: the content of a list, which the stream then reads inside, and the input after
the list. -/
def list (top : Bool) (b : List UInt8) : Except StreamError (List UInt8 × List UInt8) :=
  (kind top b).bind fun h =>
    if h.kind = .list then .ok (h.rest.take h.size, h.rest.drop h.size)
    else .error .errExpectedList

/-- `ListEnd`: the stream must be at the end of the list. -/
def listEnd (content : List UInt8) : Except StreamError Unit :=
  if content = [] then .ok () else .error .errNotAtEOL

/-- `DecodeBytes`: a value decoded at the top level of `b`, with no bytes after it. -/
def decodeBytes {α : Type} (dec : Bool → List UInt8 → Except StreamError (α × List UInt8))
    (b : List UInt8) : Except StreamError α :=
  (dec true b).bind fun (v, rest) =>
    if rest = [] then .ok v else .error .errMoreThanOneValue

/-! ## Reading back what the encoder writes -/

/-- The bytes `putint` writes read back as the integer, whether as a size or as a value. -/
theorem readUint_putint (top : Bool) (i : Nat) (rest : List UInt8) (hi0 : 0 < i)
    (hi : i < 2 ^ 64) : readUint top (putint i).length (putint i ++ rest) = .ok (i, rest) := by
  obtain ⟨hl1, hl8⟩ := length_putint_of_lt i hi
  have hv := bigEndian_putint i
  unfold readUint
  rw [if_neg (by omega), if_neg (by simp)]
  split
  · next h1 =>
    -- one byte: the value is that byte
    obtain ⟨x, hx⟩ := List.length_eq_one_iff.mp h1
    rw [hx] at hv ⊢
    simp only [bigEndian, List.foldl_cons, List.foldl_nil, zero_mul, zero_add] at hv
    simp [hv]
  · -- several bytes: the first is not zero
    have hhd : (putint i ++ rest).headD 0 = (putint i).headD 0 := by
      cases h : putint i with
      | nil => exact absurd h (putint_ne_nil i)
      | cons _ _ => rfl
    rw [hhd, if_neg (headD_putint_ne_zero i hi0)]
    simp [hv]

theorem readHead_short (top : Bool) (tag n : Nat) (hn : n < 56) (rest : List UInt8)
    (htag : tag = 0x80 ∨ tag = 0xC0) :
    readHead top (UInt8.ofNat (tag + n)) rest =
      .ok ⟨if tag = 0x80 then .string else .list, n, 0, rest⟩ := by
  unfold readHead
  rcases htag with rfl | rfl
  · rw [toNat_ofNat_header _ _ (by omega)]
    simp only [show ¬ 0x80 + n < 0x80 by omega, show 0x80 + n < 0xB8 by omega, if_false,
      if_true, Nat.add_sub_cancel_left]
  · rw [toNat_ofNat_header _ _ (by omega)]
    simp only [show ¬ 0xC0 + n < 0x80 by omega, show ¬ 0xC0 + n < 0xB8 by omega,
      show ¬ 0xC0 + n < 0xC0 by omega, show 0xC0 + n < 0xF8 by omega, if_false, if_true,
      Nat.add_sub_cancel_left]
    rfl

theorem readHead_long (top : Bool) (tag n : Nat) (hn : 56 ≤ n) (hsize : n < 2 ^ 64)
    (rest : List UInt8) (htag : tag = 0xB7 ∨ tag = 0xF7) :
    readHead top (UInt8.ofNat (tag + (putint n).length)) (putint n ++ rest) =
      .ok ⟨if tag = 0xB7 then .string else .list, n, 0, rest⟩ := by
  obtain ⟨hl1, hl8⟩ := length_putint_of_lt n hsize
  unfold readHead
  rcases htag with rfl | rfl
  · rw [toNat_ofNat_header _ _ (by omega)]
    simp only [show ¬ 0xB7 + (putint n).length < 0x80 by omega,
      show ¬ 0xB7 + (putint n).length < 0xB8 by omega,
      show 0xB7 + (putint n).length < 0xC0 by omega, if_false, if_true,
      Nat.add_sub_cancel_left, readUint_putint top n rest (by omega) hsize, Except.bind]
    rw [if_neg (by omega)]
  · rw [toNat_ofNat_header _ _ (by omega)]
    simp only [show ¬ 0xF7 + (putint n).length < 0x80 by omega,
      show ¬ 0xF7 + (putint n).length < 0xB8 by omega,
      show ¬ 0xF7 + (putint n).length < 0xC0 by omega,
      show ¬ 0xF7 + (putint n).length < 0xF8 by omega, if_false,
      Nat.add_sub_cancel_left, readUint_putint top n rest (by omega) hsize, Except.bind]
    rw [if_neg (by omega)]
    rfl

/-- A header `puthead` writes, followed by its content, reads back as a value of that
size whose content starts right after the header. -/
theorem kind_puthead (top : Bool) (small large : Nat) (payload rest : List UInt8)
    (htag : small = 0x80 ∧ large = 0xB7 ∨ small = 0xC0 ∧ large = 0xF7)
    (hsize : payload.length < 2 ^ 64) :
    kind top (puthead small large payload.length ++ payload ++ rest) =
      .ok ⟨if small = 0x80 then .string else .list, payload.length, 0, payload ++ rest⟩ := by
  unfold puthead
  split
  · next hs =>
    rw [List.singleton_append, List.cons_append, kind,
      readHead_short top small _ hs _ (by omega)]
    simp only [Except.bind]
    rw [if_neg (by simp)]
  · next hs =>
    have hlarge : large = 0xB7 ∨ large = 0xF7 := by omega
    have hk : (if large = 0xB7 then Kind.string else .list) =
        if small = 0x80 then .string else .list := by
      rcases htag with ⟨rfl, rfl⟩ | ⟨rfl, rfl⟩ <;> rfl
    simp only [List.cons_append, List.append_assoc]
    rw [kind, readHead_long top large _ (by omega) hsize _ hlarge, hk]
    simp only [Except.bind]
    rw [if_neg (by simp)]

theorem kind_puthead_list (top : Bool) (payload rest : List UInt8)
    (hsize : payload.length < 2 ^ 64) :
    kind top (puthead 0xC0 0xF7 payload.length ++ payload ++ rest) =
      .ok ⟨.list, payload.length, 0, payload ++ rest⟩ :=
  kind_puthead top 0xC0 0xF7 payload rest (by omega) hsize

theorem kind_puthead_string (top : Bool) (payload rest : List UInt8)
    (hsize : payload.length < 2 ^ 64) :
    kind top (puthead 0x80 0xB7 payload.length ++ payload ++ rest) =
      .ok ⟨.string, payload.length, 0, payload ++ rest⟩ :=
  kind_puthead top 0x80 0xB7 payload rest (by omega) hsize

/-- A single byte below `0x80` is a value of its own. -/
theorem kind_byte (top : Bool) (x : UInt8) (hx : x.toNat < 0x80) (rest : List UInt8) :
    kind top (x :: rest) = .ok ⟨.byte, 0, x, rest⟩ := by
  simp [kind, readHead, hx, Except.bind]

/-- `List` reads back the payload of a list header. -/
theorem list_puthead (top : Bool) (payload rest : List UInt8) (hsize : payload.length < 2 ^ 64) :
    list top (puthead 0xC0 0xF7 payload.length ++ payload ++ rest) = .ok (payload, rest) := by
  rw [list, kind_puthead_list top payload rest hsize]
  simp [Except.bind]

/-- `Bytes` reads back what `encodeString` writes. -/
theorem bytes_encodeString (top : Bool) (b rest : List UInt8) (hsize : b.length < 2 ^ 64) :
    bytes top (encodeString b ++ rest) = .ok (b, rest) := by
  unfold encodeString
  split
  · next x =>
    split
    · next hx =>
      simp [bytes, kind_byte top x (by omega), Except.bind]
    · next hx =>
      -- a byte above `0x7F` behind a one-byte string header
      have hk := kind_puthead_string top [x] rest (by simp)
      simp only [List.length_singleton] at hk
      rw [bytes, hk]
      simp only [Except.bind, List.singleton_append, List.take_succ_cons,
        List.take_zero, List.headD_cons]
      rw [if_neg (by omega)]
      simp
  · next hb =>
    rw [bytes, kind_puthead_string top b rest hsize]
    simp only [Except.bind]
    rw [if_neg ?_]
    · simp
    · rintro ⟨h1, -⟩
      obtain ⟨x, rfl⟩ := List.length_eq_one_iff.mp h1
      exact hb x rfl

/-- `Raw` returns a value with its header as the encoder wrote it. -/
theorem raw_puthead (top : Bool) (small large : Nat) (payload rest : List UInt8)
    (htag : small = 0x80 ∧ large = 0xB7 ∨ small = 0xC0 ∧ large = 0xF7)
    (hsize : payload.length < 2 ^ 64) :
    raw top (puthead small large payload.length ++ payload ++ rest) =
      .ok (puthead small large payload.length ++ payload, rest) := by
  rw [raw, kind_puthead top small large payload rest htag hsize]
  rcases htag with ⟨rfl, rfl⟩ | ⟨rfl, rfl⟩ <;> simp [Except.bind]

/-- `Raw` takes off exactly the first encoded item. -/
theorem raw_encode (top : Bool) (i : Item) (rest : List UInt8) (hsize : i.content.length < 2 ^ 64) :
    raw top (i.encode ++ rest) = .ok (i.encode, rest) := by
  cases i with
  | str b =>
    simp only [Item.content] at hsize
    rw [encode_str]
    unfold encodeString
    split
    · next x =>
      split
      · next hx =>
        simp [raw, kind_byte top x (by omega), Except.bind]
      · exact raw_puthead top 0x80 0xB7 [x] rest (by omega) hsize
    · exact raw_puthead top 0x80 0xB7 b rest (by omega) hsize
  | list items =>
    simp only [Item.content] at hsize
    rw [encode_list]
    exact raw_puthead top 0xC0 0xF7 _ rest (by omega) hsize

/-- `Uint` reads back what `writeUint` writes. -/
theorem uint_encodeUint (top : Bool) (i : Nat) (hi : i < 2 ^ 64) (rest : List UInt8) :
    uint top (encodeUint i ++ rest) = .ok (i, rest) := by
  unfold encodeUint
  split
  · next h0 =>
    -- zero is the empty string
    subst h0
    have hk : kind top (0x80 :: rest) = .ok ⟨.string, 0, 0, rest⟩ := by
      simp [kind, readHead, Except.bind]
    rw [List.singleton_append, uint, hk]
    simp [Except.bind, readUint]
  · next h0 =>
    split
    · next h128 =>
      -- a value below `0x80` is its own byte
      have hx : (UInt8.ofNat i).toNat = i := by simp; omega
      rw [List.singleton_append, uint, kind_byte top _ (by omega)]
      simp only [Except.bind]
      rw [if_neg (by intro h; rw [h] at hx; simp at hx; omega), hx]
    · next h128 =>
      -- any other value is the string of its big-endian bytes
      obtain ⟨hl1, hl8⟩ := length_putint_of_lt i hi
      have hp : puthead 0x80 0xB7 (putint i).length =
          [UInt8.ofNat (0x80 + (putint i).length)] := by
        simp [puthead, show (putint i).length < 56 by omega]
      have hk := kind_puthead_string top (putint i) rest (lt_of_le_of_lt hl8 (by norm_num))
      rw [hp, List.singleton_append] at hk
      rw [uint, hk]
      simp only [Except.bind]
      rw [if_neg (by omega), readUint_putint top i rest (by omega) hi]
      simp only
      rw [if_neg (by omega)]

end Stream

end Atlantis.Rlp
