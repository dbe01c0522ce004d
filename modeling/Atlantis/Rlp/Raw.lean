import Mathlib

/-!
# RLP values and their raw encoding

The recursive length prefix encoding of `rlp/encode.go` and the raw splitting functions
of `rlp/raw.go` that the trie uses to take encoded nodes apart without decoding them into
Go values.

An RLP value is a byte string or a list of values.  A string of one byte below `0x80` is
that byte; any other string has a header `0x80 + len` (short) or `0xB7 + len(len)`
followed by the length (long); a list has a header `0xC0 + len` or `0xF7 + len(len)` over
the concatenated encodings of its elements.  The encoder of the source writes these
bytes through its `encbuf`, which lays the list headers out in a second pass; here the
bytes are given directly by the recursion.
-/

namespace Atlantis.Rlp

/-- An RLP value: a byte string, or a list of values. -/
inductive Item where
  | str (b : List UInt8)
  | list (items : List Item)

/-- `Kind` of `rlp/decode.go`: a single byte below `0x80`, a string, or a list. -/
inductive Kind where
  | byte
  | string
  | list
  deriving DecidableEq, Repr

/-- The errors of `rlp/raw.go` and `rlp/decode.go` that the raw splitting functions
return (`io.ErrUnexpectedEOF` among them). -/
inductive Error where
  | errUnexpectedEOF
  | errCanonSize
  | errValueTooLarge
  | errExpectedString
  | errExpectedList
  deriving DecidableEq, Repr

/-- `putint`: the big-endian bytes of `i` without leading zero bytes. -/
def putint (i : Nat) : List UInt8 :=
  if i < 256 then [UInt8.ofNat i] else putint (i / 256) ++ [UInt8.ofNat (i % 256)]
termination_by i
decreasing_by omega

/-- The big-endian value of a byte string, as `readSize` assembles it by shifts. -/
def bigEndian (b : List UInt8) : Nat :=
  b.foldl (fun acc x => acc * 256 + x.toNat) 0

/-- `puthead`: the header of a string or list whose content has `size` bytes. -/
def puthead (smalltag largetag : Nat) (size : Nat) : List UInt8 :=
  if size < 56 then [UInt8.ofNat (smalltag + size)]
  else UInt8.ofNat (largetag + (putint size).length) :: putint size

/-- `encbuf.encodeString`: a single byte below `0x80` stands for itself. -/
def encodeString (b : List UInt8) : List UInt8 :=
  match b with
  | [x] => if x.toNat ≤ 0x7F then [x] else puthead 0x80 0xB7 1 ++ [x]
  | _ => puthead 0x80 0xB7 b.length ++ b

/-- `writeUint`: zero is the empty string, a value below `0x80` is its own byte, and any
other value is the string of its big-endian bytes. -/
def encodeUint (i : Nat) : List UInt8 :=
  if i = 0 then [0x80]
  else if i < 128 then [UInt8.ofNat i]
  else UInt8.ofNat (0x80 + (putint i).length) :: putint i

mutual
/-- The RLP encoding of a value. -/
def Item.encode : Item → List UInt8
  | .str b => encodeString b
  | .list items => puthead 0xC0 0xF7 (encodeList items).length ++ encodeList items

/-- The concatenated encodings of the elements of a list. -/
def encodeList : List Item → List UInt8
  | [] => []
  | i :: is => i.encode ++ encodeList is
end

/-- `readSize`: the `slen` bytes of a long header's length, big-endian.  Sizes below 56
and sizes with a leading zero byte are not canonical. -/
def readSize (b : List UInt8) (slen : Nat) : Except Error Nat :=
  if b.length < slen then .error .errUnexpectedEOF
  else
    let s := bigEndian (b.take slen)
    if s < 56 ∨ b.headD 0 = 0 then .error .errCanonSize else .ok s

/-- The kind, tag size and content size a header announces, before the check against the
length of the input. -/
def readHead (b : UInt8) (rest : List UInt8) : Except Error (Kind × Nat × Nat) :=
  if b.toNat < 0x80 then .ok (.byte, 0, 1)
  else if b.toNat < 0xB8 then
    -- Reject strings that should have been single bytes.
    if b.toNat - 0x80 = 1 ∧ rest ≠ [] ∧ (rest.headD 0).toNat < 128 then .error .errCanonSize
    else .ok (.string, 1, b.toNat - 0x80)
  else if b.toNat < 0xC0 then
    (readSize rest (b.toNat - 0xB7)).map fun cs => (.string, b.toNat - 0xB7 + 1, cs)
  else if b.toNat < 0xF8 then .ok (.list, 1, b.toNat - 0xC0)
  else
    (readSize rest (b.toNat - 0xF7)).map fun cs => (.list, b.toNat - 0xF7 + 1, cs)

/-- `readKind`: the kind, tag size and content size of the first value of `buf`; values
larger than the input are rejected. -/
def readKind (buf : List UInt8) : Except Error (Kind × Nat × Nat) :=
  match buf with
  | [] => .error .errUnexpectedEOF
  | b :: rest =>
    (readHead b rest).bind fun (k, ts, cs) =>
      if buf.length - ts < cs then .error .errValueTooLarge else .ok (k, ts, cs)

/-- `Split`: the kind and content of the first value of `b`, and the bytes after it. -/
def split (b : List UInt8) : Except Error (Kind × List UInt8 × List UInt8) :=
  (readKind b).map fun (k, ts, cs) => (k, (b.drop ts).take cs, b.drop (ts + cs))

/-- `SplitString`: the content of a leading string (or single byte) and the rest. -/
def splitString (b : List UInt8) : Except Error (List UInt8 × List UInt8) :=
  (split b).bind fun (k, content, rest) =>
    if k = .list then .error .errExpectedString else .ok (content, rest)

/-- `SplitList`: the content of a leading list and the rest. -/
def splitList (b : List UInt8) : Except Error (List UInt8 × List UInt8) :=
  (split b).bind fun (k, content, rest) =>
    if k = .list then .ok (content, rest) else .error .errExpectedList

/-- The loop of `CountValues`, with the number of values counted so far.  Every value
takes at least one byte, so `fuel = b.length` lets the loop run to its end. -/
def countValuesLoop : Nat → List UInt8 → Nat → Except Error Nat
  | _, [], i => .ok i
  | 0, _ :: _, _ => .error .errUnexpectedEOF
  | fuel + 1, b, i =>
    (readKind b).bind fun (_, ts, cs) => countValuesLoop fuel (b.drop (ts + cs)) (i + 1)

/-- `CountValues`: the number of encoded values in `b`. -/
def countValues (b : List UInt8) : Except Error Nat :=
  countValuesLoop b.length b 0

/-! ## Big-endian sizes -/

theorem bigEndian_append_single (b : List UInt8) (x : UInt8) :
    bigEndian (b ++ [x]) = bigEndian b * 256 + x.toNat := by
  simp [bigEndian, List.foldl_append]

@[simp] theorem bigEndian_putint (i : Nat) : bigEndian (putint i) = i := by
  induction i using Nat.strong_induction_on with
  | _ i ih =>
    rw [putint]
    split
    · next h => simp [bigEndian, Nat.mod_eq_of_lt h]
    · next h =>
      rw [bigEndian_append_single, ih (i / 256) (by omega)]
      simp
      omega

theorem putint_ne_nil (i : Nat) : putint i ≠ [] := by
  rw [putint]
  split <;> simp

/-- A positive size has no leading zero byte. -/
theorem headD_putint_ne_zero (i : Nat) (hi : 0 < i) : (putint i).headD 0 ≠ 0 := by
  induction i using Nat.strong_induction_on with
  | _ i ih =>
    rw [putint]
    split
    · next h =>
      simp only [List.headD_cons]
      intro h0
      have := congrArg UInt8.toNat h0
      simp [Nat.mod_eq_of_lt h] at this
      omega
    · next h =>
      obtain ⟨x, xs, hx⟩ := List.exists_cons_of_ne_nil (putint_ne_nil (i / 256))
      have := ih (i / 256) (by omega) (by omega)
      rw [hx] at this ⊢
      simpa using this

/-- Sizes below `256 ^ k` take at most `k` bytes. -/
theorem length_putint_le (i k : Nat) (hk : 0 < k) (hi : i < 256 ^ k) :
    (putint i).length ≤ k := by
  induction k generalizing i with
  | zero => omega
  | succ k ih =>
    rw [putint]
    split
    · simp
    · next h =>
      have hk' : 0 < k := by
        rcases Nat.eq_zero_or_pos k with rfl | hpos
        · simp at hi
          omega
        · exact hpos
      have : i / 256 < 256 ^ k := by
        rw [Nat.div_lt_iff_lt_mul (by norm_num)]
        rw [pow_succ] at hi
        exact hi
      simpa using ih (i / 256) hk' this

theorem length_putint_of_lt (i : Nat) (hsmall : i < 2 ^ 64) :
    1 ≤ (putint i).length ∧ (putint i).length ≤ 8 := by
  refine ⟨?_, length_putint_le i 8 (by norm_num) (by norm_num; omega)⟩
  have := putint_ne_nil i
  cases h : putint i with
  | nil => exact absurd h this
  | cons _ _ => simp

/-! ## Reading back the headers the encoder writes -/

theorem readSize_putint (size : Nat) (rest : List UInt8) (hsize : 56 ≤ size) :
    readSize (putint size ++ rest) (putint size).length = .ok size := by
  have hne := headD_putint_ne_zero size (by omega)
  have hhd : (putint size ++ rest).headD 0 = (putint size).headD 0 := by
    cases h : putint size with
    | nil => exact absurd h (putint_ne_nil size)
    | cons _ _ => rfl
  have htake : (putint size ++ rest).take (putint size).length = putint size := by simp
  unfold readSize
  rw [if_neg (by simp), htake, bigEndian_putint, hhd, if_neg (not_or.mpr ⟨by omega, hne⟩)]

theorem toNat_ofNat_header (tag n : Nat) (h : tag + n < 256) :
    (UInt8.ofNat (tag + n)).toNat = tag + n := by
  simp only [UInt8.toNat_ofNat']
  omega

theorem readHead_short_list (n : Nat) (hn : n < 56) (rest : List UInt8) :
    readHead (UInt8.ofNat (0xC0 + n)) rest = .ok (.list, 1, n) := by
  unfold readHead
  rw [toNat_ofNat_header _ _ (by omega)]
  simp only [show ¬ 0xC0 + n < 0x80 by omega, show ¬ 0xC0 + n < 0xB8 by omega,
    show ¬ 0xC0 + n < 0xC0 by omega, show 0xC0 + n < 0xF8 by omega, if_false, if_true,
    Nat.add_sub_cancel_left]

theorem readHead_long_list (n : Nat) (hn : 56 ≤ n) (hsize : n < 2 ^ 64) (rest : List UInt8) :
    readHead (UInt8.ofNat (0xF7 + (putint n).length)) (putint n ++ rest) =
      .ok (.list, (putint n).length + 1, n) := by
  obtain ⟨hl1, hl8⟩ := length_putint_of_lt n hsize
  unfold readHead
  rw [toNat_ofNat_header _ _ (by omega)]
  simp only [show ¬ 0xF7 + (putint n).length < 0x80 by omega,
    show ¬ 0xF7 + (putint n).length < 0xB8 by omega,
    show ¬ 0xF7 + (putint n).length < 0xC0 by omega,
    show ¬ 0xF7 + (putint n).length < 0xF8 by omega, if_false, Nat.add_sub_cancel_left,
    readSize_putint n rest hn]
  rfl

theorem readHead_short_string (n : Nat) (hn : n < 56) (rest : List UInt8)
    (hcanon : ¬ (n = 1 ∧ rest ≠ [] ∧ (rest.headD 0).toNat < 128)) :
    readHead (UInt8.ofNat (0x80 + n)) rest = .ok (.string, 1, n) := by
  unfold readHead
  rw [toNat_ofNat_header _ _ (by omega)]
  simp only [show ¬ 0x80 + n < 0x80 by omega, show 0x80 + n < 0xB8 by omega, if_false,
    if_true, Nat.add_sub_cancel_left, hcanon]

theorem readHead_long_string (n : Nat) (hn : 56 ≤ n) (hsize : n < 2 ^ 64)
    (rest : List UInt8) :
    readHead (UInt8.ofNat (0xB7 + (putint n).length)) (putint n ++ rest) =
      .ok (.string, (putint n).length + 1, n) := by
  obtain ⟨hl1, hl8⟩ := length_putint_of_lt n hsize
  unfold readHead
  rw [toNat_ofNat_header _ _ (by omega)]
  simp only [show ¬ 0xB7 + (putint n).length < 0x80 by omega,
    show ¬ 0xB7 + (putint n).length < 0xB8 by omega,
    show 0xB7 + (putint n).length < 0xC0 by omega, if_false, if_true,
    Nat.add_sub_cancel_left, readSize_putint n rest hn]
  rfl

theorem readKind_cons (b : UInt8) (rest : List UInt8) :
    readKind (b :: rest) = (readHead b rest).bind fun (k, ts, cs) =>
      if rest.length + 1 - ts < cs then .error .errValueTooLarge else .ok (k, ts, cs) := rfl

/-- A list header followed by its payload reads back as that list. -/
theorem readKind_puthead_list (payload rest : List UInt8) (hsize : payload.length < 2 ^ 64) :
    readKind (puthead 0xC0 0xF7 payload.length ++ payload ++ rest) =
      .ok (.list, (puthead 0xC0 0xF7 payload.length).length, payload.length) := by
  unfold puthead
  split
  · next hs =>
    rw [List.singleton_append, List.cons_append, readKind_cons,
      readHead_short_list _ hs]
    simp only [Except.bind, List.length_append, List.length_singleton]
    rw [if_neg (by omega)]
  · next hs =>
    simp only [List.cons_append, List.append_assoc]
    rw [readKind_cons, readHead_long_list _ (by omega) hsize]
    simp only [Except.bind, List.length_append, List.length_cons]
    rw [if_neg (by omega)]

/-- A string header followed by its content reads back as that string, unless the content
is a single byte below `0x80`, which the encoder never writes behind a header. -/
theorem readKind_puthead_string (payload rest : List UInt8) (hsize : payload.length < 2 ^ 64)
    (hcanon : ∀ x, payload = [x] → 0x7F < x.toNat) :
    readKind (puthead 0x80 0xB7 payload.length ++ payload ++ rest) =
      .ok (.string, (puthead 0x80 0xB7 payload.length).length, payload.length) := by
  unfold puthead
  split
  · next hs =>
    have hcheck : ¬ (payload.length = 1 ∧ payload ++ rest ≠ [] ∧
        ((payload ++ rest).headD 0).toNat < 128) := by
      rintro ⟨h1, -, h2⟩
      obtain ⟨x, rfl⟩ := List.length_eq_one_iff.mp h1
      have := hcanon x rfl
      simp at h2
      omega
    rw [List.singleton_append, List.cons_append, readKind_cons,
      readHead_short_string _ hs _ hcheck]
    simp only [Except.bind, List.length_append, List.length_singleton]
    rw [if_neg (by omega)]
  · next hs =>
    simp only [List.cons_append, List.append_assoc]
    rw [readKind_cons, readHead_long_string _ (by omega) hsize]
    simp only [Except.bind, List.length_append, List.length_cons]
    rw [if_neg (by omega)]

/-- The kind an item's encoding starts with. -/
def Item.kind : Item → Kind
  | .str [x] => if x.toNat ≤ 0x7F then .byte else .string
  | .str _ => .string
  | .list _ => .list

/-- What `Split` returns as the content of an item. -/
def Item.content : Item → List UInt8
  | .str b => b
  | .list items => encodeList items

theorem encode_str (b : List UInt8) : (Item.str b).encode = encodeString b := by
  rw [Item.encode]

theorem encode_list (items : List Item) :
    (Item.list items).encode = puthead 0xC0 0xF7 (encodeList items).length ++ encodeList items := by
  rw [Item.encode]

theorem length_le_length_puthead (small large size : Nat) :
    1 ≤ (puthead small large size).length := by
  unfold puthead
  split <;> simp

theorem split_of_readKind {b : List UInt8} {k : Kind} {ts cs : Nat}
    (h : readKind b = .ok (k, ts, cs)) :
    split b = .ok (k, (b.drop ts).take cs, b.drop (ts + cs)) := by
  simp [split, h, Except.map]

/-- `Split` takes off exactly the first encoded item. -/
theorem split_encode (i : Item) (rest : List UInt8) (hsize : i.content.length < 2 ^ 64) :
    split (i.encode ++ rest) = .ok (i.kind, i.content, rest) := by
  cases i with
  | str b =>
    simp only [Item.content] at hsize
    rw [encode_str]
    match b with
    | [x] =>
      simp only [encodeString]
      split
      · next hx =>
        have hk : readKind ([x] ++ rest) = .ok (.byte, 0, 1) := by
          rw [List.singleton_append, readKind_cons]
          simp only [readHead, show x.toNat < 0x80 by omega, if_true, Except.bind]
          rw [if_neg (by omega)]
        rw [split_of_readKind hk]
        simp [Item.kind, Item.content, hx]
      · next hx =>
        have hk := readKind_puthead_string [x] rest (by simp) (by simp; omega)
        simp only [List.length_singleton] at hk
        rw [split_of_readKind hk]
        simp [Item.kind, Item.content, hx]
    | [] =>
      have hk := readKind_puthead_string [] rest (by simp) (by intro _ h; simp at h)
      simp only [encodeString]
      rw [split_of_readKind hk]
      simp [Item.kind, Item.content]
    | x :: y :: zs =>
      have hk := readKind_puthead_string (x :: y :: zs) rest hsize (by intro _ h; simp at h)
      simp only [encodeString]
      rw [split_of_readKind hk]
      simp [Item.kind, Item.content]
  | list items =>
    simp only [Item.content] at hsize
    have hk := readKind_puthead_list (encodeList items) rest hsize
    rw [encode_list, split_of_readKind hk]
    simp [Item.kind, Item.content]

theorem splitString_encode_str (b rest : List UInt8) (hsize : b.length < 2 ^ 64) :
    splitString ((Item.str b).encode ++ rest) = .ok (b, rest) := by
  have hk : (Item.str b).kind ≠ .list := by
    unfold Item.kind
    split <;> (try split) <;> simp_all
  simp only [splitString, split_encode (.str b) rest hsize, Except.bind, hk, if_false,
    Item.content]

theorem splitList_encode_list (items : List Item) (rest : List UInt8)
    (hsize : (encodeList items).length < 2 ^ 64) :
    splitList ((Item.list items).encode ++ rest) = .ok (encodeList items, rest) := by
  simp only [splitList, split_encode (.list items) rest hsize, Except.bind, Item.kind,
    if_true, Item.content]

theorem readKind_of_split {b content rest : List UInt8} {k : Kind}
    (h : split b = .ok (k, content, rest)) :
    ∃ ts cs, readKind b = .ok (k, ts, cs) ∧ b.drop (ts + cs) = rest := by
  unfold split at h
  cases hk : readKind b with
  | error e => simp [hk, Except.map] at h
  | ok v =>
    obtain ⟨k', ts, cs⟩ := v
    simp only [hk, Except.map, Except.ok.injEq, Prod.mk.injEq] at h
    exact ⟨ts, cs, by rw [h.1], h.2.2⟩

theorem encode_ne_nil (i : Item) : i.encode ≠ [] := by
  cases i with
  | str b =>
    rw [encode_str]
    unfold encodeString puthead
    split <;> (try split) <;> (try split) <;> simp
  | list items =>
    rw [encode_list]
    unfold puthead
    split <;> simp

theorem length_le_length_encodeList (items : List Item) :
    items.length ≤ (encodeList items).length := by
  induction items with
  | nil => simp [encodeList]
  | cons it is ih =>
    have := List.length_pos_iff.mpr (encode_ne_nil it)
    simp only [encodeList, List.length_cons, List.length_append]
    omega

theorem countValuesLoop_succ_cons (fuel : Nat) (x : UInt8) (xs : List UInt8) (i : Nat) :
    countValuesLoop (fuel + 1) (x :: xs) i =
      (readKind (x :: xs)).bind fun (_, ts, cs) =>
        countValuesLoop fuel ((x :: xs).drop (ts + cs)) (i + 1) := rfl

theorem countValuesLoop_encodeList (items : List Item) (fuel i : Nat)
    (hfuel : items.length ≤ fuel) (hsize : ∀ it ∈ items, it.content.length < 2 ^ 64) :
    countValuesLoop fuel (encodeList items) i = .ok (i + items.length) := by
  induction items generalizing fuel i with
  | nil => simp [encodeList, countValuesLoop]
  | cons it is ih =>
    obtain ⟨fuel, rfl⟩ : ∃ f, fuel = f + 1 := ⟨fuel - 1, by simp at hfuel; omega⟩
    have hsplit := split_encode it (encodeList is) (hsize it (by simp))
    obtain ⟨ts, cs, hk, hdrop⟩ := readKind_of_split hsplit
    obtain ⟨x, xs, hx⟩ := List.exists_cons_of_ne_nil (encode_ne_nil it)
    have hlist : encodeList (it :: is) = it.encode ++ encodeList is := by rw [encodeList]
    rw [hlist, hx, List.cons_append, countValuesLoop_succ_cons, ← List.cons_append, ← hx, hk]
    simp only [Except.bind, hdrop]
    rw [ih fuel (i + 1) (by simp at hfuel; omega) (fun it' h => hsize it' (by simp [h]))]
    simp
    omega

/-- `CountValues` counts the items of a list encoding. -/
theorem countValues_encodeList (items : List Item)
    (hsize : ∀ it ∈ items, it.content.length < 2 ^ 64) :
    countValues (encodeList items) = .ok items.length := by
  rw [countValues, countValuesLoop_encodeList items _ 0 (length_le_length_encodeList items) hsize]
  simp

end Atlantis.Rlp
