import Atlantis.Rlp.Stream
import Atlantis.Rlp.Encbuf

/-!
# Decoding into `interface{}`

`decodeInterface` (`rlp/decode.go`) decodes a value of unknown shape: a list into a slice
of `interface{}` through `decodeListSlice`, which decodes elements until the stream
reports the end of the list, and anything else through `Bytes`.  The values it builds are
the value trees `Item`.

The decoder is total by a well-founded recursion on the input: every value it reads
takes at least its header off the input, which `decodeInterfaceAux` returns with the
value, so that the loop over the elements is seen to end.

`decodeBytes_encode` shows that `DecodeBytes` reads back what `EncodeToBytes` writes, and
`encode_of_decodeBytes` that it accepts nothing else: the stream rejects a single byte in
a one-byte string, a long size below 56 and a size with a leading zero byte, so each header
it accepts is the one the encoder writes (`kind_eq_ok`).
-/

namespace Atlantis.Rlp

namespace Stream

/-! ## What the stream accepts -/

/-- **The bytes of a length prefix**: bytes without a leading zero are `putint` of their
value. -/
theorem putint_bigEndian (bs : List UInt8) (hne : bs ≠ []) (hhead : bs.headD 0 ≠ 0) :
    putint (bigEndian bs) = bs := by
  induction bs using List.reverseRecOn with
  | nil => exact absurd rfl hne
  | append_singleton init x ih =>
    cases init with
    | nil =>
      -- one byte
      have hx : bigEndian [x] = x.toNat := by simp [bigEndian]
      rw [List.nil_append, hx, putint, if_pos x.toNat_lt, UInt8.ofNat_toNat]
    | cons y ys =>
      -- the bytes before the last have the same first byte, so their value is not zero
      have hy : y ≠ 0 := by simpa using hhead
      have hinit : putint (bigEndian (y :: ys)) = y :: ys := ih (by simp) (by simpa using hy)
      have hpos : 0 < bigEndian (y :: ys) := by
        rcases Nat.eq_zero_or_pos (bigEndian (y :: ys)) with h0 | h0
        · have h00 : putint 0 = [0] := by
            rw [putint, if_pos (by norm_num)]
            rfl
          rw [h0, h00] at hinit
          exact absurd (List.head_eq_of_cons_eq hinit).symm hy
        · exact h0
      have hx := x.toNat_lt
      rw [bigEndian_append_single, putint, if_neg (by omega)]
      have hdiv : (bigEndian (y :: ys) * 256 + x.toNat) / 256 = bigEndian (y :: ys) := by
        omega
      have hmod : UInt8.ofNat ((bigEndian (y :: ys) * 256 + x.toNat) % 256) = x := by
        rw [show (bigEndian (y :: ys) * 256 + x.toNat) % 256 = x.toNat by omega,
          UInt8.ofNat_toNat]
      rw [hdiv, hmod, hinit]

/-- A size `readUint` accepts is written by `putint` in exactly the bytes it read. -/
theorem readUint_eq_ok {top : Bool} {n : Nat} {b rest : List UInt8} {v : Nat}
    (h : readUint top n b = .ok (v, rest)) (hn : 0 < n) :
    b = putint v ++ rest ∧ (putint v).length = n := by
  unfold readUint at h
  rw [if_neg (by omega)] at h
  split_ifs at h with hlen h1 hzero
  · -- one byte: its value
    cases h
    obtain ⟨x, b', rfl⟩ : ∃ x b', b = x :: b' := by
      cases b with
      | nil => simp at hlen; omega
      | cons x b' => exact ⟨x, b', rfl⟩
    simp [putint, x.toNat_lt, h1]
  · -- several bytes, the first not zero
    cases h
    have hne : b.take n ≠ [] := by
      intro h0
      have := congrArg List.length h0
      rw [List.length_take, List.length_nil] at this
      omega
    have hhead : (b.take n).headD 0 ≠ 0 := by
      cases b with
      | nil => simp at hlen; omega
      | cons x b' => cases n with
        | zero => omega
        | succ n => simpa using hzero
    rw [putint_bigEndian _ hne hhead, List.take_append_drop]
    simp
    omega

/-- **Every header `readHead` accepts is the one the encoder writes** for the value it
announces. -/
theorem readHead_eq_ok {top : Bool} {x : UInt8} {rest : List UInt8} {hd : Head}
    (h : readHead top x rest = .ok hd) :
    (hd.kind = .byte ∧ hd.byteval = x ∧ x.toNat < 0x80 ∧ hd.rest = rest) ∨
    (hd.kind = .string ∧ x :: rest = puthead 0x80 0xB7 hd.size ++ hd.rest) ∨
    (hd.kind = .list ∧ x :: rest = puthead 0xC0 0xF7 hd.size ++ hd.rest) := by
  have hx := x.toNat_lt
  unfold readHead at h
  split_ifs at h with hbyte hshort hlong hlist
  · -- a single byte
    cases h
    exact .inl ⟨rfl, rfl, hbyte, rfl⟩
  · -- a short string
    cases h
    refine .inr (.inl ⟨rfl, ?_⟩)
    simp [puthead, show x.toNat - 0x80 < 56 by omega, show 0x80 + (x.toNat - 0x80) = x.toNat by omega]
  · -- a long string: the size is written by `putint` in `x - 0xB7` bytes
    cases hr : readUint top (x.toNat - 0xB7) rest with
    | error e => simp [hr, Except.bind] at h
    | ok r =>
      obtain ⟨size, rest'⟩ := r
      simp only [hr, Except.bind] at h
      split_ifs at h with hsize
      cases h
      obtain ⟨hrest, hlen⟩ := readUint_eq_ok hr (by omega)
      refine .inr (.inl ⟨rfl, ?_⟩)
      simp only [puthead, if_neg hsize, hlen, List.cons_append, ← hrest]
      rw [show 0xB7 + (x.toNat - 0xB7) = x.toNat by omega, UInt8.ofNat_toNat]
  · -- a short list
    cases h
    refine .inr (.inr ⟨rfl, ?_⟩)
    simp [puthead, show x.toNat - 0xC0 < 56 by omega, show 0xC0 + (x.toNat - 0xC0) = x.toNat by omega]
  · -- a long list
    cases hr : readUint top (x.toNat - 0xF7) rest with
    | error e => simp [hr, Except.bind] at h
    | ok r =>
      obtain ⟨size, rest'⟩ := r
      simp only [hr, Except.bind] at h
      split_ifs at h with hsize
      cases h
      obtain ⟨hrest, hlen⟩ := readUint_eq_ok hr (by omega)
      refine .inr (.inr ⟨rfl, ?_⟩)
      simp only [puthead, if_neg hsize, hlen, List.cons_append, ← hrest]
      rw [show 0xF7 + (x.toNat - 0xF7) = x.toNat by omega, UInt8.ofNat_toNat]

/-- What `Kind` accepts: a canonical header, and a content that fits in what remains. -/
theorem kind_eq_ok {top : Bool} {b : List UInt8} {hd : Head} (h : kind top b = .ok hd) :
    hd.size ≤ hd.rest.length ∧
    ((hd.kind = .byte ∧ b = hd.byteval :: hd.rest ∧ hd.byteval.toNat < 0x80) ∨
      (hd.kind = .string ∧ b = puthead 0x80 0xB7 hd.size ++ hd.rest) ∨
      (hd.kind = .list ∧ b = puthead 0xC0 0xF7 hd.size ++ hd.rest)) := by
  cases b with
  | nil => simp [kind] at h
  | cons x rest =>
    cases hr : readHead top x rest with
    | error e => simp [kind, hr, Except.bind] at h
    | ok hd' =>
      simp only [kind, hr, Except.bind] at h
      split_ifs at h with hfit
      cases h
      refine ⟨by omega, ?_⟩
      rcases readHead_eq_ok hr with ⟨hk, hv, hx, hrest⟩ | hs | hl
      · exact .inl ⟨hk, by rw [hv, hrest], by rw [hv]; exact hx⟩
      · exact .inr (.inl hs)
      · exact .inr (.inr hl)

/-- **What `Bytes` accepts is the encoding of the string it returns.** -/
theorem bytes_eq_ok {top : Bool} {b c rest : List UInt8} (h : bytes top b = .ok (c, rest)) :
    b = encodeString c ++ rest := by
  cases hk : kind top b with
  | error e => simp [bytes, hk, Except.bind] at h
  | ok hd =>
    simp only [bytes, hk, Except.bind] at h
    obtain ⟨hfit, hcases⟩ := kind_eq_ok hk
    rcases hcases with ⟨hkind, hb, hx⟩ | ⟨hkind, hb⟩ | ⟨hkind, hb⟩
    · -- a single byte stands for itself
      rw [hkind] at h
      cases h
      simp [hb, encodeString, show hd.byteval.toNat ≤ 0x7F by omega]
    · rw [hkind] at h
      simp only at h
      split_ifs at h with hcanon
      cases h
      have hlen : (hd.rest.take hd.size).length = hd.size := by simp; omega
      rw [hb, ← List.take_append_drop hd.size hd.rest, ← List.append_assoc, List.take_append_drop]
      congr 1
      -- the string is encoded with the header it was read with
      unfold encodeString
      split
      · next y hy =>
        have hy1 : hd.size = 1 := by rw [← hlen, hy]; rfl
        have hyx : ¬ y.toNat ≤ 0x7F := by
          intro hle
          exact hcanon ⟨hy1, by rw [hy]; simp; omega⟩
        rw [if_neg hyx, ← hy1, ← hy]
      · rw [hlen]
    · rw [hkind] at h
      simp at h

/-- `Bytes` reads only what `Kind` announces as a byte or a string. -/
theorem kind_of_bytes {top : Bool} {b : List UInt8} {r : List UInt8 × List UInt8}
    (h : bytes top b = .ok r) : ∃ hd, kind top b = .ok hd ∧ hd.kind ≠ .list := by
  cases hk : kind top b with
  | error e => simp [bytes, hk, Except.bind] at h
  | ok hd =>
    refine ⟨hd, rfl, fun hl => ?_⟩
    simp [bytes, hk, Except.bind, hl] at h

theorem length_rest_lt_of_bytes {top : Bool} {b c rest : List UInt8}
    (h : bytes top b = .ok (c, rest)) : rest.length < b.length := by
  have hne := encode_ne_nil (.str c)
  rw [encode_str] at hne
  rw [bytes_eq_ok h, List.length_append]
  have := List.length_pos_iff.mpr hne
  omega

/-- **What `List` accepts is a list header over the content it returns.** -/
theorem list_eq_ok {top : Bool} {b content rest : List UInt8}
    (h : list top b = .ok (content, rest)) :
    b = puthead 0xC0 0xF7 content.length ++ content ++ rest := by
  cases hk : kind top b with
  | error e => simp [list, hk, Except.bind] at h
  | ok hd =>
    simp only [list, hk, Except.bind] at h
    split_ifs at h with hkind
    cases h
    obtain ⟨hfit, hcases⟩ := kind_eq_ok hk
    rcases hcases with ⟨hk', -⟩ | ⟨hk', -⟩ | ⟨-, hb⟩
    · rw [hk'] at hkind; cases hkind
    · rw [hk'] at hkind; cases hkind
    · have hlen : (hd.rest.take hd.size).length = hd.size := by simp; omega
      rw [hlen, hb, List.append_assoc, List.take_append_drop]

/-- `List` reads only what `Kind` announces as a list. -/
theorem kind_of_list {top : Bool} {b : List UInt8} {r : List UInt8 × List UInt8}
    (h : list top b = .ok r) : ∃ hd, kind top b = .ok hd ∧ hd.kind = .list := by
  cases hk : kind top b with
  | error e => simp [list, hk, Except.bind] at h
  | ok hd =>
    refine ⟨hd, rfl, ?_⟩
    by_contra hl
    simp [list, hk, Except.bind, hl] at h

theorem length_lt_of_list {top : Bool} {b content rest : List UInt8}
    (h : list top b = .ok (content, rest)) :
    content.length < b.length ∧ rest.length < b.length := by
  have hb := congrArg List.length (list_eq_ok h)
  have := length_le_length_puthead 0xC0 0xF7 content.length
  simp only [List.length_append] at hb
  omega

end Stream

/-! ## The decoder -/

mutual
/-- `decodeInterface`, with the input after the value, which is shorter than the input. -/
def decodeInterfaceAux (top : Bool) (b : List UInt8) :
    Except StreamError {r : Item × List UInt8 // r.2.length < b.length} :=
  match Stream.kind top b with
  | .error e => .error e
  | .ok head =>
    if head.kind = .list then
      -- decodeListSlice(s, slice, decodeInterface)
      match hl : Stream.list top b with
      | .error e => .error e
      | .ok (content, rest) =>
        if content.length = 0 then
          (Stream.listEnd content).map fun _ => ⟨(.list [], rest), (Stream.length_lt_of_list hl).2⟩
        else
          match decodeSliceElems content with
          | .error e => .error e
          | .ok (items, left) =>
            (Stream.listEnd left).map fun _ => ⟨(.list items, rest), (Stream.length_lt_of_list hl).2⟩
    else
      match hb : Stream.bytes top b with
      | .error e => .error e
      | .ok (s, rest) => .ok ⟨(.str s, rest), Stream.length_rest_lt_of_bytes hb⟩
termination_by (b.length, 0)
decreasing_by exact Prod.Lex.left _ _ (Stream.length_lt_of_list hl).1

/-- `decodeSliceElems`: elements decoded until the end of the list, and what remains of
the list when the loop stops. -/
def decodeSliceElems (content : List UInt8) : Except StreamError (List Item × List UInt8) :=
  match decodeInterfaceAux false content with
  | .error .eol => .ok ([], content)
  | .error e => .error e
  | .ok ⟨(v, rest), _⟩ =>
    (decodeSliceElems rest).map fun (vs, left) => (v :: vs, left)
termination_by (content.length, 1)
decreasing_by
  · exact Prod.Lex.right _ (by omega)
  · exact Prod.Lex.left _ _ ‹_›
end

/-- `decodeInterface`: a value tree and the input after it. -/
def decodeInterface (top : Bool) (b : List UInt8) : Except StreamError (Item × List UInt8) :=
  (decodeInterfaceAux top b).map Subtype.val

/-! ## The decoder, case by case -/

theorem decodeInterface_eq_ok_iff {top : Bool} {b : List UInt8} {r : Item × List UInt8} :
    decodeInterface top b = .ok r ↔ ∃ h, decodeInterfaceAux top b = .ok ⟨r, h⟩ := by
  unfold decodeInterface
  cases decodeInterfaceAux top b with
  | error e => simp [Except.map]
  | ok r' =>
    obtain ⟨r', h'⟩ := r'
    simp only [Except.map, Except.ok.injEq]
    constructor
    · rintro rfl
      exact ⟨h', rfl⟩
    · rintro ⟨h, hr⟩
      cases hr
      rfl

/-- A string is decoded by `Bytes`. -/
theorem decodeInterface_of_bytes {top : Bool} {b s rest : List UInt8}
    (h : Stream.bytes top b = .ok (s, rest)) :
    decodeInterface top b = .ok (.str s, rest) := by
  obtain ⟨hd, hk, hkind⟩ := Stream.kind_of_bytes h
  rw [decodeInterface, decodeInterfaceAux]
  simp only [hk, if_neg hkind]
  split
  · next e he => rw [h] at he; cases he
  · next s' rest' he =>
    rw [h] at he
    cases he
    rfl

/-- A list is decoded element by element up to its end. -/
theorem decodeInterface_of_list {top : Bool} {b content rest : List UInt8} {items : List Item}
    (hl : Stream.list top b = .ok (content, rest))
    (helems : decodeSliceElems content = .ok (items, [])) :
    decodeInterface top b = .ok (.list items, rest) := by
  obtain ⟨hd, hk, hkind⟩ := Stream.kind_of_list hl
  rw [decodeInterface, decodeInterfaceAux]
  simp only [hk, hkind, if_true]
  split
  · next e he => rw [hl] at he; cases he
  · next content' rest' he =>
    rw [hl] at he
    cases he
    split
    · next hempty =>
      -- the empty list: the loop would stop at once
      obtain rfl : content = [] := List.length_eq_zero_iff.mp hempty
      rw [decodeSliceElems, decodeInterfaceAux] at helems
      simp [Stream.kind] at helems
      obtain ⟨rfl, -⟩ := helems
      rfl
    · rw [helems]
      rfl

theorem decodeSliceElems_nil : decodeSliceElems [] = .ok ([], []) := by
  rw [decodeSliceElems, decodeInterfaceAux]
  rfl

theorem decodeSliceElems_of_ok {content rest : List UInt8} {v : Item} {h}
    (hv : decodeInterfaceAux false content = .ok ⟨(v, rest), h⟩) :
    decodeSliceElems content = (decodeSliceElems rest).map fun (vs, left) => (v :: vs, left) := by
  rw [decodeSliceElems, hv]

/-- What `decodeInterface` accepts is a string read by `Bytes` or a list whose elements
the loop reads to its end. -/
theorem decodeInterface_eq_ok {top : Bool} {b rest : List UInt8} {x : Item}
    (h : decodeInterface top b = .ok (x, rest)) :
    (∃ s, x = .str s ∧ Stream.bytes top b = .ok (s, rest)) ∨
    (∃ content items, x = .list items ∧ Stream.list top b = .ok (content, rest) ∧
      decodeSliceElems content = .ok (items, [])) := by
  obtain ⟨hlt, hdec⟩ := decodeInterface_eq_ok_iff.mp h
  rw [decodeInterfaceAux] at hdec
  clear h
  split at hdec
  · cases hdec
  · split at hdec
    · -- a list
      split at hdec
      · cases hdec
      · next content rest' hl =>
        split at hdec
        · next hempty =>
          obtain rfl : content = [] := List.length_eq_zero_iff.mp hempty
          simp only [Stream.listEnd, if_true, Except.map, Except.ok.injEq] at hdec
          cases hdec
          exact .inr ⟨[], [], rfl, hl, decodeSliceElems_nil⟩
        · split at hdec
          · cases hdec
          · next items left helems =>
            unfold Stream.listEnd at hdec
            split_ifs at hdec with hleft
            · cases hdec
              exact .inr ⟨content, items, rfl, hl, hleft ▸ helems⟩
            · simp [Except.map] at hdec
    · -- a string
      split at hdec
      · cases hdec
      · next s rest' hb =>
        cases hdec
        exact .inl ⟨s, rfl, hb⟩

/-- What the loop over the elements accepts: it stops at the end of the list, or it read
an element and goes on after it. -/
theorem decodeSliceElems_eq_ok {content left : List UInt8} {items : List Item}
    (h : decodeSliceElems content = .ok (items, left)) :
    (items = [] ∧ left = content) ∨
    (∃ v vs rest, items = v :: vs ∧ decodeInterface false content = .ok (v, rest) ∧
      rest.length < content.length ∧ decodeSliceElems rest = .ok (vs, left)) := by
  rw [decodeSliceElems] at h
  split at h
  · cases h
    exact .inl ⟨rfl, rfl⟩
  · cases h
  · next v rest hlt hv =>
    cases hrest : decodeSliceElems rest with
    | error e => simp [hrest, Except.map] at h
    | ok r =>
      obtain ⟨vs, left'⟩ := r
      simp only [hrest, Except.map, Except.ok.injEq, Prod.mk.injEq] at h
      obtain ⟨rfl, rfl⟩ := h
      exact .inr ⟨v, vs, rest, rfl, decodeInterface_eq_ok_iff.mpr ⟨hlt, hv⟩, hlt, hrest⟩

/-! ## Reading back what the encoder writes -/

theorem length_le_length_encodeString (c : List UInt8) : c.length ≤ (encodeString c).length := by
  unfold encodeString
  split
  · split <;> simp
  · simp

mutual
/-- **`decodeInterface` reads back every value tree** whose encoding a Go slice can hold. -/
theorem decodeInterface_encode : (x : Item) → (top : Bool) → (rest : List UInt8) →
    x.encode.length < 2 ^ 64 → decodeInterface top (x.encode ++ rest) = .ok (x, rest)
  | .str c, top, rest, hlen => by
    rw [encode_str] at hlen ⊢
    have hc := length_le_length_encodeString c
    exact decodeInterface_of_bytes (Stream.bytes_encodeString top c rest (by omega))
  | .list items, top, rest, hlen => by
    rw [encode_list] at hlen ⊢
    rw [List.length_append] at hlen
    exact decodeInterface_of_list (Stream.list_puthead top _ rest (by omega))
      (decodeSliceElems_encodeList items (by omega))

theorem decodeSliceElems_encodeList : (items : List Item) →
    (encodeList items).length < 2 ^ 64 → decodeSliceElems (encodeList items) = .ok (items, [])
  | [], _ => decodeSliceElems_nil
  | x :: xs, hlen => by
    rw [encodeList, List.length_append] at hlen
    obtain ⟨hlt, hx⟩ :=
      decodeInterface_eq_ok_iff.mp (decodeInterface_encode x false (encodeList xs) (by omega))
    rw [encodeList, decodeSliceElems_of_ok hx, decodeSliceElems_encodeList xs (by omega)]
    rfl
end

/-! ## Accepting only the canonical encoding -/

/-- **Canonicity of the decoder**, for inputs shorter than `n`: what `decodeInterface`
accepts is the encoding of the value it returns, and what the loop over the elements
accepts is the encodings of the elements it returns.  The induction is on the length of
the input: a list's content is shorter than the list, and the loop goes on after an
element with less of the list. -/
theorem encode_of_decodeInterface_of_lt : ∀ n : Nat,
    (∀ top b x rest, b.length < n → decodeInterface top b = .ok (x, rest) →
      b = x.encode ++ rest) ∧
    (∀ content items left, content.length < n → decodeSliceElems content = .ok (items, left) →
      content = encodeList items ++ left)
  | 0 => ⟨fun _ _ _ _ h => absurd h (Nat.not_lt_zero _),
      fun _ _ _ h => absurd h (Nat.not_lt_zero _)⟩
  | n + 1 => by
    obtain ⟨-, ihElems⟩ := encode_of_decodeInterface_of_lt n
    have hvalue : ∀ top b x rest, b.length < n + 1 → decodeInterface top b = .ok (x, rest) →
        b = x.encode ++ rest := by
      intro top b x rest hb h
      rcases decodeInterface_eq_ok h with ⟨s, rfl, hbytes⟩ | ⟨content, items, rfl, hl, helems⟩
      · rw [encode_str]
        exact Stream.bytes_eq_ok hbytes
      · -- the content is shorter than the list
        have hcontent := ihElems content items []
          (by have := (Stream.length_lt_of_list hl).1; omega) helems
        rw [List.append_nil] at hcontent
        rw [encode_list, ← hcontent]
        exact Stream.list_eq_ok hl
    refine ⟨hvalue, ?_⟩
    intro content items left hc h
    rcases decodeSliceElems_eq_ok h with ⟨rfl, rfl⟩ | ⟨v, vs, rest, rfl, hv, hlt, hrest⟩
    · rfl
    · have hcontent := hvalue false content v rest hc hv
      have hrest' := ihElems rest vs left (by omega) hrest
      rw [hcontent, hrest', encodeList, List.append_assoc]

theorem decodeBytes_eq_ok {α : Type} {dec : Bool → List UInt8 → Except StreamError (α × List UInt8)}
    {b : List UInt8} {v : α} : Stream.decodeBytes dec b = .ok v ↔ dec true b = .ok (v, []) := by
  unfold Stream.decodeBytes
  cases dec true b with
  | error e => simp [Except.bind]
  | ok r =>
    obtain ⟨v', rest⟩ := r
    simp only [Except.bind]
    split_ifs with hrest
    · simp [hrest]
    · simp [hrest]

/-- **Round trip and canonicity of the generic codec**: `DecodeBytes` into an `interface{}`
reads back every value tree that `EncodeToBytes` writes, and accepts only the bytes
`EncodeToBytes` writes for the value it returns.  The encoding must fit in a Go slice. -/
theorem interface_roundtrip :
    (∀ x : Item, (EncodeToBytes x).length < 2 ^ 64 →
      Stream.decodeBytes decodeInterface (EncodeToBytes x) = .ok x) ∧
    (∀ b x, Stream.decodeBytes decodeInterface b = .ok x → EncodeToBytes x = b) := by
  refine ⟨fun x hlen => ?_, fun b x h => ?_⟩
  · rw [EncodeToBytes_eq_encode] at hlen ⊢
    rw [decodeBytes_eq_ok, ← List.append_nil x.encode]
    exact decodeInterface_encode x true [] hlen
  · have hb := (encode_of_decodeInterface_of_lt (b.length + 1)).1 true b x []
      (Nat.lt_succ_self _) (decodeBytes_eq_ok.mp h)
    rw [EncodeToBytes_eq_encode, hb, List.append_nil]

theorem interface_roundtrip_pair :
    Stream.decodeBytes decodeInterface (EncodeToBytes (.list [.str [1, 0x80], .list []])) =
      .ok (.list [.str [1, 0x80], .list []]) :=
  interface_roundtrip.1 _ (by decide)

end Atlantis.Rlp
