import Atlantis.Rlp.Raw

/-!
# The encoder buffer

`EncodeToBytes` (`rlp/encode.go`) writes a value through an `encbuf`.  String data goes to
`str` as it comes, but the header of a list cannot be written before the list's size is
known: `list` records where the header belongs (`listhead.offset`, an index into `str`)
together with the sum of the sizes of the headers closed so far, and `listEnd`, once the
elements are written, computes the list's size from the buffer's size and adds the
header's size to `lhsize`.  `toBytes` then lays the headers into the string data in a
second pass.

`EncodeToBytes_eq_encode` shows that this two-pass writer produces `Item.encode`, the
recursive encoding: every value tree of byte strings and lists is written as the
recursion of `rlp/raw.go` reads it.  The argument has two parts.  Writing a value onto a
buffer appends to it what writing the value onto an empty buffer gives, its offsets moved
to the end of the buffer (`writeItem_frame`); and `emit`, the second pass written as a
recursion, reads the encoding back from what writing a value onto an empty buffer gives
(`writeItem_spec`), through the two ways `emit` splits (`emit_shift`, `emit_append`).
-/

namespace Atlantis.Rlp

/-- `listhead`: where a list header belongs in the string data, and the list's size (while
the list is open, the sum of the sizes of the headers closed before it). -/
structure Listhead where
  offset : Nat
  size : Nat
  deriving DecidableEq, Repr

/-- `listhead.encode`: the header of a list of `size` bytes. -/
def Listhead.encode (head : Listhead) : List UInt8 :=
  puthead 0xC0 0xF7 head.size

/-- `intsize`: the number of bytes of `i` without leading zeros. -/
def intsize (i : Nat) : Nat :=
  if i / 256 = 0 then 1 else intsize (i / 256) + 1
termination_by i
decreasing_by omega

/-- `encbuf`: the string data, the list headers in the order the lists were opened, and
the sum of the sizes of the headers closed so far.  The auxiliary `sizebuf` is not
modelled. -/
structure Encbuf where
  str : List UInt8
  lheads : List Listhead
  lhsize : Nat
  deriving DecidableEq, Repr

namespace Encbuf

/-- The buffer `EncodeToBytes` writes into, emptied by `reset`. -/
def reset : Encbuf := ⟨[], [], 0⟩

/-- `size`: the bytes written so far, headers included. -/
def size (w : Encbuf) : Nat :=
  w.str.length + w.lhsize

/-- `encodeStringHeader`. -/
def encodeStringHeader (w : Encbuf) (size : Nat) : Encbuf :=
  if size < 56 then { w with str := w.str ++ [UInt8.ofNat (0x80 + size)] }
  else { w with str := w.str ++ (UInt8.ofNat (0xB7 + (putint size).length) :: putint size) }

/-- `encodeString`: a single byte below `0x80` stands for itself. -/
def encodeString (w : Encbuf) (b : List UInt8) : Encbuf :=
  if b.length = 1 ∧ (b.headD 0).toNat ≤ 0x7F then
    -- fits single byte, no string header
    { w with str := w.str ++ [b.headD 0] }
  else
    let w := w.encodeStringHeader b.length
    { w with str := w.str ++ b }

/-- `list`: a header to be laid in at the current end of the string data.  The pointer the
source returns is the header's index in `lheads`. -/
def list (w : Encbuf) : Encbuf × Nat :=
  ({ w with lheads := w.lheads ++ [⟨w.str.length, w.lhsize⟩] }, w.lheads.length)

/-- `listEnd`: the list's size is what was written since its header was opened, less the
headers closed before it was opened. -/
def listEnd (w : Encbuf) (lh : Nat) : Encbuf :=
  let head := w.lheads.getD lh ⟨0, 0⟩
  let size := w.size - head.offset - head.size
  { w with
    lheads := w.lheads.set lh { head with size := size }
    lhsize := w.lhsize + if size < 56 then 1 else 1 + intsize size }

/-- One turn of the loop of `toBytes`: the string data before the header, then the
header. -/
def toBytesStep (w : Encbuf) (acc : List UInt8 × Nat) (head : Listhead) :
    List UInt8 × Nat :=
  let piece := (w.str.take head.offset).drop acc.2
  (acc.1 ++ piece ++ head.encode, acc.2 + piece.length)

/-- `toBytes`: the string data with the list headers laid in at their offsets.  The
source copies into a buffer of `size` bytes, which the pieces fill exactly
(`length_EncodeToBytes`). -/
def toBytes (w : Encbuf) : List UInt8 :=
  let acc := w.lheads.foldl w.toBytesStep ([], 0)
  -- copy string data after the last list header
  acc.1 ++ w.str.drop acc.2

end Encbuf

mutual
/-- The writer of `interface{}` on a value tree (`writeInterface`): a byte string is
written by `writeBytes`, a list by the slice writer, which closes the header after the
elements (`defer w.listEnd(w.list())`). -/
def writeItem : Item → Encbuf → Encbuf
  | .str b, w => w.encodeString b
  | .list items, w =>
    let (w, lh) := w.list
    (writeItems items w).listEnd lh

/-- The elements of a list, written one after the other. -/
def writeItems : List Item → Encbuf → Encbuf
  | [], w => w
  | i :: is, w => writeItems is (writeItem i w)
end

/-- `EncodeToBytes` on a value tree. -/
def EncodeToBytes (val : Item) : List UInt8 :=
  (writeItem val Encbuf.reset).toBytes

/-! ## The sizes of headers -/

theorem intsize_eq_length_putint (i : Nat) : intsize i = (putint i).length := by
  induction i using Nat.strong_induction_on with
  | _ i ih =>
    rw [intsize, putint]
    by_cases h : i < 256
    · rw [if_pos (by omega), if_pos h]
      rfl
    · rw [if_neg (by omega), if_neg h, List.length_append, ih (i / 256) (by omega)]
      rfl

/-- What `listEnd` adds to `lhsize` is the size of the header `toBytes` lays in. -/
theorem length_puthead_list (size : Nat) :
    (puthead 0xC0 0xF7 size).length = if size < 56 then 1 else 1 + intsize size := by
  unfold puthead
  split <;> simp [intsize_eq_length_putint, Nat.add_comm]

/-! ## The second pass -/

/-- The second pass of `toBytes` as a recursion: from string position `strpos` on, the
string data before each header, the header, and the string data after the last one. -/
def emit (str : List UInt8) (strpos : Nat) : List Listhead → List UInt8
  | [] => str.drop strpos
  | head :: heads =>
    (str.take head.offset).drop strpos ++ head.encode ++
      emit str (strpos + ((str.take head.offset).drop strpos).length) heads

/-- The headers of a buffer written after `k` bytes of string data. -/
def shiftHeads (k : Nat) (heads : List Listhead) : List Listhead :=
  heads.map fun head => { head with offset := head.offset + k }

@[simp] theorem shiftHeads_nil (k : Nat) : shiftHeads k [] = [] := rfl

@[simp] theorem shiftHeads_cons (k : Nat) (head : Listhead) (heads : List Listhead) :
    shiftHeads k (head :: heads) = { head with offset := head.offset + k } :: shiftHeads k heads :=
  rfl

@[simp] theorem shiftHeads_append (k : Nat) (h₁ h₂ : List Listhead) :
    shiftHeads k (h₁ ++ h₂) = shiftHeads k h₁ ++ shiftHeads k h₂ :=
  List.map_append

@[simp] theorem shiftHeads_zero (heads : List Listhead) : shiftHeads 0 heads = heads := by
  simp [shiftHeads]

@[simp] theorem shiftHeads_shiftHeads (j k : Nat) (heads : List Listhead) :
    shiftHeads j (shiftHeads k heads) = shiftHeads (k + j) heads := by
  simp [shiftHeads, Function.comp_def, Nat.add_assoc]

theorem mem_shiftHeads {k : Nat} {heads : List Listhead} {head : Listhead}
    (h : head ∈ shiftHeads k heads) : ∃ h' ∈ heads, head.offset = h'.offset + k := by
  obtain ⟨h', hmem, rfl⟩ := List.mem_map.mp h
  exact ⟨h', hmem, rfl⟩

/-- The loop of `toBytes` is the recursion `emit`, whatever it wrote before. -/
theorem foldl_toBytesStep (w : Encbuf) :
    ∀ (heads : List Listhead) (out : List UInt8) (strpos : Nat),
      let acc := heads.foldl w.toBytesStep (out, strpos)
      acc.1 ++ w.str.drop acc.2 = out ++ emit w.str strpos heads
  | [], out, strpos => rfl
  | head :: heads, out, strpos => by
    simp only [List.foldl_cons]
    rw [foldl_toBytesStep w heads]
    simp [Encbuf.toBytesStep, emit]

theorem toBytes_eq_emit (w : Encbuf) : w.toBytes = emit w.str 0 w.lheads := by
  have h := foldl_toBytesStep w w.lheads [] 0
  simpa [Encbuf.toBytes] using h

/-- **`emit` does not see string data before `strpos`**: headers moved past a prefix lay in
the same way behind it. -/
theorem emit_shift (a b : List UInt8) :
    ∀ (heads : List Listhead) (p : Nat),
      emit (a ++ b) (a.length + p) (shiftHeads a.length heads) = emit b p heads
  | [], p => by simp [emit, List.drop_length_add_append]
  | head :: heads, p => by
    have htake : (a ++ b).take (head.offset + a.length) = a ++ b.take head.offset := by
      rw [Nat.add_comm, List.take_length_add_append]
    simp only [shiftHeads_cons, emit, htake, List.drop_length_add_append, Listhead.encode]
    rw [Nat.add_assoc, emit_shift a b heads]

/-- The string data from `p` on is the data from `p` to `m` and the data from `m` on. -/
theorem drop_take_append_drop {α : Type} (l : List α) {p m : Nat} (h : p ≤ m) :
    (l.take m).drop p ++ l.drop m = l.drop p := by
  conv_rhs => rw [← List.take_append_drop m l]
  rw [List.drop_append]
  by_cases hl : p ≤ (l.take m).length
  · rw [Nat.sub_eq_zero_of_le hl, List.drop_zero]
  · -- the data ends before `p`
    have hnil : l.drop m = [] := List.drop_eq_nil_of_le (by simp at hl; omega)
    simp [hnil]

/-- From `p` to a point `m` before the next header, `emit` copies the string data. -/
theorem emit_advance (str : List UInt8) {p m : Nat} (hpm : p ≤ m) (hm : m ≤ str.length) :
    ∀ (heads : List Listhead), (∀ head ∈ heads.head?, m ≤ head.offset) →
      emit str p heads = (str.take m).drop p ++ emit str m heads
  | [], _ => by
    simp only [emit]
    rw [drop_take_append_drop str hpm]
  | head :: heads, hnext => by
    have hoff : m ≤ head.offset := hnext head rfl
    have hsplit : (str.take head.offset).drop p =
        (str.take m).drop p ++ (str.take head.offset).drop m := by
      have htm : (str.take head.offset).take m = str.take m := by
        rw [List.take_take, Nat.min_eq_left hoff]
      rw [← htm, drop_take_append_drop _ hpm]
    have hpos : p + ((str.take head.offset).drop p).length =
        m + ((str.take head.offset).drop m).length := by
      simp only [List.length_drop, List.length_take]
      omega
    simp only [emit]
    rw [hpos, hsplit]
    simp only [List.append_assoc]

/-- **`emit` splits at a point `m` between two runs of headers**: the first run lays in
its headers in the string data up to `m`, the second from `m` on. -/
theorem emit_append (str : List UInt8) {m : Nat} (hm : m ≤ str.length) (h₂ : List Listhead)
    (hm₂ : ∀ head ∈ h₂.head?, m ≤ head.offset) :
    ∀ (h₁ : List Listhead) (p : Nat), p ≤ m → (∀ head ∈ h₁, head.offset ≤ m) →
      emit str p (h₁ ++ h₂) = emit (str.take m) p h₁ ++ emit str m h₂
  | [], p, hpm, _ => by
    rw [List.nil_append, emit_advance str hpm hm h₂ hm₂, emit]
  | head :: h₁, p, hpm, hm₁ => by
    have hoff : head.offset ≤ m := hm₁ head (by simp)
    have htake : (str.take m).take head.offset = str.take head.offset := by
      rw [List.take_take, Nat.min_eq_left hoff]
    have hp' : p + ((str.take head.offset).drop p).length ≤ m := by
      simp only [List.length_drop, List.length_take]
      omega
    simp only [List.cons_append, emit, htake, List.append_assoc]
    rw [emit_append str hm h₂ hm₂ h₁ _ hp' (fun h hh => hm₁ h (by simp [hh]))]

/-! ## Writing a value -/

namespace Encbuf

/-- A buffer `v` written after the buffer `w`: its string data and headers behind those of
`w`, its header sizes added. -/
def append (w v : Encbuf) : Encbuf :=
  ⟨w.str ++ v.str, w.lheads ++ shiftHeads w.str.length v.lheads, w.lhsize + v.lhsize⟩

@[simp] theorem reset_append (v : Encbuf) : reset.append v = v := by
  simp [reset, append]

theorem append_assoc (w u v : Encbuf) : (w.append u).append v = w.append (u.append v) := by
  simp [append, List.append_assoc, Nat.add_assoc, Nat.add_comm u.str.length]

/-- What closing a list writes: the elements' buffer behind a header at its start. -/
def wrapList (u : Encbuf) : Encbuf :=
  ⟨u.str, ⟨0, u.size⟩ :: u.lheads, u.lhsize + if u.size < 56 then 1 else 1 + intsize u.size⟩

theorem encodeString_eq (w : Encbuf) (b : List UInt8) :
    w.encodeString b = w.append ⟨Rlp.encodeString b, [], 0⟩ := by
  unfold encodeString encodeStringHeader Rlp.encodeString append
  match b with
  | [x] =>
    by_cases hx : x.toNat ≤ 0x7F
    · simp [hx]
    · simp [hx, puthead]
  | [] => simp [puthead]
  | x :: y :: b =>
    by_cases hs : b.length + 2 < 56
    · simp [hs, puthead]
    · simp [hs, puthead]

/-- **Closing a list**: the header opened on `w` and closed after writing `u` holds the size
of `u`, which does not depend on `w`. -/
theorem listEnd_list_append (w u : Encbuf) :
    (w.list.1.append u).listEnd w.list.2 = w.append u.wrapList := by
  have hget : (w.list.1.append u).lheads.getD w.list.2 ⟨0, 0⟩ = ⟨w.str.length, w.lhsize⟩ := by
    simp [list, append, List.getD_eq_getElem?_getD]
  have hsize : (w.list.1.append u).size - w.str.length - w.lhsize = u.size := by
    simp only [size, list, append, List.length_append]
    omega
  simp only [listEnd, hget, hsize]
  simp [list, append, wrapList, List.set_append_right, Nat.add_assoc]

end Encbuf

mutual
/-- **Writing is the same wherever the buffer is**: writing a value onto `w` appends to `w`
what writing it onto an empty buffer gives. -/
theorem writeItem_frame : (x : Item) → (w : Encbuf) →
    writeItem x w = w.append (writeItem x Encbuf.reset)
  | .str b, w => by
    simp only [writeItem, Encbuf.encodeString_eq, Encbuf.reset_append]
  | .list items, w => by
    simp only [writeItem]
    rw [writeItems_frame items w.list.1, Encbuf.listEnd_list_append,
      writeItems_frame items Encbuf.reset.list.1, Encbuf.listEnd_list_append,
      Encbuf.reset_append]

theorem writeItems_frame : (items : List Item) → (w : Encbuf) →
    writeItems items w = w.append (writeItems items Encbuf.reset)
  | [], w => by simp [writeItems, Encbuf.append, Encbuf.reset]
  | i :: is, w => by
    simp only [writeItems]
    rw [writeItems_frame is, writeItem_frame i w, writeItems_frame is (writeItem i _),
      Encbuf.append_assoc]
end

/-- What writing a value onto an empty buffer leaves: headers within the string data,
laid in as the value's encoding, and a size that is the encoding's length. -/
structure Written (v : Encbuf) (enc : List UInt8) : Prop where
  offset_le : ∀ head ∈ v.lheads, head.offset ≤ v.str.length
  emit_eq : emit v.str 0 v.lheads = enc
  size_eq : v.size = enc.length

theorem Written.wrapList {u : Encbuf} {enc : List UInt8} (h : Written u enc) :
    Written u.wrapList (puthead 0xC0 0xF7 enc.length ++ enc) := by
  refine ⟨?_, ?_, ?_⟩
  · intro head hmem
    rcases List.mem_cons.mp hmem with rfl | hmem
    · simp
    · exact h.offset_le head hmem
  · simp [Encbuf.wrapList, emit, Listhead.encode, h.emit_eq, h.size_eq]
  · have hsize : u.wrapList.size = u.size + if u.size < 56 then 1 else 1 + intsize u.size :=
      (Nat.add_assoc _ _ _).symm
    rw [hsize, List.length_append, length_puthead_list, h.size_eq, Nat.add_comm]

theorem Written.append {u v : Encbuf} {e₁ e₂ : List UInt8} (hu : Written u e₁)
    (hv : Written v e₂) : Written (u.append v) (e₁ ++ e₂) := by
  refine ⟨?_, ?_, ?_⟩
  · intro head hmem
    rcases List.mem_append.mp hmem with hmem | hmem
    · have := hu.offset_le head hmem
      simp only [Encbuf.append, List.length_append]
      omega
    · obtain ⟨h', hh', hoff⟩ := mem_shiftHeads hmem
      have := hv.offset_le h' hh'
      simp only [Encbuf.append, List.length_append]
      omega
  · have hm₂ : ∀ head ∈ (shiftHeads u.str.length v.lheads).head?,
        u.str.length ≤ head.offset := by
      intro head hmem
      obtain ⟨h', -, hoff⟩ := mem_shiftHeads (List.mem_of_mem_head? hmem)
      omega
    simp only [Encbuf.append]
    have hshift := emit_shift u.str v.str v.lheads 0
    rw [Nat.add_zero] at hshift
    rw [emit_append _ (by simp) _ hm₂ _ 0 (Nat.zero_le _) hu.offset_le,
      List.take_left' rfl, hu.emit_eq, hshift, hv.emit_eq]
  · have h₁ := hu.size_eq
    have h₂ := hv.size_eq
    simp only [Encbuf.size, Encbuf.append, List.length_append] at h₁ h₂ ⊢
    omega

/-! ## Writers -/

namespace Encbuf

@[simp] theorem append_reset (w : Encbuf) : w.append reset = w := by
  simp [append, reset]

theorem append_str (w : Encbuf) (b : List UInt8) :
    w.append ⟨b, [], 0⟩ = { w with str := w.str ++ b } := by
  simp [append]

theorem encodeString_str (w : Encbuf) (b : List UInt8) :
    w.encodeString b = { w with str := w.str ++ Rlp.encodeString b } := by
  rw [encodeString_eq, append_str]

end Encbuf

/-- **A writer**: what it appends to a buffer does not depend on the buffer (it is what it
writes onto an empty one), and lays out an encoding. -/
structure Appends (f : Encbuf → Encbuf) : Prop where
  frame : ∀ w, f w = w.append (f Encbuf.reset)
  written : ∃ enc, Written (f Encbuf.reset) enc

namespace Appends

theorem id : Appends fun w => w :=
  ⟨fun w => (Encbuf.append_reset w).symm,
    [], by simp [Encbuf.reset], by simp [Encbuf.reset, emit], by simp [Encbuf.reset, Encbuf.size]⟩

theorem str (b : List UInt8) : Appends fun w => w.append ⟨b, [], 0⟩ :=
  ⟨fun w => by rw [Encbuf.reset_append], b, by simp, by simp [emit], by simp [Encbuf.size]⟩

/-- A writer that only appends string data, the same whatever the buffer. -/
theorem of_str {f : Encbuf → Encbuf} (h : ∀ w, f w = { w with str := w.str ++ (f Encbuf.reset).str }) :
    Appends f := by
  have hf : f = fun w => w.append ⟨(f Encbuf.reset).str, [], 0⟩ :=
    funext fun w => by rw [Encbuf.append_str, ← h]
  rw [hf]
  exact str _

theorem comp {f g : Encbuf → Encbuf} (hf : Appends f) (hg : Appends g) :
    Appends fun w => g (f w) := by
  obtain ⟨e₁, h₁⟩ := hf.written
  obtain ⟨e₂, h₂⟩ := hg.written
  refine ⟨fun w => ?_, e₁ ++ e₂, ?_⟩
  · rw [hg.frame (f w), hf.frame w, hg.frame (f Encbuf.reset), Encbuf.append_assoc]
  · rw [hg.frame]
    exact h₁.append h₂

/-- A writer between the opening and the closing of a list header. -/
theorem wrap {f : Encbuf → Encbuf} (hf : Appends f) :
    Appends fun w => (f w.list.1).listEnd w.list.2 := by
  obtain ⟨enc, h⟩ := hf.written
  have hwrap : ∀ w : Encbuf, (f w.list.1).listEnd w.list.2 = w.append (f Encbuf.reset).wrapList :=
    fun w => by rw [hf.frame, Encbuf.listEnd_list_append]
  refine ⟨fun w => by rw [hwrap, hwrap, Encbuf.reset_append], puthead 0xC0 0xF7 enc.length ++ enc, ?_⟩
  rw [hwrap, Encbuf.reset_append]
  exact h.wrapList

end Appends

mutual
/-- **The buffer writer lays out the encoding**: on an empty buffer, writing a value gives
the headers and sizes of its recursive encoding. -/
theorem writeItem_spec : (x : Item) → Written (writeItem x Encbuf.reset) x.encode
  | .str b => by
    rw [writeItem_frame, Encbuf.reset_append, writeItem, Encbuf.encodeString_eq,
      Encbuf.reset_append, encode_str]
    exact ⟨by simp, by simp [emit], by simp [Encbuf.size]⟩
  | .list items => by
    have h := writeItems_spec items
    rw [writeItem]
    simp only
    rw [writeItems_frame, Encbuf.listEnd_list_append, Encbuf.reset_append, encode_list]
    exact h.wrapList

theorem writeItems_spec : (items : List Item) →
    Written (writeItems items Encbuf.reset) (encodeList items)
  | [] => ⟨by simp [writeItems, Encbuf.reset], by simp [writeItems, Encbuf.reset, emit,
      encodeList], by simp [writeItems, Encbuf.reset, Encbuf.size, encodeList]⟩
  | i :: is => by
    rw [writeItems, writeItems_frame, encodeList]
    exact (writeItem_spec i).append (writeItems_spec is)
end

/-- **`EncodeToBytes` is the recursive encoding.** -/
theorem EncodeToBytes_eq_encode (x : Item) : EncodeToBytes x = x.encode := by
  rw [EncodeToBytes, toBytes_eq_emit, (writeItem_spec x).emit_eq]

/-- The pieces `toBytes` copies fill the buffer of `size` bytes it allocates. -/
theorem length_EncodeToBytes (x : Item) :
    (EncodeToBytes x).length = (writeItem x Encbuf.reset).size := by
  rw [EncodeToBytes_eq_encode, (writeItem_spec x).size_eq]

end Atlantis.Rlp
