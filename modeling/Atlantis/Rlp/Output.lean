import Atlantis.Rlp.Typed

/-!
# The three outputs of the encoder

`EncodeToBytes`, `Encode` and `EncodeToReader` (`rlp/encode.go`) write a value into an
`encbuf` the same way, and read the buffer out in three ways: `toBytes` copies the string
data and the list headers into one slice, `toWriter` hands them to an `io.Writer`, and the
`encReader` that `EncodeToReader` returns gives them out through `Read`, into buffers of
sizes its caller chooses, resuming inside a piece where a buffer ran out.

All three read the buffer in the same pieces (`pieces`): the string data before a header,
where there is any, the header, and the string data after the last header.  `toWriter`
writes each piece once (`toWriter_eq_forM`), `next` gives them out one by one
(`next_some`, `next_none`), and laid end to end they are what `toBytes` copies
(`flatten_pieces`).  A `Read` into `len` bytes takes the first `len` bytes of what the
reader has left, and reports EOF when they are all of it (`Read_spec`), so reading with
any sizes gives the bytes of `toBytes` in order (`readAll_spec`).  The argument needs the
headers to lie within the string data, which holds of every buffer a writer fills
(`Written.offset_le`).
-/

namespace Atlantis.Rlp

/-- The pieces a buffer with string data `str` is read out in from string position
`strpos` on, before the headers `heads`: the string data before each header where there
is any, the header, and the string data after the last header where there is any. -/
def pieces (str : List UInt8) (strpos : Nat) : List Listhead → List (List UInt8)
  | [] => if strpos < str.length then [str.drop strpos] else []
  | head :: heads =>
    if strpos < head.offset then
      (str.take head.offset).drop strpos :: head.encode :: pieces str head.offset heads
    else head.encode :: pieces str strpos heads

/-- **The pieces are the buffer's bytes**: laid end to end, they are what `emit`, and so
`toBytes`, lays out. -/
theorem flatten_pieces (str : List UInt8) :
    ∀ (heads : List Listhead) (strpos : Nat), (∀ head ∈ heads, head.offset ≤ str.length) →
      (pieces str strpos heads).flatten = emit str strpos heads
  | [], strpos, _ => by
    by_cases h : strpos < str.length
    · simp [pieces, emit, h]
    · simp [pieces, emit, h, List.drop_eq_nil_of_le (Nat.le_of_not_lt h)]
  | head :: heads, strpos, hb => by
    have hoff : head.offset ≤ str.length := hb head (by simp)
    have ih := flatten_pieces str heads
    by_cases h : strpos < head.offset
    · -- the data before the header ends at the header's offset
      have hpos : strpos + ((str.take head.offset).drop strpos).length = head.offset := by
        simp only [List.length_drop, List.length_take]
        omega
      simp only [pieces, if_pos h, emit, hpos, List.flatten_cons, List.append_assoc]
      rw [ih head.offset (fun h' hh => hb h' (by simp [hh]))]
    · have hnil : (str.take head.offset).drop strpos = [] :=
        List.drop_eq_nil_of_le (by simp only [List.length_take]; omega)
      simp only [pieces, if_neg h, emit, hnil, List.length_nil, Nat.add_zero, List.flatten_cons,
        List.nil_append]
      rw [ih strpos (fun h' hh => hb h' (by simp [hh]))]

namespace Encbuf

section ToWriter

variable {m : Type → Type} [Monad m]

/-- One turn of the loop of `toWriter`: the string data before the header, where there is
any, then the header. -/
def toWriterStep (w : Encbuf) (write : List UInt8 → m Unit) (strpos : Nat) (head : Listhead) :
    m Nat := do
  -- write string data before header
  let strpos ← if strpos < head.offset then do
      let piece := (w.str.take head.offset).drop strpos
      write piece
      pure (strpos + piece.length)
    else pure strpos
  -- write the header
  write head.encode
  pure strpos

/-- `toWriter`, with `out.Write` an action of a monad: a `Write` that fails ends the whole.
Where a `Write` does not fail, the count it returns is the length of what it was given,
as `io.Writer` requires. -/
def toWriter (w : Encbuf) (write : List UInt8 → m Unit) : m Unit := do
  let strpos ← w.lheads.foldlM (w.toWriterStep write) 0
  if strpos < w.str.length then
    -- write string data after the last list header
    write (w.str.drop strpos)

variable [LawfulMonad m]

/-- The loop of `toWriter` writes the pieces, one after the other. -/
theorem foldlM_toWriterStep (w : Encbuf) (write : List UInt8 → m Unit) :
    ∀ (heads : List Listhead) (strpos : Nat), (∀ head ∈ heads, head.offset ≤ w.str.length) →
      (do
        let strpos ← heads.foldlM (w.toWriterStep write) strpos
        if strpos < w.str.length then write (w.str.drop strpos)) =
      (pieces w.str strpos heads).forM write
  | [], strpos, _ => by
    by_cases h : strpos < w.str.length
    · simp [pieces, h]
    · simp [pieces, h]
  | head :: heads, strpos, hb => by
    have ih := foldlM_toWriterStep w write heads
    have hb' : ∀ h' ∈ heads, h'.offset ≤ w.str.length := fun h' hh => hb h' (by simp [hh])
    by_cases h : strpos < head.offset
    · have hpos : strpos + ((w.str.take head.offset).drop strpos).length = head.offset := by
        have hoff : head.offset ≤ w.str.length := hb head (by simp)
        simp only [List.length_drop, List.length_take]
        omega
      simp only [List.foldlM_cons, toWriterStep, if_pos h, pieces, List.forM, bind_assoc,
        pure_bind, hpos]
      rw [← ih head.offset hb']
    · simp only [List.foldlM_cons, toWriterStep, if_neg h, pieces, List.forM, bind_assoc,
        pure_bind]
      rw [← ih strpos hb']

/-- **`toWriter` writes the pieces**, whatever the writer does with them. -/
theorem toWriter_eq_forM (w : Encbuf) (hb : ∀ head ∈ w.lheads, head.offset ≤ w.str.length)
    (write : List UInt8 → m Unit) : w.toWriter write = (pieces w.str 0 w.lheads).forM write :=
  foldlM_toWriterStep w write w.lheads 0 hb

end ToWriter

end Encbuf

/-! ## The reader -/

/-- `encReader`: the buffer it reads, `none` once it has reported EOF; the index of the
next list header; the position in the string data; and what is left of a piece a `Read`
could not take to its end. -/
structure EncReader where
  buf : Option Encbuf
  lhpos : Nat
  strpos : Nat
  piece : Option (List UInt8)

namespace EncReader

/-- `next`: the next piece, `none` at EOF. -/
def next (r : EncReader) : Option (List UInt8) × EncReader :=
  match r.buf, r.piece with
  | none, _ => (none, r)
  -- There is still data available for reading.
  | some _, some p => (some p, r)
  | some buf, none =>
    if h : r.lhpos < buf.lheads.length then
      -- We're before the last list header.
      let head := buf.lheads[r.lhpos]
      let sizebefore := head.offset - r.strpos
      if sizebefore > 0 then
        -- String data before header.
        (some ((buf.str.take head.offset).drop r.strpos), { r with strpos := r.strpos + sizebefore })
      else (some head.encode, { r with lhpos := r.lhpos + 1 })
    else if r.strpos < buf.str.length then
      -- String data at the end, after all list headers.
      (some (buf.str.drop r.strpos), { r with strpos := buf.str.length })
    else (none, r)

/-- What the reader has left to give: the rest of the piece it holds, then the pieces from
its positions on. -/
def remaining (r : EncReader) : List (List UInt8) :=
  match r.buf with
  | none => []
  | some buf => r.piece.toList ++ pieces buf.str r.strpos (buf.lheads.drop r.lhpos)

theorem remaining_piece {r : EncReader} {buf : Encbuf} (hb : r.buf = some buf) (q : List UInt8) :
    { r with piece := some q }.remaining = q :: { r with piece := none }.remaining := by
  simp [remaining, hb]

/-- `next` reports EOF only when nothing is left. -/
theorem next_none {r r' : EncReader} (h : r.next = (none, r')) : r.remaining = [] := by
  rcases hbuf : r.buf with _ | buf
  · simp [remaining, hbuf]
  rcases hpiece : r.piece with _ | q
  · by_cases hl : r.lhpos < buf.lheads.length
    · -- a header is left, and `next` gives out a piece
      simp only [next, hbuf, hpiece, dif_pos hl] at h
      split_ifs at h <;> simp at h
    · by_cases hs : r.strpos < buf.str.length
      · simp [next, hbuf, hpiece, hl, hs] at h
      · -- past the last header, and past the string data
        have hdrop : buf.lheads.drop r.lhpos = [] := List.drop_eq_nil_of_le (by omega)
        simp [remaining, hbuf, hpiece, hdrop, pieces, hs]
  · simp [next, hbuf, hpiece] at h

/-- **`next` gives out the first piece left**, and leaves the others. -/
theorem next_some {r r' : EncReader} {p : List UInt8} (h : r.next = (some p, r')) :
    ∃ buf, r'.buf = some buf ∧ r.remaining = p :: { r' with piece := none }.remaining := by
  rcases hbuf : r.buf with _ | buf
  · simp [next, hbuf] at h
  refine ⟨buf, ?_⟩
  rcases hpiece : r.piece with _ | q
  · by_cases hl : r.lhpos < buf.lheads.length
    · have hdrop := List.drop_eq_getElem_cons hl
      by_cases hs : r.strpos < buf.lheads[r.lhpos].offset
      · -- the string data before the next header, up to the header
        have hsz : buf.lheads[r.lhpos].offset - r.strpos > 0 := by omega
        have hpos : r.strpos + (buf.lheads[r.lhpos].offset - r.strpos) =
            buf.lheads[r.lhpos].offset := by omega
        simp only [next, hbuf, hpiece, dif_pos hl, if_pos hsz, Prod.mk.injEq,
          Option.some.injEq] at h
        obtain ⟨rfl, rfl⟩ := h
        simp only [remaining, hbuf, hpiece, Option.toList_none, List.nil_append]
        rw [hdrop]
        simp only [pieces, if_pos hs, hpos, Nat.lt_irrefl, if_false, and_self]
      · -- the header
        have hsz : ¬ buf.lheads[r.lhpos].offset - r.strpos > 0 := by omega
        simp only [next, hbuf, hpiece, dif_pos hl, if_neg hsz, Prod.mk.injEq,
          Option.some.injEq] at h
        obtain ⟨rfl, rfl⟩ := h
        simp only [remaining, hbuf, hpiece, Option.toList_none, List.nil_append]
        rw [hdrop]
        simp only [pieces, if_neg hs, and_self]
    · have hdrop : buf.lheads.drop r.lhpos = [] := List.drop_eq_nil_of_le (by omega)
      by_cases hs : r.strpos < buf.str.length
      · -- the string data after the last header
        simp only [next, hbuf, hpiece, dif_neg hl, if_pos hs, Prod.mk.injEq,
          Option.some.injEq] at h
        obtain ⟨rfl, rfl⟩ := h
        simp [remaining, hbuf, hpiece, hdrop, pieces, hs]
      · simp [next, hbuf, hpiece, hl, hs] at h
  · -- the rest of a piece
    simp only [next, hbuf, hpiece, Prod.mk.injEq, Option.some.injEq] at h
    obtain ⟨rfl, rfl⟩ := h
    simp [remaining, hbuf, hpiece]

/-- The loop of `Read` into a buffer of `len` bytes, `out` what it has copied so far: the
bytes copied, whether it reached EOF, and the reader after. -/
def readLoop (len : Nat) (r : EncReader) (out : List UInt8) : (List UInt8 × Bool) × EncReader :=
  match _hn : r.next with
  | (none, r') =>
    -- Put the encode buffer back into the pool at EOF when it is first encountered.
    ((out, true), { r' with buf := none, piece := none })
  | (some piece, r') =>
    let nn := min (len - out.length) piece.length
    let out := out ++ piece.take nn
    if nn < piece.length then
      -- piece didn't fit, see you next time.
      ((out, false), { r' with piece := some (piece.drop nn) })
    else readLoop len { r' with piece := none } out
termination_by r.remaining.length
decreasing_by
  obtain ⟨_, _, hrem⟩ := next_some _hn
  rw [hrem, List.length_cons]
  exact Nat.lt_succ_self _

/-- `Read` into a buffer of `len` bytes: the bytes it copies, and whether it reports
`io.EOF`. -/
def Read (r : EncReader) (len : Nat) : (List UInt8 × Bool) × EncReader :=
  readLoop len r []

/-- **A `Read` takes the first bytes left**: as many as fit in what is left of the
buffer, reporting EOF exactly when they are all that was left. -/
theorem readLoop_spec (len : Nat) (r : EncReader) (out : List UInt8) :
    (readLoop len r out).1 =
        (out ++ r.remaining.flatten.take (len - out.length),
          decide (r.remaining.flatten.length ≤ len - out.length)) ∧
      (readLoop len r out).2.remaining.flatten = r.remaining.flatten.drop (len - out.length) := by
  fun_induction readLoop len r out with
  | case1 r out r' h =>
    -- nothing is left
    rw [next_none h]
    simp [remaining]
  | case2 r out piece r' h nn out' hfit =>
    -- the piece does not fit: the reader keeps the rest of it
    obtain ⟨buf, hbuf, hrem⟩ := next_some h
    have hnn : nn = min (len - out.length) piece.length := rfl
    have hlt : len - out.length < piece.length := by omega
    rw [hrem, remaining_piece hbuf, List.flatten_cons, List.flatten_cons]
    -- what is left after the piece
    generalize ({ r' with piece := none } : EncReader).remaining.flatten = rest
    have hdec : (piece ++ rest).length ≤ len - out.length ↔ False := by
      simp only [List.length_append, iff_false]
      omega
    refine ⟨?_, ?_⟩
    · simp only [out', hnn, Nat.min_eq_left hlt.le, List.take_append_of_le_length hlt.le, hdec,
        decide_false]
    · simp only [hnn, Nat.min_eq_left hlt.le, List.drop_append_of_le_length hlt.le]
  | case3 r out piece r' h nn out' hfit ih =>
    -- the piece fits, and the loop goes on after it
    obtain ⟨buf, hbuf, hrem⟩ := next_some h
    have hnn : nn = min (len - out.length) piece.length := rfl
    have hle : piece.length ≤ len - out.length := by omega
    have hout : out' = out ++ piece := by
      simp only [out', List.take_of_length_le (show piece.length ≤ nn by omega)]
    have hroom : len - (out ++ piece).length = len - out.length - piece.length := by
      simp only [List.length_append]
      omega
    rw [hout, hroom] at ih
    obtain ⟨ih₁, ih₂⟩ := ih
    rw [hout, ih₁, ih₂, hrem, List.flatten_cons]
    -- what is left after the piece
    generalize ({ r' with piece := none } : EncReader).remaining.flatten = rest
    have hdec : (piece ++ rest).length ≤ len - out.length ↔
        rest.length ≤ len - out.length - piece.length := by
      simp only [List.length_append]
      omega
    rw [List.take_append, List.take_of_length_le hle, List.drop_append, List.drop_eq_nil_of_le hle,
      List.nil_append, List.append_assoc]
    simp only [hdec, and_self]

theorem Read_spec (r : EncReader) (len : Nat) :
    (r.Read len).1 = (r.remaining.flatten.take len, decide (r.remaining.flatten.length ≤ len)) ∧
      (r.Read len).2.remaining.flatten = r.remaining.flatten.drop len := by
  have h := readLoop_spec len r []
  simp only [List.length_nil, Nat.sub_zero, List.nil_append] at h
  exact h

/-- Reading to EOF: `Read` into buffers of the sizes `sizes`, one after the other, until it
reports EOF; the bytes read, and whether it reported EOF. -/
def readAll : List Nat → EncReader → List UInt8 × Bool
  | [], _ => ([], false)
  | len :: sizes, r =>
    match r.Read len with
    | ((out, true), _) => (out, true)
    | ((out, false), r) => (out ++ (readAll sizes r).1, (readAll sizes r).2)

/-- **Reading with any sizes reads what is left, in order**: as many bytes as the
sizes add up to, and EOF once they cover all of it. -/
theorem readAll_spec : ∀ (sizes : List Nat) (r : EncReader),
    (readAll sizes r).1 = r.remaining.flatten.take sizes.sum ∧
      ((readAll sizes r).2 = true ↔ sizes ≠ [] ∧ r.remaining.flatten.length ≤ sizes.sum)
  | [], r => by simp [readAll]
  | len :: sizes, r => by
    obtain ⟨hread, hrest⟩ := Read_spec r len
    obtain ⟨ih₁, ih₂⟩ := readAll_spec sizes (r.Read len).2
    rw [hrest] at ih₁ ih₂
    simp only [readAll, List.sum_cons]
    split
    · next out r' hr =>
      -- EOF: the buffer held all that was left
      rw [hr] at hread
      obtain ⟨rfl, hdec⟩ := Prod.mk.inj hread
      have hlen : r.remaining.flatten.length ≤ len := of_decide_eq_true hdec.symm
      refine ⟨?_, ⟨fun _ => ⟨List.cons_ne_nil _ _, by omega⟩, fun _ => rfl⟩⟩
      rw [List.take_of_length_le hlen, List.take_of_length_le (by omega)]
    · next out r' hr =>
      rw [hr] at hread ih₁ ih₂
      obtain ⟨rfl, hdec⟩ := Prod.mk.inj hread
      have hlen : ¬ r.remaining.flatten.length ≤ len := of_decide_eq_false hdec.symm
      rw [List.length_drop] at ih₂
      refine ⟨by rw [ih₁, List.take_add], ?_⟩
      rw [ih₂]
      constructor
      · rintro ⟨-, hle⟩
        exact ⟨List.cons_ne_nil _ _, by omega⟩
      · rintro ⟨-, hle⟩
        refine ⟨?_, by omega⟩
        -- with no buffer after this one, the sizes do not cover what is left
        rintro rfl
        simp only [List.sum_nil, Nat.add_zero] at hle
        exact hlen hle

end EncReader

/-- The reader `EncodeToReader` returns on a buffer: at its start, with no piece held. -/
def EncReader.ofBuf (w : Encbuf) : EncReader := ⟨some w, 0, 0, none⟩

theorem remaining_ofBuf (w : Encbuf) (hb : ∀ head ∈ w.lheads, head.offset ≤ w.str.length) :
    (EncReader.ofBuf w).remaining.flatten = w.toBytes := by
  simp only [EncReader.ofBuf, EncReader.remaining, Option.toList_none, List.nil_append,
    List.drop_zero]
  rw [flatten_pieces w.str w.lheads 0 hb, toBytes_eq_emit]

namespace Typed

/-- `Encode` into a writer. -/
def Encode {m : Type → Type} [Monad m] (typ : Ty) (v : Val) (write : List UInt8 → m Unit) :
    m Unit :=
  (writeValue typ v Encbuf.reset).toWriter write

/-- `EncodeToReader`: the size of the encoding, and a reader of it. -/
def EncodeToReader (typ : Ty) (v : Val) : Nat × EncReader :=
  let eb := writeValue typ v Encbuf.reset
  (eb.size, EncReader.ofBuf eb)

/-- **The three outputs agree**: `Encode` hands any writer, in order, pieces that laid end
to end are the bytes of `EncodeToBytes`; reading the reader of `EncodeToReader` with any
sizes gives those bytes, in order, and EOF once the sizes cover them; and their length is
the size `EncodeToReader` reports. -/
theorem encode_outputs_agree (typ : Ty) (v : Val) :
    (∃ ps : List (List UInt8), ps.flatten = EncodeToBytes typ v ∧
      ∀ (m : Type → Type) [Monad m] [LawfulMonad m] (write : List UInt8 → m Unit),
        Encode typ v write = ps.forM write) ∧
    (∀ sizes : List Nat,
      (EncReader.readAll sizes (EncodeToReader typ v).2).1 = (EncodeToBytes typ v).take sizes.sum ∧
      ((EncReader.readAll sizes (EncodeToReader typ v).2).2 = true ↔
        sizes ≠ [] ∧ (EncodeToBytes typ v).length ≤ sizes.sum)) ∧
    (EncodeToBytes typ v).length = (EncodeToReader typ v).1 := by
  obtain ⟨enc, hw⟩ := (appends_writeValue typ v).written
  have hbytes : EncodeToBytes typ v = enc := by
    rw [EncodeToBytes, toBytes_eq_emit, hw.emit_eq]
  refine ⟨⟨_, ?_, fun m _ _ write => Encbuf.toWriter_eq_forM _ hw.offset_le write⟩, ?_, ?_⟩
  · rw [flatten_pieces _ _ _ hw.offset_le, hw.emit_eq, hbytes]
  · intro sizes
    have hread := EncReader.readAll_spec sizes (EncodeToReader typ v).2
    rwa [EncodeToReader, remaining_ofBuf _ hw.offset_le] at hread
  · rw [hbytes, EncodeToReader, hw.size_eq]

end Typed

end Atlantis.Rlp
