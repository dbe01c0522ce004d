import Atlantis.Lib.Digits

/-!
# Hex quantities

`common/hexutil/hexutil.go`: quantities are written `0x` followed by hex digits with no
leading zero.  `DecodeBig` reads the digits from the end in chunks of `bigWordNibbles`, one
`big.Word` each (8 or 16 nibbles, after the platform's word size), and `DecodeUint64` hands
them to `strconv.ParseUint`.  The encoders write lowercase digits without leading zeros.

A Go string is its bytes, a `List UInt8`.  `bigWordNibbles` is a parameter, so every result
holds on both platforms; a `big.Word` of it is a number below `2 ^ (4 * bigWordNibbles)`.
`strconv.ParseUint(raw, 16, 64)` is modelled by its loop, with the errors `mapError` turns
its own into.  `strconv.FormatUint` and the `%#x` verb of `big.Int` write Mathlib's
`Nat.digits` in base 16, most significant first.  A decoder's result beside an error is not
kept.
-/

namespace Atlantis.Hexutil

/-- The byte of an ASCII character. -/
def byte (c : Char) : UInt8 := c.toNat.toUInt8

/-- The errors of the decoders, by the source's names. -/
inductive DecError where
  | ErrEmptyString
  | ErrSyntax
  | ErrMissingPrefix
  | ErrEmptyNumber
  | ErrLeadingZero
  | ErrUint64Range
  | ErrBig256Range
  deriving DecidableEq, Repr

/-- `has0xPrefix`. -/
def has0xPrefix (input : List UInt8) : Bool :=
  match input with
  | c0 :: c1 :: _ => c0 = byte '0' && (c1 = byte 'x' || c1 = byte 'X')
  | _ => false

/-- `checkNumber`: the digits after the prefix, when there are some and they have no
leading zero. -/
def checkNumber (input : List UInt8) : Except DecError (List UInt8) :=
  if input.length = 0 then .error .ErrEmptyString
  else if !has0xPrefix input then .error .ErrMissingPrefix
  else
    let input := input.drop 2
    if input.length = 0 then .error .ErrEmptyNumber
    else if input.length > 1 ∧ input.head? = some (byte '0') then .error .ErrLeadingZero
    else .ok input

/-- `badNibble`: `^uint64(0)`. -/
def badNibble : UInt64 := ~~~0

/-- `decodeNibble`. -/
def decodeNibble (c : UInt8) : UInt64 :=
  if byte '0' ≤ c ∧ c ≤ byte '9' then (c - byte '0').toUInt64
  else if byte 'A' ≤ c ∧ c ≤ byte 'F' then (c - byte 'A' + 10).toUInt64
  else if byte 'a' ≤ c ∧ c ≤ byte 'f' then (c - byte 'a' + 10).toUInt64
  else badNibble

/-- One nibble of the inner loop of `DecodeBig`: `words[i] *= 16; words[i] += nib` in a
word of `wordBits` bits. -/
def decodeWordStep (wordBits : Nat) (w : Nat) (c : UInt8) : Except DecError Nat :=
  let nib := decodeNibble c
  if nib = badNibble then .error .ErrSyntax else .ok ((w * 16 + nib.toNat) % 2 ^ wordBits)

/-- The loop of `DecodeBig` over the words, least significant first: word `i` reads the
nibbles `raw[start:end]`, with `start` the larger of `end - bigWordNibbles` and `0`. -/
def decodeWords (bigWordNibbles : Nat) (raw : List UInt8) : Nat → Nat → Except DecError (List Nat)
  | 0, _ => .ok []
  | k + 1, stop => do
    let start := stop - bigWordNibbles
    let w ← ((raw.take stop).drop start).foldlM (decodeWordStep (4 * bigWordNibbles)) 0
    let ws ← decodeWords bigWordNibbles raw k start
    return w :: ws

/-- `big.Int.SetBits`: the words as one number, least significant first. -/
def setBits (wordBits : Nat) : List Nat → Nat
  | [] => 0
  | w :: ws => w + 2 ^ wordBits * setBits wordBits ws

/-- `DecodeBig`. -/
def DecodeBig (bigWordNibbles : Nat) (input : List UInt8) : Except DecError Nat := do
  let raw ← checkNumber input
  if raw.length > 64 then throw .ErrBig256Range
  let words ← decodeWords bigWordNibbles raw (raw.length / bigWordNibbles + 1) raw.length
  return setBits (4 * bigWordNibbles) words

/-- The digit `strconv.ParseUint` reads from a byte, in any base up to 36; `none` for a byte
that is no digit at all. -/
def parseDigit (d : UInt8) : Option Nat :=
  if byte '0' ≤ d ∧ d ≤ byte '9' then some (d - byte '0').toNat
  else if byte 'a' ≤ d ∧ d ≤ byte 'z' then some (d - byte 'a' + 10).toNat
  else if byte 'A' ≤ d ∧ d ≤ byte 'Z' then some (d - byte 'A' + 10).toNat
  else none

/-- One byte of `strconv.ParseUint(s, 16, 64)`: a digit of the base, then the two overflow
checks against `cutoff = maxUint64 / 16 + 1` and `maxVal = 2 ^ 64 - 1`. -/
def parseUintStep (n : Nat) (d : UInt8) : Except DecError Nat :=
  match parseDigit d with
  | none => .error .ErrSyntax
  | some v =>
    if v ≥ 16 then .error .ErrSyntax
    else if n ≥ (2 ^ 64 - 1) / 16 + 1 then .error .ErrUint64Range
    else if n * 16 + v > 2 ^ 64 - 1 then .error .ErrUint64Range
    else .ok (n * 16 + v)

/-- `strconv.ParseUint(s, 16, 64)`, with its errors as `mapError` maps them. -/
def ParseUint (s : List UInt8) : Except DecError Nat :=
  if s.length = 0 then .error .ErrSyntax else s.foldlM parseUintStep 0

/-- `DecodeUint64`. -/
def DecodeUint64 (input : List UInt8) : Except DecError UInt64 := do
  let raw ← checkNumber input
  let dec ← ParseUint raw
  return dec.toUInt64

/-- The digit of `d < 16` in `strconv`'s table `0123456789abcdef`. -/
def hexChar (d : Nat) : UInt8 :=
  if d < 10 then byte '0' + d.toUInt8 else byte 'a' + (d - 10).toUInt8

/-- `strconv.FormatUint(n, 16)`, and the digits `%x` writes for a `big.Int`: lowercase, no
leading zero, `0` for zero. -/
def formatHex (n : Nat) : List UInt8 :=
  if n = 0 then [byte '0'] else (Nat.digits 16 n).reverse.map hexChar

/-- `EncodeBig`: `0x0` for zero, else `fmt.Sprintf("%#x", bigint)`, the sign first. -/
def EncodeBig (bigint : Int) : List UInt8 :=
  if bigint.natAbs = 0 then [byte '0', byte 'x', byte '0']
  else (if bigint < 0 then [byte '-'] else []) ++ [byte '0', byte 'x'] ++ formatHex bigint.natAbs

/-- `EncodeUint64`. -/
def EncodeUint64 (i : UInt64) : List UInt8 := [byte '0', byte 'x'] ++ formatHex i.toNat

/-! ## What a quantity is -/

/-- A hex digit: a byte `decodeNibble` reads. -/
def IsHexDigit (c : UInt8) : Prop := decodeNibble c ≠ badNibble

instance (c : UInt8) : Decidable (IsHexDigit c) := inferInstanceAs (Decidable (_ ≠ _))

/-- The value of a string of hex digits. -/
def hexValue (digits : List UInt8) : Nat := Nat.valueBE 16 (digits.map fun c => (decodeNibble c).toNat)

/-- The strings the decoders should accept: `0x` or `0X`, then 1 to 64 hex digits, with no
leading zero unless the digits are exactly `0`. -/
def IsQuantity (s : List UInt8) : Prop :=
  ∃ p digits, s = byte '0' :: p :: digits ∧ (p = byte 'x' ∨ p = byte 'X') ∧ digits ≠ [] ∧
    digits.length ≤ 64 ∧ (∀ c ∈ digits, IsHexDigit c) ∧
    (digits.length > 1 → digits.head? ≠ some (byte '0'))

/-! ## Nibbles -/

section Nibbles

@[simp] theorem toNat_byte_zero : (byte '0').toNat = 48 := by decide
@[simp] theorem toNat_byte_nine : (byte '9').toNat = 57 := by decide
@[simp] theorem toNat_byte_A : (byte 'A').toNat = 65 := by decide
@[simp] theorem toNat_byte_F : (byte 'F').toNat = 70 := by decide
@[simp] theorem toNat_byte_Z : (byte 'Z').toNat = 90 := by decide
@[simp] theorem toNat_byte_a : (byte 'a').toNat = 97 := by decide
@[simp] theorem toNat_byte_f : (byte 'f').toNat = 102 := by decide
@[simp] theorem toNat_byte_z : (byte 'z').toNat = 122 := by decide

theorem toNat_ten : (10 : UInt8).toNat = 10 := rfl

theorem toNat_sub_of_toNat_le {c d : UInt8} (h : d.toNat ≤ c.toNat) :
    (c - d).toNat = c.toNat - d.toNat :=
  UInt8.toNat_sub_of_le _ _ (UInt8.le_iff_toNat_le.mpr h)

/-- `decodeNibble` on the code of the byte. -/
theorem toNat_decodeNibble (c : UInt8) : (decodeNibble c).toNat =
    if 48 ≤ c.toNat ∧ c.toNat ≤ 57 then c.toNat - 48
    else if 65 ≤ c.toNat ∧ c.toNat ≤ 70 then c.toNat - 55
    else if 97 ≤ c.toNat ∧ c.toNat ≤ 102 then c.toNat - 87 else 2 ^ 64 - 1 := by
  have hc := c.toNat_lt
  unfold decodeNibble
  simp only [UInt8.le_iff_toNat_le, toNat_byte_zero, toNat_byte_nine, toNat_byte_A,
    toNat_byte_F, toNat_byte_a, toNat_byte_f]
  split_ifs
  · rw [UInt8.toNat_toUInt64, toNat_sub_of_toNat_le (by simp; omega), toNat_byte_zero]
  · rw [UInt8.toNat_toUInt64, UInt8.toNat_add, toNat_sub_of_toNat_le (by simp; omega),
      toNat_byte_A, toNat_ten]
    omega
  · rw [UInt8.toNat_toUInt64, UInt8.toNat_add, toNat_sub_of_toNat_le (by simp; omega),
      toNat_byte_a, toNat_ten]
    omega
  · rfl

/-- `parseDigit` on the code of the byte. -/
theorem parseDigit_eq (c : UInt8) : parseDigit c =
    if 48 ≤ c.toNat ∧ c.toNat ≤ 57 then some (c.toNat - 48)
    else if 97 ≤ c.toNat ∧ c.toNat ≤ 122 then some (c.toNat - 87)
    else if 65 ≤ c.toNat ∧ c.toNat ≤ 90 then some (c.toNat - 55) else none := by
  have hc := c.toNat_lt
  unfold parseDigit
  simp only [UInt8.le_iff_toNat_le, toNat_byte_zero, toNat_byte_nine, toNat_byte_a,
    toNat_byte_z, toNat_byte_A, toNat_byte_Z]
  split_ifs
  · rw [toNat_sub_of_toNat_le (by simp; omega), toNat_byte_zero]
  · rw [UInt8.toNat_add, toNat_sub_of_toNat_le (by simp; omega), toNat_byte_a,
      toNat_ten, Option.some.injEq]
    omega
  · rw [UInt8.toNat_add, toNat_sub_of_toNat_le (by simp; omega), toNat_byte_A,
      toNat_ten, Option.some.injEq]
    omega
  · rfl

theorem isHexDigit_iff (c : UInt8) : IsHexDigit c ↔ (decodeNibble c).toNat ≠ 2 ^ 64 - 1 := by
  rw [IsHexDigit, Ne, Ne, ← UInt64.toNat_inj]
  rfl

theorem decodeNibble_lt {c : UInt8} (h : IsHexDigit c) : (decodeNibble c).toNat < 16 := by
  rw [isHexDigit_iff, toNat_decodeNibble] at h
  rw [toNat_decodeNibble]
  split_ifs at h ⊢ <;> omega

/-- `strconv.ParseUint` reads in base 16 exactly the hex digits, with their values. -/
theorem parseDigit_eq_some_lt {c : UInt8} {v : Nat} :
    (parseDigit c = some v ∧ v < 16) ↔ (IsHexDigit c ∧ (decodeNibble c).toNat = v) := by
  rw [isHexDigit_iff, toNat_decodeNibble, parseDigit_eq]
  split_ifs <;> simp <;> omega

theorem toNat_hexChar {d : Nat} (h : d < 16) :
    (hexChar d).toNat = if d < 10 then 48 + d else 87 + d := by
  unfold hexChar
  split_ifs
  · rw [UInt8.toNat_add, toNat_byte_zero, UInt8.toNat_ofNat']
    omega
  · rw [UInt8.toNat_add, toNat_byte_a, UInt8.toNat_ofNat']
    omega

theorem decodeNibble_hexChar {d : Nat} (h : d < 16) :
    IsHexDigit (hexChar d) ∧ (decodeNibble (hexChar d)).toNat = d := by
  rw [isHexDigit_iff, toNat_decodeNibble, toNat_hexChar h]
  split_ifs <;> omega

end Nibbles

/-! ## The decoders -/

section Decoders

/-- `checkNumber` accepts exactly what follows a `0x` prefix, when it is not empty and has no
leading zero. -/
theorem checkNumber_eq_ok {s raw : List UInt8} : checkNumber s = .ok raw ↔
    ∃ p, s = byte '0' :: p :: raw ∧ (p = byte 'x' ∨ p = byte 'X') ∧ raw ≠ [] ∧
      (raw.length > 1 → raw.head? ≠ some (byte '0')) := by
  constructor
  · intro h
    match s, h with
    | [], h => simp [checkNumber] at h
    | [c], h => simp [checkNumber, has0xPrefix] at h
    | c0 :: c1 :: rest, h =>
      have hp : has0xPrefix (c0 :: c1 :: rest) = true := by
        by_contra hn
        simp [checkNumber, Bool.not_eq_true _ ▸ hn] at h
      have hne : rest ≠ [] := by
        rintro rfl
        simp [checkNumber, hp] at h
      have hlead : ¬ (rest.length > 1 ∧ rest.head? = some (byte '0')) := by
        intro hl
        simp [checkNumber, hp, hne, hl] at h
      have hraw : rest = raw := by
        simpa [checkNumber, hp, hne, hlead] using h
      subst hraw
      simp only [has0xPrefix, Bool.and_eq_true, decide_eq_true_eq, Bool.or_eq_true] at hp
      exact ⟨c1, by rw [hp.1], hp.2, hne, fun hl hh => hlead ⟨hl, hh⟩⟩
  · rintro ⟨p, rfl, hp, hne, hlead⟩
    have hpre : has0xPrefix (byte '0' :: p :: raw) = true := by
      simp [has0xPrefix, hp]
    have hlen : raw.length ≠ 0 := by simpa using hne
    simp only [checkNumber, hpre, Bool.not_true, List.drop_succ_cons, List.drop_zero,
      List.length_cons]
    rw [if_neg (by omega), if_neg (by simp), if_neg hlen, if_neg (fun h => hlead h.1 h.2)]

/-- The inner loop of `DecodeBig` over hex digits, from the word `w`. -/
theorem foldlM_decodeWordStep (W : Nat) :
    ∀ (chunk : List UInt8) (w : Nat), w < 2 ^ W → (∀ c ∈ chunk, IsHexDigit c) →
      chunk.foldlM (decodeWordStep W) w = .ok ((w * 16 ^ chunk.length + hexValue chunk) % 2 ^ W)
  | [], w, hw, _ => by simp [hexValue, Nat.mod_eq_of_lt hw, pure, Except.pure]
  | c :: cs, w, _, hc => by
    have hnib : decodeNibble c ≠ badNibble := hc c List.mem_cons_self
    have ih := foldlM_decodeWordStep W cs ((w * 16 + (decodeNibble c).toNat) % 2 ^ W)
      (Nat.mod_lt _ (Nat.two_pow_pos W)) fun c' h => hc c' (List.mem_cons_of_mem _ h)
    simp only [List.foldlM_cons, decodeWordStep, hnib, if_false, bind, Except.bind, ih]
    -- the word is taken modulo `2 ^ W` at every nibble, which the end result absorbs
    have hmod := ((Nat.mod_modEq (w * 16 + (decodeNibble c).toNat) (2 ^ W)).mul_right
      (16 ^ cs.length)).add_right (hexValue cs)
    rw [hmod]
    congr 2
    simp only [hexValue, List.map_cons, List.length_cons]
    rw [← List.singleton_append, Nat.valueBE_append, List.length_map]
    simp only [Nat.valueBE, List.foldl_cons, List.foldl_nil]
    ring

/-- A chunk that `decodeWordStep` reads through is all hex digits. -/
theorem isHexDigit_of_foldlM_decodeWordStep (W : Nat) :
    ∀ (chunk : List UInt8) (w v : Nat), chunk.foldlM (decodeWordStep W) w = .ok v →
      ∀ c ∈ chunk, IsHexDigit c
  | [], _, _, _ => by simp
  | c :: cs, w, v, h => by
    by_cases hnib : decodeNibble c = badNibble
    · simp [List.foldlM_cons, decodeWordStep, hnib, bind, Except.bind] at h
    · simp only [List.foldlM_cons, decodeWordStep, hnib, if_false, bind, Except.bind] at h
      intro c' hc'
      rcases List.mem_cons.mp hc' with rfl | hc'
      · exact hnib
      · exact isHexDigit_of_foldlM_decodeWordStep W cs _ v h c' hc'

theorem hexValue_lt {digits : List UInt8} (h : ∀ c ∈ digits, IsHexDigit c) :
    hexValue digits < 16 ^ digits.length := by
  rw [hexValue, ← List.length_map (f := fun c => (decodeNibble c).toNat)]
  refine Nat.valueBE_lt (by norm_num) fun d hd => ?_
  obtain ⟨c, hc, rfl⟩ := List.mem_map.mp hd
  exact decodeNibble_lt (h c hc)

theorem hexValue_append (l₁ l₂ : List UInt8) :
    hexValue (l₁ ++ l₂) = hexValue l₁ * 16 ^ l₂.length + hexValue l₂ := by
  rw [hexValue, List.map_append, Nat.valueBE_append, List.length_map, ← hexValue, ← hexValue]

variable {N : Nat} {raw : List UInt8}

/-- The words of `DecodeBig`, when the digits up to `stop` are hex digits and the words
cover them: together they are the value of those digits. -/
theorem decodeWords_ok (hN : 0 < N) :
    ∀ (k stop : Nat), stop ≤ raw.length → stop ≤ k * N →
      (∀ c ∈ raw.take stop, IsHexDigit c) →
      ∃ ws, decodeWords N raw k stop = .ok ws ∧ setBits (4 * N) ws = hexValue (raw.take stop)
  | 0, stop, _, hk, _ => by
    have : stop = 0 := by simpa using hk
    subst this
    exact ⟨[], rfl, by simp [setBits, hexValue]⟩
  | k + 1, stop, hlen, hk, hc => by
    -- the digits up to `stop` are those up to `start`, then this word's chunk
    have hsplit : raw.take stop = raw.take (stop - N) ++ (raw.take stop).drop (stop - N) := by
      conv_lhs => rw [← List.take_append_drop (stop - N) (raw.take stop)]
      rw [List.take_take, Nat.min_eq_left (Nat.sub_le stop N)]
    have hchunk : ∀ c ∈ (raw.take stop).drop (stop - N), IsHexDigit c :=
      fun c h => hc c (List.mem_of_mem_drop h)
    have hlenc : ((raw.take stop).drop (stop - N)).length = stop - (stop - N) := by
      simp [List.length_take, Nat.min_eq_left hlen]
    have hword := foldlM_decodeWordStep (4 * N) _ 0 (Nat.two_pow_pos _) hchunk
    have hsmall : hexValue ((raw.take stop).drop (stop - N)) < 2 ^ (4 * N) := by
      calc hexValue ((raw.take stop).drop (stop - N))
          < 16 ^ (stop - (stop - N)) := hlenc ▸ hexValue_lt hchunk
        _ ≤ 16 ^ N := Nat.pow_le_pow_right (by norm_num) (by omega)
        _ = 2 ^ (4 * N) := by rw [pow_mul]; norm_num
    obtain ⟨ws, hws, hval⟩ := decodeWords_ok hN k (stop - N) (by omega)
      (by rw [Nat.succ_mul] at hk; omega)
      (fun c h => hc c (hsplit ▸ List.mem_append_left _ h))
    refine ⟨hexValue ((raw.take stop).drop (stop - N)) :: ws, ?_, ?_⟩
    · simp only [decodeWords, hword, zero_mul, zero_add, Nat.mod_eq_of_lt hsmall, bind,
        Except.bind, hws, pure, Except.pure]
    · have hv := congrArg hexValue hsplit
      rw [hexValue_append, hlenc] at hv
      rw [setBits, hval, hv]
      by_cases hNs : N ≤ stop
      · rw [show stop - (stop - N) = N by omega, show 16 ^ N = 2 ^ (4 * N) by
          rw [pow_mul]; norm_num]
        ring
      · -- the last word starts at `0`: nothing comes before it
        rw [show stop - N = 0 by omega]
        simp [hexValue]

/-- What the words of `DecodeBig` read through is all hex digits. -/
theorem isHexDigit_of_decodeWords :
    ∀ (k stop : Nat) (ws : List Nat), stop ≤ k * N → decodeWords N raw k stop = .ok ws →
      ∀ c ∈ raw.take stop, IsHexDigit c
  | 0, stop, _, hk, _ => by
    have : stop = 0 := by simpa using hk
    simp [this]
  | k + 1, stop, ws, hk, h => by
    simp only [decodeWords, bind, Except.bind] at h
    split at h
    · cases h
    · next w hw =>
      split at h
      · cases h
      · next ws' hws =>
        intro c hc
        rw [← List.take_append_drop (stop - N) (raw.take stop), List.take_take,
          Nat.min_eq_left (Nat.sub_le stop N)] at hc
        rcases List.mem_append.mp hc with hc | hc
        · exact isHexDigit_of_decodeWords k (stop - N) ws'
            (by rw [Nat.succ_mul] at hk; omega) hws c hc
        · exact isHexDigit_of_foldlM_decodeWordStep _ _ 0 w hw c hc

/-- **`DecodeBig` reads exactly the quantities, as their value.** -/
theorem DecodeBig_eq_ok (hN : 0 < N) (s : List UInt8) (v : Nat) :
    DecodeBig N s = .ok v ↔ IsQuantity s ∧ v = hexValue (s.drop 2) := by
  constructor
  · intro h
    cases hraw : checkNumber s with
    | error e => simp [DecodeBig, hraw, bind, Except.bind] at h
    | ok raw =>
      obtain ⟨p, rfl, hp, hne, hlead⟩ := checkNumber_eq_ok.mp hraw
      have h64 : ¬ raw.length > 64 := by
        intro h64
        simp [DecodeBig, hraw, h64, bind, Except.bind, throw, throwThe, MonadExceptOf.throw] at h
      have hcover : raw.length ≤ (raw.length / N + 1) * N := by
        have := Nat.lt_div_mul_add hN (a := raw.length)
        rw [Nat.succ_mul]
        omega
      cases hws : decodeWords N raw (raw.length / N + 1) raw.length with
      | error e => simp [DecodeBig, hraw, h64, hws, bind, Except.bind] at h
      | ok ws =>
        have hv : setBits (4 * N) ws = v := by
          simpa [DecodeBig, hraw, h64, hws, bind, Except.bind, pure, Except.pure] using h
        have hhex := isHexDigit_of_decodeWords _ _ ws hcover hws
        rw [List.take_length] at hhex
        obtain ⟨ws', hws', hval⟩ := decodeWords_ok hN _ raw.length le_rfl hcover
          (by rwa [List.take_length])
        rw [hws, Except.ok.injEq] at hws'
        subst hws'
        refine ⟨⟨p, raw, rfl, hp, hne, by omega, hhex, hlead⟩, ?_⟩
        rw [← hv, hval, List.take_length]
        rfl
  · rintro ⟨⟨p, raw, rfl, hp, hne, h64, hhex, hlead⟩, rfl⟩
    have hcheck : checkNumber (byte '0' :: p :: raw) = .ok raw :=
      checkNumber_eq_ok.mpr ⟨p, rfl, hp, hne, hlead⟩
    have hcover : raw.length ≤ (raw.length / N + 1) * N := by
      have := Nat.lt_div_mul_add hN (a := raw.length)
      rw [Nat.succ_mul]
      omega
    obtain ⟨ws, hws, hval⟩ := decodeWords_ok hN _ raw.length le_rfl hcover
      (by rwa [List.take_length])
    simp only [DecodeBig, hcheck, bind, Except.bind, show ¬ raw.length > 64 by omega,
      if_false, hws, pure, Except.pure, hval, List.take_length, List.drop_succ_cons,
      List.drop_zero]

/-- `ParseUint`'s loop over hex digits whose value fits in 64 bits. -/
theorem foldlM_parseUintStep :
    ∀ (raw : List UInt8) (n : Nat), (∀ c ∈ raw, IsHexDigit c) →
      n * 16 ^ raw.length + hexValue raw < 2 ^ 64 →
      raw.foldlM parseUintStep n = .ok (n * 16 ^ raw.length + hexValue raw)
  | [], n, _, _ => by simp [hexValue, pure, Except.pure]
  | c :: cs, n, hc, hlt => by
    obtain ⟨hd, hv⟩ := parseDigit_eq_some_lt.mpr ⟨hc c List.mem_cons_self, rfl⟩
    have hval : n * 16 ^ (c :: cs).length + hexValue (c :: cs) =
        (n * 16 + (decodeNibble c).toNat) * 16 ^ cs.length + hexValue cs := by
      rw [← List.singleton_append, hexValue_append, List.length_append, List.length_singleton]
      simp only [hexValue, List.map_cons, List.map_nil, Nat.valueBE, List.foldl_cons,
        List.foldl_nil]
      ring
    rw [hval] at hlt ⊢
    -- the prefix read so far is at most the whole value, so neither check fires
    have hpow : 1 ≤ 16 ^ cs.length := Nat.one_le_pow _ _ (by norm_num)
    have hle : n * 16 + (decodeNibble c).toNat ≤
        (n * 16 + (decodeNibble c).toNat) * 16 ^ cs.length := Nat.le_mul_of_pos_right _ hpow
    have hstep : parseUintStep n c = .ok (n * 16 + (decodeNibble c).toNat) := by
      simp only [parseUintStep, hd]
      rw [if_neg (by omega), if_neg (by omega), if_neg (by omega)]
    rw [List.foldlM_cons, hstep]
    exact foldlM_parseUintStep cs _ (fun c' h => hc c' (List.mem_cons_of_mem _ h)) hlt

/-- What `ParseUint`'s loop returns is the value of hex digits, within 64 bits once it read
a digit. -/
theorem foldlM_parseUintStep_ok :
    ∀ (raw : List UInt8) (n w : Nat), raw.foldlM parseUintStep n = .ok w →
      (∀ c ∈ raw, IsHexDigit c) ∧ w = n * 16 ^ raw.length + hexValue raw ∧
        (raw = [] ∨ w < 2 ^ 64)
  | [], n, w, h => by
    simp only [List.foldlM_nil, pure, Except.pure, Except.ok.injEq] at h
    simp [h, hexValue]
  | c :: cs, n, w, h => by
    rw [List.foldlM_cons] at h
    unfold parseUintStep at h
    split at h
    · cases h
    · next v hv =>
      split_ifs at h with h16 hcut hmax
      · cases h
      · cases h
      · cases h
      · obtain ⟨hc, hd⟩ := parseDigit_eq_some_lt.mp ⟨hv, by omega⟩
        obtain ⟨hcs, hw, hlt⟩ := foldlM_parseUintStep_ok cs _ w h
        refine ⟨fun c' h' => ?_, ?_, .inr ?_⟩
        · rcases List.mem_cons.mp h' with rfl | h'
          · exact hc
          · exact hcs c' h'
        · rw [hw, ← List.singleton_append, hexValue_append, List.length_append,
            List.length_singleton]
          simp only [hexValue, List.map_cons, List.map_nil, Nat.valueBE, List.foldl_cons,
            List.foldl_nil, hd]
          ring
        · rcases hlt with rfl | hlt
          · simp only [List.length_nil, pow_zero, mul_one, hexValue, List.map_nil,
              Nat.valueBE_nil, add_zero] at hw
            omega
          · exact hlt

end Decoders

/-! ## The encoders -/

section Encoders

theorem formatHex_spec (n : Nat) :
    formatHex n ≠ [] ∧ (∀ c ∈ formatHex n, IsHexDigit c) ∧ hexValue (formatHex n) = n ∧
      ((formatHex n).length > 1 → (formatHex n).head? ≠ some (byte '0')) ∧
      (formatHex n).length = max 1 (Nat.digits 16 n).length := by
  by_cases hn : n = 0
  · subst hn
    refine ⟨by simp [formatHex], ?_, ?_, ?_, ?_⟩ <;> simp [formatHex] <;> decide
  · have hdig : ∀ d ∈ (Nat.digits 16 n).reverse, d < 16 :=
      fun d hd => Nat.digits_lt_base (by norm_num) (List.mem_reverse.mp hd)
    have hne : Nat.digits 16 n ≠ [] := Nat.digits_ne_nil_iff_ne_zero.mpr hn
    simp only [formatHex, hn, if_false]
    refine ⟨by simpa using hne, ?_, ?_, ?_, ?_⟩
    · intro c hc
      obtain ⟨d, hd, rfl⟩ := List.mem_map.mp hc
      exact (decodeNibble_hexChar (hdig d hd)).1
    · have hid : ∀ d ∈ (Nat.digits 16 n).reverse,
          ((fun c => (decodeNibble c).toNat) ∘ hexChar) d = d :=
        fun d hd => (decodeNibble_hexChar (hdig d hd)).2
      rw [hexValue, List.map_map, List.map_congr_left hid, List.map_id']
      exact Nat.valueBE_digits n
    · -- the most significant digit of a positive number is not `0`
      intro _ hhead
      rw [List.head?_map, List.head?_reverse, Option.map_eq_some_iff] at hhead
      obtain ⟨d, hd, hd0⟩ := hhead
      have hlast : d = (Nat.digits 16 n).getLast hne := by
        rw [List.getLast?_eq_some_getLast hne] at hd
        exact (Option.some.inj hd).symm
      have hdlt : d < 16 := hdig d (List.mem_reverse.mpr (hlast ▸ List.getLast_mem hne))
      have h0 := toNat_hexChar hdlt
      rw [hd0, toNat_byte_zero] at h0
      exact Nat.getLast_digit_ne_zero 16 hn (hlast ▸ by split_ifs at h0 <;> omega)
    · simp only [List.length_map, List.length_reverse]
      have := List.length_pos_of_ne_nil hne
      omega

/-- A quantity written by the encoders, for a number below `2 ^ 256`. -/
theorem isQuantity_formatHex {n : Nat} (h : n < 2 ^ 256) :
    IsQuantity ([byte '0', byte 'x'] ++ formatHex n) := by
  obtain ⟨hne, hhex, -, hlead, hlen⟩ := formatHex_spec n
  have hdig : (Nat.digits 16 n).length ≤ 64 :=
    (Nat.digits_length_le_iff (by norm_num) n).mpr (by norm_num; omega)
  exact ⟨byte 'x', formatHex n, rfl, .inl rfl, hne, by omega, hhex, hlead⟩

/-- **The hex quantity codec is exact.**  On either platform's word size: `DecodeBig`
accepts exactly the quantities and returns their value; it reads back what `EncodeBig`
writes for every number below `2 ^ 256`; `DecodeUint64` reads back what `EncodeUint64`
writes; and where `DecodeBig` and `DecodeUint64` both accept a string they agree. -/
theorem hex_quantity_codec (bigWordNibbles : Nat) (hN : 0 < bigWordNibbles) :
    (∀ s v, DecodeBig bigWordNibbles s = .ok v ↔ IsQuantity s ∧ v = hexValue (s.drop 2)) ∧
    (∀ x : Int, 0 ≤ x → x < 2 ^ 256 → DecodeBig bigWordNibbles (EncodeBig x) = .ok x.toNat) ∧
    (∀ n : UInt64, DecodeUint64 (EncodeUint64 n) = .ok n) ∧
    (∀ s v w, DecodeBig bigWordNibbles s = .ok v → DecodeUint64 s = .ok w → v = w.toNat) := by
  refine ⟨DecodeBig_eq_ok hN, fun x hx0 hx => ?_, fun n => ?_, fun s v w hv hw => ?_⟩
  · -- `EncodeBig` of a non-negative number is `0x` and its digits, `0x0` for zero
    have henc : EncodeBig x = [byte '0', byte 'x'] ++ formatHex x.toNat := by
      by_cases h0 : x = 0
      · subst h0
        rfl
      · have hpos : x.toNat ≠ 0 := by omega
        have hnat : x.natAbs = x.toNat := by omega
        simp only [EncodeBig, hnat, hpos, if_false, show ¬ x < 0 by omega, List.nil_append]
    have hlt : x.toNat < 2 ^ 256 := by omega
    rw [henc, DecodeBig_eq_ok hN]
    exact ⟨isQuantity_formatHex hlt, by simp [(formatHex_spec x.toNat).2.2.1]⟩
  · obtain ⟨hne, hhex, hval, hlead, -⟩ := formatHex_spec n.toNat
    have hcheck : checkNumber (EncodeUint64 n) = .ok (formatHex n.toNat) :=
      checkNumber_eq_ok.mpr ⟨byte 'x', rfl, .inl rfl, hne, hlead⟩
    have hparse : ParseUint (formatHex n.toNat) = .ok n.toNat := by
      rw [ParseUint, if_neg (by simpa using hne)]
      have := foldlM_parseUintStep _ 0 hhex (by rw [hval]; simpa using n.toNat_lt)
      rwa [zero_mul, zero_add, hval] at this
    simp only [DecodeUint64, hcheck, hparse, bind, Except.bind, pure, Except.pure,
      UInt64.ofNat_toNat]
  · have hv' := ((DecodeBig_eq_ok hN s v).mp hv).2
    simp only [DecodeUint64, bind, Except.bind] at hw
    split at hw
    · cases hw
    · next raw hraw =>
      obtain ⟨p, rfl, -, hne, -⟩ := checkNumber_eq_ok.mp hraw
      split at hw
      · cases hw
      · next d hd =>
        rw [ParseUint, if_neg (by simpa using hne)] at hd
        obtain ⟨-, hdv, hlt⟩ := foldlM_parseUintStep_ok raw 0 d hd
        simp only [pure, Except.pure, Except.ok.injEq] at hw
        subst hw
        rw [hv', UInt64.toNat_ofNat', Nat.mod_eq_of_lt (hlt.resolve_left hne), hdv]
        simp

/-- On a 64-bit platform the largest 256-bit number reads back. -/
theorem hex_quantity_codec_max_word64 :
    DecodeBig 16 (EncodeBig (2 ^ 256 - 1)) = .ok (2 ^ 256 - 1 : Int).toNat :=
  (hex_quantity_codec 16 (by norm_num)).2.1 _ (by norm_num) (by norm_num)

end Encoders

end Atlantis.Hexutil
