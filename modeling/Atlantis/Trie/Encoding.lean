import Mathlib

/-!
# Trie key encodings

The three encodings of trie keys of `trie/encoding.go`.  KEYBYTES is the key itself and
the input of the trie's API.  HEX has one element per nibble of the key and an optional
trailing terminator `16`, which marks that the node at the key holds a value; it is the
encoding of keys in memory.  COMPACT is the hex prefix encoding of the Yellow Paper: the
high nibble of the first byte holds the flags (the lowest bit the oddness of the length,
the second the terminator), and it is the encoding of keys on disk.

A hex nibble is stored in a Go `byte`, but every hex key the trie handles is produced by
`keybytesToHex` or `compactToHex`, whose nibbles are below `17`; we take `Fin 17` for it.
-/

namespace Atlantis.Trie

/-- A nibble of a hex key: a half byte `0..15`, or the terminator `16`. -/
abbrev Nibble := Fin 17

/-- Nibble literals take their `17 ≠ 0` from this one instance. -/
instance instNeZeroNibbleBound : NeZero (17 : ℕ) := ⟨by decide⟩

/-- The high half of a byte, `b / 16`. -/
def hiNibble (b : UInt8) : Nibble := ⟨b.toNat / 16, by have := b.toNat_lt; omega⟩

/-- The low half of a byte, `b % 16`. -/
def loNibble (b : UInt8) : Nibble := ⟨b.toNat % 16, by omega⟩

/-- `keybytesToHex`: the nibbles of every byte, high half first, then the terminator. -/
def keybytesToHex (str : List UInt8) : List Nibble :=
  str.flatMap (fun b => [hiNibble b, loNibble b]) ++ [16]

/-- `hasTerm`: whether a hex key ends with the terminator. -/
def hasTerm (s : List Nibble) : Bool :=
  s.getLast? == some 16

/-- `decodeNibbles`: packs pairs of nibbles into bytes, `nibbles[ni]<<4 | nibbles[ni+1]`.
The source is only called on lists of even length. -/
def decodeNibbles : List Nibble → List UInt8
  | a :: b :: rest => ((UInt8.ofNat a.val <<< 4) ||| UInt8.ofNat b.val) :: decodeNibbles rest
  | _ => []

/-- `hexToCompact`: the flag byte (terminator and oddness, with the first nibble of an odd
key in its low half), followed by the remaining nibbles packed into bytes. -/
def hexToCompact (hex : List Nibble) : List UInt8 :=
  let term : UInt8 := if hasTerm hex then 1 else 0
  let hex := if hasTerm hex then hex.dropLast else hex
  match hex with
  | h :: rest =>
    if hex.length % 2 = 1 then
      ((term <<< 5) ||| ((1 : UInt8) <<< 4) ||| UInt8.ofNat h.val) :: decodeNibbles rest
    else (term <<< 5) :: decodeNibbles hex
  | [] => (term <<< 5) :: decodeNibbles hex

/-- `compactToHex`: expands the bytes to nibbles, deletes the terminator unless the flag
nibble says there is one, and chops the flag nibble (and the padding nibble of an even
key).  The source slices `base[chop:]`, which panics when the input is empty; that is the
`none` result. -/
def compactToHex (compact : List UInt8) : Option (List Nibble) :=
  let base := keybytesToHex compact
  let flag := base.headD 0
  let base := if flag.val < 2 then base.dropLast else base
  let chop := 2 - flag.val % 2
  if chop ≤ base.length then some (base.drop chop) else none

/-- `prefixLen`: the length of the common prefix of two keys. -/
def prefixLen {α : Type} [DecidableEq α] : List α → List α → Nat
  | a :: as, b :: bs => if a = b then prefixLen as bs + 1 else 0
  | _, _ => 0

/-! ## The common prefix -/

section PrefixLen

variable {α : Type} [DecidableEq α]

@[simp] theorem prefixLen_nil_left (l : List α) : prefixLen [] l = 0 := by
  cases l <;> rfl

@[simp] theorem prefixLen_nil_right (l : List α) : prefixLen l [] = 0 := by
  cases l <;> rfl

theorem prefixLen_cons (a b : α) (as bs : List α) :
    prefixLen (a :: as) (b :: bs) = if a = b then prefixLen as bs + 1 else 0 := rfl

@[simp] theorem prefixLen_cons_self (a : α) (as bs : List α) :
    prefixLen (a :: as) (a :: bs) = prefixLen as bs + 1 := by
  simp [prefixLen_cons]

theorem prefixLen_comm (as bs : List α) : prefixLen as bs = prefixLen bs as := by
  induction as generalizing bs with
  | nil => simp
  | cons a as ih =>
    cases bs with
    | nil => simp
    | cons b bs =>
      by_cases h : a = b
      · subst h
        simp [ih]
      · simp [prefixLen_cons, h, Ne.symm h]

theorem prefixLen_le_left (as bs : List α) : prefixLen as bs ≤ as.length := by
  induction as generalizing bs with
  | nil => simp
  | cons a as ih =>
    cases bs with
    | nil => simp
    | cons b bs =>
      rw [prefixLen_cons]
      split
      · simpa using ih bs
      · omega

theorem prefixLen_le_right (as bs : List α) : prefixLen as bs ≤ bs.length := by
  rw [prefixLen_comm]
  exact prefixLen_le_left bs as

/-- The common prefix of a key and one of its extensions is the shorter key. -/
theorem prefixLen_append (as bs : List α) : prefixLen as (as ++ bs) = as.length := by
  induction as with
  | nil => simp
  | cons a as ih => simp [ih]

@[simp] theorem prefixLen_self (as : List α) : prefixLen as as = as.length := by
  simpa using prefixLen_append as []

/-- A key is a prefix of another exactly when the common prefix is the whole key. -/
theorem prefixLen_eq_length_iff (as bs : List α) :
    prefixLen as bs = as.length ↔ as <+: bs := by
  induction as generalizing bs with
  | nil => simp
  | cons a as ih =>
    cases bs with
    | nil => simp
    | cons b bs =>
      rw [prefixLen_cons]
      split
      · next h =>
        subst h
        simp [ih bs, List.cons_prefix_cons]
      · next h =>
        simp [List.cons_prefix_cons, h]

/-- Keys with a common prefix that part at the next element share exactly that prefix. -/
theorem prefixLen_fork (p : List α) {a b : α} (hab : a ≠ b) (as bs : List α) :
    prefixLen (p ++ a :: as) (p ++ b :: bs) = p.length := by
  induction p with
  | nil => simp [prefixLen_cons, hab]
  | cons c p ih => simp [ih]

/-- Two keys that both go on past their common prefix part there. -/
theorem exists_fork_of_prefixLen {as bs : List α} (ha : prefixLen as bs < as.length)
    (hb : prefixLen as bs < bs.length) :
    ∃ p a b as' bs', a ≠ b ∧ as = p ++ a :: as' ∧ bs = p ++ b :: bs' := by
  induction as generalizing bs with
  | nil => simp at ha
  | cons a as ih =>
    cases bs with
    | nil => simp at hb
    | cons b bs =>
      by_cases hab : a = b
      · subst hab
        simp only [prefixLen_cons_self, List.length_cons, Nat.add_lt_add_iff_right] at ha hb
        obtain ⟨p, a', b', as', bs', hne, rfl, rfl⟩ := ih ha hb
        exact ⟨a :: p, a', b', as', bs', hne, rfl, rfl⟩
      · exact ⟨[], a, b, as, bs, hab, rfl, rfl⟩

end PrefixLen

/-! ## Hex keys -/

@[simp] theorem length_keybytesToHex (str : List UInt8) :
    (keybytesToHex str).length = 2 * str.length + 1 := by
  induction str with
  | nil => rfl
  | cons b str ih =>
    simp only [keybytesToHex, List.flatMap_cons, List.length_append, List.length_cons,
      List.length_nil] at ih ⊢
    omega

@[simp] theorem hasTerm_append_terminator (s : List Nibble) : hasTerm (s ++ [16]) = true := by
  simp [hasTerm]

@[simp] theorem hasTerm_nil : hasTerm [] = false := rfl

@[simp] theorem hasTerm_keybytesToHex (str : List UInt8) : hasTerm (keybytesToHex str) = true := by
  simp [keybytesToHex]

theorem hiNibble_lt (b : UInt8) : (hiNibble b).val < 16 := by
  have := b.toNat_lt
  simp only [hiNibble]
  omega

theorem loNibble_lt (b : UInt8) : (loNibble b).val < 16 := by
  simp only [loNibble]
  omega

/-- The nibbles of a byte determine it. -/
theorem eq_of_nibbles_eq {a b : UInt8} (hhi : hiNibble a = hiNibble b)
    (hlo : loNibble a = loNibble b) : a = b := by
  have h1 : a.toNat / 16 = b.toNat / 16 := congrArg Fin.val hhi
  have h2 : a.toNat % 16 = b.toNat % 16 := congrArg Fin.val hlo
  apply UInt8.toNat_inj.mp
  omega

/-- Distinct keys have distinct hex encodings. -/
theorem keybytesToHex_injective : Function.Injective keybytesToHex := by
  intro as bs h
  induction as generalizing bs with
  | nil =>
    cases bs with
    | nil => rfl
    | cons b bs =>
      have := congrArg List.length h
      simp at this
  | cons a as ih =>
    cases bs with
    | nil =>
      have := congrArg List.length h
      simp at this
    | cons b bs =>
      simp only [keybytesToHex, List.flatMap_cons, List.cons_append, List.nil_append,
        List.cons.injEq] at h
      obtain ⟨hhi, hlo, hrest⟩ := h
      rw [eq_of_nibbles_eq hhi hlo, ih hrest]

/-! ## Compact keys -/

theorem keybytesToHex_cons (b : UInt8) (rest : List UInt8) :
    keybytesToHex (b :: rest) = hiNibble b :: loNibble b :: keybytesToHex rest := by
  simp [keybytesToHex]

/-- A byte packed from two half bytes. -/
theorem toNat_pack : ∀ a b : Fin 16,
    ((UInt8.ofNat a.val <<< 4) ||| UInt8.ofNat b.val).toNat = 16 * a.val + b.val := by
  decide

/-- The flag byte of an odd key, with its first nibble in the low half. -/
theorem toNat_oddFlag : ∀ (t : Bool) (a : Fin 16),
    (((if t then (1 : UInt8) else 0) <<< 5) ||| ((1 : UInt8) <<< 4) ||| UInt8.ofNat a.val).toNat =
      32 * (if t then 1 else 0) + 16 + a.val := by
  decide

theorem hiNibble_of_toNat {b : UInt8} {n : Nat} (h : b.toNat = n) : (hiNibble b).val = n / 16 := by
  simp [hiNibble, h]

theorem loNibble_of_toNat {b : UInt8} {n : Nat} (h : b.toNat = n) : (loNibble b).val = n % 16 := by
  simp [loNibble, h]

/-- Packing an even number of half bytes and expanding them again gives them back. -/
theorem keybytesToHex_decodeNibbles :
    ∀ (s : List Nibble), (∀ x ∈ s, x.val < 16) → s.length % 2 = 0 →
      keybytesToHex (decodeNibbles s) = s ++ [16]
  | [], _, _ => rfl
  | [_], _, hlen => by simp at hlen
  | a :: b :: rest, hs, hlen => by
    have ha := hs a (by simp)
    have hb := hs b (by simp)
    have hbyte := toNat_pack ⟨a.val, ha⟩ ⟨b.val, hb⟩
    simp only at hbyte
    rw [decodeNibbles, keybytesToHex_cons,
      keybytesToHex_decodeNibbles rest (fun x hx => hs x (by simp [hx]))
        (by simp only [List.length_cons] at hlen; omega)]
    have hhi : hiNibble ((UInt8.ofNat a.val <<< 4) ||| UInt8.ofNat b.val) = a := by
      ext
      rw [hiNibble_of_toNat hbyte]
      omega
    have hlo : loNibble ((UInt8.ofNat a.val <<< 4) ||| UInt8.ofNat b.val) = b := by
      ext
      rw [loNibble_of_toNat hbyte]
      omega
    rw [hhi, hlo]
    rfl

/-- `hexToKeybytes`: drops the terminator and packs the nibbles into bytes.  A key of odd
length makes the source panic; that is the `none` result. -/
def hexToKeybytes (hex : List Nibble) : Option (List UInt8) :=
  let hex := if hasTerm hex then hex.dropLast else hex
  if hex.length % 2 ≠ 0 then none else some (decodeNibbles hex)

/-- A hex key reads back as the key it encodes. -/
theorem hexToKeybytes_keybytesToHex (k : List UInt8) : hexToKeybytes (keybytesToHex k) = some k := by
  set body := k.flatMap fun b => [hiNibble b, loNibble b] with hbody
  have hk : keybytesToHex k = body ++ [16] := rfl
  have hlen : body.length = 2 * k.length := by
    have := length_keybytesToHex k
    rw [hk, List.length_append, List.length_singleton] at this
    omega
  have hhalf : ∀ x ∈ body, x.val < 16 := by
    intro x hx
    obtain ⟨b, -, hb⟩ := List.mem_flatMap.mp hx
    rcases List.mem_pair.mp hb with rfl | rfl
    · exact hiNibble_lt b
    · exact loNibble_lt b
  have hdec : decodeNibbles body = k :=
    keybytesToHex_injective ((keybytesToHex_decodeNibbles body hhalf (by omega)).trans hk.symm)
  simp only [hexToKeybytes, hk, hasTerm_append_terminator, if_true, List.dropLast_concat, hlen,
    Nat.mul_mod_right, ne_eq, not_true_eq_false, if_false, hdec]

/-- The body of a hex key: without its terminator, every nibble is a half byte. -/
theorem val_lt_of_not_mem {s : List Nibble} (hs : (16 : Nibble) ∉ s) : ∀ x ∈ s, x.val < 16 := by
  intro x hx
  have := x.isLt
  have hne : x ≠ 16 := fun h => hs (h ▸ hx)
  have : x.val ≠ 16 := fun h => hne (Fin.ext h)
  omega

/-- An even body behind its own flag byte. -/
theorem compactToHex_even (t : Bool) {s : List Nibble} (hs : ∀ x ∈ s, x.val < 16)
    (he : s.length % 2 = 0) :
    compactToHex (((if t then (1 : UInt8) else 0) <<< 5) :: decodeNibbles s) =
      some (s ++ if t then [16] else []) := by
  unfold compactToHex
  rw [keybytesToHex_cons, keybytesToHex_decodeNibbles s hs he]
  cases t
  · have h1 : hiNibble ((0 : UInt8) <<< 5) = 0 := by decide
    have h2 : loNibble ((0 : UInt8) <<< 5) = 0 := by decide
    simp only [Bool.false_eq_true, if_false, h1, h2, List.append_nil]
    rw [← List.cons_append, ← List.cons_append, List.dropLast_concat]
    simp
  · have h1 : hiNibble ((1 : UInt8) <<< 5) = 2 := by decide
    have h2 : loNibble ((1 : UInt8) <<< 5) = 0 := by decide
    simp only [if_true, h1, h2]
    simp

/-- An odd body whose first nibble rides in the flag byte. -/
theorem compactToHex_odd (t : Bool) {h : Nibble} (hh : h.val < 16) {rest : List Nibble}
    (hs : ∀ x ∈ rest, x.val < 16) (he : rest.length % 2 = 0) :
    compactToHex ((((if t then (1 : UInt8) else 0) <<< 5) ||| ((1 : UInt8) <<< 4) |||
        UInt8.ofNat h.val) :: decodeNibbles rest) = some (h :: rest ++ if t then [16] else []) := by
  have hf := toNat_oddFlag t ⟨h.val, hh⟩
  have hlo : loNibble ((((if t then (1 : UInt8) else 0) <<< 5) ||| ((1 : UInt8) <<< 4) |||
      UInt8.ofNat h.val)) = h := by
    ext
    rw [loNibble_of_toNat hf]
    cases t <;> simp <;> omega
  have hhi : (hiNibble ((((if t then (1 : UInt8) else 0) <<< 5) ||| ((1 : UInt8) <<< 4) |||
      UInt8.ofNat h.val))).val = 2 * (if t then 1 else 0) + 1 := by
    rw [hiNibble_of_toNat hf]
    cases t <;> simp <;> omega
  unfold compactToHex
  rw [keybytesToHex_cons, keybytesToHex_decodeNibbles rest hs he, hlo]
  simp only [List.headD_cons, hhi]
  cases t
  · simp only [Bool.false_eq_true, if_false, List.append_nil]
    rw [← List.cons_append, ← List.cons_append, List.dropLast_concat]
    simp
  · simp

/-- `hexToCompact` of a body and an optional terminator. -/
theorem hexToCompact_append (body : List Nibble) (t : Bool)
    (hterm : hasTerm (body ++ if t then [16] else []) = t) :
    hexToCompact (body ++ if t then [16] else []) =
      match body with
      | h :: rest =>
        if body.length % 2 = 1 then
          (((if t then (1 : UInt8) else 0) <<< 5) ||| ((1 : UInt8) <<< 4) |||
            UInt8.ofNat h.val) :: decodeNibbles rest
        else ((if t then (1 : UInt8) else 0) <<< 5) :: decodeNibbles body
      | [] => ((if t then (1 : UInt8) else 0) <<< 5) :: decodeNibbles body := by
  unfold hexToCompact
  rw [hterm]
  -- the match of the statement also abstracts `hterm`, so both sides are split on `body`
  cases t <;> simp only [if_true, Bool.false_eq_true, if_false, List.append_nil,
    List.dropLast_concat] <;> cases body <;> rfl

/-- **Compact round trip.**  `compactToHex` inverts `hexToCompact` on every hex key whose
terminator, if any, is its last nibble. -/
theorem compactToHex_hexToCompact (k : List Nibble) (hk : (16 : Nibble) ∉ k.dropLast) :
    compactToHex (hexToCompact k) = some k := by
  -- split the key into its body and the terminator
  obtain ⟨body, t, hbody, rfl⟩ : ∃ (body : List Nibble) (t : Bool), (16 : Nibble) ∉ body ∧
      k = body ++ (if t then [16] else []) := by
    by_cases ht : hasTerm k
    · obtain ⟨body, hk'⟩ : ∃ body, k = body ++ [16] := by
        simp only [hasTerm, beq_iff_eq, List.getLast?_eq_some_iff] at ht
        exact ht
      refine ⟨body, true, ?_, by simp [hk']⟩
      simpa [hk'] using hk
    · refine ⟨k, false, fun h => ?_, by simp⟩
      -- without a terminator at the end, the last nibble is a half byte too
      obtain ⟨init, x, rfl⟩ := (List.eq_nil_or_concat' k).resolve_left (by rintro rfl; simp at h)
      rcases List.mem_append.mp h with h | h
      · exact hk (by simpa using h)
      · simp only [List.mem_singleton] at h
        subst h
        simp [hasTerm] at ht
  have hlt := val_lt_of_not_mem hbody
  have hterm : hasTerm (body ++ if t then [16] else []) = t := by
    cases t
    · cases body using List.reverseRecOn with
      | nil => rfl
      | append_singleton init x =>
        have := hlt x (by simp)
        simp only [hasTerm, Bool.false_eq_true, if_false, List.append_nil, List.getLast?_append,
          List.getLast?_singleton, Option.some_or, beq_eq_false_iff_ne, ne_eq, Option.some.injEq]
        intro h
        subst h
        simp at this
    · simp
  rw [hexToCompact_append body t hterm]
  cases body with
  | nil => simpa using compactToHex_even t (s := []) (by simp) rfl
  | cons h rest =>
    have hh := hlt h (by simp)
    have hrest : ∀ x ∈ rest, x.val < 16 := fun x hx => hlt x (by simp [hx])
    dsimp only
    split
    · -- odd: the first nibble rides in the flag byte
      next hodd =>
      simpa using compactToHex_odd t hh hrest (by simp only [List.length_cons] at hodd; omega)
    · -- even: a flag byte of its own
      next heven =>
      exact compactToHex_even t hlt (by omega)

/-- **The slice of `compactToHex` panics exactly on an empty key**: a key of at least one
byte expands to at least three nibbles, so neither a flag nibble out of range nor the
terminator makes the chop leave the key. -/
theorem compactToHex_eq_none_iff (compact : List UInt8) : compactToHex compact = none ↔ compact = [] := by
  cases compact with
  | nil => exact ⟨fun _ => rfl, fun _ => rfl⟩
  | cons b rest =>
    have hlen := length_keybytesToHex (b :: rest)
    simp only [List.length_cons] at hlen
    have hchop : 2 - ((keybytesToHex (b :: rest)).headD 0).val % 2 ≤
        (if ((keybytesToHex (b :: rest)).headD 0).val < 2 then (keybytesToHex (b :: rest)).dropLast
          else keybytesToHex (b :: rest)).length := by
      split_ifs
      · rw [List.length_dropLast]
        omega
      · omega
    simp only [compactToHex, if_pos hchop, reduceCtorEq, List.cons_ne_nil]

end Atlantis.Trie
