import Atlantis.Common.Types
import Atlantis.Rlp.Raw

/-!
# Transaction signers

The signers of `core/types/transaction_signing.go`: each hashes the fields of a transaction
it signs (`Hash`), turns a 65-byte signature `[R || S || V]` into the values `V, R, S` a
transaction carries (`SignatureValues`, `WithSignature`), and recovers the sender from them
(`Sender`, through `recoverPlain`).  `EIP155Signer` writes the chain id into `V` as
`recid + 35 + 2 chainId`; `deriveChainId` and `isProtectedV` read it back.

`big.Int` values are integers; `BitLen` is the bit length of the absolute value and `Uint64`
its low 64 bits.  Keccak-256 and the secp256k1 operations are parameters (`Crypto`), and
`rlpHash` is Keccak-256 of the RLP encoding, of nothing where `rlp.Encode` fails on a
negative `big.Int`.

For every positive chain id and every signature with recovery id 0 or 1, `WithSignature`
gives a protected transaction of that chain id, whose `Sender` gives recovery exactly the
signature, and which any other chain id refuses; where `Sign` and `Ecrecover` are inverse,
`Sender` recovers the signer's address from `SignTx` for every signer of a positive chain id,
the Homestead signer and the Frontier signer (`eip155_signing`).  For chain id 0,
`EIP155Signer` signs its own hash, with the chain id and two zeros appended, but recovers an
unprotected transaction with the Homestead signer's hash, so the round trip fails
(`eip155_chain_zero`).
-/

namespace Atlantis.Types

open Atlantis.Rlp

/-- The errors of the signers. -/
inductive SignerError where
  | ErrInvalidChainId
  | ErrInvalidSig
  | invalidPublicKey
  /-- An error of `crypto.Sign` or `crypto.Ecrecover`. -/
  | crypto
  /-- `FrontierSigner.SignatureValues` panics on a signature that is not 65 bytes long. -/
  | wrongSize
  deriving DecidableEq, Repr

/-- Keccak-256 and the secp256k1 operations of package `crypto` that the signers call, for
private keys of type `PrivateKey`: `Sign` and `Ecrecover` (`none` for an error) and the
uncompressed public key of a private key (`FromECDSAPub`). -/
structure Crypto (PrivateKey : Type) where
  Keccak256 : List UInt8 → List UInt8
  Sign : List UInt8 → PrivateKey → Option (List UInt8)
  Ecrecover : List UInt8 → List UInt8 → Option (List UInt8)
  FromECDSAPub : PrivateKey → List UInt8

/-- The fields of `txdata`. -/
structure Transaction where
  AccountNonce : Nat
  Price : Int
  GasLimit : Nat
  Recipient : Option (List UInt8)
  Amount : Int
  Payload : List UInt8
  V : Int
  R : Int
  S : Int

/-- `EIP155Signer`. -/
structure EIP155Signer where
  chainId : Int
  chainIdMul : Int

/-- `NewEIP155Signer`: a `nil` chain id is 0. -/
def NewEIP155Signer (chainId : Option Int) : EIP155Signer :=
  let chainId := chainId.getD 0
  { chainId := chainId, chainIdMul := chainId * 2 }

/-- The implementations of the interface `Signer`. -/
inductive Signer where
  | eip155 (s : EIP155Signer)
  | homestead
  | frontier

/-! ## `big.Int` -/

/-- `big.Int.BitLen`: the bit length of the absolute value. -/
def bitLen (x : Int) : Nat :=
  if x = 0 then 0 else x.natAbs.log2 + 1

/-- `big.Int.Uint64`: the low 64 bits of the absolute value. -/
def uint64 (x : Int) : Nat :=
  x.natAbs % 2 ^ 64

/-- `big.Int.Bytes`: the big-endian bytes of the absolute value, without leading zeros. -/
def bytes (x : Int) : List UInt8 :=
  if x = 0 then [] else putint x.natAbs

/-- `big.Int.SetBytes`: a big-endian unsigned number. -/
def setBytes (b : List UInt8) : Int :=
  bigEndian b

/-- The RLP value of an unsigned integer. -/
def uintItem (i : Nat) : Item :=
  .str (bytes i)

/-- The RLP value of a `*big.Int`: `rlp` refuses a negative one. -/
def bigIntItem (i : Int) : Option Item :=
  if i < 0 then none else some (.str (bytes i))

/-- `rlpHash` of a list: Keccak-256 of its encoding, or of nothing where the encoding fails. -/
def rlpHash {PrivateKey : Type} (c : Crypto PrivateKey) (items : List (Option Item)) : Hash :=
  match items.mapM id with
  | some items => Hash.ofBytes (c.Keccak256 (Item.list items).encode)
  | none => Hash.ofBytes (c.Keccak256 [])

/-! ## Recovering a sender -/

/-- `secp256k1N`, the order of the curve. -/
def secp256k1N : Int := 0xfffffffffffffffffffffffffffffffebaaedce6af48a03bbfd25e8cd0364141

/-- `secp256k1halfN`. -/
def secp256k1halfN : Int := secp256k1N / 2

/-- `crypto.ValidateSignatureValues`. -/
def ValidateSignatureValues (v : UInt8) (r s : Int) (homestead : Bool) : Bool :=
  if r < 1 ∨ s < 1 then false
  -- reject upper range of s values (ECDSA malleability)
  else if homestead ∧ s > secp256k1halfN then false
  -- Frontier: allow s to be in full N range
  else decide (r < secp256k1N) && decide (s < secp256k1N) && (v == 0 || v == 1)

/-- The address of an uncompressed public key: the last 20 bytes of the Keccak-256 hash of
its coordinates (`PubkeyToAddress`, and the last step of `recoverPlain`). -/
def pubkeyAddress {PrivateKey : Type} (c : Crypto PrivateKey) (pub : List UInt8) : List UInt8 :=
  (c.Keccak256 (pub.drop 1)).drop 12

/-- `crypto.PubkeyToAddress` of the public key of a private key. -/
def PubkeyToAddress {PrivateKey : Type} (c : Crypto PrivateKey) (prv : PrivateKey) : List UInt8 :=
  pubkeyAddress c (c.FromECDSAPub prv)

/-- The 65-byte signature `recoverPlain` assembles: `R` and `S` left-padded to 32 bytes,
then `V`. -/
def signatureBytes (R S : Int) (V : UInt8) : List UInt8 :=
  let r := bytes R
  let s := bytes S
  List.replicate (32 - r.length) 0 ++ r ++ (List.replicate (32 - s.length) 0 ++ s) ++ [V]

/-- `recoverPlain`. -/
def recoverPlain {PrivateKey : Type} (c : Crypto PrivateKey) (sighash : Hash) (R S Vb : Int)
    (homestead : Bool) : Except SignerError (List UInt8) :=
  if bitLen Vb > 8 then .error .ErrInvalidSig
  else
    let V := UInt8.ofNat ((uint64 Vb + 2 ^ 64 - 27) % 2 ^ 64)
    if !ValidateSignatureValues V R S homestead then .error .ErrInvalidSig
    else
      -- encode the signature in uncompressed format
      let sig := signatureBytes R S V
      -- recover the public key from the signature
      match c.Ecrecover sighash.bytes sig with
      | none => .error .crypto
      | some pub =>
        if pub.length = 0 ∨ pub.head? ≠ some 4 then .error .invalidPublicKey
        else .ok (pubkeyAddress c pub)

/-- `isProtectedV`. -/
def isProtectedV (V : Int) : Bool :=
  if bitLen V ≤ 8 then
    let v := uint64 V
    v != 27 && v != 28
  -- anything not 27 or 28 are considered unprotected
  else true

/-- `deriveChainId`. -/
def deriveChainId (v : Int) : Int :=
  if bitLen v ≤ 64 then
    let v := uint64 v
    if v = 27 ∨ v = 28 then 0
    else ((v + 2 ^ 64 - 35) % 2 ^ 64 / 2 : Nat)
  else (v - 35) / 2

/-- `Transaction.Protected`. -/
def Transaction.Protected (tx : Transaction) : Bool :=
  isProtectedV tx.V

/-- `Transaction.ChainId`. -/
def Transaction.ChainId (tx : Transaction) : Int :=
  deriveChainId tx.V

/-! ## The signers -/

section Signers

variable {PrivateKey : Type} (c : Crypto PrivateKey)

/-- The fields of a transaction that every signer hashes. -/
def txFields (tx : Transaction) : List (Option Item) :=
  [some (uintItem tx.AccountNonce), bigIntItem tx.Price, some (uintItem tx.GasLimit),
    some (.str (tx.Recipient.getD [])), bigIntItem tx.Amount, some (.str tx.Payload)]

/-- `FrontierSigner.Hash`, which `HomesteadSigner` inherits. -/
def FrontierSigner.Hash (tx : Transaction) : Hash :=
  rlpHash c (txFields tx)

/-- `FrontierSigner.SignatureValues`, which `HomesteadSigner` inherits. -/
def FrontierSigner.SignatureValues (sig : List UInt8) : Except SignerError (Int × Int × Int) :=
  if sig.length ≠ 65 then .error .wrongSize
  else
    let r := setBytes (sig.take 32)
    let s := setBytes ((sig.drop 32).take 32)
    let v := setBytes [sig.getD 64 0 + 27]
    .ok (r, s, v)

/-- `FrontierSigner.Sender`. -/
def FrontierSigner.Sender (tx : Transaction) : Except SignerError (List UInt8) :=
  recoverPlain c (FrontierSigner.Hash c tx) tx.R tx.S tx.V false

/-- `HomesteadSigner.Sender`. -/
def HomesteadSigner.Sender (tx : Transaction) : Except SignerError (List UInt8) :=
  recoverPlain c (FrontierSigner.Hash c tx) tx.R tx.S tx.V true

/-- `EIP155Signer.Hash`. -/
def EIP155Signer.Hash (s : EIP155Signer) (tx : Transaction) : Hash :=
  rlpHash c (txFields tx ++ [bigIntItem s.chainId, some (uintItem 0), some (uintItem 0)])

/-- `EIP155Signer.SignatureValues`. -/
def EIP155Signer.SignatureValues (s : EIP155Signer) (sig : List UInt8) :
    Except SignerError (Int × Int × Int) := do
  let (R, S, V) ← FrontierSigner.SignatureValues sig
  let V := if s.chainId ≠ 0 then ((sig.getD 64 0 + 35).toNat : Int) + s.chainIdMul else V
  pure (R, S, V)

/-- `EIP155Signer.Sender`. -/
def EIP155Signer.Sender (s : EIP155Signer) (tx : Transaction) : Except SignerError (List UInt8) :=
  if !tx.Protected then HomesteadSigner.Sender c tx
  else if tx.ChainId ≠ s.chainId then .error .ErrInvalidChainId
  else
    let V := tx.V - s.chainIdMul - 8
    recoverPlain c (s.Hash c tx) tx.R tx.S V true

namespace Signer

/-- `Signer.Hash`. -/
def Hash : Signer → Transaction → Atlantis.Hash
  | .eip155 s => s.Hash c
  | .homestead | .frontier => FrontierSigner.Hash c

/-- `Signer.SignatureValues`. -/
def SignatureValues : Signer → List UInt8 → Except SignerError (Int × Int × Int)
  | .eip155 s => s.SignatureValues
  | .homestead | .frontier => FrontierSigner.SignatureValues

/-- `Signer.Sender`. -/
def Sender : Signer → Transaction → Except SignerError (List UInt8)
  | .eip155 s => s.Sender c
  | .homestead => HomesteadSigner.Sender c
  | .frontier => FrontierSigner.Sender c

end Signer

end Signers

/-- `Transaction.WithSignature`. -/
def Transaction.WithSignature (tx : Transaction) (signer : Signer) (sig : List UInt8) :
    Except SignerError Transaction := do
  let (r, s, v) ← signer.SignatureValues sig
  pure { tx with R := r, S := s, V := v }

/-- `SignTx`. -/
def SignTx {PrivateKey : Type} (c : Crypto PrivateKey) (tx : Transaction) (s : Signer)
    (prv : PrivateKey) : Except SignerError Transaction :=
  let h := s.Hash c tx
  match c.Sign h.bytes prv with
  | none => .error .crypto
  | some sig => tx.WithSignature s sig

/-! ## Numbers and bytes -/

theorem bitLen_le_iff (x : Int) (k : Nat) : bitLen x ≤ k ↔ x.natAbs < 2 ^ k := by
  unfold bitLen
  split
  · next hx =>
    subst hx
    simp
  · next hx =>
    rw [← Nat.log2_lt (by omega)]
    omega

theorem bigEndian_replicate_zero_append (k : Nat) (b : List UInt8) :
    bigEndian (List.replicate k 0 ++ b) = bigEndian b := by
  have hzero : ∀ k, (List.replicate k (0 : UInt8)).foldl (fun acc x => acc * 256 + x.toNat) 0 = 0 := by
    intro k
    induction k with
    | zero => rfl
    | succ k ih => simpa [List.replicate_succ] using ih
  unfold bigEndian
  rw [List.foldl_append, hzero]

theorem bigEndian_lt (b : List UInt8) : bigEndian b < 256 ^ b.length := by
  induction b using List.reverseRecOn with
  | nil => simp [bigEndian]
  | append_singleton b x ih =>
    rw [bigEndian_append_single, List.length_append, List.length_singleton, pow_succ]
    have := x.toNat_lt
    omega

theorem bigEndian_inj : ∀ {b₁ b₂ : List UInt8}, b₁.length = b₂.length →
    bigEndian b₁ = bigEndian b₂ → b₁ = b₂ := by
  intro b₁
  induction b₁ using List.reverseRecOn with
  | nil =>
    intro b₂ hlen _
    exact (List.length_eq_zero_iff.1 hlen.symm).symm
  | append_singleton b₁ x ih =>
    intro b₂ hlen heq
    obtain ⟨b₂, y, rfl⟩ : ∃ b y, b₂ = b ++ [y] := by
      rcases List.eq_nil_or_concat b₂ with h | ⟨b, y, h⟩
      · subst h; simp at hlen
      · exact ⟨b, y, by simpa using h⟩
    rw [bigEndian_append_single, bigEndian_append_single] at heq
    have hx := x.toNat_lt
    have hy := y.toNat_lt
    have hxy : x.toNat = y.toNat := by omega
    have hb : bigEndian b₁ = bigEndian b₂ := by omega
    rw [ih (by simpa using hlen) hb, UInt8.toNat_inj.1 hxy]

/-- The bytes of a 32-byte big-endian number, left-padded to 32 bytes, are the bytes it was
read from. -/
theorem pad_bytes_setBytes {x : List UInt8} (hx : x.length = 32) :
    List.replicate (32 - (bytes (setBytes x)).length) 0 ++ bytes (setBytes x) = x := by
  have hlt := bigEndian_lt x
  rw [hx] at hlt
  have hlen : (bytes (setBytes x)).length ≤ 32 := by
    unfold bytes setBytes
    split
    · simp
    · exact length_putint_le _ 32 (by norm_num) (by simpa using hlt)
  apply bigEndian_inj
  · simp only [List.length_append, List.length_replicate, hx]
    omega
  · rw [bigEndian_replicate_zero_append]
    unfold bytes setBytes
    split
    · next h =>
      have h0 : bigEndian x = 0 := by exact_mod_cast h
      rw [h0]
      rfl
    · simp

/-- A 65-byte signature is `R`, `S` and the recovery id. -/
theorem sig_split {sig : List UInt8} (hsig : sig.length = 65) :
    sig = sig.take 32 ++ (sig.drop 32).take 32 ++ [sig.getD 64 0] := by
  have hlast : (sig.drop 32).drop 32 = [sig.getD 64 0] := by
    rw [List.drop_drop, List.drop_eq_getElem_cons (by omega), List.drop_eq_nil_of_le (by omega),
      List.getD_eq_getElem _ _ (by omega)]
  calc sig = sig.take 32 ++ sig.drop 32 := (List.take_append_drop 32 sig).symm
    _ = sig.take 32 ++ ((sig.drop 32).take 32 ++ (sig.drop 32).drop 32) := by
      rw [List.take_append_drop 32 (sig.drop 32)]
    _ = sig.take 32 ++ (sig.drop 32).take 32 ++ [sig.getD 64 0] := by
      rw [hlast, List.append_assoc]

/-- `recoverPlain` assembles from the values of a signature the signature itself. -/
theorem signatureBytes_setBytes {sig : List UInt8} (hsig : sig.length = 65) :
    signatureBytes (setBytes (sig.take 32)) (setBytes ((sig.drop 32).take 32)) (sig.getD 64 0) = sig := by
  unfold signatureBytes
  dsimp only
  rw [pad_bytes_setBytes (by simp [hsig]), pad_bytes_setBytes (by simp [hsig])]
  exact (sig_split hsig).symm

/-! ## `V` and the chain id -/

/-- Byte arithmetic that does not wrap. -/
theorem toNat_add_of_lt {v w : UInt8} (h : v.toNat + w.toNat < 256) : (v + w).toNat = v.toNat + w.toNat := by
  rw [UInt8.toNat_add]
  omega

theorem isProtectedV_iff (V : Int) : isProtectedV V = true ↔ V.natAbs ≠ 27 ∧ V.natAbs ≠ 28 := by
  unfold isProtectedV uint64
  split
  · next h =>
    rw [bitLen_le_iff] at h
    rw [Nat.mod_eq_of_lt (by omega)]
    simp
  · next h =>
    rw [bitLen_le_iff] at h
    simp only [true_iff]
    omega

/-- The chain id of a `V` of 35 or more, along both paths of `deriveChainId`. -/
theorem deriveChainId_of_ge {V : Int} (hV : 35 ≤ V) : deriveChainId V = (V - 35) / 2 := by
  unfold deriveChainId uint64
  have habs : (V.natAbs : Int) = V := Int.natAbs_of_nonneg (by omega)
  split
  · next h =>
    rw [bitLen_le_iff] at h
    rw [Nat.mod_eq_of_lt h, if_neg (by omega)]
    omega
  · rfl

/-! ## The signers on a signature -/

section Signing

variable {PrivateKey : Type} (c : Crypto PrivateKey)

theorem FrontierSigner.SignatureValues_eq {sig : List UInt8} (hsig : sig.length = 65) :
    FrontierSigner.SignatureValues sig =
      .ok (setBytes (sig.take 32), setBytes ((sig.drop 32).take 32), ((sig.getD 64 0 + 27).toNat : Int)) := by
  unfold FrontierSigner.SignatureValues
  rw [if_neg (by omega)]
  simp [setBytes, bigEndian]

theorem EIP155Signer.SignatureValues_eq (s : EIP155Signer) {sig : List UInt8} (hsig : sig.length = 65) :
    s.SignatureValues sig = .ok (setBytes (sig.take 32), setBytes ((sig.drop 32).take 32),
      if s.chainId ≠ 0 then ((sig.getD 64 0 + 35).toNat : Int) + s.chainIdMul
      else ((sig.getD 64 0 + 27).toNat : Int)) := by
  unfold EIP155Signer.SignatureValues
  rw [FrontierSigner.SignatureValues_eq hsig]
  rfl

/-- No signer hashes the signature values. -/
@[simp] theorem FrontierSigner.Hash_signature (tx : Transaction) (r s v : Int) :
    FrontierSigner.Hash c { tx with R := r, S := s, V := v } = FrontierSigner.Hash c tx := rfl

@[simp] theorem EIP155Signer.Hash_signature (e : EIP155Signer) (tx : Transaction) (r s v : Int) :
    e.Hash c { tx with R := r, S := s, V := v } = e.Hash c tx := rfl

theorem EIP155Signer.Sender_unprotected (s : EIP155Signer) {tx : Transaction}
    (hp : tx.Protected = false) : s.Sender c tx = HomesteadSigner.Sender c tx := by
  unfold EIP155Signer.Sender
  rw [hp]
  rfl

theorem EIP155Signer.Sender_chainId_ne (s : EIP155Signer) {tx : Transaction}
    (hp : tx.Protected = true) (hc : tx.ChainId ≠ s.chainId) :
    s.Sender c tx = .error .ErrInvalidChainId := by
  unfold EIP155Signer.Sender
  simp [hp, hc]

theorem EIP155Signer.Sender_protected (s : EIP155Signer) {tx : Transaction}
    (hp : tx.Protected = true) (hc : tx.ChainId = s.chainId) :
    s.Sender c tx = recoverPlain c (s.Hash c tx) tx.R tx.S (tx.V - s.chainIdMul - 8) true := by
  unfold EIP155Signer.Sender
  simp [hp, hc]

/-- **`recoverPlain` hands `Ecrecover` the signature whose values it is given**: from the
values `R`, `S` and `27 + v` of a 65-byte signature of recovery id `v`, 0 or 1, it checks the
values and recovers from the signature itself. -/
theorem recoverPlain_values (h : Hash) {sig : List UInt8} (hsig : sig.length = 65)
    (hv : (sig.getD 64 0).toNat ≤ 1) (homestead : Bool) :
    recoverPlain c h (setBytes (sig.take 32)) (setBytes ((sig.drop 32).take 32))
        ((sig.getD 64 0).toNat + 27) homestead =
      if !ValidateSignatureValues (sig.getD 64 0) (setBytes (sig.take 32))
          (setBytes ((sig.drop 32).take 32)) homestead then .error .ErrInvalidSig
      else
        match c.Ecrecover h.bytes sig with
        | none => .error .crypto
        | some pub =>
          if pub.length = 0 ∨ pub.head? ≠ some 4 then .error .invalidPublicKey
          else .ok (pubkeyAddress c pub) := by
  have habs : (((sig.getD 64 0).toNat : Int) + 27).natAbs = (sig.getD 64 0).toNat + 27 := by omega
  have hbits : ¬ bitLen (((sig.getD 64 0).toNat : Int) + 27) > 8 := by
    rw [not_lt, bitLen_le_iff, habs]
    omega
  -- the byte `Vb - 27` is the recovery id again
  have hbyte : UInt8.ofNat ((uint64 (((sig.getD 64 0).toNat : Int) + 27) + 2 ^ 64 - 27) % 2 ^ 64) =
      sig.getD 64 0 := by
    unfold uint64
    rw [habs, show ((sig.getD 64 0).toNat + 27) % 2 ^ 64 + 2 ^ 64 - 27 = (sig.getD 64 0).toNat + 2 ^ 64
      by omega, Nat.add_mod_right, Nat.mod_eq_of_lt (by omega), UInt8.ofNat_toNat]
  unfold recoverPlain
  rw [if_neg hbits]
  dsimp only
  rw [hbyte, signatureBytes_setBytes hsig]

theorem ValidateSignatureValues_recid {v : UInt8} {r s : Int} {homestead : Bool}
    (h : ValidateSignatureValues v r s homestead = true) : v.toNat ≤ 1 := by
  unfold ValidateSignatureValues at h
  split_ifs at h
  simp only [Bool.and_eq_true, decide_eq_true_eq, Bool.or_eq_true, beq_iff_eq] at h
  rcases h.2 with rfl | rfl <;> decide

/-- Values valid in the Homestead sense are valid in the Frontier sense. -/
theorem ValidateSignatureValues_frontier {v : UInt8} {r s : Int}
    (h : ValidateSignatureValues v r s true = true) : ValidateSignatureValues v r s false = true := by
  unfold ValidateSignatureValues at h ⊢
  by_cases hpos : r < 1 ∨ s < 1
  · simp [hpos] at h
  · rw [if_neg hpos] at h ⊢
    rw [if_neg (by simp)]
    split_ifs at h
    exact h

theorem SignTx_of_sign (tx : Transaction) (s : Signer) (prv : PrivateKey) {sig : List UInt8}
    (hsign : c.Sign (s.Hash c tx).bytes prv = some sig) : SignTx c tx s prv = tx.WithSignature s sig := by
  unfold SignTx
  dsimp only
  rw [hsign]

/-- `WithSignature` with the Frontier or the Homestead signer: `V` is `27 + recid`. -/
theorem WithSignature_frontier (tx : Transaction) {s : Signer} (hs : s = .frontier ∨ s = .homestead)
    {sig : List UInt8} (hsig : sig.length = 65) :
    tx.WithSignature s sig = .ok
      { tx with
        R := setBytes (sig.take 32)
        S := setBytes ((sig.drop 32).take 32)
        V := ((sig.getD 64 0 + 27).toNat : Int) } := by
  unfold Transaction.WithSignature
  rcases hs with rfl | rfl <;>
  · simp only [Signer.SignatureValues]
    rw [FrontierSigner.SignatureValues_eq hsig]
    rfl

theorem WithSignature_eip155 (tx : Transaction) (s : EIP155Signer) {sig : List UInt8}
    (hsig : sig.length = 65) :
    tx.WithSignature (.eip155 s) sig = .ok
      { tx with
        R := setBytes (sig.take 32)
        S := setBytes ((sig.drop 32).take 32)
        V := if s.chainId ≠ 0 then ((sig.getD 64 0 + 35).toNat : Int) + s.chainIdMul
          else ((sig.getD 64 0 + 27).toNat : Int) } := by
  unfold Transaction.WithSignature
  simp only [Signer.SignatureValues]
  rw [EIP155Signer.SignatureValues_eq s hsig]
  rfl

end Signing

/-! ## Signing and recovering -/

section RoundTrip

variable {PrivateKey : Type} (c : Crypto PrivateKey)

/-- `Sign` and `Ecrecover` are inverse: `Sign` gives a 65-byte signature `[R || S || V]` whose
values are valid in the Homestead sense, from which `Ecrecover` gives back the public key of
the private key, uncompressed (tag 4). -/
structure Crypto.Inverse : Prop where
  sign : ∀ h prv, ∃ sig, c.Sign h prv = some sig ∧ sig.length = 65 ∧
    ValidateSignatureValues (sig.getD 64 0) (setBytes (sig.take 32))
      (setBytes ((sig.drop 32).take 32)) true = true ∧
    c.Ecrecover h sig = some (c.FromECDSAPub prv)
  pub : ∀ prv, (c.FromECDSAPub prv).head? = some 4

variable {c}

/-- Where `Sign` and `Ecrecover` are inverse, `recoverPlain` recovers the signer from the
values of a signature. -/
theorem recoverPlain_sign (hinv : c.Inverse) (h : Hash) (prv : PrivateKey) {sig : List UInt8}
    (hsign : c.Sign h.bytes prv = some sig) (homestead : Bool) :
    sig.length = 65 ∧ (sig.getD 64 0).toNat ≤ 1 ∧
      recoverPlain c h (setBytes (sig.take 32)) (setBytes ((sig.drop 32).take 32))
        ((sig.getD 64 0).toNat + 27) homestead = .ok (PubkeyToAddress c prv) := by
  obtain ⟨sig', hsign', hlen, hvalid, hrecover⟩ := hinv.sign h.bytes prv
  rw [hsign, Option.some.injEq] at hsign'
  subst hsign'
  have hv := ValidateSignatureValues_recid hvalid
  have hvalid' : ValidateSignatureValues (sig.getD 64 0) (setBytes (sig.take 32))
      (setBytes ((sig.drop 32).take 32)) homestead = true := by
    cases homestead
    · exact ValidateSignatureValues_frontier hvalid
    · exact hvalid
  refine ⟨hlen, hv, ?_⟩
  rw [recoverPlain_values c h hlen hv, hvalid', hrecover]
  -- the public key is uncompressed
  have hpub := hinv.pub prv
  have hne : ¬ ((c.FromECDSAPub prv).length = 0 ∨ (c.FromECDSAPub prv).head? ≠ some 4) := by
    rintro (h0 | h4)
    · rw [List.length_eq_zero_iff] at h0
      rw [h0] at hpub
      cases hpub
    · exact h4 hpub
  simp only [Bool.not_true, Bool.false_eq_true, if_false, if_neg hne]
  rfl

/-- The round trip through the Frontier or the Homestead signer. -/
theorem Sender_SignTx_frontier (hinv : c.Inverse) (tx : Transaction) {s : Signer}
    (hs : s = .frontier ∨ s = .homestead) (prv : PrivateKey) :
    ∃ tx', SignTx c tx s prv = .ok tx' ∧ s.Sender c tx' = .ok (PubkeyToAddress c prv) := by
  obtain ⟨sig, hsign, -⟩ := hinv.sign (s.Hash c tx).bytes prv
  have hhash : s.Hash c tx = FrontierSigner.Hash c tx := by
    rcases hs with rfl | rfl <;> rfl
  have hlen : sig.length = 65 := (recoverPlain_sign hinv (s.Hash c tx) prv hsign true).1
  refine ⟨_, (SignTx_of_sign c tx s prv hsign).trans (WithSignature_frontier tx hs hlen), ?_⟩
  have hV : (((sig.getD 64 0 + 27).toNat : Nat) : Int) = ((sig.getD 64 0).toNat : Int) + 27 := by
    have hv := (recoverPlain_sign hinv (s.Hash c tx) prv hsign true).2.1
    rw [toNat_add_of_lt (by rw [show (27 : UInt8).toNat = 27 from rfl]; omega)]
    rfl
  rcases hs with rfl | rfl
  · have hrec := (recoverPlain_sign hinv _ prv hsign false).2.2
    simpa only [Signer.Sender, FrontierSigner.Sender, FrontierSigner.Hash_signature, hV, hhash]
      using hrec
  · have hrec := (recoverPlain_sign hinv _ prv hsign true).2.2
    simpa only [Signer.Sender, HomesteadSigner.Sender, FrontierSigner.Hash_signature, hV, hhash]
      using hrec

/-- **With chain id 0** the EIP-155 signer writes `V = 27 + recid`, and recovers the unprotected
transaction with the Homestead signer's hash. -/
theorem eip155_zero_Sender (c : Crypto PrivateKey) (tx : Transaction) {sig : List UInt8}
    (hsig : sig.length = 65) (hv : (sig.getD 64 0).toNat ≤ 1) :
    ∃ tx', tx.WithSignature (.eip155 (NewEIP155Signer (some 0))) sig = .ok tx' ∧
      (Signer.eip155 (NewEIP155Signer (some 0))).Sender c tx' =
        recoverPlain c (FrontierSigner.Hash c tx) (setBytes (sig.take 32))
          (setBytes ((sig.drop 32).take 32)) ((sig.getD 64 0).toNat + 27) true := by
  refine ⟨_, WithSignature_eip155 tx _ hsig, ?_⟩
  have hV : (if (NewEIP155Signer (some 0)).chainId ≠ 0 then
        ((sig.getD 64 0 + 35).toNat : Int) + (NewEIP155Signer (some 0)).chainIdMul
      else ((sig.getD 64 0 + 27).toNat : Int)) = ((sig.getD 64 0).toNat : Int) + 27 := by
    rw [if_neg (by simp [NewEIP155Signer]), toNat_add_of_lt (by rw [show (27 : UInt8).toNat = 27 from rfl]; omega)]
    rfl
  have hp : isProtectedV (((sig.getD 64 0).toNat : Int) + 27) = false := by
    rw [← Bool.not_eq_true, isProtectedV_iff]
    omega
  simp only [Signer.Sender, hV]
  rw [EIP155Signer.Sender_unprotected c _ (by exact hp), HomesteadSigner.Sender,
    FrontierSigner.Hash_signature]

/-- **With a positive chain id** the EIP-155 signer writes `V = recid + 35 + 2 chainId`: the
transaction is protected, of that chain id, recovered with the EIP-155 hash and the
`V = 27 + recid` of the signature, and refused by every other chain id. -/
theorem eip155_Sender (c : Crypto PrivateKey) (chainId : Int) (hc : 0 < chainId) (tx : Transaction)
    {sig : List UInt8} (hsig : sig.length = 65) (hv : (sig.getD 64 0).toNat ≤ 1) :
    ∃ tx', tx.WithSignature (.eip155 (NewEIP155Signer (some chainId))) sig = .ok tx' ∧
      tx'.R = setBytes (sig.take 32) ∧ tx'.S = setBytes ((sig.drop 32).take 32) ∧
      tx'.V = (sig.getD 64 0).toNat + 35 + 2 * chainId ∧
      tx'.Protected = true ∧ tx'.ChainId = chainId ∧
      (Signer.eip155 (NewEIP155Signer (some chainId))).Sender c tx' =
        recoverPlain c ((NewEIP155Signer (some chainId)).Hash c tx) (setBytes (sig.take 32))
          (setBytes ((sig.drop 32).take 32)) ((sig.getD 64 0).toNat + 27) true ∧
      ∀ chainId', chainId' ≠ chainId →
        (Signer.eip155 (NewEIP155Signer (some chainId'))).Sender c tx' = .error .ErrInvalidChainId := by
  have hV : (if (NewEIP155Signer (some chainId)).chainId ≠ 0 then
        ((sig.getD 64 0 + 35).toNat : Int) + (NewEIP155Signer (some chainId)).chainIdMul
      else ((sig.getD 64 0 + 27).toNat : Int)) = ((sig.getD 64 0).toNat : Int) + 35 + 2 * chainId := by
    rw [if_pos (by simp only [NewEIP155Signer, Option.getD_some]; omega),
      toNat_add_of_lt (by rw [show (35 : UInt8).toNat = 35 from rfl]; omega)]
    simp only [NewEIP155Signer, Option.getD_some]
    push_cast
    ring
  -- `V` is 37 or more: protected, and of chain id `chainId` along either path of `deriveChainId`
  have hp : isProtectedV (((sig.getD 64 0).toNat : Int) + 35 + 2 * chainId) = true := by
    rw [isProtectedV_iff]
    omega
  have hid : deriveChainId (((sig.getD 64 0).toNat : Int) + 35 + 2 * chainId) = chainId := by
    rw [deriveChainId_of_ge (by omega)]
    omega
  have hw := WithSignature_eip155 tx (NewEIP155Signer (some chainId)) hsig
  rw [hV] at hw
  refine ⟨_, hw, rfl, rfl, rfl, hp, hid, ?_, fun chainId' hne => ?_⟩
  · rw [Signer.Sender, EIP155Signer.Sender_protected c _ (by exact hp) (by exact hid),
      EIP155Signer.Hash_signature]
    congr 1
    simp only [NewEIP155Signer, Option.getD_some]
    ring
  · exact EIP155Signer.Sender_chainId_ne c _ (by exact hp) fun h => hne (by exact h.symm.trans hid)

/-- The round trip through the EIP-155 signer of a positive chain id. -/
theorem Sender_SignTx_eip155 (hinv : c.Inverse) (tx : Transaction) (chainId : Int) (hc : 0 < chainId)
    (prv : PrivateKey) :
    ∃ tx', SignTx c tx (.eip155 (NewEIP155Signer (some chainId))) prv = .ok tx' ∧
      (Signer.eip155 (NewEIP155Signer (some chainId))).Sender c tx' = .ok (PubkeyToAddress c prv) := by
  obtain ⟨sig, hsign, -⟩ := hinv.sign ((Signer.eip155 (NewEIP155Signer (some chainId))).Hash c tx).bytes prv
  obtain ⟨hlen, hv, hrec⟩ := recoverPlain_sign hinv _ prv hsign true
  obtain ⟨tx', hw, -, -, -, -, -, hsender, -⟩ := eip155_Sender c chainId hc tx hlen hv
  exact ⟨tx', (SignTx_of_sign c tx _ prv hsign).trans hw, hsender.trans hrec⟩

end RoundTrip

/-! ## The round trip -/

/-- **EIP-155 signing round trip**, for a positive chain id.  For every transaction and every
65-byte signature of recovery id 0 or 1, `WithSignature` with `NewEIP155Signer(chainId)` gives
a protected transaction of that chain id, from which `Sender` hands `Ecrecover` the EIP-155
hash of the transaction and exactly the signature, and which every other chain id refuses.
Where `Sign` and `Ecrecover` are inverse, `Sender` recovers the signer's address from `SignTx`
for that signer, the Homestead signer and the Frontier signer. -/
theorem eip155_signing {PrivateKey : Type} (c : Crypto PrivateKey) (chainId : Int) (hc : 0 < chainId)
    (tx : Transaction) (sig : List UInt8) (hsig : sig.length = 65)
    (hv : sig.getD 64 0 = 0 ∨ sig.getD 64 0 = 1) :
    (∃ tx', tx.WithSignature (.eip155 (NewEIP155Signer (some chainId))) sig = .ok tx' ∧
      tx'.Protected = true ∧ tx'.ChainId = chainId ∧
      (Signer.eip155 (NewEIP155Signer (some chainId))).Sender c tx' =
        (if !ValidateSignatureValues (sig.getD 64 0) (setBytes (sig.take 32))
            (setBytes ((sig.drop 32).take 32)) true then .error .ErrInvalidSig
        else
          match c.Ecrecover ((NewEIP155Signer (some chainId)).Hash c tx).bytes sig with
          | none => .error .crypto
          | some pub =>
            if pub.length = 0 ∨ pub.head? ≠ some 4 then .error .invalidPublicKey
            else .ok (pubkeyAddress c pub)) ∧
      ∀ chainId', chainId' ≠ chainId →
        (Signer.eip155 (NewEIP155Signer (some chainId'))).Sender c tx' = .error .ErrInvalidChainId) ∧
    (c.Inverse → ∀ prv, ∀ s ∈ [Signer.eip155 (NewEIP155Signer (some chainId)), .homestead, .frontier],
      ∃ tx', SignTx c tx s prv = .ok tx' ∧ s.Sender c tx' = .ok (PubkeyToAddress c prv)) := by
  have hv' : (sig.getD 64 0).toNat ≤ 1 := by
    rcases hv with h | h <;> rw [h] <;> decide
  obtain ⟨tx', hw, -, -, -, hp, hid, hsender, hne⟩ := eip155_Sender c chainId hc tx hsig hv'
  refine ⟨⟨tx', hw, hp, hid, hsender.trans (recoverPlain_values c _ hsig hv' true), hne⟩,
    fun hinv prv s hs => ?_⟩
  simp only [List.mem_cons, List.not_mem_nil, or_false] at hs
  rcases hs with rfl | rfl | rfl
  · exact Sender_SignTx_eip155 hinv tx chainId hc prv
  · exact Sender_SignTx_frontier hinv tx (.inr rfl) prv
  · exact Sender_SignTx_frontier hinv tx (.inl rfl) prv

/-- Keccak-256 as the length of its input, repeated, and a signature scheme whose signature of
a hash carries the first byte of the hash in `S`: its `Sign` and `Ecrecover` are inverse. -/
def firstByteCrypto : Crypto Unit where
  Keccak256 b := List.replicate 32 (UInt8.ofNat b.length)
  Sign h _ := some (List.replicate 31 0 ++ [1] ++ (List.replicate 30 0 ++ [1, h.headD 0]) ++ [0])
  Ecrecover h sig :=
    if sig = List.replicate 31 0 ++ [1] ++ (List.replicate 30 0 ++ [1, h.headD 0]) ++ [0] then some [4]
    else some [4, 1]
  FromECDSAPub _ := [4]

theorem firstByteCrypto_inverse : firstByteCrypto.Inverse := by
  refine ⟨fun h prv => ⟨_, rfl, by simp, ?_, by simp [firstByteCrypto]⟩, fun _ => rfl⟩
  generalize h.headD 0 = x
  have hr : setBytes ((List.replicate 31 0 ++ [1] ++ (List.replicate 30 0 ++ [1, x]) ++ [0]).take 32) = 1 := by
    simp [setBytes, bigEndian]
  have hs : setBytes (((List.replicate 31 0 ++ [1] ++ (List.replicate 30 0 ++ [1, x]) ++ [0]).drop 32).take 32) =
      256 + x.toNat := by
    simp [setBytes, bigEndian]
  have h0 : (List.replicate 31 0 ++ [1] ++ (List.replicate 30 0 ++ [1, x]) ++ [0]).getD 64 0 = 0 := rfl
  have hlt := x.toNat_lt
  rw [hr, hs, h0]
  unfold ValidateSignatureValues secp256k1halfN secp256k1N
  simp
  omega

/-- Chain id 1, the empty transaction and the signature of zero bytes. -/
theorem eip155_signing_chain_one :
    (∃ tx', (⟨0, 0, 0, none, 0, [], 0, 0, 0⟩ : Transaction).WithSignature
        (.eip155 (NewEIP155Signer (some 1))) (List.replicate 65 0) = .ok tx' ∧
      tx'.Protected = true ∧ tx'.ChainId = 1 ∧
      (Signer.eip155 (NewEIP155Signer (some 1))).Sender firstByteCrypto tx' =
        (if !ValidateSignatureValues ((List.replicate 65 0).getD 64 0)
            (setBytes ((List.replicate 65 0).take 32))
            (setBytes (((List.replicate 65 0).drop 32).take 32)) true then .error .ErrInvalidSig
        else
          match firstByteCrypto.Ecrecover ((NewEIP155Signer (some 1)).Hash firstByteCrypto
              ⟨0, 0, 0, none, 0, [], 0, 0, 0⟩).bytes (List.replicate 65 0) with
          | none => .error .crypto
          | some pub =>
            if pub.length = 0 ∨ pub.head? ≠ some 4 then .error .invalidPublicKey
            else .ok (pubkeyAddress firstByteCrypto pub)) ∧
      ∀ chainId', chainId' ≠ 1 →
        (Signer.eip155 (NewEIP155Signer (some chainId'))).Sender firstByteCrypto tx' =
          .error .ErrInvalidChainId) ∧
    (firstByteCrypto.Inverse → ∀ prv, ∀ s ∈ [Signer.eip155 (NewEIP155Signer (some 1)), .homestead, .frontier],
      ∃ tx', SignTx firstByteCrypto ⟨0, 0, 0, none, 0, [], 0, 0, 0⟩ s prv = .ok tx' ∧
        s.Sender firstByteCrypto tx' = .ok (PubkeyToAddress firstByteCrypto prv)) :=
  eip155_signing firstByteCrypto 1 (by decide) ⟨0, 0, 0, none, 0, [], 0, 0, 0⟩ (List.replicate 65 0)
    (by simp) (by decide)

/-- With chain id 0 the round trip fails: for a `Sign` and `Ecrecover` that are inverse,
`SignTx` signs the EIP-155 hash of the empty transaction, and `Sender` recovers another
address from its Homestead hash. -/
theorem eip155_chain_zero :
    firstByteCrypto.Inverse ∧ ∃ tx', SignTx firstByteCrypto ⟨0, 0, 0, none, 0, [], 0, 0, 0⟩
      (.eip155 (NewEIP155Signer (some 0))) () = .ok tx' ∧
      (Signer.eip155 (NewEIP155Signer (some 0))).Sender firstByteCrypto tx' ≠
        .ok (PubkeyToAddress firstByteCrypto ()) := by
  refine ⟨firstByteCrypto_inverse, ?_⟩
  -- the EIP-155 hash of the empty transaction with chain id 0 starts with byte 10
  have hsign : firstByteCrypto.Sign ((Signer.eip155 (NewEIP155Signer (some 0))).Hash firstByteCrypto
      ⟨0, 0, 0, none, 0, [], 0, 0, 0⟩).bytes () =
      some (List.replicate 31 0 ++ [1] ++ (List.replicate 30 0 ++ [1, 10]) ++ [0]) := rfl
  obtain ⟨tx', hw, hsender⟩ := @eip155_zero_Sender Unit firstByteCrypto ⟨0, 0, 0, none, 0, [], 0, 0, 0⟩
    (List.replicate 31 0 ++ [1] ++ (List.replicate 30 0 ++ [1, 10]) ++ [0]) rfl (by decide)
  refine ⟨tx', (SignTx_of_sign _ _ _ _ hsign).trans hw, ?_⟩
  -- its Homestead hash starts with byte 7
  rw [hsender, recoverPlain_values _ _ rfl (by decide)]
  decide

end Atlantis.Types
