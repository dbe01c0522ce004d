import Mathlib

/-!
# Clique snapshots

`consensus/clique/snapshot.go`: the state of the proof-of-authority voting at a block.  A
snapshot holds the authorised signers, the recent signers (by block number, for the spam
protection that keeps a signer from signing again within `len(Signers)/2 + 1` blocks), the
votes cast in chronological order, and their tally.  `apply` runs the headers of a chain
segment over a snapshot: each header is signed by an authorised signer that did not sign
recently, and its coinbase and nonce carry a vote that adds or drops a signer once more
than half of the signers agree.

Addresses are of any type with decidable equality; the signers are a finite set and the
maps of the source are association lists.  `ecrecover`, which recovers the signer of a
header from the signature in its extra-data (through the signature cache), is a parameter.
The snapshot's hash and its configuration other than the epoch length are left out;
`Number` is the block number where the snapshot was created.
-/

namespace Atlantis.Clique

/-- The errors of `apply` and `ecrecover`. -/
inductive Error where
  | errInvalidVotingChain
  | errUnauthorized
  | errInvalidVote
  | errMissingSignature
  | ecrecover
  deriving DecidableEq, Repr

/-- `nonceAuthVote`: the nonce of a vote to add a signer. -/
def nonceAuthVote : List UInt8 := List.replicate 8 0xff

/-- `nonceDropVote`: the nonce of a vote to remove a signer. -/
def nonceDropVote : List UInt8 := List.replicate 8 0x00

/-- The fields of a header that `apply` reads, and the extra-data that holds its
signature. -/
structure Header (Address : Type) where
  number : Nat
  coinbase : Address
  nonce : List UInt8
  extra : List UInt8

/-- `Vote`: a vote an authorised signer cast on an address. -/
structure Vote (Address : Type) where
  signer : Address
  block : Nat
  address : Address
  authorize : Bool
  deriving DecidableEq, Repr

/-- `Tally`: the direction of the votes on an address and their number. -/
structure Tally where
  authorize : Bool
  votes : Nat
  deriving DecidableEq, Repr

/-- `Snapshot`. -/
structure Snapshot (Address : Type) [DecidableEq Address] where
  number : Nat
  signers : Finset Address
  recents : AList (fun _ : Nat => Address)
  votes : List (Vote Address)
  tally : AList (fun _ : Address => Tally)

variable {Address : Type} [DecidableEq Address]

/-- `newSnapshot`: the snapshot of a checkpoint, with its signers and nothing else. -/
def newSnapshot (number : Nat) (signers : List Address) : Snapshot Address where
  number := number
  signers := signers.toFinset
  recents := ∅
  votes := []
  tally := ∅

namespace Snapshot

/-- `validVote`: a vote to add someone who is not a signer, or to drop a signer. -/
def validVote (s : Snapshot Address) (address : Address) (authorize : Bool) : Bool :=
  let signer := decide (address ∈ s.signers)
  (signer && !authorize) || (!signer && authorize)

/-- `cast`: counts a meaningful vote into the tally. -/
def cast (s : Snapshot Address) (address : Address) (authorize : Bool) :
    Bool × Snapshot Address :=
  -- Ensure the vote is meaningful
  if !s.validVote address authorize then (false, s)
  else
    -- Cast the vote into an existing or new tally
    match s.tally.lookup address with
    | some old => (true, { s with tally := s.tally.insert address { old with votes := old.votes + 1 } })
    | none => (true, { s with tally := s.tally.insert address ⟨authorize, 1⟩ })

/-- `uncast`: takes a counted vote out of the tally. -/
def uncast (tally : AList (fun _ : Address => Tally)) (address : Address) (authorize : Bool) :
    Bool × AList (fun _ : Address => Tally) :=
  match tally.lookup address with
  -- If there's no tally, it's a dangling vote, just drop
  | none => (false, tally)
  | some t =>
    -- Ensure we only revert counted votes
    if t.authorize ≠ authorize then (false, tally)
    else if t.votes > 1 then (true, tally.insert address { t with votes := t.votes - 1 })
    else (true, tally.erase address)

/-- The loop of `apply` that discards the signer's earlier vote on the coinbase: the first
vote that matches is taken out of the tally and the list, and the loop stops. -/
def discardVote (signer coinbase : Address) :
    AList (fun _ : Address => Tally) → List (Vote Address) →
      AList (fun _ : Address => Tally) × List (Vote Address)
  | tally, [] => (tally, [])
  | tally, v :: vs =>
    if v.signer = signer ∧ v.address = coinbase then ((uncast tally v.address v.authorize).2, vs)
    else
      let r := discardVote signer coinbase tally vs
      (r.1, v :: r.2)

/-- The loop of `apply` that discards the votes a deauthorised signer cast, each taken out
of the tally in turn. -/
def discardSigner (signer : Address) :
    AList (fun _ : Address => Tally) → List (Vote Address) →
      AList (fun _ : Address => Tally) × List (Vote Address)
  | tally, [] => (tally, [])
  | tally, v :: vs =>
    if v.signer = signer then discardSigner signer (uncast tally v.address v.authorize).2 vs
    else
      let r := discardSigner signer tally vs
      (r.1, v :: r.2)

/-- The number of recent blocks in which a signer may sign once only. -/
def limit (s : Snapshot Address) : Nat :=
  s.signers.card / 2 + 1

/-- Deletes the oldest block of the window of recent signers ending at `number`. -/
def forget (s : Snapshot Address) (number : Nat) : Snapshot Address :=
  if number ≥ s.limit then { s with recents := s.recents.erase (number - s.limit) } else s

@[simp] theorem forget_signers (s : Snapshot Address) (number : Nat) :
    (s.forget number).signers = s.signers := by
  unfold forget; split <;> rfl

@[simp] theorem forget_votes (s : Snapshot Address) (number : Nat) :
    (s.forget number).votes = s.votes := by
  unfold forget; split <;> rfl

@[simp] theorem forget_tally (s : Snapshot Address) (number : Nat) :
    (s.forget number).tally = s.tally := by
  unfold forget; split <;> rfl

/-- The direction of the vote a nonce carries. -/
def voteOf (nonce : List UInt8) : Except Error Bool :=
  if nonce = nonceAuthVote then .ok true
  else if nonce = nonceDropVote then .ok false
  else .error .errInvalidVote

/-- The update of `apply` when the vote on `coinbase` passed: the signer is added or
dropped, and the votes on it and its tally are discarded; a dropped signer's votes go too,
and the window of recent signers shrinks with the signers. -/
def pass (s : Snapshot Address) (number : Nat) (coinbase : Address) (authorize : Bool) :
    Snapshot Address :=
  let s :=
    if authorize then { s with signers := insert coinbase s.signers }
    else
      let s := { s with signers := s.signers.erase coinbase }
      -- Signer list shrunk, delete any leftover recent caches
      let s := s.forget number
      -- Discard any previous votes the deauthorized signer cast
      let r := discardSigner coinbase s.tally s.votes
      { s with tally := r.1, votes := r.2 }
  -- Discard any previous votes around the just changed account
  { s with votes := s.votes.filter (fun v => v.address ≠ coinbase),
           tally := s.tally.erase coinbase }

/-- Removes the votes on checkpoint blocks. -/
def checkpoint (s : Snapshot Address) (epoch number : Nat) : Snapshot Address :=
  if number % epoch = 0 then { s with votes := [], tally := ∅ } else s

@[simp] theorem checkpoint_signers (s : Snapshot Address) (epoch number : Nat) :
    (s.checkpoint epoch number).signers = s.signers := by
  unfold checkpoint; split <;> rfl

@[simp] theorem checkpoint_recents (s : Snapshot Address) (epoch number : Nat) :
    (s.checkpoint epoch number).recents = s.recents := by
  unfold checkpoint; split <;> rfl

/-- The check of the signer of a header: an authorised signer that did not sign within the
window, recorded as the signer of the block. -/
def checkSigner (s : Snapshot Address) (number : Nat) (signer : Address) :
    Except Error (Snapshot Address) :=
  if signer ∉ s.signers then .error .errUnauthorized
  else if s.recents.entries.any (fun e => e.2 = signer) then .error .errUnauthorized
  else .ok { s with recents := s.recents.insert number signer }

/-- Discards any previous vote of the signer on the coinbase. -/
def discard (s : Snapshot Address) (signer coinbase : Address) : Snapshot Address :=
  let r := discardVote signer coinbase s.tally s.votes
  { s with tally := r.1, votes := r.2 }

/-- Casts the new vote of the signer, and records it when it counts. -/
def castVote (s : Snapshot Address) (number : Nat) (signer coinbase : Address)
    (authorize : Bool) : Snapshot Address :=
  let (ok, s) := s.cast coinbase authorize
  if ok then { s with votes := s.votes ++ [⟨signer, number, coinbase, authorize⟩] } else s

/-- Tallies up the new vote of the signer, and updates the signers if it passed. -/
def tallyVote (s : Snapshot Address) (number : Nat) (signer coinbase : Address)
    (authorize : Bool) : Snapshot Address :=
  let s := s.castVote number signer coinbase authorize
  -- If the vote passed, update the list of signers
  let tally := (s.tally.lookup coinbase).getD ⟨false, 0⟩
  if tally.votes > s.signers.card / 2 then s.pass number coinbase tally.authorize else s

/-- One header of `apply`. -/
def applyHeader (epoch : Nat) (ecrecover : Header Address → Except Error Address)
    (snap : Snapshot Address) (header : Header Address) : Except Error (Snapshot Address) := do
  let number := header.number
  -- Remove any votes on checkpoint blocks
  let snap := snap.checkpoint epoch number
  -- Delete the oldest signer from the recent list to allow it signing again
  let snap := snap.forget number
  -- Resolve the authorization key and check against signers
  let signer ← ecrecover header
  let snap ← snap.checkSigner number signer
  -- Header authorized, discard any previous votes from the signer
  let snap := snap.discard signer header.coinbase
  -- Tally up the new vote from the signer
  let authorize ← voteOf header.nonce
  pure (snap.tallyVote number signer header.coinbase authorize)

/-- Consecutive block numbers. -/
def chained : List (Header Address) → Bool
  | h₁ :: h₂ :: hs => decide (h₂.number = h₁.number + 1) && chained (h₂ :: hs)
  | _ => true

/-- `apply`: the snapshot after a segment of headers that follows it. -/
def apply (epoch : Nat) (ecrecover : Header Address → Except Error Address)
    (s : Snapshot Address) (headers : List (Header Address)) : Except Error (Snapshot Address) :=
  match headers with
  -- Allow passing in no headers for cleaner code
  | [] => .ok s
  | first :: _ =>
    -- Sanity check that the headers can be applied
    if !chained headers then .error .errInvalidVotingChain
    else if first.number ≠ s.number + 1 then .error .errInvalidVotingChain
    else
      (headers.foldlM (applyHeader epoch ecrecover) s).map fun snap =>
        { snap with number := s.number + headers.length }

/-- The snapshots that `apply` reaches from `genesis` over chains of headers. -/
inductive Reachable (epoch : Nat) (ecrecover : Header Address → Except Error Address)
    (genesis : Snapshot Address) : Snapshot Address → Prop
  | genesis : Reachable epoch ecrecover genesis genesis
  | apply {s s' : Snapshot Address} (headers : List (Header Address)) :
      Reachable epoch ecrecover genesis s → s.apply epoch ecrecover headers = .ok s' →
        Reachable epoch ecrecover genesis s'

/-! ## What each phase does -/

theorem checkSigner_eq_ok {s s' : Snapshot Address} {number : Nat} {signer : Address}
    (h : s.checkSigner number signer = .ok s') :
    signer ∈ s.signers ∧ s.recents.entries.any (fun e => e.2 = signer) = false ∧
      s' = { s with recents := s.recents.insert number signer } := by
  unfold checkSigner at h
  split at h
  · cases h
  · next hs =>
    split at h
    · cases h
    · next hr =>
      cases h
      exact ⟨not_not.mp hs, Bool.eq_false_iff.mpr hr, rfl⟩

theorem castVote_eq (s : Snapshot Address) (number : Nat) (signer coinbase : Address)
    (authorize : Bool) :
    s.castVote number signer coinbase authorize =
      if s.validVote coinbase authorize then
        { s with tally := s.tally.insert coinbase
                   (((s.tally.lookup coinbase).map fun old => { old with votes := old.votes + 1 }).getD
                     ⟨authorize, 1⟩),
                 votes := s.votes ++ [⟨signer, number, coinbase, authorize⟩] }
      else s := by
  unfold castVote cast
  by_cases hv : s.validVote coinbase authorize
  · cases s.tally.lookup coinbase <;> simp [hv]
  · simp [hv]

/-- **What a header does**: its signer is recovered and admitted, its vote read from the
nonce, and the signer's vote replaced and tallied. -/
theorem applyHeader_eq_ok {epoch : Nat} {ecrecover : Header Address → Except Error Address}
    {snap snap' : Snapshot Address} {header : Header Address}
    (h : applyHeader epoch ecrecover snap header = .ok snap') :
    ∃ signer s₁ authorize, ecrecover header = .ok signer ∧
      ((snap.checkpoint epoch header.number).forget header.number).checkSigner header.number signer =
        .ok s₁ ∧
      voteOf header.nonce = .ok authorize ∧
      snap' = (s₁.discard signer header.coinbase).tallyVote header.number signer
        header.coinbase authorize := by
  unfold applyHeader at h
  cases hr : ecrecover header with
  | error e => simp [hr, bind, Except.bind] at h
  | ok signer =>
    cases ha : ((snap.checkpoint epoch header.number).forget header.number).checkSigner header.number
        signer with
    | error e => simp [hr, ha, bind, Except.bind] at h
    | ok s₁ =>
      cases hv : voteOf header.nonce with
      | error e => simp [hr, ha, hv, bind, Except.bind] at h
      | ok authorize =>
        simp only [hr, ha, hv, bind, Except.bind, pure, Except.pure, Except.ok.injEq] at h
        exact ⟨signer, s₁, authorize, by first | exact hr | rfl, ha, by first | exact hv | rfl,
          h.symm⟩

/-- **What `apply` does** with a chain segment it accepts. -/
theorem apply_eq_ok {epoch : Nat} {ecrecover : Header Address → Except Error Address}
    {s s' : Snapshot Address} {headers : List (Header Address)}
    (h : s.apply epoch ecrecover headers = .ok s') :
    ∃ snap, headers.foldlM (applyHeader epoch ecrecover) s = .ok snap ∧
      s' = { snap with number := s.number + headers.length } := by
  cases headers with
  | nil =>
    cases h
    exact ⟨s, rfl, by simp⟩
  | cons first rest =>
    simp only [apply] at h
    split at h
    · cases h
    · split at h
      · cases h
      · cases hf : (first :: rest).foldlM (applyHeader epoch ecrecover) s with
        | error e => simp [hf, Except.map] at h
        | ok snap =>
          simp only [hf, Except.map, Except.ok.injEq] at h
          exact ⟨snap, rfl, h.symm⟩

end Snapshot

end Atlantis.Clique
