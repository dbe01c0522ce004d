import Atlantis.Clique.Recents

/-!
# Applying a chain in batches

`Clique.snapshot` starts from whichever snapshot it finds first, in memory, on disk or at
the genesis block, and applies the headers after it in one call of `Snapshot.apply`.  The
snapshots it reconstructs agree because `apply` does not depend on where a chain is cut:
`apply` of `H₁ ++ H₂` succeeds exactly when `apply` of `H₁` does and `apply` of `H₂` on its
result does, with the same snapshot (`apply_append`).

The one thing the two routes do differently is the number of the snapshot in the middle:
the loop of `apply` never reads it, and `apply` sets it at the end.  That the loop commutes
with a renumbering (`applyHeader_setNumber`) is proved phase by phase, and carried to the
loop by the loop library (`List.foldlM_except_map`).
-/

namespace Atlantis.Clique

variable {Address : Type} [DecidableEq Address]

namespace Snapshot

/-! ## No phase of a header reads the number of the snapshot -/

theorem checkpoint_setNumber (s : Snapshot Address) (k epoch number : Nat) :
    ({ s with number := k } : Snapshot Address).checkpoint epoch number =
      { s.checkpoint epoch number with number := k } := by
  unfold checkpoint
  split_ifs <;> rfl

theorem forget_setNumber (s : Snapshot Address) (k number : Nat) :
    ({ s with number := k } : Snapshot Address).forget number = { s.forget number with number := k } := by
  unfold forget limit
  dsimp only
  split_ifs <;> rfl

theorem checkSigner_setNumber (s : Snapshot Address) (k number : Nat) (signer : Address) :
    ({ s with number := k } : Snapshot Address).checkSigner number signer =
      (s.checkSigner number signer).map fun s' => { s' with number := k } := by
  unfold checkSigner
  dsimp only
  split_ifs <;> rfl

theorem discard_setNumber (s : Snapshot Address) (k : Nat) (signer coinbase : Address) :
    ({ s with number := k } : Snapshot Address).discard signer coinbase =
      { s.discard signer coinbase with number := k } := rfl

theorem cast_setNumber (s : Snapshot Address) (k : Nat) (address : Address) (authorize : Bool) :
    ({ s with number := k } : Snapshot Address).cast address authorize =
      ((s.cast address authorize).1, { (s.cast address authorize).2 with number := k }) := by
  unfold cast validVote
  dsimp only
  split_ifs
  · rfl
  · split <;> rfl

theorem castVote_setNumber (s : Snapshot Address) (k number : Nat) (signer coinbase : Address)
    (authorize : Bool) :
    ({ s with number := k } : Snapshot Address).castVote number signer coinbase authorize =
      { s.castVote number signer coinbase authorize with number := k } := by
  unfold castVote
  rw [cast_setNumber]
  generalize s.cast coinbase authorize = r
  obtain ⟨ok, s'⟩ := r
  cases ok <;> rfl

theorem pass_setNumber (s : Snapshot Address) (k number : Nat) (coinbase : Address) (authorize : Bool) :
    ({ s with number := k } : Snapshot Address).pass number coinbase authorize =
      { s.pass number coinbase authorize with number := k } := by
  -- the deletion of a dropped signer's recent entry reads the signers, not the number
  unfold pass forget limit
  dsimp only
  split_ifs <;> rfl

theorem tallyVote_setNumber (s : Snapshot Address) (k number : Nat) (signer coinbase : Address)
    (authorize : Bool) :
    ({ s with number := k } : Snapshot Address).tallyVote number signer coinbase authorize =
      { s.tallyVote number signer coinbase authorize with number := k } := by
  unfold tallyVote
  rw [castVote_setNumber]
  dsimp only
  split_ifs
  · rw [pass_setNumber]
  · rfl

/-- **A header does not read the number of the snapshot**, and does not write it. -/
theorem applyHeader_setNumber (epoch : Nat) (ecrecover : Header Address → Except Error Address)
    (k : Nat) (s : Snapshot Address) (header : Header Address) :
    applyHeader epoch ecrecover { s with number := k } header =
      (applyHeader epoch ecrecover s header).map fun s' => { s' with number := k } := by
  unfold applyHeader
  dsimp only
  rw [checkpoint_setNumber, forget_setNumber]
  dsimp only
  cases ecrecover header with
  | error e => rfl
  | ok signer =>
    -- the check of the signer sits under the binder of the recovered signer
    dsimp only [bind, Except.bind]
    rw [checkSigner_setNumber]
    cases ((s.checkpoint epoch header.number).forget header.number).checkSigner header.number signer with
    | error e => rfl
    | ok s₁ =>
      cases voteOf header.nonce with
      | error e => rfl
      | ok authorize =>
        simp only [Except.map, pure, Except.pure]
        rw [discard_setNumber, tallyVote_setNumber]

/-! ## Where a chain is cut -/

omit [DecidableEq Address] in
/-- Two chains, the second numbered on from the first, make one chain. -/
theorem chained_append :
    ∀ {l₁ l₂ : List (Header Address)},
      (∀ h₁ ∈ l₁.getLast?, ∀ h₂ ∈ l₂.head?, h₂.number = h₁.number + 1) →
      chained (l₁ ++ l₂) = (chained l₁ && chained l₂)
  | [], _, _ => by simp [chained]
  | [_], [], _ => rfl
  | [a], b :: bs, hcont => by
    rw [List.singleton_append, chained, show chained [a] = true from rfl, hcont a rfl b rfl]
    simp
  | a :: a' :: l, l₂, hcont => by
    have ih := @chained_append (a' :: l) l₂ (by simpa using hcont)
    rw [List.cons_append, List.cons_append, chained, ← List.cons_append, ih, chained,
      Bool.and_assoc]

omit [DecidableEq Address] in
/-- The last header of a chain is numbered its length after the first. -/
theorem chained_getLast {a z : Header Address} {as : List (Header Address)}
    (hc : chained (a :: as) = true) (hz : (a :: as).getLast? = some z) :
    z.number = a.number + as.length := by
  obtain ⟨init, hinit⟩ := List.getLast?_eq_some_iff.1 hz
  have hlen : init.length = as.length := by
    have := congrArg List.length hinit
    simp at this
    omega
  rw [hinit] at hc
  rw [chained_number hc (by rw [← hinit]; rfl), hlen]

theorem apply_nil (epoch : Nat) (ecrecover : Header Address → Except Error Address)
    (s : Snapshot Address) : s.apply epoch ecrecover [] = .ok s := rfl

/-- What `apply` of a nonempty segment checks and computes. -/
theorem apply_cons_eq_ok {epoch : Nat} {ecrecover : Header Address → Except Error Address}
    {s s' : Snapshot Address} {a : Header Address} {as : List (Header Address)} :
    s.apply epoch ecrecover (a :: as) = .ok s' ↔
      chained (a :: as) = true ∧ a.number = s.number + 1 ∧
        ∃ snap, (a :: as).foldlM (applyHeader epoch ecrecover) s = .ok snap ∧
          s' = { snap with number := s.number + (as.length + 1) } := by
  simp only [apply]
  split_ifs with hc hn
  · rw [Bool.not_eq_true'] at hc
    simp [hc]
  · simp [hn]
  · cases hf : (a :: as).foldlM (applyHeader epoch ecrecover) s with
    | error e => simp [Except.map]
    | ok snap =>
      simp only [Except.map, Except.ok.injEq, List.length_cons]
      simp only [Bool.not_eq_true', Bool.not_eq_false] at hc
      refine ⟨fun h => ⟨hc, not_not.1 hn, snap, rfl, h.symm⟩, fun h => ?_⟩
      obtain ⟨-, -, _, h₁, h₂⟩ := h
      cases h₁
      exact h₂.symm

end Snapshot

/-- **`apply` does not depend on where a chain is cut.**  For every snapshot and two
segments of headers, the second numbered on from the first, `apply` of both succeeds with a
snapshot exactly when `apply` of the first succeeds and `apply` of the second on its result
succeeds with the same snapshot. -/
theorem apply_append (epoch : Nat) (ecrecover : Header Address → Except Error Address)
    (s : Snapshot Address) (H₁ H₂ : List (Header Address))
    (hcont : ∀ h₁ ∈ H₁.getLast?, ∀ h₂ ∈ H₂.head?, h₂.number = h₁.number + 1)
    (s' : Snapshot Address) :
    s.apply epoch ecrecover (H₁ ++ H₂) = .ok s' ↔
      ∃ s₁, s.apply epoch ecrecover H₁ = .ok s₁ ∧ s₁.apply epoch ecrecover H₂ = .ok s' := by
  cases H₁ with
  | nil => simp [Snapshot.apply_nil]
  | cons a as =>
    cases H₂ with
    | nil => simp [Snapshot.apply_nil]
    | cons b bs =>
      -- the loop over both segments is the loop over the first, then the second from its
      -- result, renumbered
      have hframe := List.foldlM_except_map (Snapshot.applyHeader epoch ecrecover)
        (fun snap => { snap with number := s.number + (as.length + 1) })
        (Snapshot.applyHeader_setNumber epoch ecrecover _) (b :: bs)
      have hlast : ∀ h₁, (a :: as).getLast? = some h₁ → a.number = s.number + 1 →
          Snapshot.chained (a :: as) = true → b.number = s.number + (as.length + 1) + 1 := by
        intro h₁ hh₁ ha hc
        have := Snapshot.chained_getLast hc hh₁
        have := hcont h₁ hh₁ b rfl
        omega
      obtain ⟨z, hz⟩ : ∃ z, (a :: as).getLast? = some z := ⟨_, List.getLast?_eq_some_getLast (List.cons_ne_nil a as)⟩
      rw [List.cons_append, Snapshot.apply_cons_eq_ok, ← List.cons_append, Snapshot.chained_append hcont,
        List.foldlM_append, Bool.and_eq_true]
      constructor
      · rintro ⟨⟨hc₁, hc₂⟩, ha, snap, hfold, rfl⟩
        cases hf₁ : (a :: as).foldlM (Snapshot.applyHeader epoch ecrecover) s with
        | error e =>
          rw [hf₁] at hfold
          cases hfold
        | ok snap₁ =>
          rw [hf₁] at hfold
          refine ⟨_, Snapshot.apply_cons_eq_ok.2 ⟨hc₁, ha, snap₁, hf₁, rfl⟩,
            Snapshot.apply_cons_eq_ok.2 ⟨hc₂, hlast z hz ha hc₁, _, by rw [hframe snap₁]; exact congrArg _ hfold, ?_⟩⟩
          simp only [List.length_append, List.length_cons]
          congr 1
          omega
      · rintro ⟨s₁, h₁, h₂⟩
        obtain ⟨hc₁, ha, snap₁, hf₁, rfl⟩ := Snapshot.apply_cons_eq_ok.1 h₁
        obtain ⟨hc₂, -, snap₂, hf₂, rfl⟩ := Snapshot.apply_cons_eq_ok.1 h₂
        rw [hframe snap₁] at hf₂
        cases hf : (b :: bs).foldlM (Snapshot.applyHeader epoch ecrecover) snap₁ with
        | error e =>
          rw [hf] at hf₂
          cases hf₂
        | ok snap =>
          rw [hf] at hf₂
          cases hf₂
          refine ⟨⟨hc₁, hc₂⟩, ha, snap, by rw [hf₁]; exact hf, ?_⟩
          simp only [List.length_append, List.length_cons]
          congr 1
          omega

/-- Blocks 1 and 2 of signers 1, 2 and 3, applied at once or one after the other. -/
theorem apply_append_blocks_one_two :
    (newSnapshot 0 [1, 2, 3]).apply 30000 (fun h => .ok h.number)
        ([⟨1, 9, nonceDropVote, []⟩] ++ [⟨2, 9, nonceDropVote, []⟩]) =
        .ok ⟨2, {1, 2, 3}, ((∅ : AList (fun _ : Nat => Nat)).insert 1 1).insert 2 2, [], ∅⟩ ↔
      ∃ s₁, (newSnapshot 0 [1, 2, 3]).apply 30000 (fun h => .ok h.number) [⟨1, 9, nonceDropVote, []⟩] =
          .ok s₁ ∧
        s₁.apply 30000 (fun h => .ok h.number) [⟨2, 9, nonceDropVote, []⟩] =
          .ok ⟨2, {1, 2, 3}, ((∅ : AList (fun _ : Nat => Nat)).insert 1 1).insert 2 2, [], ∅⟩ :=
  apply_append 30000 (fun h => .ok h.number) _ _ _ (by simp) _

end Atlantis.Clique
