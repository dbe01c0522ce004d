import Atlantis.Clique.Recents

/-!
# Sealing and verifying a seal

`Clique.verifySeal` and `Clique.Seal` of `consensus/clique/clique.go` check the signer of
block `number` against the snapshot of its parent, as `Snapshot.apply` does: the signer is
authorised, and it did not sign within the window of the last `limit` blocks.  The three
write the window differently: `apply` first deletes the entry of block `number - limit`
(when `number >= limit`) and then refuses any entry of the signer; `Seal` refuses an entry
above `number - limit`, or any entry while `number < limit`; `verifySeal` refuses an entry
above `number - limit`, a `uint64` difference that wraps while `number < limit`.

Where the recents of the parent lie in its window, as they do along every chain `apply`
accepts (`recent_signers`), `apply` and `Seal` agree on every signer, and `verifySeal` agrees
with them from block `limit` on; below it, `verifySeal` accepts every authorised signer,
the recent ones too (`seal_checks`, `verifySeal_accepts_recent`).

Only the checks on the signer are modelled: `verifySeal` also rejects the genesis block
and a difficulty that does not match the turn of the signer, and `Seal` signs after a
delay; neither decides whether a signer may sign.
-/

namespace Atlantis.Clique

variable {Address : Type} [DecidableEq Address]

namespace Snapshot

/-- The checks of `verifySeal` on the signer of block `number`, against the snapshot of its
parent. -/
def verifySeal (s : Snapshot Address) (number : Nat) (signer : Address) : Except Error Unit :=
  if signer ∉ s.signers then .error .errUnauthorized
  -- Signer is among recents, only fail if the current block doesn't shift it out
  else if s.recents.entries.any (fun e => decide (e.2 = signer) &&
      decide (UInt64.ofNat number - UInt64.ofNat s.limit < UInt64.ofNat e.1)) then
    .error .errUnauthorized
  else .ok ()

/-- The checks of `Seal` on its signer for block `number`: `false` where it waits for others
to sign. -/
def Seal (s : Snapshot Address) (number : Nat) (signer : Address) : Except Error Bool :=
  if signer ∉ s.signers then .error .errUnauthorized
  -- Signer is among recents, only wait if the current block doesn't shift it out
  else if s.recents.entries.any (fun e => decide (e.2 = signer) &&
      (decide (UInt64.ofNat number < UInt64.ofNat s.limit) ||
        decide (UInt64.ofNat number - UInt64.ofNat s.limit < UInt64.ofNat e.1))) then .ok false
  else .ok true

/-- The checks of `apply` on the signer of block `number`: the deletion of the entry that
leaves the window, then `checkSigner`. -/
def applyChecks (s : Snapshot Address) (number : Nat) (signer : Address) : Except Error (Snapshot Address) :=
  (s.forget number).checkSigner number signer

/-! ## Each check, entry by entry -/

omit [DecidableEq Address] in
/-- A test of the entries of the recents is a test of their lookups. -/
theorem any_entries_iff (recents : AList (fun _ : Nat => Address)) (p : Sigma (fun _ : Nat => Address) → Bool) :
    recents.entries.any p = true ↔ ∃ m a, recents.lookup m = some a ∧ p ⟨m, a⟩ = true := by
  rw [List.any_eq_true]
  constructor
  · rintro ⟨⟨m, a⟩, hmem, hp⟩
    exact ⟨m, a, AList.mem_lookup_iff.2 hmem, hp⟩
  · rintro ⟨m, a, hlookup, hp⟩
    exact ⟨⟨m, a⟩, AList.mem_lookup_iff.1 hlookup, hp⟩

theorem applyChecks_ok_iff (s : Snapshot Address) (number : Nat) (signer : Address) :
    (s.applyChecks number signer).toBool = true ↔
      signer ∈ s.signers ∧ ∀ m, s.recents.lookup m = some signer → s.limit ≤ number ∧ m = number - s.limit := by
  have hrecent : (s.forget number).recents.entries.any (fun e => e.2 = signer) = true ↔
      ∃ m, s.recents.lookup m = some signer ∧ ¬ (s.limit ≤ number ∧ m = number - s.limit) := by
    rw [any_entries_iff, forget_recents]
    split
    · -- the entry of block `number - limit` is gone
      next hge =>
      constructor
      · rintro ⟨m, a, hm, ha⟩
        obtain rfl : a = signer := of_decide_eq_true ha
        obtain ⟨hne, hm⟩ := lookup_of_erase hm
        exact ⟨m, hm, fun h => hne h.2⟩
      · rintro ⟨m, hm, hnot⟩
        refine ⟨m, signer, ?_, by simp⟩
        rw [AList.lookup_erase_ne fun h => hnot ⟨hge, h⟩]
        exact hm
    · next hlt =>
      constructor
      · rintro ⟨m, a, hm, ha⟩
        obtain rfl : a = signer := of_decide_eq_true ha
        exact ⟨m, hm, fun h => hlt h.1⟩
      · rintro ⟨m, hm, -⟩
        exact ⟨m, signer, hm, by simp⟩
  unfold applyChecks checkSigner
  rw [forget_signers]
  split
  · next hout => simp [Except.toBool, hout]
  · next hin =>
    split
    · next hany =>
      obtain ⟨m, hm, hnot⟩ := hrecent.1 hany
      simp only [Except.toBool, Bool.false_eq_true, false_iff, not_and, not_forall]
      exact fun _ => ⟨m, hm, not_and.1 hnot⟩
    · next hnone =>
      simp only [Except.toBool, true_iff]
      refine ⟨not_not.1 hin, fun m hm => ?_⟩
      by_contra hnot
      exact hnone (hrecent.2 ⟨m, hm, hnot⟩)

theorem verifySeal_ok_iff (s : Snapshot Address) (number : Nat) (signer : Address) :
    (s.verifySeal number signer).toBool = true ↔ signer ∈ s.signers ∧
      ∀ m, s.recents.lookup m = some signer → ¬ UInt64.ofNat number - UInt64.ofNat s.limit < UInt64.ofNat m := by
  unfold verifySeal
  split
  · next hout => simp [Except.toBool, hout]
  · next hin =>
    rw [not_not] at hin
    split
    · next hany =>
      obtain ⟨m, a, hm, hp⟩ := (any_entries_iff _ _).1 hany
      simp only [Bool.and_eq_true, decide_eq_true_eq] at hp
      obtain ⟨rfl, hlt⟩ := hp
      simp only [Except.toBool, Bool.false_eq_true, false_iff, not_and, not_forall, not_not]
      exact fun _ => ⟨m, hm, hlt⟩
    · next hnone =>
      simp only [Except.toBool, true_iff]
      refine ⟨hin, fun m hm hlt => hnone ((any_entries_iff _ _).2 ⟨m, signer, hm, by simp [hlt]⟩)⟩

theorem Seal_ok_iff (s : Snapshot Address) (number : Nat) (signer : Address) :
    s.Seal number signer = .ok true ↔ signer ∈ s.signers ∧
      ∀ m, s.recents.lookup m = some signer → ¬ (UInt64.ofNat number < UInt64.ofNat s.limit ∨
        UInt64.ofNat number - UInt64.ofNat s.limit < UInt64.ofNat m) := by
  unfold Seal
  split
  · next hout => simp [hout]
  · next hin =>
    rw [not_not] at hin
    split
    · next hany =>
      obtain ⟨m, a, hm, hp⟩ := (any_entries_iff _ _).1 hany
      simp only [Bool.and_eq_true, Bool.or_eq_true, decide_eq_true_eq] at hp
      obtain ⟨rfl, hwait⟩ := hp
      simp only [Except.ok.injEq, Bool.false_eq_true, false_iff, not_and, not_forall, not_not]
      exact fun _ => ⟨m, hm, hwait⟩
    · next hnone =>
      simp only [true_iff]
      refine ⟨hin, fun m hm hwait => hnone ((any_entries_iff _ _).2 ⟨m, signer, hm, ?_⟩)⟩
      simpa using hwait

/-! ## The window of the parent -/

/-- `uint64` arithmetic on the edge of the window, where nothing wraps. -/
theorem window_lt_iff {number limit m : Nat} (hlimit : limit ≤ number) (hnumber : number < 2 ^ 64)
    (hm : m < 2 ^ 64) :
    UInt64.ofNat number - UInt64.ofNat limit < UInt64.ofNat m ↔ number - limit < m := by
  rw [UInt64.lt_iff_toNat_lt, UInt64.toNat_sub_of_le _ _ (by
    rw [UInt64.le_iff_toNat_le, UInt64.toNat_ofNat', UInt64.toNat_ofNat']; omega),
    UInt64.toNat_ofNat', UInt64.toNat_ofNat', UInt64.toNat_ofNat']
  omega

/-- Below the window, the `uint64` difference wraps past every block before `number`. -/
theorem not_window_lt_of_lt {number limit m : Nat} (hnumber : number < limit) (hlimit : limit < 2 ^ 64)
    (hm : m < number) :
    ¬ UInt64.ofNat number - UInt64.ofNat limit < UInt64.ofNat m := by
  rw [UInt64.lt_iff_toNat_lt, UInt64.toNat_sub, UInt64.toNat_ofNat', UInt64.toNat_ofNat',
    UInt64.toNat_ofNat']
  omega

theorem uint64_lt_iff {a b : Nat} (ha : a < 2 ^ 64) (hb : b < 2 ^ 64) :
    UInt64.ofNat a < UInt64.ofNat b ↔ a < b := by
  rw [UInt64.lt_iff_toNat_lt, UInt64.toNat_ofNat', UInt64.toNat_ofNat', Nat.mod_eq_of_lt ha,
    Nat.mod_eq_of_lt hb]

/-- Below block `limit`, `verifySeal` accepts every authorised signer of the next block. -/
theorem verifySeal_ok_below {s : Snapshot Address}
    (hwindow : ∀ m ∈ s.recents, m ≤ s.number ∧ s.number < m + s.limit) (hlimit : s.limit < 2 ^ 64)
    (hbelow : s.number + 1 < s.limit) (signer : Address) :
    (s.verifySeal (s.number + 1) signer).toBool = true ↔ signer ∈ s.signers := by
  rw [verifySeal_ok_iff]
  refine ⟨fun h => h.1, fun h => ⟨h, fun m hm => not_window_lt_of_lt hbelow hlimit ?_⟩⟩
  have hle := (hwindow m (AList.lookup_isSome.1 (by rw [hm]; rfl))).1
  omega

/-! ## The checks inside `apply` -/

/-- What `checkSigner` decides reads the signers and the recents only. -/
theorem checkSigner_toBool_congr {s t : Snapshot Address} (hs : s.signers = t.signers)
    (hr : s.recents = t.recents) (number : Nat) (signer : Address) :
    (s.checkSigner number signer).toBool = (t.checkSigner number signer).toBool := by
  unfold checkSigner
  rw [hs, hr]
  split_ifs <;> rfl

theorem checkSigner_eq_error {s : Snapshot Address} {number : Nat} {signer : Address} {e : Error}
    (h : s.checkSigner number signer = .error e) : e = .errUnauthorized := by
  unfold checkSigner at h
  split_ifs at h <;> cases h <;> rfl

/-- The checks of `applyHeader` on its signer are `applyChecks`: removing the votes at a
checkpoint keeps the signers and the recents. -/
theorem checkpoint_checks (s : Snapshot Address) (epoch number : Nat) (signer : Address) :
    (((s.checkpoint epoch number).forget number).checkSigner number signer).toBool =
      (s.applyChecks number signer).toBool := by
  have hlimit : (s.checkpoint epoch number).limit = s.limit := by
    unfold limit
    rw [checkpoint_signers]
  apply checkSigner_toBool_congr
  · simp
  · rw [forget_recents, forget_recents, checkpoint_recents, hlimit]

/-- `apply` refuses the next header of a signer that `applyChecks` refuses. -/
theorem apply_single_of_applyChecks {epoch : Nat} {ecrecover : Header Address → Except Error Address}
    {s : Snapshot Address} {h : Header Address} {signer : Address}
    (hnumber : h.number = s.number + 1) (hsig : ecrecover h = .ok signer)
    (hchecks : (s.applyChecks h.number signer).toBool = false) :
    s.apply epoch ecrecover [h] = .error .errUnauthorized := by
  have hcheck := checkpoint_checks s epoch h.number signer
  rw [hchecks] at hcheck
  cases hc : ((s.checkpoint epoch h.number).forget h.number).checkSigner h.number signer with
  | ok s₁ =>
    rw [hc] at hcheck
    cases hcheck
  | error e =>
    obtain rfl := checkSigner_eq_error hc
    rw [hnumber] at hc
    simp [apply, chained, hnumber, applyHeader, hsig, hc, bind, Except.bind, Except.map]

end Snapshot

/-- **The three checks of the signer of the next block.**  Where the recents of a snapshot lie
in its window and the block numbers fit in 64 bits, `apply` and `Seal` accept the same signers
of the next block; `verifySeal` accepts the same from block `limit` on, and every authorised
signer below it. -/
theorem seal_checks (s : Snapshot Address)
    (hwindow : ∀ m ∈ s.recents, m ≤ s.number ∧ s.number < m + s.limit)
    (hnumber : s.number + 1 < 2 ^ 64) (hlimit : s.limit < 2 ^ 64) (signer : Address) :
    ((s.applyChecks (s.number + 1) signer).toBool = true ↔ s.Seal (s.number + 1) signer = .ok true) ∧
      (s.limit ≤ s.number + 1 →
        ((s.verifySeal (s.number + 1) signer).toBool = (s.applyChecks (s.number + 1) signer).toBool)) ∧
      (s.number + 1 < s.limit → ((s.verifySeal (s.number + 1) signer).toBool = true ↔ signer ∈ s.signers)) := by
  -- every entry of the signer lies in the window, between `number - limit` and `number - 1`
  have hin : ∀ m, s.recents.lookup m = some signer → m ≤ s.number ∧ s.number < m + s.limit :=
    fun m hm => hwindow m (AList.lookup_isSome.1 (by rw [hm]; rfl))
  refine ⟨?_, fun hge => ?_, fun hlt => ?_⟩
  · rw [Snapshot.applyChecks_ok_iff, Snapshot.Seal_ok_iff]
    refine and_congr_right fun _ => forall_congr' fun m => imp_congr_right fun hm => ?_
    obtain ⟨hle, hwin⟩ := hin m hm
    rw [Snapshot.uint64_lt_iff hnumber hlimit]
    by_cases hge : s.limit ≤ s.number + 1
    · rw [Snapshot.window_lt_iff hge hnumber (by omega)]
      omega
    · omega
  · rw [Bool.eq_iff_iff, Snapshot.verifySeal_ok_iff, Snapshot.applyChecks_ok_iff]
    refine and_congr_right fun _ => forall_congr' fun m => imp_congr_right fun hm => ?_
    obtain ⟨hle, hwin⟩ := hin m hm
    rw [Snapshot.window_lt_iff hge hnumber (by omega)]
    omega
  · exact Snapshot.verifySeal_ok_below hwindow hlimit hlt signer

/-- After block 1 of five signers, signed by signer 0: `apply` and `Seal` refuse signer 0 for
block 2, and `verifySeal` accepts it, below block `limit = 3`. -/
theorem seal_checks_block_two :
    ((Snapshot.applyChecks ⟨1, {0, 1, 2, 3, 4}, (∅ : AList (fun _ : Nat => Nat)).insert 1 0, [], ∅⟩ 2 0).toBool = true ↔
        Snapshot.Seal ⟨1, {0, 1, 2, 3, 4}, (∅ : AList (fun _ : Nat => Nat)).insert 1 0, [], ∅⟩ 2 0 = .ok true) ∧
      (3 ≤ 2 → (Snapshot.verifySeal ⟨1, {0, 1, 2, 3, 4}, (∅ : AList (fun _ : Nat => Nat)).insert 1 0, [], ∅⟩ 2 0).toBool =
        (Snapshot.applyChecks ⟨1, {0, 1, 2, 3, 4}, (∅ : AList (fun _ : Nat => Nat)).insert 1 0, [], ∅⟩ 2 0).toBool) ∧
      (2 < 3 → ((Snapshot.verifySeal ⟨1, {0, 1, 2, 3, 4}, (∅ : AList (fun _ : Nat => Nat)).insert 1 0, [], ∅⟩ 2 0).toBool = true ↔
        0 ∈ ({0, 1, 2, 3, 4} : Finset Nat))) :=
  seal_checks _
    (fun m hm => by
      rw [AList.mem_insert] at hm
      rcases hm with rfl | hm
      · decide
      · cases hm)
    (by decide) (by decide) 0

/-- **`verifySeal` accepts a recent signer below block `limit`.**  For the next header of a
snapshot below block `limit`, signed by an authorised signer that signed one of the blocks
of the window, `verifySeal` accepts, where `apply` refuses the header and `Seal` waits: the
`uint64` difference `number - limit` wraps to near `2^64`, above every block of the window. -/
theorem verifySeal_accepts_recent (epoch : Nat) (ecrecover : Header Address → Except Error Address)
    (s : Snapshot Address) (hwindow : ∀ m ∈ s.recents, m ≤ s.number ∧ s.number < m + s.limit)
    (hlimit : s.limit < 2 ^ 64) (h : Header Address) (signer : Address)
    (hnumber : h.number = s.number + 1) (hbelow : h.number < s.limit)
    (hsig : ecrecover h = .ok signer) (hsigner : signer ∈ s.signers) (m : Nat)
    (hm : s.recents.lookup m = some signer) :
    (s.verifySeal h.number signer).toBool = true ∧
      s.apply epoch ecrecover [h] = .error .errUnauthorized ∧ s.Seal h.number signer = .ok false := by
  rw [hnumber] at hbelow ⊢
  refine ⟨(Snapshot.verifySeal_ok_below hwindow hlimit hbelow signer).2 hsigner, ?_, ?_⟩
  · -- the entry of the signer stays: nothing leaves the window below block `limit`
    refine Snapshot.apply_single_of_applyChecks hnumber hsig ?_
    rw [hnumber, Bool.eq_false_iff, Ne, Snapshot.applyChecks_ok_iff]
    exact fun hok => by have := (hok.2 m hm).1; omega
  · unfold Snapshot.Seal
    rw [if_neg (not_not.2 hsigner), if_pos]
    refine (Snapshot.any_entries_iff _ _).2 ⟨m, signer, hm, ?_⟩
    simp only [Bool.and_eq_true, Bool.or_eq_true, decide_eq_true_eq]
    exact ⟨trivial, Or.inl ((Snapshot.uint64_lt_iff (by omega) hlimit).2 hbelow)⟩

/-- Block 2 of five signers, whose window is three blocks, by the signer of block 1. -/
theorem verifySeal_accepts_recent_block_two :
    (newSnapshot 0 [0, 1, 2, 3, 4]).apply 30000 (fun _ => .ok 0) [⟨1, 9, nonceDropVote, []⟩] =
      .ok ⟨1, {0, 1, 2, 3, 4}, (∅ : AList (fun _ : Nat => Nat)).insert 1 0, [], ∅⟩ ∧
    (Snapshot.verifySeal ⟨1, {0, 1, 2, 3, 4}, (∅ : AList (fun _ : Nat => Nat)).insert 1 0, [], ∅⟩ 2 0).toBool = true ∧
      Snapshot.apply 30000 (fun _ => .ok 0) ⟨1, {0, 1, 2, 3, 4}, (∅ : AList (fun _ : Nat => Nat)).insert 1 0, [], ∅⟩
        [⟨2, 9, nonceDropVote, []⟩] = .error .errUnauthorized ∧
      Snapshot.Seal ⟨1, {0, 1, 2, 3, 4}, (∅ : AList (fun _ : Nat => Nat)).insert 1 0, [], ∅⟩ 2 0 = .ok false :=
  ⟨rfl, verifySeal_accepts_recent 30000 (fun _ => .ok 0) _
    (fun m hm => by
      rw [AList.mem_insert] at hm
      rcases hm with rfl | hm
      · decide
      · cases hm)
    (by decide) ⟨2, 9, nonceDropVote, []⟩ 0 rfl (by decide) rfl (by decide) 1 rfl⟩

end Atlantis.Clique
