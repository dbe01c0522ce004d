import Atlantis.Clique.Snapshot
import Atlantis.Lib.Loop

/-!
# The recent signers

The spam protection of `apply`: a signer may sign once within `len(Signers)/2 + 1`
consecutive blocks, the `limit` of the signers in effect.  The recent signers are kept by
block number; each header deletes the entry that falls out of the window before it checks
its signer against the rest, and a dropped signer deletes one more, since the window
shrinks with the signers.

Along a chain, the recents record the signers of the blocks processed (`Records`): every
entry is the signer of a block within the window, and every block within the window has its
entry.  Which window depends on the phase of the header: after the deletion at the start of
block `n + 1`, the entries are the blocks above `n + 1 - limit`; a vote that adds a signer
widens the window by at most one block, and one that drops a signer narrows it by at most one,
with the deletion that follows (`Records.grow`, `Records.shrink`).  So the signer of block
`n + 1` has not signed any of the blocks above `n + 1 - limit` (`recent_signers`).
-/

namespace Atlantis.Clique

variable {Address : Type}

/-- The signers in a map of recent signers. -/
def values (recents : AList (fun _ : Nat => Address)) : List Address :=
  recents.entries.map Sigma.snd

/-- The recents record the signers of the blocks of `done`: every entry is the signer of a
block with `t < number + limit`, and every block with `u < number + limit` has its entry. -/
structure Records (ecrecover : Header Address → Except Error Address)
    (done : List (Header Address)) (recents : AList (fun _ : Nat => Address))
    (limit t u : Nat) : Prop where
  nodup : (values recents).Nodup
  sound : ∀ m a, recents.lookup m = some a →
    t < m + limit ∧ ∃ h ∈ done, h.number = m ∧ ecrecover h = .ok a
  complete : ∀ h ∈ done, u < h.number + limit →
    ∃ a, ecrecover h = .ok a ∧ recents.lookup h.number = some a

variable {ecrecover : Header Address → Except Error Address} {done : List (Header Address)}
  {recents : AList (fun _ : Nat => Address)}

/-! ## The window through the phases of a header -/

theorem values_erase_sublist (recents : AList (fun _ : Nat => Address)) (m : Nat) :
    List.Sublist (values (recents.erase m)) (values recents) :=
  (List.kerase_sublist m recents.entries).map _

theorem lookup_of_erase {m k : Nat} {a : Address} (h : (recents.erase k).lookup m = some a) :
    m ≠ k ∧ recents.lookup m = some a := by
  by_cases hm : m = k
  · subst hm
    rw [AList.lookup_erase] at h
    cases h
  · exact ⟨hm, by rwa [AList.lookup_erase_ne hm] at h⟩

/-- **The deletion at the start of block `n + 1`** moves the window on by one block. -/
theorem Records.forget {limit n : Nat} (h : Records ecrecover done recents limit n (n + 1)) :
    Records ecrecover done
      (if n + 1 ≥ limit then recents.erase (n + 1 - limit) else recents) limit (n + 1) (n + 1) := by
  split
  · next hl =>
    refine ⟨h.nodup.sublist (values_erase_sublist _ _), fun m a hm => ?_, fun hd hdone hu => ?_⟩
    · -- the entry at the edge of the window is the one deleted
      obtain ⟨hne, hm⟩ := lookup_of_erase hm
      obtain ⟨hlt, hrest⟩ := h.sound m a hm
      exact ⟨by omega, hrest⟩
    · obtain ⟨a, ha, hl'⟩ := h.complete hd hdone (by omega)
      exact ⟨a, ha, by rw [AList.lookup_erase_ne (by omega)]; exact hl'⟩
  · next hl =>
    refine ⟨h.nodup, fun m a hm => ?_, h.complete⟩
    obtain ⟨-, hrest⟩ := h.sound m a hm
    exact ⟨by omega, hrest⟩

/-- **Recording the signer of block `t`**, who has no entry. -/
theorem Records.insert {limit t : Nat} (h : Records ecrecover done recents limit t t)
    (hlimit : 0 < limit) (hbelow : ∀ h ∈ done, h.number < t) {hd : Header Address}
    {a : Address} (hnum : hd.number = t) (ha : ecrecover hd = .ok a) (hnew : a ∉ values recents) :
    Records ecrecover (done ++ [hd]) (recents.insert hd.number a) limit t t := by
  have hfresh : t ∉ recents := fun hmem => by
    obtain ⟨b, hb⟩ := Option.isSome_iff_exists.mp (AList.lookup_isSome.mpr hmem)
    obtain ⟨-, hd', hmem', hnum', -⟩ := h.sound t b hb
    exact absurd hnum' (Nat.ne_of_lt (hbelow hd' hmem'))
  refine ⟨?_, fun m b hm => ?_, fun h' hmem hu => ?_⟩
  · unfold values
    rw [hnum, AList.entries_insert_of_notMem hfresh, List.map_cons, List.nodup_cons]
    exact ⟨hnew, h.nodup⟩
  · rw [hnum] at hm
    by_cases hmt : m = t
    · subst hmt
      rw [AList.lookup_insert] at hm
      cases hm
      exact ⟨by omega, hd, by simp, hnum, ha⟩
    · rw [AList.lookup_insert_ne hmt] at hm
      obtain ⟨hlt, h', hmem, hrest⟩ := h.sound m b hm
      exact ⟨hlt, h', List.mem_append_left _ hmem, hrest⟩
  · rcases List.mem_append.mp hmem with hmem | hmem
    · obtain ⟨b, hb, hl⟩ := h.complete h' hmem hu
      have hne : h'.number ≠ t := Nat.ne_of_lt (hbelow h' hmem)
      exact ⟨b, hb, by rw [hnum, AList.lookup_insert_ne hne]; exact hl⟩
    · simp only [List.mem_singleton] at hmem
      subst hmem
      exact ⟨a, ha, by rw [AList.lookup_insert]⟩

/-- **A window that widens by at most one block** after block `t`. -/
theorem Records.grow {limit limit' t : Nat} (h : Records ecrecover done recents limit t t)
    (hle : limit ≤ limit') (hle' : limit' ≤ limit + 1) :
    Records ecrecover done recents limit' t (t + 1) := by
  refine ⟨h.nodup, fun m a hm => ?_, fun h' hmem hu => h.complete h' hmem (by omega)⟩
  obtain ⟨hlt, hrest⟩ := h.sound m a hm
  exact ⟨by omega, hrest⟩

/-- **A window that narrows by at most one block** after block `t`, with the deletion of
the entry that falls out of it. -/
theorem Records.shrink {limit limit' t : Nat} (h : Records ecrecover done recents limit t t)
    (hle : limit' ≤ limit) (hle' : limit ≤ limit' + 1) :
    Records ecrecover done (if t ≥ limit' then recents.erase (t - limit') else recents)
      limit' t (t + 1) := by
  split
  · next hl =>
    refine ⟨h.nodup.sublist (values_erase_sublist _ _), fun m a hm => ?_, fun h' hmem hu => ?_⟩
    · obtain ⟨hne, hm⟩ := lookup_of_erase hm
      obtain ⟨hlt, hrest⟩ := h.sound m a hm
      exact ⟨by omega, hrest⟩
    · obtain ⟨a, ha, hl'⟩ := h.complete h' hmem (by omega)
      exact ⟨a, ha, by rw [AList.lookup_erase_ne (by omega)]; exact hl'⟩
  · next hl =>
    refine ⟨h.nodup, fun m a hm => ?_, fun h' hmem hu => h.complete h' hmem (by omega)⟩
    obtain ⟨hlt, hrest⟩ := h.sound m a hm
    exact ⟨by omega, hrest⟩

/-! ## Along `apply` -/

variable [DecidableEq Address]

/-- The invariant of the recents of a snapshot after block `n`, the blocks of `done`. -/
structure Snapshot.RecentsInv (ecrecover : Header Address → Except Error Address) (n : Nat)
    (done : List (Header Address)) (s : Snapshot Address) : Prop where
  below : ∀ h ∈ done, h.number ≤ n
  records : Records ecrecover done s.recents s.limit n (n + 1)


namespace Snapshot

theorem limit_pos (s : Snapshot Address) : 0 < s.limit := by
  unfold limit
  omega

theorem forget_recents (s : Snapshot Address) (number : Nat) :
    (s.forget number).recents =
      if number ≥ s.limit then s.recents.erase (number - s.limit) else s.recents := by
  unfold forget
  split <;> rfl

theorem discard_recents (s : Snapshot Address) (signer coinbase : Address) :
    (s.discard signer coinbase).recents = s.recents ∧
      (s.discard signer coinbase).signers = s.signers :=
  ⟨rfl, rfl⟩

theorem castVote_recents (s : Snapshot Address) (number : Nat) (signer coinbase : Address)
    (authorize : Bool) :
    (s.castVote number signer coinbase authorize).recents = s.recents ∧
      (s.castVote number signer coinbase authorize).signers = s.signers := by
  rw [castVote_eq]
  split <;> exact ⟨rfl, rfl⟩

end Snapshot

variable {s : Snapshot Address}

/-- **A passed vote** changes the window by at most one block: a new signer widens it, and a
dropped one narrows it, with the deletion of the entry that falls out. -/
theorem Records.pass {t : Nat} (h : Records ecrecover done s.recents s.limit t t)
    (coinbase : Address) (authorize : Bool) :
    Records ecrecover done (s.pass t coinbase authorize).recents
      (s.pass t coinbase authorize).limit t (t + 1) := by
  unfold Snapshot.pass
  cases authorize with
  | true =>
    have h₁ := Finset.card_insert_le coinbase s.signers
    have h₂ := Finset.card_le_card (Finset.subset_insert coinbase s.signers)
    exact h.grow (by unfold Snapshot.limit; simp; omega) (by unfold Snapshot.limit; simp; omega)
  | false =>
    have h₁ := Finset.card_erase_le (s := s.signers) (a := coinbase)
    have h₂ := Finset.pred_card_le_card_erase (s := s.signers) (a := coinbase)
    have hs : Records ecrecover done
        (if t ≥ (s.signers.erase coinbase).card / 2 + 1 then
          s.recents.erase (t - ((s.signers.erase coinbase).card / 2 + 1)) else s.recents)
        ((s.signers.erase coinbase).card / 2 + 1) t (t + 1) :=
      h.shrink (by unfold Snapshot.limit at *; omega) (by unfold Snapshot.limit at *; omega)
    simpa [Snapshot.forget_recents, Snapshot.limit] using hs

/-- **The vote of a header** changes the window by at most one block. -/
theorem Records.tallyVote {t : Nat} (h : Records ecrecover done s.recents s.limit t t)
    (signer coinbase : Address) (authorize : Bool) :
    Records ecrecover done (s.tallyVote t signer coinbase authorize).recents
      (s.tallyVote t signer coinbase authorize).limit t (t + 1) := by
  have hc : Records ecrecover done (s.castVote t signer coinbase authorize).recents
      (s.castVote t signer coinbase authorize).limit t t := by
    unfold Snapshot.limit
    rw [(Snapshot.castVote_recents ..).1, (Snapshot.castVote_recents ..).2]
    exact h
  unfold Snapshot.tallyVote
  dsimp only
  split
  · exact hc.pass coinbase _
  · exact hc.grow (le_refl _) (Nat.le_succ _)

/-- **One header keeps the recents invariant**, and its signer did not sign within the
window before it. -/
theorem Snapshot.RecentsInv.applyHeader {n : Nat} (h : s.RecentsInv ecrecover n done)
    {epoch : Nat} {header : Header Address} (hnum : header.number = n + 1)
    {s' : Snapshot Address} (ha : Snapshot.applyHeader epoch ecrecover s header = .ok s') :
    s'.RecentsInv ecrecover (n + 1) (done ++ [header]) ∧
      ∀ h' ∈ done, ∀ a, ecrecover h' = .ok a → ecrecover header = .ok a →
        s.limit + h'.number ≤ header.number := by
  obtain ⟨signer, s₁, authorize, hsig, hcheck, -, rfl⟩ := Snapshot.applyHeader_eq_ok ha
  obtain ⟨-, hany, hs₁⟩ := Snapshot.checkSigner_eq_ok hcheck
  -- the window after the deletion at the start of the block
  have hf : Records ecrecover done
      ((s.checkpoint epoch header.number).forget header.number).recents s.limit
      header.number header.number := by
    have := h.records.forget
    rw [Snapshot.forget_recents, Snapshot.checkpoint_recents]
    simp only [Snapshot.limit, Snapshot.checkpoint_signers] at this ⊢
    rw [hnum]
    exact this
  have hnew : signer ∉ values ((s.checkpoint epoch header.number).forget header.number).recents := by
    intro hin
    obtain ⟨e, he, rfl⟩ := List.mem_map.mp hin
    have := List.any_eq_false.mp hany e he
    simp at this
  have hbelow : ∀ h' ∈ done, h'.number < header.number := fun h' hm => by
    have := h.below h' hm
    omega
  -- the signer is recorded, and the vote moves the window by at most one block
  have hd : Records ecrecover (done ++ [header]) (s₁.discard signer header.coinbase).recents
      (s₁.discard signer header.coinbase).limit header.number header.number := by
    unfold Snapshot.limit
    rw [(Snapshot.discard_recents ..).1, (Snapshot.discard_recents ..).2, hs₁]
    simpa [Snapshot.limit] using hf.insert (Snapshot.limit_pos s) hbelow rfl hsig hnew
  refine ⟨⟨fun h' hm => ?_, ?_⟩, fun h' hm a ha' ha'' => ?_⟩
  · rcases List.mem_append.mp hm with hm | hm
    · have := hbelow h' hm
      omega
    · simp only [List.mem_singleton] at hm
      rw [hm, hnum]
  · rw [← hnum]
    exact hd.tallyVote signer header.coinbase authorize
  · -- a signer of a block in the window has an entry, which the check found
    rw [ha'', Except.ok.injEq] at hsig
    subst hsig
    by_contra hlt
    obtain ⟨b, hb, hl⟩ := hf.complete h' hm (by omega)
    rw [ha', Except.ok.injEq] at hb
    subst hb
    exact hnew (List.mem_map.mpr ⟨⟨h'.number, a⟩, AList.mem_lookup_iff.mp hl, rfl⟩)

/-! ## Along a chain -/

namespace Snapshot

omit [DecidableEq Address] in
/-- The header after `done` in a chain is numbered `done.length` blocks after the first. -/
theorem chained_number :
    ∀ {done : List (Header Address)} {a : Header Address} {rest : List (Header Address)}
      {first : Header Address}, chained (done ++ a :: rest) = true →
      (done ++ a :: rest).head? = some first → a.number = first.number + done.length
  | [], a, rest, first, _, hfirst => by
    cases hfirst
    rfl
  | d :: done, a, rest, first, hc, hfirst => by
    cases hfirst
    obtain ⟨e, t, het⟩ := List.exists_cons_of_ne_nil (List.append_ne_nil_of_right_ne_nil done
      (List.cons_ne_nil a rest))
    rw [List.cons_append, het, chained, Bool.and_eq_true, decide_eq_true_eq] at hc
    have ih := chained_number (het ▸ hc.2) (by rw [het]; rfl)
    rw [ih, hc.1, List.length_cons]
    omega

/-- **The headers `apply` accepts are numbered on from the snapshot.** -/
theorem apply_number {epoch : Nat} {ecrecover : Header Address → Except Error Address}
    {s s' : Snapshot Address} {headers : List (Header Address)}
    (h : s.apply epoch ecrecover headers = .ok s') :
    ∀ done a rest, done ++ a :: rest = headers → a.number = s.number + done.length + 1 := by
  intro done a rest hd
  cases headers with
  | nil => exact absurd hd (List.append_ne_nil_of_right_ne_nil done (List.cons_ne_nil a rest))
  | cons first tail =>
    simp only [apply] at h
    split at h
    · cases h
    · next hc =>
      split at h
      · cases h
      · next hfirst =>
        rw [← hd] at hc
        have := chained_number (by simpa using hc) (by rw [hd]; rfl)
        rw [this, not_not.mp hfirst]
        omega

theorem recentsInv_newSnapshot (ecrecover : Header Address → Except Error Address)
    (number : Nat) (signers : List Address) :
    (newSnapshot number signers).RecentsInv ecrecover number [] :=
  ⟨by simp, List.nodup_nil, fun m a hm => by simp [newSnapshot] at hm, by simp⟩

/-- **A loop of `apply` keeps the recents invariant** over headers numbered on from the
snapshot. -/
theorem RecentsInv.foldlM {epoch n : Nat} {done₀ headers : List (Header Address)}
    {s s' : Snapshot Address} (hs : s.RecentsInv ecrecover n done₀)
    (hnum : ∀ done a rest, done ++ a :: rest = headers → a.number = n + done.length + 1)
    (h : headers.foldlM (Snapshot.applyHeader epoch ecrecover) s = .ok s') :
    s'.RecentsInv ecrecover (n + headers.length) (done₀ ++ headers) := by
  -- the invariant after the part `done` of the loop is the one after block `n + done.length`
  refine List.foldlM_except_inv _ headers
    (fun done b => b.RecentsInv ecrecover (n + done.length) (done₀ ++ done)) ?_ (by simpa) h
  intro done a rest b b' hd hb hab
  have ha := (hb.applyHeader (hnum done a rest hd) hab).1
  simpa [← List.append_assoc, Nat.add_assoc] using ha

end Snapshot

/-- **Clique signing-frequency safety.**  Along a chain that `apply` accepts from a
checkpoint, a signer signs a block only `limit` blocks after its previous one, for the
signers in effect at the later block; and the recent signers map each signer to one block,
within the last `limit` blocks. -/
theorem recent_signers (epoch : Nat)
    (ecrecover : Header Address → Except Error Address) (number : Nat)
    (signers : List Address) {headers : List (Header Address)} {snap : Snapshot Address}
    (happly : (newSnapshot number signers).apply epoch ecrecover headers = .ok snap) :
    (∀ pre h₂ post s, headers = pre ++ h₂ :: post →
      pre.foldlM (Snapshot.applyHeader epoch ecrecover) (newSnapshot number signers) = .ok s →
      ∀ h₁ ∈ pre, ∀ a, ecrecover h₁ = .ok a → ecrecover h₂ = .ok a →
        s.limit ≤ h₂.number - h₁.number) ∧
    (values snap.recents).Nodup ∧
    ∀ m ∈ snap.recents, m ≤ snap.number ∧ snap.number < m + snap.limit := by
  have hnum := Snapshot.apply_number happly
  have h₀ := Snapshot.recentsInv_newSnapshot ecrecover number signers
  obtain ⟨snap₀, hfold, rfl⟩ := Snapshot.apply_eq_ok happly
  refine ⟨fun pre h₂ post s hsplit hpre h₁ hm a ha₁ ha₂ => ?_, ?_⟩
  · -- the snapshot before `h₂` keeps the invariant, and `h₂` passes the check
    have hs := h₀.foldlM (fun done a rest hd => hnum done a (rest ++ h₂ :: post)
      (by rw [hsplit, ← hd]; simp)) hpre
    obtain ⟨s₂, hs₂⟩ := List.foldlM_except_step _ (hsplit ▸ hfold) hpre
    have hb := (hs.applyHeader (hnum pre h₂ post hsplit.symm) hs₂).2 h₁ hm a ha₁ ha₂
    omega
  · have hs := h₀.foldlM hnum hfold
    refine ⟨hs.records.nodup, fun m hm => ?_⟩
    obtain ⟨a, ha⟩ := Option.isSome_iff_exists.mp (AList.lookup_isSome.mpr hm)
    obtain ⟨hlt, h, hmem, rfl, -⟩ := hs.records.sound m a ha
    exact ⟨hs.below h (by simpa using hmem), hlt⟩

/-- Signer 1 signs blocks 1 and 3 of three signers, whose window is two blocks. -/
theorem recent_signers_again :
    ∃ snap : Snapshot Nat, (newSnapshot 0 [1, 2, 3]).apply 30000
      (fun h => match h.extra with | [x] => .ok x.toNat | _ => .error .errMissingSignature)
      [⟨1, 0, nonceDropVote, [1]⟩, ⟨2, 0, nonceDropVote, [2]⟩, ⟨3, 0, nonceDropVote, [1]⟩] =
        .ok snap ∧
    (∀ pre h₂ post s, [⟨1, 0, nonceDropVote, [1]⟩, ⟨2, 0, nonceDropVote, [2]⟩,
        ⟨3, 0, nonceDropVote, [1]⟩] = pre ++ h₂ :: post →
      pre.foldlM (Snapshot.applyHeader 30000
        (fun h => match h.extra with | [x] => .ok x.toNat | _ => .error .errMissingSignature))
        (newSnapshot 0 [1, 2, 3]) = .ok s →
      ∀ h₁ ∈ pre, ∀ a, (match h₁.extra with | [x] => .ok x.toNat | _ => .error .errMissingSignature) = (Except.ok a : Except Error Nat) →
        (match h₂.extra with | [x] => .ok x.toNat | _ => .error .errMissingSignature) = (Except.ok a : Except Error Nat) →
        s.limit ≤ h₂.number - h₁.number) ∧
    (values snap.recents).Nodup ∧
    ∀ m ∈ snap.recents, m ≤ snap.number ∧ snap.number < m + snap.limit := by
  have hok : ((newSnapshot 0 [1, 2, 3]).apply 30000
      (fun h => match h.extra with | [x] => .ok x.toNat | _ => .error .errMissingSignature)
      [⟨1, 0, nonceDropVote, [1]⟩, ⟨2, 0, nonceDropVote, [2]⟩,
        ⟨3, 0, nonceDropVote, [1]⟩]).toBool = true := by decide
  cases happly : (newSnapshot 0 [1, 2, 3]).apply 30000
      (fun h => match h.extra with | [x] => .ok x.toNat | _ => .error .errMissingSignature)
      [⟨1, 0, nonceDropVote, [1]⟩, ⟨2, 0, nonceDropVote, [2]⟩, ⟨3, 0, nonceDropVote, [1]⟩] with
  | error e => simp [happly, Except.toBool] at hok
  | ok snap => exact ⟨snap, rfl, recent_signers 30000 _ 0 [1, 2, 3] happly⟩

end Atlantis.Clique
