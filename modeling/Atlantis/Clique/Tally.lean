import Atlantis.Clique.Snapshot
import Atlantis.Lib.Loop

/-!
# The vote tally

What `apply` keeps true of the votes of a snapshot, from a checkpoint on: the tally holds,
for each address with votes on it, their number and their common direction, and nothing
for any other address; every vote was cast by a current signer, a signer has at most one
vote on an address, and every vote proposes to change the membership of the address it is
on.  The last fact makes the tally a function of the votes and the signers
(`expectedTally`), and `TallyOk` says that the tally is that function.

Each phase of a header keeps the invariant: a checkpoint empties votes and tally, `discard`
and the clean-up of a dropped signer uncast exactly the votes they remove (`uncast_tallyOk`),
`cast` counts a vote exactly when it is valid, and a passed vote changes the membership of
the one address whose votes and tally are then discarded (`erase_tallyOk`).
-/

namespace Atlantis.Clique

variable {Address : Type} [DecidableEq Address]

/-- The number of votes on `a`. -/
def count (votes : List (Vote Address)) (a : Address) : Nat :=
  votes.countP fun v => v.address = a

/-- The tally the votes on `a` make when each proposes to change `a`'s membership. -/
def expectedTally (signers : Finset Address) (votes : List (Vote Address)) (a : Address) :
    Option Tally :=
  if count votes a = 0 then none else some ⟨decide (a ∉ signers), count votes a⟩

/-- The tally is the one the votes make. -/
def TallyOk (signers : Finset Address) (votes : List (Vote Address))
    (tally : AList (fun _ : Address => Tally)) : Prop :=
  ∀ a, tally.lookup a = expectedTally signers votes a

/-- Every vote proposes to change the membership of the address it is on. -/
def Proposes (signers : Finset Address) (votes : List (Vote Address)) : Prop :=
  ∀ v ∈ votes, v.authorize = decide (v.address ∉ signers)

/-- The invariant of the votes and the tally of a snapshot. -/
structure Snapshot.TallyInv (s : Snapshot Address) : Prop where
  tally : TallyOk s.signers s.votes s.tally
  signer_mem : ∀ v ∈ s.votes, v.signer ∈ s.signers
  nodup : (s.votes.map fun v => (v.signer, v.address)).Nodup
  proposes : Proposes s.signers s.votes

/-! ## Counting votes -/

theorem count_append (l₁ l₂ : List (Vote Address)) (a : Address) :
    count (l₁ ++ l₂) a = count l₁ a + count l₂ a :=
  List.countP_append

theorem count_cons (v : Vote Address) (l : List (Vote Address)) (a : Address) :
    count (v :: l) a = count l a + if v.address = a then 1 else 0 := by
  simp [count, List.countP_cons]

/-- Removing a vote from the middle of the list takes one from its address. -/
theorem count_middle (l₁ l₂ : List (Vote Address)) (v : Vote Address) (a : Address) :
    count (l₁ ++ v :: l₂) a = count (l₁ ++ l₂) a + if v.address = a then 1 else 0 := by
  rw [count_append, count_append, count_cons]
  omega

/-- Filtering out the votes on `c` removes every vote on `c` and keeps the others. -/
theorem count_filter (votes : List (Vote Address)) (c a : Address) :
    count (votes.filter fun v => v.address ≠ c) a = if a = c then 0 else count votes a := by
  unfold count
  rw [List.countP_filter]
  split
  · next h =>
    subst h
    exact List.countP_eq_zero.mpr fun v _ hv => by simp at hv
  · next h =>
    congr 1
    funext v
    by_cases hv : v.address = a
    · simp [hv, h]
    · simp [hv]

theorem validVote_iff (s : Snapshot Address) (a : Address) (authorize : Bool) :
    s.validVote a authorize = true ↔ authorize = decide (a ∉ s.signers) := by
  unfold Snapshot.validVote
  by_cases ha : a ∈ s.signers <;> cases authorize <;> simp [ha]

/-! ## Each phase keeps the tally -/

section Phases

variable {S : Finset Address} {tally : AList (fun _ : Address => Tally)}

/-- **`uncast` takes one vote out of the tally.** -/
theorem uncast_tallyOk {l₁ l₂ : List (Vote Address)} {v : Vote Address}
    (h : TallyOk S (l₁ ++ v :: l₂) tally) (hv : v.authorize = decide (v.address ∉ S)) :
    TallyOk S (l₁ ++ l₂) (Snapshot.uncast tally v.address v.authorize).2 := by
  have hc := count_middle l₁ l₂ v v.address
  rw [if_pos rfl] at hc
  have hlook := h v.address
  rw [expectedTally, if_neg (by omega), hc] at hlook
  intro b
  unfold Snapshot.uncast
  rw [hlook]
  simp only [← hv, ne_eq, not_true_eq_false, if_false]
  have hb := count_middle l₁ l₂ v b
  by_cases hvb : b = v.address
  · subst hvb
    split
    · -- more than one vote: one fewer
      rw [AList.lookup_insert, expectedTally, if_neg (by omega), hv]
      simp
    · -- the last vote: the tally goes
      rw [AList.lookup_erase, expectedTally, if_pos (by omega)]
  · have hb' : count (l₁ ++ v :: l₂) b = count (l₁ ++ l₂) b := by
      rw [hb, if_neg (Ne.symm hvb)]
      rfl
    split
    · rw [AList.lookup_insert_ne hvb, h b, expectedTally, expectedTally, hb']
    · rw [AList.lookup_erase_ne hvb, h b, expectedTally, expectedTally, hb']

theorem discardVote_snd (signer coinbase : Address) (tally : AList (fun _ : Address => Tally))
    (vs : List (Vote Address)) :
    (Snapshot.discardVote signer coinbase tally vs).2 =
      vs.eraseP fun v => decide (v.signer = signer ∧ v.address = coinbase) := by
  induction vs generalizing tally with
  | nil => rfl
  | cons v vs ih =>
    unfold Snapshot.discardVote
    by_cases hv : v.signer = signer ∧ v.address = coinbase
    · simp [hv]
    · simp [hv, ih]

/-- `discardVote` uncasts the vote it removes; the votes before it stay. -/
theorem discardVote_tallyOk (signer coinbase : Address) :
    ∀ (vs pre : List (Vote Address)) (tally : AList (fun _ : Address => Tally)),
      TallyOk S (pre ++ vs) tally → Proposes S vs →
        TallyOk S (pre ++ (Snapshot.discardVote signer coinbase tally vs).2)
          (Snapshot.discardVote signer coinbase tally vs).1
  | [], _, _, h, _ => h
  | v :: vs, pre, tally, h, hp => by
    unfold Snapshot.discardVote
    split
    · exact uncast_tallyOk h (hp v (by simp))
    · -- the vote stays: it moves to the part before
      have := discardVote_tallyOk signer coinbase vs (pre ++ [v]) tally (by simpa using h)
        fun w hw => hp w (by simp [hw])
      simpa using this

/-- `discardSigner` uncasts every vote of the signer, and removes them. -/
theorem discardSigner_tallyOk (signer : Address) :
    ∀ (vs pre : List (Vote Address)) (tally : AList (fun _ : Address => Tally)),
      TallyOk S (pre ++ vs) tally → Proposes S vs →
        (Snapshot.discardSigner signer tally vs).2 = vs.filter (fun v => v.signer ≠ signer) ∧
        TallyOk S (pre ++ (Snapshot.discardSigner signer tally vs).2)
          (Snapshot.discardSigner signer tally vs).1
  | [], _, _, h, _ => ⟨rfl, h⟩
  | v :: vs, pre, tally, h, hp => by
    have hp' : Proposes S vs := fun w hw => hp w (by simp [hw])
    unfold Snapshot.discardSigner
    split
    · next hv =>
      -- uncast, then the rest of the loop
      obtain ⟨h1, h2⟩ := discardSigner_tallyOk signer vs pre _ (uncast_tallyOk h (hp v (by simp))) hp'
      exact ⟨by simp [h1, hv], h2⟩
    · next hv =>
      obtain ⟨h1, h2⟩ := discardSigner_tallyOk signer vs (pre ++ [v]) tally (by simpa using h) hp'
      exact ⟨by simp [h1, hv], by simpa using h2⟩

/-- **Discarding the votes on `c` and its tally** leaves a tally that agrees with any
signers that differ from `S` at `c` only. -/
theorem erase_tallyOk {S' : Finset Address} {votes : List (Vote Address)} {c : Address}
    (h : TallyOk S votes tally) (hS : ∀ b, b ≠ c → (b ∈ S ↔ b ∈ S')) :
    TallyOk S' (votes.filter fun v => v.address ≠ c) (tally.erase c) := by
  intro b
  by_cases hb : b = c
  · subst hb
    rw [AList.lookup_erase, expectedTally, count_filter, if_pos rfl, if_pos rfl]
  · rw [AList.lookup_erase_ne hb, h b, expectedTally, expectedTally, count_filter, if_neg hb]
    simp [hS b hb]

end Phases

/-! ## The invariant along `apply` -/

namespace Snapshot

variable {s : Snapshot Address}

theorem tallyInv_newSnapshot (number : Nat) (signers : List Address) :
    (newSnapshot number signers).TallyInv where
  tally a := by simp [newSnapshot, expectedTally, count]
  signer_mem := by simp [newSnapshot]
  nodup := by simp [newSnapshot]
  proposes := by simp [newSnapshot, Proposes]

theorem TallyInv.checkpoint (h : s.TallyInv) (epoch number : Nat) :
    (s.checkpoint epoch number).TallyInv := by
  unfold Snapshot.checkpoint
  split
  · exact { tally := fun a => by simp [expectedTally, count]
            signer_mem := by simp
            nodup := by simp
            proposes := by simp [Proposes] }
  · exact h

theorem TallyInv.forget (h : s.TallyInv) (number : Nat) : (s.forget number).TallyInv := by
  unfold Snapshot.forget
  split
  · exact ⟨h.tally, h.signer_mem, h.nodup, h.proposes⟩
  · exact h

theorem TallyInv.checkSigner (h : s.TallyInv) {number : Nat} {signer : Address} {s' : Snapshot Address}
    (ha : s.checkSigner number signer = .ok s') : s'.TallyInv := by
  unfold Snapshot.checkSigner at ha
  split at ha
  · cases ha
  · split at ha
    · cases ha
    · cases ha
      exact ⟨h.tally, h.signer_mem, h.nodup, h.proposes⟩

/-- After `discard`, the signer has no vote on the coinbase. -/
theorem TallyInv.discard (h : s.TallyInv) (signer coinbase : Address) :
    (s.discard signer coinbase).TallyInv ∧
      ∀ v ∈ (s.discard signer coinbase).votes, ¬ (v.signer = signer ∧ v.address = coinbase) := by
  have hsub : List.Sublist (s.discard signer coinbase).votes s.votes := by
    simp only [Snapshot.discard, discardVote_snd]
    exact List.eraseP_sublist
  refine ⟨⟨discardVote_tallyOk signer coinbase s.votes [] s.tally h.tally h.proposes,
    fun v hv => h.signer_mem v (hsub.subset hv), h.nodup.sublist (hsub.map _),
    fun v hv => h.proposes v (hsub.subset hv)⟩, fun v hv hvc => ?_⟩
  -- the vote removed was the only one of the signer on the coinbase
  simp only [Snapshot.discard, discardVote_snd] at hv
  obtain ⟨w, l₁, l₂, -, hw, hsplit, herase⟩ :=
    List.exists_of_eraseP (p := fun v => decide (v.signer = signer ∧ v.address = coinbase))
      (List.mem_of_mem_eraseP hv) (by simpa using hvc)
  rw [herase] at hv
  have hnd := h.nodup
  rw [hsplit] at hnd
  simp only [List.map_append, List.map_cons, List.nodup_append, List.nodup_cons,
    List.mem_map] at hnd
  simp only [decide_eq_true_eq] at hw
  rcases List.mem_append.mp hv with hv | hv
  · exact hnd.2.2 _ ⟨v, hv, rfl⟩ _ (List.mem_cons_self ..) (by rw [hvc.1, hvc.2, hw.1, hw.2])
  · exact hnd.2.1.1 ⟨v, hv, by rw [hvc.1, hvc.2, hw.1, hw.2]⟩

/-- **A passed vote** changes the membership of the coinbase only, and discards the votes
and the tally that were about it. -/
theorem TallyInv.pass (h : s.TallyInv) (number : Nat) (coinbase : Address) (authorize : Bool) :
    (s.pass number coinbase authorize).TallyInv := by
  unfold Snapshot.pass
  cases authorize with
  | true =>
    simp only [if_true]
    refine ⟨erase_tallyOk h.tally fun b hb => by simp [hb], fun v hv => ?_,
      h.nodup.sublist (List.filter_sublist.map _), fun v hv => ?_⟩
    · exact Finset.mem_insert_of_mem (h.signer_mem v (List.mem_of_mem_filter hv))
    · have hc : v.address ≠ coinbase := by simpa using (List.mem_filter.mp hv).2
      rw [h.proposes v (List.mem_of_mem_filter hv)]
      simp [hc]
  | false =>
    simp only [Bool.false_eq_true, if_false]
    -- the dropped signer's votes are uncast against the old signers
    obtain ⟨hvotes, htally⟩ := discardSigner_tallyOk (S := s.signers) coinbase s.votes [] s.tally
      h.tally h.proposes
    simp only [List.nil_append] at htally
    simp only [Snapshot.forget_votes, Snapshot.forget_tally, Snapshot.forget_signers]
    rw [hvotes]
    refine ⟨?_, fun v hv => ?_, ?_, fun v hv => ?_⟩
    · rw [← hvotes]
      exact erase_tallyOk htally fun b hb => by simp [hb]
    · simp only [List.mem_filter, decide_eq_true_eq] at hv
      exact Finset.mem_erase.mpr ⟨hv.1.2, h.signer_mem v hv.1.1⟩
    · exact h.nodup.sublist ((List.filter_sublist.trans List.filter_sublist).map _)
    · simp only [List.mem_filter, decide_eq_true_eq] at hv
      rw [h.proposes v hv.1.1]
      simp [hv.2]

/-- **The new vote is counted when it is valid**, from a signer that has no vote on the
coinbase. -/
theorem TallyInv.castVote (h : s.TallyInv) {number : Nat} {signer coinbase : Address}
    {authorize : Bool} (hfresh : ∀ v ∈ s.votes, ¬ (v.signer = signer ∧ v.address = coinbase))
    (hsigner : signer ∈ s.signers) : (s.castVote number signer coinbase authorize).TallyInv := by
  rw [castVote_eq]
  split
  · next hvalid =>
    have hdir := (validVote_iff s coinbase authorize).mp hvalid
    refine ⟨fun b => ?_, fun v hv => ?_, ?_, fun v hv => ?_⟩
    · -- one more vote on the coinbase
      have hc : count (s.votes ++ [⟨signer, number, coinbase, authorize⟩]) b =
          count s.votes b + if coinbase = b then 1 else 0 := by
        rw [count_append, count_cons]
        simp [count]
      by_cases hb : b = coinbase
      · subst hb
        rw [AList.lookup_insert, expectedTally, hc, if_pos rfl, if_neg (by omega)]
        have hlook := h.tally b
        rw [expectedTally] at hlook
        split at hlook
        · next h0 => simp [hlook, hdir, h0]
        · simp [hlook]
      · rw [AList.lookup_insert_ne hb, h.tally b, expectedTally, expectedTally, hc,
          if_neg (Ne.symm hb)]
        rfl
    · rcases List.mem_append.mp hv with hv | hv
      · exact h.signer_mem v hv
      · simp only [List.mem_singleton] at hv
        rw [hv]
        exact hsigner
    · rw [List.map_append, List.nodup_append]
      refine ⟨h.nodup, by simp, fun x hx y hy => ?_⟩
      simp only [List.map_cons, List.map_nil, List.mem_singleton] at hy
      obtain ⟨v, hv, rfl⟩ := List.mem_map.mp hx
      rw [hy]
      intro he
      simp only [Prod.mk.injEq] at he
      exact hfresh v hv he
    · rcases List.mem_append.mp hv with hv | hv
      · exact h.proposes v hv
      · simp only [List.mem_singleton] at hv
        rw [hv]
        exact hdir
  · exact h

theorem TallyInv.tallyVote (h : s.TallyInv) {number : Nat} {signer coinbase : Address}
    {authorize : Bool} (hfresh : ∀ v ∈ s.votes, ¬ (v.signer = signer ∧ v.address = coinbase))
    (hsigner : signer ∈ s.signers) : (s.tallyVote number signer coinbase authorize).TallyInv := by
  have hc : (s.castVote number signer coinbase authorize).TallyInv := h.castVote hfresh hsigner
  unfold Snapshot.tallyVote
  dsimp only
  split
  · exact hc.pass _ _ _
  · exact hc

/-- **One header keeps the invariant.** -/
theorem TallyInv.applyHeader (h : s.TallyInv) {epoch : Nat}
    {ecrecover : Header Address → Except Error Address} {header : Header Address}
    {s' : Snapshot Address} (ha : applyHeader epoch ecrecover s header = .ok s') : s'.TallyInv := by
  obtain ⟨signer, s₁, authorize, -, hcheck, -, rfl⟩ := applyHeader_eq_ok ha
  have h₁ := ((h.checkpoint epoch header.number).forget header.number).checkSigner hcheck
  obtain ⟨hsigner, -, -⟩ := checkSigner_eq_ok hcheck
  obtain ⟨h₂, hfresh⟩ := h₁.discard signer header.coinbase
  have hsigner' : signer ∈ (s₁.discard signer header.coinbase).signers := by
    obtain ⟨-, -, rfl⟩ := checkSigner_eq_ok hcheck
    simpa [Snapshot.discard] using hsigner
  exact h₂.tallyVote hfresh hsigner'

/-- **`apply` keeps the invariant.** -/
theorem TallyInv.apply (h : s.TallyInv) {epoch : Nat}
    {ecrecover : Header Address → Except Error Address} {headers : List (Header Address)}
    {s' : Snapshot Address} (ha : s.apply epoch ecrecover headers = .ok s') : s'.TallyInv := by
  obtain ⟨snap, hfold, rfl⟩ := apply_eq_ok ha
  have hsnap : snap.TallyInv :=
    List.foldlM_except_inv (Snapshot.applyHeader epoch ecrecover) headers
      (fun _ (s : Snapshot Address) => s.TallyInv)
      (fun _ _ _ _ _ _ hb hstep => hb.applyHeader hstep) h hfold
  exact ⟨hsnap.tally, hsnap.signer_mem, hsnap.nodup, hsnap.proposes⟩

theorem TallyInv.reachable {epoch : Nat} {ecrecover : Header Address → Except Error Address}
    {genesis : Snapshot Address} (hg : genesis.TallyInv)
    (hs : Reachable epoch ecrecover genesis s) : s.TallyInv := by
  induction hs with
  | genesis => exact hg
  | apply headers _ happly ih => exact ih.apply happly

end Snapshot

/-- **The vote tally of every snapshot reachable from a checkpoint.**  The tally has an
entry for an address exactly when there are votes on it, and then holds their number and
their common direction; every vote was cast by a current signer; a signer votes at most once
on an address; and every vote proposes to change the membership of the address it is on. -/
theorem vote_tally_invariant (epoch : Nat) (ecrecover : Header Address → Except Error Address)
    (number : Nat) (signers : List Address) {s : Snapshot Address}
    (hs : Snapshot.Reachable epoch ecrecover (newSnapshot number signers) s) :
    (∀ a, (a ∈ s.tally ↔ ∃ v ∈ s.votes, v.address = a) ∧
      ∀ t, s.tally.lookup a = some t →
        t.votes = s.votes.countP (fun v => v.address = a) ∧
        ∀ v ∈ s.votes, v.address = a → t.authorize = v.authorize) ∧
    (∀ v ∈ s.votes, v.signer ∈ s.signers) ∧
    (s.votes.map fun v => (v.signer, v.address)).Nodup ∧
    (∀ v ∈ s.votes, v.authorize = decide (v.address ∉ s.signers)) := by
  have h := (Snapshot.tallyInv_newSnapshot number signers).reachable hs
  refine ⟨fun a => ⟨?_, fun t ht => ?_⟩, h.signer_mem, h.nodup, h.proposes⟩
  · -- an entry exactly for the addresses with votes
    rw [← AList.lookup_isSome, h.tally a, expectedTally]
    have hpos : 0 < count s.votes a ↔ ∃ v ∈ s.votes, v.address = a := by
      simp [count, List.countP_pos_iff]
    split
    · next h0 =>
      simp only [Option.isSome_none, Bool.false_eq_true, false_iff]
      exact fun hex => by have := hpos.mpr hex; omega
    · next h0 =>
      simp only [Option.isSome_some, true_iff]
      exact hpos.mp (by omega)
  · rw [h.tally a, expectedTally] at ht
    split at ht
    · cases ht
    · cases ht
      exact ⟨rfl, fun v hv hva => by rw [h.proposes v hv, hva]⟩

/-- Two signers, a third voted in by both. -/
theorem vote_tally_invariant_vote_in :
    ∃ s : Snapshot Nat, (newSnapshot 0 [1, 2]).apply 30000
      (fun h => match h.extra with | [x] => .ok x.toNat | _ => .error .errMissingSignature)
      [⟨1, 3, nonceAuthVote, [1]⟩, ⟨2, 3, nonceAuthVote, [2]⟩] = .ok s ∧
      (∀ a, (a ∈ s.tally ↔ ∃ v ∈ s.votes, v.address = a) ∧
        ∀ t, s.tally.lookup a = some t →
          t.votes = s.votes.countP (fun v => v.address = a) ∧
          ∀ v ∈ s.votes, v.address = a → t.authorize = v.authorize) ∧
      (∀ v ∈ s.votes, v.signer ∈ s.signers) ∧
      (s.votes.map fun v => (v.signer, v.address)).Nodup ∧
      (∀ v ∈ s.votes, v.authorize = decide (v.address ∉ s.signers)) := by
  have hok : ((newSnapshot 0 [1, 2]).apply 30000
      (fun h => match h.extra with | [x] => .ok x.toNat | _ => .error .errMissingSignature)
      [⟨1, 3, nonceAuthVote, [1]⟩, ⟨2, 3, nonceAuthVote, [2]⟩]).toBool = true := by decide
  cases happly : (newSnapshot 0 [1, 2]).apply 30000
      (fun h => match h.extra with | [x] => .ok x.toNat | _ => .error .errMissingSignature)
      [⟨1, 3, nonceAuthVote, [1]⟩, ⟨2, 3, nonceAuthVote, [2]⟩] with
  | error e => simp [happly, Except.toBool] at hok
  | ok s =>
    exact ⟨s, rfl, vote_tally_invariant 30000 _ 0 [1, 2]
      (Snapshot.Reachable.apply _ Snapshot.Reachable.genesis happly)⟩

end Atlantis.Clique
