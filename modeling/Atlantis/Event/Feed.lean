import Atlantis.Lib.Slices

/-!
# `event.Feed` under concurrent `Subscribe`, `Unsubscribe` and `Send`

`event/feed.go`.  A feed keeps the cases of its subscribed channels in `sendCases` (after
the case on `removeSub` at index `0`, which is left out here, so that every index is one
less than Go's) and newly subscribed channels in `inbox`, under the mutex `mu`.  The
one-slot channel `sendLock` is the lock of `sendCases`.  A `Send` takes it, moves the inbox
in under `mu`, and sends its value on every case: the slice `cases` is a prefix of
`sendCases` over the same array, the cases not yet sent to, and a case sent to is swapped
past its end (`deactivate`).  `Unsubscribe` deletes the case from the inbox; if it is not
there, it either hands its channel to the `Send` in progress over `removeSub`, which deletes
the case, or takes `sendLock` and deletes the case itself.

The model is the program's interleavings at the grain of its synchronisation: each step is
one channel operation, or one section under `mu` or `sendLock`, of one goroutine, in any
order.  A delivery is a step of a `Send` that sends on a case, by `TrySend` or by a `select`
that picks it; which receivers are ready is not modelled, so every order of deliveries is a
run.  Every value is of the feed's type, so no step panics on a type check.

Beside the program's state the model keeps history variables that no step reads: each
`Send` records the cases it moved in, those it sent to, and those it dropped because their
`Unsubscribe` returned first; the feed records the channels of the subscriptions whose
`Subscribe` returned and whose `Unsubscribe` has not (`subs`).
-/

namespace Atlantis.Event

open scoped List

variable {C : Type}

/-- Where a `Send` is. -/
inductive SendPc (C : Type) where
  /-- Before `<-f.sendLock`. -/
  | start
  /-- Holding the send lock, before moving the inbox in under `f.mu`. -/
  | locked
  /-- In the loop: the first `active` cases of `sendCases` are `cases` (after its first case),
  `nsent` counts the sends so far.  History: the cases moved in (`target`), sent to (`sent`),
  and dropped from `cases` by an `Unsubscribe` (`dropped`). -/
  | loop (active nsent : Nat) (target sent dropped : List C)
  /-- Returned `nsent`. -/
  | done (nsent : Nat) (target sent dropped : List C)
  deriving DecidableEq, Repr

/-- Where the `remove` of an `Unsubscribe` of a subscription on `ch` is. -/
inductive RemovePc (C : Type) where
  /-- Before searching the inbox under `f.mu`. -/
  | start (ch : C)
  /-- In the `select` between `f.removeSub <- ch` and `<-f.sendLock`. -/
  | select (ch : C)
  /-- Returned. -/
  | done (ch : C)
  deriving DecidableEq, Repr

/-- A feed with the goroutines that use it. -/
structure Feed (C : Type) where
  /-- Whether the token is in `f.sendLock`, that is, the send lock is free. -/
  sendLock : Bool
  /-- `f.sendCases` after its case on `f.removeSub`. -/
  sendCases : List C
  inbox : List C
  sends : List (SendPc C)
  removes : List (RemovePc C)
  /-- History: the channels of the subscriptions whose `Subscribe` returned and whose
  `Unsubscribe` has not. -/
  subs : List C
  deriving DecidableEq, Repr

/-- The feed after `init`: the lock free, no case but the one on `removeSub`. -/
def Feed.init : Feed C := ⟨true, [], [], [], [], []⟩

/-- A step of one goroutine. -/
inductive Step (C : Type) where
  /-- `Subscribe(ch)`, under `f.mu`: the case goes to the inbox. -/
  | Subscribe (ch : C)
  /-- A goroutine calls `Send`. -/
  | Send
  /-- A goroutine calls `Unsubscribe` on a subscription on `ch`. -/
  | Unsubscribe (ch : C)
  /-- `Send` `i` takes the token of `sendLock`. -/
  | acquire (i : Nat)
  /-- `Send` `i` moves the inbox into `sendCases` under `f.mu`. -/
  | move (i : Nat)
  /-- `Send` `i` sends on its active case `k`, by `TrySend` or in its `select`. -/
  | deliver (i k : Nat)
  /-- `Send` `i`, with no active case left, puts the token back and returns. -/
  | finish (i : Nat)
  /-- `remove` `j` searches the inbox under `f.mu`. -/
  | searchInbox (j : Nat)
  /-- `remove` `j` sends its channel on `f.removeSub` to the `select` of `Send` `i`. -/
  | handoff (j i : Nat)
  /-- `remove` `j` takes the token of `sendLock`, deletes the case and puts the token back. -/
  | removeLocked (j : Nat)
  deriving DecidableEq, Repr

variable [DecidableEq C]

/-- `caseList.find`: the index of the first case on `channel`; `none` is Go's `-1`. -/
def find (cs : List C) (channel : C) : Option Nat := cs.idxOf? channel

/-- `caseList.delete`: `append(cs[:index], cs[index+1:]...)`. -/
def delete (cs : List C) (index : Nat) : List C := cs.eraseIdx index

/-- `caseList.deactivate` on `cases`, the prefix of length `n` of the array `cs`: the case at
`index` is swapped with the last of the prefix, and the prefix shrinks by one (the new
`cases` is the prefix of length `n - 1` of the array returned). -/
def deactivate (cs : List C) (n index : Nat) : List C := cs.swapIdx index (n - 1)

/-- Whether a `Send` holds the send lock. -/
def SendPc.holds : SendPc C → Bool
  | .locked => true
  | .loop .. => true
  | _ => false

/-- Whether a `remove` on `ch` has not returned. -/
def RemovePc.pendingOn (ch : C) : RemovePc C → Bool
  | .start c => c = ch
  | .select c => c = ch
  | .done _ => false

/-- Whether a `remove` on `ch` is in its `select`. -/
def RemovePc.selectOn (ch : C) : RemovePc C → Bool
  | .select c => c = ch
  | _ => false

/-- The channel of the subscription a `remove` is for. -/
def RemovePc.channel : RemovePc C → C
  | .start ch => ch
  | .select ch => ch
  | .done ch => ch

/-- Whether a step sends on a subscriber's channel, and so waits for its receiver. -/
def Step.delivers : Step C → Bool
  | .deliver .. => true
  | _ => false

namespace Feed

/-- The number of `Send`s that hold the send lock. -/
def holders (f : Feed C) : Nat := f.sends.countP SendPc.holds

/-- The number of `remove`s on `ch` that have not returned. -/
def pending (f : Feed C) (ch : C) : Nat := f.removes.countP (RemovePc.pendingOn ch)

/-- The number of `remove`s on `ch` in their `select`. -/
def selected (f : Feed C) (ch : C) : Nat := f.removes.countP (RemovePc.selectOn ch)

/-- One step; `none` when the goroutine cannot take it, or when the Go code would panic
(`delete(-1)` for a case that is not there). -/
def step (f : Feed C) : Step C → Option (Feed C)
  | .Subscribe ch => some { f with inbox := f.inbox ++ [ch], subs := f.subs ++ [ch] }
  | .Send => some { f with sends := f.sends ++ [.start] }
  | .Unsubscribe ch =>
    if f.pending ch < f.subs.count ch then some { f with removes := f.removes ++ [.start ch] }
    else none
  | .acquire i =>
    if f.sends[i]? = some .start ∧ f.sendLock then
      some { f with sendLock := false, sends := f.sends.set i .locked }
    else none
  | .move i =>
    if f.sends[i]? = some .locked then
      let cs := f.sendCases ++ f.inbox
      some { f with sendCases := cs, inbox := [], sends := f.sends.set i (.loop cs.length 0 cs [] []) }
    else none
  | .deliver i k =>
    match f.sends[i]? with
    | some (.loop n m tgt snt drp) =>
      if k < n then
        match f.sendCases[k]? with
        | some ch =>
          some { f with sendCases := deactivate f.sendCases n k,
                        sends := f.sends.set i (.loop (n - 1) (m + 1) tgt (snt ++ [ch]) drp) }
        | none => none
      else none
    | _ => none
  | .finish i =>
    match f.sends[i]? with
    | some (.loop 0 m tgt snt drp) =>
      some { f with sendLock := true, sends := f.sends.set i (.done m tgt snt drp) }
    | _ => none
  | .searchInbox j =>
    match f.removes[j]? with
    | some (.start ch) =>
      match find f.inbox ch with
      | some index =>
        some { f with inbox := delete f.inbox index, removes := f.removes.set j (.done ch),
                      subs := f.subs.erase ch }
      | none => some { f with removes := f.removes.set j (.select ch) }
    | _ => none
  | .handoff j i =>
    match f.removes[j]?, f.sends[i]? with
    | some (.select ch), some (.loop n m tgt snt drp) =>
      -- the `Send` is in its `select` only while a case is active
      if 0 < n then
        match find f.sendCases ch with
        | some index =>
          some { f with
            sendCases := delete f.sendCases index
            sends := f.sends.set i
              (if index < n then .loop (n - 1) m tgt snt (drp ++ [ch]) else .loop n m tgt snt drp)
            removes := f.removes.set j (.done ch)
            subs := f.subs.erase ch }
        | none => none
      else none
    | _, _ => none
  | .removeLocked j =>
    match f.removes[j]? with
    | some (.select ch) =>
      if f.sendLock then
        match find f.sendCases ch with
        | some index =>
          some { f with sendCases := delete f.sendCases index, removes := f.removes.set j (.done ch),
                        subs := f.subs.erase ch }
        | none => none
      else none
    | _ => none

/-- The steps `ls` one after another; `none` if one of them cannot be taken. -/
def run (f : Feed C) : List (Step C) → Option (Feed C)
  | [] => some f
  | l :: ls =>
    match f.step l with
    | some f' => f'.run ls
    | none => none

theorem run_cons_of_step {f f' : Feed C} {l : Step C} (h : f.step l = some f') (ls : List (Step C)) :
    f.run (l :: ls) = f'.run ls := by
  simp [run, h]

/-! ### What each step does -/

section Inversion

variable {f f' : Feed C}

theorem step_Subscribe {ch : C} (h : f.step (.Subscribe ch) = some f') :
    f' = { f with inbox := f.inbox ++ [ch], subs := f.subs ++ [ch] } :=
  (Option.some.inj h).symm

theorem step_Send (h : f.step .Send = some f') : f' = { f with sends := f.sends ++ [.start] } :=
  (Option.some.inj h).symm

theorem step_Unsubscribe {ch : C} (h : f.step (.Unsubscribe ch) = some f') :
    f.pending ch < f.subs.count ch ∧ f' = { f with removes := f.removes ++ [.start ch] } := by
  simp only [step] at h
  split at h
  · exact ⟨‹_›, (Option.some.inj h).symm⟩
  · cases h

theorem step_acquire {i : Nat} (h : f.step (.acquire i) = some f') :
    f.sends[i]? = some .start ∧ f.sendLock = true ∧
      f' = { f with sendLock := false, sends := f.sends.set i .locked } := by
  simp only [step] at h
  split at h
  · rename_i hg
    exact ⟨hg.1, hg.2, (Option.some.inj h).symm⟩
  · cases h

theorem step_move {i : Nat} (h : f.step (.move i) = some f') :
    f.sends[i]? = some .locked ∧
      f' = { f with sendCases := f.sendCases ++ f.inbox, inbox := [],
                    sends := f.sends.set i (.loop (f.sendCases ++ f.inbox).length 0
                      (f.sendCases ++ f.inbox) [] []) } := by
  simp only [step] at h
  split at h
  · exact ⟨‹_›, (Option.some.inj h).symm⟩
  · cases h

theorem step_deliver {i k : Nat} (h : f.step (.deliver i k) = some f') :
    ∃ n m tgt snt drp ch, f.sends[i]? = some (.loop n m tgt snt drp) ∧ k < n ∧
      f.sendCases[k]? = some ch ∧
      f' = { f with sendCases := deactivate f.sendCases n k,
                    sends := f.sends.set i (.loop (n - 1) (m + 1) tgt (snt ++ [ch]) drp) } := by
  simp only [step] at h
  split at h
  · rename_i n m tgt snt drp hs
    split at h
    · split at h
      · rename_i ch hc
        exact ⟨n, m, tgt, snt, drp, ch, hs, ‹_›, hc, (Option.some.inj h).symm⟩
      · cases h
    · cases h
  · cases h

theorem step_finish {i : Nat} (h : f.step (.finish i) = some f') :
    ∃ m tgt snt drp, f.sends[i]? = some (.loop 0 m tgt snt drp) ∧
      f' = { f with sendLock := true, sends := f.sends.set i (.done m tgt snt drp) } := by
  simp only [step] at h
  split at h
  · rename_i m tgt snt drp hs
    exact ⟨m, tgt, snt, drp, hs, (Option.some.inj h).symm⟩
  · cases h

theorem step_searchInbox {j : Nat} (h : f.step (.searchInbox j) = some f') :
    ∃ ch, f.removes[j]? = some (.start ch) ∧
      ((∃ index, find f.inbox ch = some index ∧
          f' = { f with inbox := delete f.inbox index, removes := f.removes.set j (.done ch),
                        subs := f.subs.erase ch }) ∨
        (find f.inbox ch = none ∧ f' = { f with removes := f.removes.set j (.select ch) })) := by
  simp only [step] at h
  split at h
  · rename_i ch hr
    refine ⟨ch, hr, ?_⟩
    split at h
    · rename_i index hi
      exact .inl ⟨index, hi, (Option.some.inj h).symm⟩
    · exact .inr ⟨‹_›, (Option.some.inj h).symm⟩
  · cases h

theorem step_handoff {j i : Nat} (h : f.step (.handoff j i) = some f') :
    ∃ ch n m tgt snt drp index, f.removes[j]? = some (.select ch) ∧
      f.sends[i]? = some (.loop n m tgt snt drp) ∧ 0 < n ∧ find f.sendCases ch = some index ∧
      f' = { f with
        sendCases := delete f.sendCases index
        sends := f.sends.set i
          (if index < n then .loop (n - 1) m tgt snt (drp ++ [ch]) else .loop n m tgt snt drp)
        removes := f.removes.set j (.done ch)
        subs := f.subs.erase ch } := by
  simp only [step] at h
  split at h
  · rename_i ch n m tgt snt drp hr hs
    split at h
    · split at h
      · rename_i index hi
        exact ⟨ch, n, m, tgt, snt, drp, index, hr, hs, ‹_›, hi, (Option.some.inj h).symm⟩
      · cases h
    · cases h
  · cases h

theorem step_removeLocked {j : Nat} (h : f.step (.removeLocked j) = some f') :
    ∃ ch index, f.removes[j]? = some (.select ch) ∧ f.sendLock = true ∧
      find f.sendCases ch = some index ∧
      f' = { f with sendCases := delete f.sendCases index, removes := f.removes.set j (.done ch),
                    subs := f.subs.erase ch } := by
  simp only [step] at h
  split at h
  · rename_i ch hr
    split at h
    · split at h
      · rename_i index hi
        exact ⟨ch, index, hr, ‹_›, hi, (Option.some.inj h).symm⟩
      · cases h
    · cases h
  · cases h

end Inversion

/-! ### The invariant -/

/-- What a `Send` at `p` agrees with in the cases `cs`: in its loop, the active prefix with what
it sent to and dropped is what it moved in; returned, what it sent to and dropped is what it
moved in; and its count is the number it sent to. -/
def SendOk (cs : List C) : SendPc C → Prop
  | .loop n m tgt snt drp => n ≤ cs.length ∧ cs.take n ++ snt ++ drp ~ tgt ∧ m = snt.length
  | .done m tgt snt drp => snt ++ drp ~ tgt ∧ m = snt.length
  | _ => True

omit [DecidableEq C] in
/-- Only a `Send` that holds the send lock reads the cases. -/
theorem SendOk.of_holds_false {cs cs' : List C} {p : SendPc C} (hp : p.holds = false)
    (h : SendOk cs p) : SendOk cs' p := by
  cases p with
  | start => trivial
  | locked => simp [SendPc.holds] at hp
  | loop => simp [SendPc.holds] at hp
  | done => exact h

/-- The invariant of a feed in use. -/
structure Inv (f : Feed C) : Prop where
  /-- The send lock is held by one `Send` or its token is in the channel, not both. -/
  lock : f.holders + (if f.sendLock then 1 else 0) = 1
  /-- The cases are those of the live subscriptions. -/
  cases : f.inbox ++ f.sendCases ~ f.subs
  /-- No more `remove`s on a channel are under way than live subscriptions on it. -/
  pending : ∀ ch, f.pending ch ≤ f.subs.count ch
  /-- The `remove`s on a channel in their `select` have their cases in `sendCases`. -/
  selected : ∀ ch, f.selected ch ≤ f.sendCases.count ch
  /-- Every `Send` agrees with the cases. -/
  sends : ∀ (i : Nat) p, f.sends[i]? = some p → SendOk f.sendCases p

theorem Inv.init : Inv (Feed.init : Feed C) where
  lock := rfl
  cases := List.Perm.refl []
  pending _ := le_refl 0
  selected _ := le_refl 0
  sends _ _ h := by simp [Feed.init] at h

section Invariant

variable {f f' : Feed C}

/-- Two `Send`s that hold the send lock are one. -/
theorem Inv.holder_unique (hi : Inv f) {i j : Nat} {p q : SendPc C} (hp : f.sends[i]? = some p)
    (hph : p.holds) (hq : f.sends[j]? = some q) (hqh : q.holds) : i = j :=
  List.eq_of_countP_le_one (by have := hi.lock; unfold holders at this; omega) hp hph hq hqh

/-- While a `Send` holds the send lock, its token is not in the channel. -/
theorem Inv.sendLock_of_holds (hi : Inv f) {i : Nat} {p : SendPc C} (hp : f.sends[i]? = some p)
    (hph : p.holds) : f.sendLock = false := by
  have hpos : 0 < f.holders := List.countP_pos_iff.mpr ⟨p, List.mem_of_getElem? hp, hph⟩
  have := hi.lock
  cases hl : f.sendLock
  · rfl
  · simp only [hl, if_true] at this
    omega

/-- While the token is in the channel, no `Send` holds the send lock. -/
theorem Inv.holds_false (hi : Inv f) (hl : f.sendLock = true) {i : Nat} {p : SendPc C}
    (hp : f.sends[i]? = some p) : p.holds = false := by
  cases hph : p.holds
  · rfl
  · simp [hi.sendLock_of_holds hp hph] at hl

/-- The holder of the send lock may change its state and the cases: the other `Send`s do not
read them. -/
theorem Inv.sends_set (hi : Inv f) {i : Nat} {p p' : SendPc C} (hp : f.sends[i]? = some p)
    (hph : p.holds) {cs : List C} (hp' : SendOk cs p') :
    ∀ (j : Nat) q, (f.sends.set i p')[j]? = some q → SendOk cs q := by
  intro j q hq
  rcases List.getElem?_set_eq_some hq with ⟨-, rfl⟩ | ⟨hne, hq⟩
  · exact hp'
  · cases hqh : q.holds
    · exact (hi.sends j q hq).of_holds_false hqh
    · exact absurd (hi.holder_unique hp hph hq hqh).symm hne

/-- A `remove` on `ch` in its `select` takes a subscription on `ch` off the cases. -/
theorem Inv.selected_pos (hi : Inv f) {j : Nat} {ch : C} (hr : f.removes[j]? = some (.select ch)) :
    0 < f.sendCases.count ch := by
  have : 0 < f.selected ch :=
    List.countP_pos_iff.mpr ⟨_, List.mem_of_getElem? hr, by simp [RemovePc.selectOn]⟩
  exact lt_of_lt_of_le this (hi.selected ch)

/-- The `remove`s in their `select` are among those under way; one that has not searched the
inbox is counted apart. -/
theorem selected_lt_pending {j : Nat} {ch : C} (hr : f.removes[j]? = some (.start ch)) :
    f.selected ch < f.pending ch := by
  have hsel := List.countP_set_add (p := RemovePc.selectOn ch) (b := .select ch) hr
  have hpen := List.countP_set_add (p := RemovePc.pendingOn ch) (b := .select ch) hr
  have hmono : (f.removes.set j (.select ch)).countP (RemovePc.selectOn ch) ≤
      (f.removes.set j (.select ch)).countP (RemovePc.pendingOn ch) :=
    List.countP_mono_left fun r _ h => by
      cases r <;> simp_all [RemovePc.selectOn, RemovePc.pendingOn]
  simp only [RemovePc.selectOn, RemovePc.pendingOn, decide_true, if_true, Bool.false_eq_true,
    if_false] at hsel hpen
  unfold selected pending
  omega

omit [DecidableEq C] in
/-- Setting a `Send` to a state that holds the lock as much as its old one keeps the holders. -/
theorem holders_set {i : Nat} {p p' : SendPc C} (hs : f.sends[i]? = some p) (hp : p.holds = p'.holds) :
    (f.sends.set i p').countP SendPc.holds = f.holders := by
  have := List.countP_set_add (p := SendPc.holds) (b := p') hs
  rw [hp] at this
  unfold holders
  omega

/-! ### Each step keeps the invariant -/

theorem Inv.Subscribe (hi : Inv f) {ch : C} (h : f.step (.Subscribe ch) = some f') : Inv f' := by
  obtain rfl := step_Subscribe h
  refine ⟨hi.lock, ?_, fun c => ?_, hi.selected, hi.sends⟩
  · -- the new case and the new subscription come last in both
    calc f.inbox ++ [ch] ++ f.sendCases ~ f.inbox ++ f.sendCases ++ [ch] := by
          rw [List.append_assoc, List.append_assoc]
          exact List.perm_append_comm.append_left _
      _ ~ f.subs ++ [ch] := hi.cases.append_right [ch]
  · have := hi.pending c
    simp only [Feed.pending, List.count_append] at this ⊢
    omega

theorem Inv.Send (hi : Inv f) (h : f.step .Send = some f') : Inv f' := by
  obtain rfl := step_Send h
  refine ⟨?_, hi.cases, hi.pending, hi.selected, fun i p hp => ?_⟩
  · simpa [holders, SendPc.holds] using hi.lock
  · rcases List.getElem?_concat_eq_some hp with hp | rfl
    · exact hi.sends i p hp
    · trivial

theorem Inv.Unsubscribe (hi : Inv f) {ch : C} (h : f.step (.Unsubscribe ch) = some f') :
    Inv f' := by
  obtain ⟨hlt, rfl⟩ := step_Unsubscribe h
  refine ⟨hi.lock, hi.cases, fun c => ?_, fun c => ?_, hi.sends⟩
  · -- one more `remove` on `ch`, which the guard admits only below the subscriptions on it
    have := hi.pending c
    simp only [Feed.pending, List.countP_append] at this hlt ⊢
    by_cases hc : ch = c
    · subst hc
      simp [RemovePc.pendingOn]
      omega
    · simpa [RemovePc.pendingOn, hc] using this
  · simpa [Feed.selected, RemovePc.selectOn] using hi.selected c

theorem Inv.acquire (hi : Inv f) {i : Nat} (h : f.step (.acquire i) = some f') : Inv f' := by
  obtain ⟨hs, hl, rfl⟩ := step_acquire h
  refine ⟨?_, hi.cases, hi.pending, hi.selected, fun j q hq => ?_⟩
  · -- the token moves from the channel to `Send` `i`
    have hset := List.countP_set_add (p := SendPc.holds) (b := .locked) hs
    have := hi.lock
    simp only [holders, SendPc.holds, hl, if_true, Bool.false_eq_true, if_false] at hset this ⊢
    omega
  · rcases List.getElem?_set_eq_some hq with ⟨-, rfl⟩ | ⟨-, hq⟩
    · trivial
    · exact hi.sends j q hq

theorem Inv.move (hi : Inv f) {i : Nat} (h : f.step (.move i) = some f') : Inv f' := by
  obtain ⟨hs, rfl⟩ := step_move h
  refine ⟨?_, ?_, hi.pending, fun c => ?_, hi.sends_set hs rfl ?_⟩
  · simp only [holders]
    rw [holders_set hs]
    · exact hi.lock
    · rfl
  · simpa using List.perm_append_comm.trans hi.cases
  · have := hi.selected c
    simp only [Feed.selected, List.count_append] at this ⊢
    omega
  · -- the `Send` takes on every case of the feed
    exact ⟨le_refl _, by simp only [List.take_length, List.append_nil]; exact List.Perm.refl _, rfl⟩

theorem Inv.finish (hi : Inv f) {i : Nat} (h : f.step (.finish i) = some f') : Inv f' := by
  obtain ⟨m, tgt, snt, drp, hs, rfl⟩ := step_finish h
  have hl := hi.sendLock_of_holds hs rfl
  obtain ⟨-, hloop, hm⟩ := hi.sends i _ hs
  refine ⟨?_, hi.cases, hi.pending, hi.selected, hi.sends_set hs rfl ⟨by simpa using hloop, hm⟩⟩
  · -- `Send` `i` puts the token back
    have hset := List.countP_set_add (p := SendPc.holds) (b := .done m tgt snt drp) hs
    have := hi.lock
    simp only [holders, SendPc.holds, hl, if_true, Bool.false_eq_true, if_false] at hset this ⊢
    omega

theorem Inv.deliver (hi : Inv f) {i k : Nat} (h : f.step (.deliver i k) = some f') : Inv f' := by
  obtain ⟨n, m, tgt, snt, drp, ch, hs, hk, hc, rfl⟩ := step_deliver h
  have hperm : deactivate f.sendCases n k ~ f.sendCases := List.swapIdx_perm _ _ _
  obtain ⟨hn, hloop, hm⟩ := hi.sends i _ hs
  refine ⟨?_, (hperm.append_left _).trans hi.cases, hi.pending, fun c => ?_,
    hi.sends_set hs rfl ⟨?_, ?_, ?_⟩⟩
  · simp only [holders]
    rw [holders_set hs]
    · exact hi.lock
    · rfl
  · simpa [Feed.selected, hperm.count_eq] using hi.selected c
  · simp [deactivate]
    omega
  · -- the case sent to leaves the active prefix for `sent`
    obtain ⟨hkl, rfl⟩ := List.getElem?_eq_some_iff.mp hc
    have hlast := List.take_swapIdx_last hk hn
    calc (deactivate f.sendCases n k).take (n - 1) ++ (snt ++ [f.sendCases[k]]) ++ drp
        ~ (deactivate f.sendCases n k).take (n - 1) ++ [f.sendCases[k]] ++ snt ++ drp := by
          simp only [List.append_assoc, List.singleton_append]
          exact List.perm_middle.append_left _
      _ ~ f.sendCases.take n ++ snt ++ drp := (hlast.append_right _).append_right _
      _ ~ tgt := hloop
  · simp [hm]

/-- A `remove` on `ch` that returns ends one subscription on `ch`. -/
theorem Inv.pending_done (hi : Inv f) {j : Nat} {r : RemovePc C} {ch : C}
    (hr : f.removes[j]? = some r) (hon : r.pendingOn ch) (c : C) :
    (f.removes.set j (.done ch)).countP (RemovePc.pendingOn c) ≤ (f.subs.erase ch).count c := by
  have hset := List.countP_set_add (p := RemovePc.pendingOn c) (b := .done ch) hr
  have hdone : (RemovePc.done ch).pendingOn c = false := rfl
  have := hi.pending c
  simp only [Feed.pending, hdone, Bool.false_eq_true, if_false, add_zero] at hset this
  rw [List.count_erase]
  by_cases hc : ch = c
  · subst hc
    simp only [hon, if_true, beq_self_eq_true] at hset ⊢
    omega
  · -- a `remove` under way on `ch` is not one on `c`
    have hoff : r.pendingOn c = false := by
      cases r <;> simp_all [RemovePc.pendingOn]
    simp only [hoff, Bool.false_eq_true, if_false, add_zero, beq_iff_eq, hc] at hset ⊢
    omega

/-- A `remove` on `ch` that returns from its `select` takes its case with it. -/
theorem Inv.selected_done (hi : Inv f) {j : Nat} {ch : C} (hr : f.removes[j]? = some (.select ch))
    (c : C) :
    (f.removes.set j (.done ch)).countP (RemovePc.selectOn c) ≤ (f.sendCases.erase ch).count c := by
  have hset := List.countP_set_add (p := RemovePc.selectOn c) (b := .done ch) hr
  have := hi.selected c
  simp only [Feed.selected, RemovePc.selectOn, Bool.false_eq_true, if_false, add_zero,
    decide_eq_true_eq] at hset this
  rw [List.count_erase]
  by_cases hc : ch = c
  · subst hc
    simp only [if_true, beq_self_eq_true] at hset ⊢
    omega
  · simp only [hc, if_false, add_zero, beq_iff_eq] at hset ⊢
    omega

/-- Deleting a case of `sendCases` with its subscription keeps the cases those of the live
subscriptions. -/
theorem Inv.cases_erase (hi : Inv f) {ch : C} (hm : ch ∈ f.sendCases) :
    f.inbox ++ f.sendCases.erase ch ~ f.subs.erase ch :=
  calc f.inbox ++ f.sendCases.erase ch ~ f.sendCases.erase ch ++ f.inbox := List.perm_append_comm
    _ = (f.sendCases ++ f.inbox).erase ch := (List.erase_append_left _ hm).symm
    _ ~ f.subs.erase ch := (List.perm_append_comm.trans hi.cases).erase ch

theorem Inv.searchInbox (hi : Inv f) {j : Nat} (h : f.step (.searchInbox j) = some f') :
    Inv f' := by
  obtain ⟨ch, hr, ⟨index, hfind, rfl⟩ | ⟨hfind, rfl⟩⟩ := step_searchInbox h
  · -- found in the inbox: the subscription ends there
    have hmem : ch ∈ f.inbox := List.mem_of_idxOf?_eq_some hfind
    have hdel : delete f.inbox index = f.inbox.erase ch := List.eraseIdx_of_idxOf?_eq_some hfind
    refine ⟨hi.lock, ?_, hi.pending_done hr (by simp [RemovePc.pendingOn]), fun c => ?_, hi.sends⟩
    · rw [hdel, ← List.erase_append_left _ hmem]
      exact hi.cases.erase ch
    · have hset := List.countP_set_add (p := RemovePc.selectOn c) (b := .done ch) hr
      simp only [RemovePc.selectOn, Bool.false_eq_true, if_false, add_zero] at hset
      simpa [Feed.selected, hset] using hi.selected c
  · -- not in the inbox: the `remove` goes on to its `select`, and its case is in `sendCases`
    have hnot : ch ∉ f.inbox := List.idxOf?_eq_none_iff.mp hfind
    refine ⟨hi.lock, hi.cases, fun c => ?_, fun c => ?_, hi.sends⟩
    · have hset := List.countP_set_add (p := RemovePc.pendingOn c) (b := .select ch) hr
      simp only [RemovePc.pendingOn] at hset
      simpa [Feed.pending, Nat.add_right_cancel_iff.mp hset] using hi.pending c
    · have hset := List.countP_set_add (p := RemovePc.selectOn c) (b := .select ch) hr
      have hsel := hi.selected c
      simp only [Feed.selected, RemovePc.selectOn, Bool.false_eq_true, if_false, add_zero,
        decide_eq_true_eq] at hset hsel ⊢
      rw [hset]
      by_cases hc : ch = c
      · subst hc
        have hcount := hi.cases.count_eq ch
        have hlt := selected_lt_pending hr
        have hpen := hi.pending ch
        simp only [List.count_append, List.count_eq_zero_of_not_mem hnot, zero_add] at hcount
        simp only [Feed.selected, if_true] at hlt ⊢
        omega
      · simpa [hc] using hsel

theorem Inv.handoff (hi : Inv f) {j i : Nat} (h : f.step (.handoff j i) = some f') : Inv f' := by
  obtain ⟨ch, n, m, tgt, snt, drp, index, hr, hs, -, hfind, rfl⟩ := step_handoff h
  obtain ⟨hidx, hch, -⟩ := List.idxOf?_eq_some_iff.mp hfind
  have hdel : delete f.sendCases index = f.sendCases.erase ch :=
    List.eraseIdx_of_idxOf?_eq_some hfind
  have hmem : ch ∈ f.sendCases := List.mem_of_idxOf?_eq_some hfind
  obtain ⟨hn, hloop, hm⟩ := hi.sends i _ hs
  refine ⟨?_, hdel ▸ hi.cases_erase hmem, hi.pending_done hr (by simp [RemovePc.pendingOn]),
    hdel ▸ hi.selected_done hr, hi.sends_set hs rfl ?_⟩
  · simp only [holders]
    rw [holders_set hs]
    · exact hi.lock
    · split <;> rfl
  · split
    · -- the case leaves the active prefix for `dropped`
      rename_i hlt
      have hp := List.perm_take_eraseIdx_of_lt hlt hn
      rw [hch] at hp
      refine ⟨by rw [delete, List.length_eraseIdx_of_lt hidx]; omega, ?_, hm⟩
      calc (delete f.sendCases index).take (n - 1) ++ snt ++ (drp ++ [ch])
          ~ ch :: (delete f.sendCases index).take (n - 1) ++ snt ++ drp := by
            simpa only [List.append_assoc, List.cons_append] using
              List.perm_append_singleton ch ((delete f.sendCases index).take (n - 1) ++ snt ++ drp)
        _ ~ f.sendCases.take n ++ snt ++ drp := (hp.append_right _).append_right _
        _ ~ tgt := hloop
    · -- a case already sent to: the active prefix stays as it was
      rename_i hge
      refine ⟨by rw [delete, List.length_eraseIdx_of_lt hidx]; omega, ?_, hm⟩
      rw [delete, List.take_eraseIdx_eq_take_of_le _ _ _ (by omega)]
      exact hloop

theorem Inv.removeLocked (hi : Inv f) {j : Nat} (h : f.step (.removeLocked j) = some f') :
    Inv f' := by
  obtain ⟨ch, index, hr, hl, hfind, rfl⟩ := step_removeLocked h
  have hdel : delete f.sendCases index = f.sendCases.erase ch :=
    List.eraseIdx_of_idxOf?_eq_some hfind
  have hmem : ch ∈ f.sendCases := List.mem_of_idxOf?_eq_some hfind
  -- with the token in the channel no `Send` reads the cases
  exact ⟨hi.lock, hdel ▸ hi.cases_erase hmem, hi.pending_done hr (by simp [RemovePc.pendingOn]),
    hdel ▸ hi.selected_done hr, fun i q hq => (hi.sends i q hq).of_holds_false (hi.holds_false hl hq)⟩

/-- Every step keeps the invariant. -/
theorem Inv.step (hi : Inv f) {l : Step C} (h : f.step l = some f') : Inv f' := by
  cases l with
  | Subscribe ch => exact hi.Subscribe h
  | Send => exact hi.Send h
  | Unsubscribe ch => exact hi.Unsubscribe h
  | acquire i => exact hi.acquire h
  | move i => exact hi.move h
  | deliver i k => exact hi.deliver h
  | finish i => exact hi.finish h
  | searchInbox j => exact hi.searchInbox h
  | handoff j i => exact hi.handoff h
  | removeLocked j => exact hi.removeLocked h

end Invariant

end Feed

/-- The states a feed reaches from `init`, in any interleaving. -/
inductive Reachable : Feed C → Prop
  | init : Reachable Feed.init
  | step {f f' : Feed C} (l : Step C) : Reachable f → f.step l = some f' → Reachable f'

namespace Reachable

variable {f f' : Feed C}

/-- Every reachable feed keeps the invariant. -/
theorem inv (h : Reachable f) : f.Inv := by
  induction h with
  | init => exact Feed.Inv.init
  | step l _ hs ih => exact ih.step hs

theorem run (h : Reachable f) {ls : List (Step C)} (hr : f.run ls = some f') : Reachable f' := by
  induction ls generalizing f with
  | nil => simp only [Feed.run, Option.some.injEq] at hr; exact hr ▸ h
  | cons l ls ih =>
    cases hs : f.step l with
    | none => simp [Feed.run, hs] at hr
    | some g =>
      rw [Feed.run_cons_of_step hs] at hr
      exact ih (h.step l hs) hr

end Reachable

namespace Feed

/-! ### An `Unsubscribe` never waits for a receiver -/

/-- `remove` `j` returns on `ch` from `f` within `k` steps, none of them a delivery. -/
def ReturnsWithin (f : Feed C) (j k : Nat) (ch : C) : Prop :=
  ∃ ls f', ls.length ≤ k ∧ (∀ l ∈ ls, l.delivers = false) ∧ f.run ls = some f' ∧
    f'.removes[j]? = some (.done ch)

namespace ReturnsWithin

variable {f g : Feed C} {j k : Nat} {ch : C}

theorem mono {k' : Nat} (h : f.ReturnsWithin j k ch) (hk : k ≤ k') : f.ReturnsWithin j k' ch := by
  obtain ⟨ls, f', hl, hd, hr, hf'⟩ := h
  exact ⟨ls, f', by omega, hd, hr, hf'⟩

theorem cons {l : Step C} (hs : f.step l = some g) (hl : l.delivers = false)
    (h : g.ReturnsWithin j k ch) : f.ReturnsWithin j (k + 1) ch := by
  obtain ⟨ls, f', hlen, hd, hr, hf'⟩ := h
  refine ⟨l :: ls, f', by simpa using hlen, ?_, by rw [Feed.run_cons_of_step hs]; exact hr, hf'⟩
  intro l' hl'
  rcases List.mem_cons.mp hl' with rfl | hl'
  · exact hl
  · exact hd l' hl'

theorem of_done (h : f.removes[j]? = some (.done ch)) : f.ReturnsWithin j 0 ch :=
  ⟨[], f, le_refl 0, by simp, rfl, h⟩

end ReturnsWithin

section Progress

variable {f : Feed C} {j : Nat} {ch : C}

/-- With the token in the channel, a `remove` in its `select` takes it, deletes its case and
returns: the case is there, so `delete` is never given `-1`. -/
theorem Inv.removeLocked_returns (hi : Inv f) (hr : f.removes[j]? = some (.select ch))
    (hl : f.sendLock = true) : f.ReturnsWithin j 1 ch := by
  cases hfind : find f.sendCases ch with
  | none => exact absurd (List.count_pos_iff.mp (hi.selected_pos hr)) (List.idxOf?_eq_none_iff.mp hfind)
  | some index =>
    have hs : f.step (.removeLocked j) = some { f with
        sendCases := delete f.sendCases index, removes := f.removes.set j (.done ch),
        subs := f.subs.erase ch } := by
      simp [Feed.step, hr, hl, hfind]
    exact ReturnsWithin.cons hs rfl
      (.of_done (List.getElem?_set_self (List.getElem?_eq_some_iff.mp hr).1))

/-- A `Send` in its `select` takes the channel of a `remove` from `removeSub` and deletes its case. -/
theorem Inv.handoff_returns (hi : Inv f) (hr : f.removes[j]? = some (.select ch)) {i n m : Nat}
    {tgt snt drp : List C} (hs : f.sends[i]? = some (.loop n m tgt snt drp)) (hn : 0 < n) :
    f.ReturnsWithin j 1 ch := by
  cases hfind : find f.sendCases ch with
  | none => exact absurd (List.count_pos_iff.mp (hi.selected_pos hr)) (List.idxOf?_eq_none_iff.mp hfind)
  | some index =>
    have hs : f.step (.handoff j i) = some { f with
        sendCases := delete f.sendCases index
        sends := f.sends.set i
          (if index < n then .loop (n - 1) m tgt snt (drp ++ [ch]) else .loop n m tgt snt drp)
        removes := f.removes.set j (.done ch)
        subs := f.subs.erase ch } := by
      simp [Feed.step, hr, hs, hn, hfind]
    exact ReturnsWithin.cons hs rfl
      (.of_done (List.getElem?_set_self (List.getElem?_eq_some_iff.mp hr).1))

/-- Without the token in the channel, some `Send` holds the send lock. -/
theorem Inv.exists_holder (hi : Inv f) (hl : f.sendLock = false) :
    ∃ (i : Nat) (p : SendPc C), f.sends[i]? = some p ∧ p.holds := by
  have hpos : 0 < f.holders := by
    have := hi.lock
    simp only [hl, Bool.false_eq_true, if_false, add_zero] at this
    omega
  obtain ⟨p, hp, hph⟩ := List.countP_pos_iff.mp hpos
  obtain ⟨i, hi⟩ := List.mem_iff_getElem?.mp hp
  exact ⟨i, p, hi, hph⟩

end Progress

end Feed

namespace Reachable

variable {f : Feed C} {j : Nat} {ch : C}

/-- A `remove` in its `select` beside a `Send` in its loop returns within two steps: the `Send`
takes its channel, or, with no case left, returns and leaves the token. -/
theorem loop_returns (hf : Reachable f) (hr : f.removes[j]? = some (.select ch)) {i n m : Nat}
    {tgt snt drp : List C} (hs : f.sends[i]? = some (.loop n m tgt snt drp)) :
    f.ReturnsWithin j 2 ch := by
  rcases Nat.eq_zero_or_pos n with rfl | hn
  · have hg : f.step (.finish i) = some { f with
        sendLock := true, sends := f.sends.set i (.done m tgt snt drp) } := by
      simp [Feed.step, hs]
    exact Feed.ReturnsWithin.cons hg rfl ((hf.step _ hg).inv.removeLocked_returns hr rfl)
  · exact (hf.inv.handoff_returns hr hs hn).mono (by omega)

/-- A `remove` in its `select` returns within three steps, none a delivery. -/
theorem select_returns (hf : Reachable f) (hr : f.removes[j]? = some (.select ch)) :
    f.ReturnsWithin j 3 ch := by
  cases hl : f.sendLock
  · obtain ⟨i, p, hs, hp⟩ := hf.inv.exists_holder hl
    cases p with
    | start => simp [SendPc.holds] at hp
    | done => simp [SendPc.holds] at hp
    | locked =>
      -- the `Send` holding the lock has yet to move the inbox in
      have hg : f.step (.move i) = some { f with
          sendCases := f.sendCases ++ f.inbox, inbox := [],
          sends := f.sends.set i
            (.loop (f.sendCases ++ f.inbox).length 0 (f.sendCases ++ f.inbox) [] []) } := by
        simp [Feed.step, hs]
      exact Feed.ReturnsWithin.cons hg rfl
        (loop_returns (hf.step _ hg) hr (List.getElem?_set_self (List.getElem?_eq_some_iff.mp hs).1))
    | loop n m tgt snt drp => exact (loop_returns hf hr hs).mono (by omega)
  · exact (hf.inv.removeLocked_returns hr hl).mono (by omega)

/-- Every `remove` under way returns within four steps, none of them a delivery: an
`Unsubscribe` never waits for a subscriber to receive. -/
theorem remove_returns (hf : Reachable f) {r : RemovePc C} (hr : f.removes[j]? = some r) :
    f.ReturnsWithin j 4 r.channel := by
  cases r with
  | start ch =>
    cases hfind : find f.inbox ch with
    | none =>
      have hg : f.step (.searchInbox j) = some { f with removes := f.removes.set j (.select ch) } := by
        simp [Feed.step, hr, hfind]
      exact Feed.ReturnsWithin.cons hg rfl
        (select_returns (hf.step _ hg) (List.getElem?_set_self (List.getElem?_eq_some_iff.mp hr).1))
    | some index =>
      have hg : f.step (.searchInbox j) = some { f with
          inbox := delete f.inbox index, removes := f.removes.set j (.done ch),
          subs := f.subs.erase ch } := by
        simp [Feed.step, hr, hfind]
      exact (Feed.ReturnsWithin.cons hg rfl
        (.of_done (List.getElem?_set_self (List.getElem?_eq_some_iff.mp hr).1))).mono (by omega)
  | select ch => exact (select_returns hf hr).mono (by omega)
  | done ch => exact (Feed.ReturnsWithin.of_done hr).mono (by omega)

end Reachable

/-! ### The feed in every interleaving -/

namespace Reachable

variable {f f' : Feed C}

/-- A `Send` moves in the cases of the subscriptions live at that moment. -/
theorem move_target (hf : Reachable f) {i : Nat} (h : f.step (.move i) = some f') :
    ∃ tgt, tgt ~ f.subs ∧ f'.sends[i]? = some (.loop tgt.length 0 tgt [] []) := by
  obtain ⟨hs, rfl⟩ := Feed.step_move h
  exact ⟨f.sendCases ++ f.inbox, List.perm_append_comm.trans hf.inv.cases,
    List.getElem?_set_self (List.getElem?_eq_some_iff.mp hs).1⟩

/-- A delivery sends on the case of a live subscription. -/
theorem deliver_live (hf : Reachable f) {i k : Nat} (h : f.step (.deliver i k) = some f') :
    ∃ ch, f.sendCases[k]? = some ch ∧ ch ∈ f.subs := by
  obtain ⟨n, m, tgt, snt, drp, ch, -, -, hc, -⟩ := Feed.step_deliver h
  exact ⟨ch, hc, hf.inv.cases.subset (List.mem_append_right _ (List.mem_of_getElem? hc))⟩

end Reachable

/-- Every interleaving of `Subscribe`, `Unsubscribe` and `Send` on a feed: one `Send` at a time
holds the send lock; a `Send` takes on the subscriptions live when it moves the inbox in, and
when it returns it has sent once to each of them or dropped it, and returns the number of its
sends; every delivery goes to a live subscription, and there are as many cases of a channel as
live subscriptions on it; a `remove` in its `select` finds its case; and every `Unsubscribe`
under way can return within four steps, none of them a delivery. -/
theorem feed_interleavings {f : Feed C} (hf : Reachable f) :
    (∀ (i j : Nat) (p q : SendPc C), f.sends[i]? = some p → p.holds →
      f.sends[j]? = some q → q.holds → i = j) ∧
    (∀ (i : Nat) (p : SendPc C), f.sends[i]? = some p → p.holds → f.sendLock = false) ∧
    (∀ (i : Nat) (f' : Feed C), f.step (.move i) = some f' →
      ∃ tgt, tgt ~ f.subs ∧ f'.sends[i]? = some (.loop tgt.length 0 tgt [] [])) ∧
    (∀ (i m : Nat) (tgt snt drp : List C), f.sends[i]? = some (.done m tgt snt drp) →
      snt ++ drp ~ tgt ∧ m = snt.length) ∧
    (∀ (i k : Nat) (f' : Feed C), f.step (.deliver i k) = some f' →
      ∃ ch, f.sendCases[k]? = some ch ∧ ch ∈ f.subs) ∧
    (∀ ch, (f.inbox ++ f.sendCases).count ch = f.subs.count ch) ∧
    (∀ (j : Nat) (ch : C), f.removes[j]? = some (.select ch) → ch ∈ f.sendCases) ∧
    (∀ (j : Nat) (r : RemovePc C), f.removes[j]? = some r → f.ReturnsWithin j 4 r.channel) := by
  have hi := hf.inv
  refine ⟨fun i j p q hp hph hq hqh => hi.holder_unique hp hph hq hqh,
    fun i p hp hph => hi.sendLock_of_holds hp hph, fun i f' h => hf.move_target h,
    fun i m tgt snt drp h => hi.sends i _ h, fun i k f' h => hf.deliver_live h,
    hi.cases.count_eq, fun j ch hr => List.count_pos_iff.mp (hi.selected_pos hr),
    fun j r hr => hf.remove_returns hr⟩

/-- A `Send` holding the send lock in its loop, with the one subscription's `Unsubscribe` in its
`select`. -/
theorem feed_interleavings_handoff :
    Reachable (⟨false, [7], [], [.loop 1 0 [7] [] []], [.select 7], [7]⟩ : Feed Nat) ∧
      let f : Feed Nat := ⟨false, [7], [], [.loop 1 0 [7] [] []], [.select 7], [7]⟩
      (∀ (i j : Nat) (p q : SendPc Nat), f.sends[i]? = some p → p.holds →
        f.sends[j]? = some q → q.holds → i = j) ∧
      (∀ (i : Nat) (p : SendPc Nat), f.sends[i]? = some p → p.holds → f.sendLock = false) ∧
      (∀ (i : Nat) (f' : Feed Nat), f.step (.move i) = some f' →
        ∃ tgt, tgt ~ f.subs ∧ f'.sends[i]? = some (.loop tgt.length 0 tgt [] [])) ∧
      (∀ (i m : Nat) (tgt snt drp : List Nat), f.sends[i]? = some (.done m tgt snt drp) →
        snt ++ drp ~ tgt ∧ m = snt.length) ∧
      (∀ (i k : Nat) (f' : Feed Nat), f.step (.deliver i k) = some f' →
        ∃ ch, f.sendCases[k]? = some ch ∧ ch ∈ f.subs) ∧
      (∀ ch, (f.inbox ++ f.sendCases).count ch = f.subs.count ch) ∧
      (∀ (j : Nat) (ch : Nat), f.removes[j]? = some (.select ch) → ch ∈ f.sendCases) ∧
      (∀ (j : Nat) (r : RemovePc Nat), f.removes[j]? = some r → f.ReturnsWithin j 4 r.channel) := by
  have hrun : (Feed.init : Feed Nat).run
      [.Subscribe 7, .Send, .acquire 0, .move 0, .Unsubscribe 7, .searchInbox 0] =
        some ⟨false, [7], [], [.loop 1 0 [7] [] []], [.select 7], [7]⟩ := rfl
  have hf := Reachable.init.run hrun
  exact ⟨hf, feed_interleavings hf⟩

/-- A `Subscribe` that returns after a `Send` took the send lock, before it moved the inbox in,
is sent to by that `Send`. -/
theorem Send_delivers_after_lock :
    (Feed.init : Feed Nat).run [.Send, .acquire 0, .Subscribe 7, .move 0, .deliver 0 0, .finish 0] =
      some ⟨true, [7], [], [.done 1 [7] [7] []], [], [7]⟩ := rfl

end Atlantis.Event
