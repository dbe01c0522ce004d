import Atlantis.State.StateDB

/-!
# Reverting to a snapshot

`RevertToSnapshot(id)` after `Snapshot()` and any run of changes, nested snapshots and
reverts to them included, gives back a state whose reads all agree with those of the
state at the snapshot, and leaves valid exactly the revisions taken before it.

The state reverted to is not the state at the snapshot: objects read from the trie stay
live, and code and storage read stay cached.  What the reads see of an object is `Same`,
and of a whole state `Agrees`.  The argument is one lemma per journal entry: undoing the
entry right after the change that appended it gives back a state that agrees with the one
before the change (`Undoes`), and undoing agrees with agreement, so the undo of a whole
run is assembled change by change.

It needs of the state at the snapshot (`Wf`) what the state database keeps of itself: the
revisions in the order of their ids and of their marks, every object live under its own
address, and a deleted object no longer in the account trie; and of the trie that its
accounts have code hashes of 32 bytes.
-/

set_option linter.unusedSectionVars false

namespace Atlantis.State

/-! ## What the reads see of an object -/

namespace StateObject

variable {Address : Type} (keccak : List UInt8 → Hash) (db : Database)

/-- Two objects that the reads of the state database cannot tell apart. -/
structure Same (o o' : StateObject Address) : Prop where
  address : o.address = o'.address
  nonce : o.data.nonce = o'.data.nonce
  balance : o.data.balance = o'.data.balance
  codeHash : o.data.codeHash = o'.data.codeHash
  suicided : o.suicided = o'.suicided
  code : (o.Code keccak db).1 = (o'.Code keccak db).1
  codeSize : o.CodeSize db = o'.CodeSize db
  state : ∀ key, (o.GetState db key).1 = (o'.GetState db key).1

variable {keccak db}

theorem Same.refl (o : StateObject Address) : Same keccak db o o :=
  ⟨rfl, rfl, rfl, rfl, rfl, rfl, rfl, fun _ => rfl⟩

theorem Same.symm {o o' : StateObject Address} (h : Same keccak db o o') : Same keccak db o' o :=
  ⟨h.address.symm, h.nonce.symm, h.balance.symm, h.codeHash.symm, h.suicided.symm, h.code.symm,
    h.codeSize.symm, fun key => (h.state key).symm⟩

theorem Same.trans {o o' o'' : StateObject Address} (h : Same keccak db o o')
    (h' : Same keccak db o' o'') : Same keccak db o o'' :=
  ⟨h.address.trans h'.address, h.nonce.trans h'.nonce, h.balance.trans h'.balance,
    h.codeHash.trans h'.codeHash, h.suicided.trans h'.suicided, h.code.trans h'.code,
    h.codeSize.trans h'.codeSize, fun key => (h.state key).trans (h'.state key)⟩

/-- `Code` reads the loaded code and the code hash. -/
theorem Code_fst (o : StateObject Address) :
    (o.Code keccak db).1 = o.code.or (if o.data.codeHash = emptyCodeHash keccak then none
      else db.ContractCode (Hash.ofBytes o.data.codeHash)) := by
  obtain ⟨address, data, code, cachedStorage, dirtyStorage, dirtyCode, suicided, deleted⟩ := o
  cases code with
  | some code => rfl
  | none =>
    simp only [Code]
    split <;> rfl

/-- `GetState` reads the cached slots and the root. -/
theorem GetState_fst (o : StateObject Address) (key : Hash) :
    (o.GetState db key).1 = (o.cachedStorage key).getD ((db.Storage o.data.root key).getD Hash.zero) := by
  unfold GetState
  split
  · next value hv => rw [hv, Option.getD_some]
  · next hv =>
    rw [hv, Option.getD_none]
    cases db.Storage o.data.root key <;> rfl

theorem Code_congr {o o' : StateObject Address} (hcode : o.code = o'.code)
    (hhash : o.data.codeHash = o'.data.codeHash) : (o.Code keccak db).1 = (o'.Code keccak db).1 := by
  rw [Code_fst, Code_fst, hcode, hhash]

theorem CodeSize_congr {o o' : StateObject Address} (hcode : o.code = o'.code)
    (hhash : o.data.codeHash = o'.data.codeHash) : o.CodeSize db = o'.CodeSize db := by
  simp only [CodeSize, hcode, hhash]

theorem GetState_congr {o o' : StateObject Address} (hcached : o.cachedStorage = o'.cachedStorage)
    (hroot : o.data.root = o'.data.root) (key : Hash) :
    (o.GetState db key).1 = (o'.GetState db key).1 := by
  rw [GetState_fst, GetState_fst, hcached, hroot]

@[simp] theorem GetState_setCode (o : StateObject Address) (codeHash : Hash)
    (code : Option (List UInt8)) (key : Hash) :
    ((o.setCode codeHash code).GetState db key).1 = (o.GetState db key).1 :=
  GetState_congr (by rfl) (by rfl) key

@[simp] theorem Code_setState (o : StateObject Address) (key value : Hash) :
    ((o.setState key value).Code keccak db).1 = (o.Code keccak db).1 :=
  Code_congr (by rfl) (by rfl)

@[simp] theorem CodeSize_setState (o : StateObject Address) (key value : Hash) :
    (o.setState key value).CodeSize db = o.CodeSize db :=
  CodeSize_congr (by rfl) (by rfl)

/-- Objects with the same account fields, code and cached slots read the same. -/
theorem Same.of_eq {o o' : StateObject Address} (haddr : o.address = o'.address)
    (hdata : o.data = o'.data) (hcode : o.code = o'.code)
    (hcached : o.cachedStorage = o'.cachedStorage) (hsuicided : o.suicided = o'.suicided) :
    Same keccak db o o' :=
  ⟨haddr, by rw [hdata], by rw [hdata], by rw [hdata], hsuicided,
    Code_congr hcode (by rw [hdata]), CodeSize_congr hcode (by rw [hdata]),
    GetState_congr hcached (by rw [hdata])⟩

section Setters

variable {o o' : StateObject Address} (h : Same keccak db o o')
include h

/-- A change that keeps the code, the code hash, the cached slots and the root keeps what
the reads see of them. -/
theorem Same.keep (f : StateObject Address → StateObject Address) (hcode : ∀ o, (f o).code = o.code)
    (hhash : ∀ o, (f o).data.codeHash = o.data.codeHash)
    (hcached : ∀ o, (f o).cachedStorage = o.cachedStorage) (hroot : ∀ o, (f o).data.root = o.data.root)
    (haddr : ∀ o, (f o).address = o.address) (hnonce : (f o).data.nonce = (f o').data.nonce)
    (hbalance : (f o).data.balance = (f o').data.balance) (hsuicided : (f o).suicided = (f o').suicided) :
    Same keccak db (f o) (f o') := by
  refine ⟨by rw [haddr, haddr, h.address], hnonce, hbalance, by rw [hhash, hhash, h.codeHash],
    hsuicided, ?_, ?_, fun key => ?_⟩
  · rw [Code_congr (hcode o) (hhash o), h.code, Code_congr (hcode o') (hhash o')]
  · rw [CodeSize_congr (hcode o) (hhash o), h.codeSize, CodeSize_congr (hcode o') (hhash o')]
  · rw [GetState_congr (hcached o) (hroot o), h.state, GetState_congr (hcached o') (hroot o')]

theorem Same.setBalance (amount : Int) : Same keccak db (o.setBalance amount) (o'.setBalance amount) :=
  h.keep (·.setBalance amount) (fun _ => rfl) (fun _ => rfl) (fun _ => rfl) (fun _ => rfl)
    (fun _ => rfl) h.nonce rfl h.suicided

theorem Same.setNonce (nonce : UInt64) : Same keccak db (o.setNonce nonce) (o'.setNonce nonce) :=
  h.keep (·.setNonce nonce) (fun _ => rfl) (fun _ => rfl) (fun _ => rfl) (fun _ => rfl)
    (fun _ => rfl) rfl h.balance h.suicided

theorem Same.setSuicided (b : Bool) :
    Same keccak db { o with suicided := b } { o' with suicided := b } :=
  h.keep (fun o => { o with suicided := b }) (fun _ => rfl) (fun _ => rfl) (fun _ => rfl)
    (fun _ => rfl) (fun _ => rfl) h.nonce h.balance rfl

/-- After `setCode` the code read is the code set, whatever was loaded. -/
theorem Same.setCode (codeHash : Hash) (code : Option (List UInt8)) :
    Same keccak db (o.setCode codeHash code) (o'.setCode codeHash code) := by
  refine ⟨h.address, h.nonce, h.balance, rfl, h.suicided, Code_congr rfl rfl,
    CodeSize_congr rfl rfl, fun key => ?_⟩
  calc ((o.setCode codeHash code).GetState db key).1 = (o.GetState db key).1 :=
        GetState_setCode o codeHash code key
    _ = (o'.GetState db key).1 := h.state key
    _ = ((o'.setCode codeHash code).GetState db key).1 := (GetState_setCode o' codeHash code key).symm

/-- After `setState` the slot set reads its value, and the others what they read before. -/
theorem Same.setState (key value : Hash) :
    Same keccak db (o.setState key value) (o'.setState key value) := by
  refine ⟨h.address, h.nonce, h.balance, h.codeHash, h.suicided, ?_, by simpa using h.codeSize,
    fun key' => ?_⟩
  · calc ((o.setState key value).Code keccak db).1 = (o.Code keccak db).1 := Code_setState o key value
      _ = (o'.Code keccak db).1 := h.code
      _ = ((o'.setState key value).Code keccak db).1 := (Code_setState o' key value).symm
  · have hread := h.state key'
    rw [GetState_fst, GetState_fst] at hread ⊢
    by_cases hk : key' = key
    · subst hk
      simp [StateObject.setState]
    · simpa [StateObject.setState, hk] using hread

end Setters

/-! ### Putting back what a read gave -/

/-- `Code` loads the code it reads and changes nothing else. -/
theorem Code_snd (o : StateObject Address) : (o.Code keccak db).2 = { o with code := (o.Code keccak db).1 } := by
  obtain ⟨address, data, code, cachedStorage, dirtyStorage, dirtyCode, suicided, deleted⟩ := o
  cases code with
  | some code => rfl
  | none =>
    simp only [Code]
    split <;> rfl

/-- `GetState` caches at most the slot it reads. -/
theorem GetState_snd (o : StateObject Address) (key : Hash) :
    ∃ c, (o.GetState db key).2 = { o with cachedStorage := Function.update o.cachedStorage key c } := by
  unfold GetState
  split
  · next value hv => exact ⟨some value, by rw [← hv, Function.update_eq_self]⟩
  · next hv =>
    split
    · exact ⟨none, by rw [← hv, Function.update_eq_self]⟩
    · next value _ => exact ⟨some value, rfl⟩

/-- The size of the code that `Code` reads is the size `CodeSize` gives. -/
theorem CodeSize_Code (o : StateObject Address) :
    ({ o with code := (o.Code keccak db).1 } : StateObject Address).CodeSize db = o.CodeSize db := by
  cases hcode : o.code with
  | some code => simp [CodeSize, Code_fst, hcode]
  | none =>
    by_cases hempty : o.data.codeHash = emptyCodeHash keccak
    · simp [CodeSize, Code_fst, hcode, hempty]
    · cases hread : db.ContractCode (Hash.ofBytes o.data.codeHash) with
      | none => simp [CodeSize, Code_fst, hcode, hempty, hread]
      | some code => simp [CodeSize, Code_fst, hcode, hempty, hread, Database.ContractCodeSize]

/-- Undoing `SetCode`: the code that `Code` read put back under the code hash it was read
with reads as before, where the code hash is of 32 bytes. -/
theorem same_setCode_Code (o : StateObject Address) (hlen : o.data.codeHash.length = HashLength)
    (codeHash : Hash) (code : Option (List UInt8)) :
    Same keccak db (((o.Code keccak db).2.setCode codeHash code).setCode
      (Hash.ofBytes (o.Code keccak db).2.data.codeHash) (o.Code keccak db).1) o := by
  rw [Code_snd]
  -- read back as a hash, a code hash of 32 bytes is itself
  have hdata : { o.data with codeHash := (Hash.ofBytes o.data.codeHash).bytes } = o.data := by
    rw [Hash.bytes_ofBytes hlen]
  refine ⟨rfl, rfl, rfl, congrArg Account.codeHash hdata, rfl, ?_, ?_, GetState_congr rfl rfl⟩
  · simp only [Code_fst, StateObject.setCode, Hash.bytes_ofBytes hlen, Option.or_assoc, Option.or_self]
  · rw [← @CodeSize_Code _ keccak db o]
    exact CodeSize_congr rfl (congrArg Account.codeHash hdata)

/-- Undoing `SetState`: the value that `GetState` read put back reads as before. -/
theorem same_setState_GetState (o : StateObject Address) (key value : Hash) :
    Same keccak db (((o.GetState db key).2.setState key value).setState key (o.GetState db key).1) o := by
  obtain ⟨c, hc⟩ := GetState_snd o key
  rw [hc]
  refine ⟨rfl, rfl, rfl, rfl, rfl, Code_congr rfl rfl, CodeSize_congr rfl rfl, fun key' => ?_⟩
  by_cases hk : key' = key
  · subst hk
    simp [GetState_fst, StateObject.setState]
  · simp [GetState_fst, StateObject.setState, hk]

end StateObject

/-! ## What the reads see of a state -/

namespace StateDB

variable {Address : Type} [DecidableEq Address]

/-- The object `getStateObject` gives at an address: the live one, unless it is deleted,
else the trie's. -/
def lookup (s : StateDB Address) (addr : Address) : Option (StateObject Address) :=
  (s.stateObjects addr).elim ((s.trie addr).map (StateObject.newObject addr))
    fun obj => if obj.deleted then none else some obj

theorem getStateObject_fst (s : StateDB Address) (addr : Address) :
    (s.getStateObject addr).1 = s.lookup addr := by
  unfold lookup getStateObject
  split
  · next obj hobj =>
    rw [hobj]
    split <;> simp_all
  · next hobj =>
    rw [hobj]
    split <;> simp_all

theorem lookup_congr {s s' : StateDB Address} (hobjects : s.stateObjects = s'.stateObjects)
    (htrie : s.trie = s'.trie) : s.lookup = s'.lookup := by
  funext addr
  simp only [lookup, hobjects, htrie]

theorem lookup_setStateObject (s : StateDB Address) (obj : StateObject Address) (addr : Address) :
    (s.setStateObject obj).lookup addr =
      if addr = obj.address then (if obj.deleted then none else some obj) else s.lookup addr := by
  by_cases h : addr = obj.address
  · subst h
    simp [lookup, setStateObject]
  · simp [lookup, setStateObject, h]

/-- The state without the live object at an address: the trie's account is read there. -/
theorem lookup_erase (s : StateDB Address) (account addr : Address) :
    ({ s with stateObjects := Function.update s.stateObjects account none } : StateDB Address).lookup addr =
      if addr = account then (s.trie account).map (StateObject.newObject account) else s.lookup addr := by
  by_cases h : addr = account
  · subst h
    simp [lookup]
  · simp [lookup, h]

@[simp] theorem lookup_append (s : StateDB Address) (entry : JournalEntry Address) :
    (s.append entry).lookup = s.lookup := rfl

theorem getStateObject_of_live {s : StateDB Address} {addr : Address} {obj : StateObject Address}
    (h : s.stateObjects addr = some obj) (hdel : obj.deleted = false) :
    s.getStateObject addr = (some obj, s) := by
  simp [getStateObject, h, hdel]

/-- `getStateObject` makes live at most the account the trie holds. -/
theorem getStateObject_snd (s : StateDB Address) (addr : Address) :
    (s.getStateObject addr).2 = s ∨ ∃ data, s.stateObjects addr = none ∧ s.trie addr = some data ∧
      (s.getStateObject addr).2 = s.setStateObject (StateObject.newObject addr data) := by
  unfold getStateObject
  split
  · split <;> exact Or.inl rfl
  · next hobj =>
    split
    · exact Or.inl rfl
    · next data hdata => exact Or.inr ⟨data, hobj, hdata, rfl⟩

theorem lookup_getStateObject (s : StateDB Address) (addr : Address) :
    (s.getStateObject addr).2.lookup = s.lookup := by
  rcases getStateObject_snd s addr with h | ⟨data, hobj, hdata, h⟩
  · rw [h]
  · funext b
    rw [h, lookup_setStateObject]
    by_cases hb : b = addr
    · subst hb
      simp [lookup, hobj, hdata, StateObject.newObject]
    · simp [StateObject.newObject, hb]

/-- What `lookup` gives is never deleted. -/
theorem deleted_of_lookup {s : StateDB Address} {addr : Address} {obj : StateObject Address}
    (h : s.lookup addr = some obj) : obj.deleted = false := by
  unfold lookup at h
  cases hobj : s.stateObjects addr with
  | none =>
    rw [hobj] at h
    obtain ⟨data, -, rfl⟩ := Option.map_eq_some_iff.mp h
    rfl
  | some o =>
    rw [hobj] at h
    by_cases hd : o.deleted <;> simp_all

/-- What `getStateObject` gives is live afterwards. -/
theorem stateObjects_getStateObject {s : StateDB Address} {addr : Address} {obj : StateObject Address}
    (h : s.lookup addr = some obj) : (s.getStateObject addr).2.stateObjects addr = some obj := by
  unfold lookup at h
  unfold getStateObject
  cases hobj : s.stateObjects addr with
  | none =>
    rw [hobj] at h
    obtain ⟨data, hdata, rfl⟩ := Option.map_eq_some_iff.mp h
    simp [hdata, setStateObject, StateObject.newObject]
  | some o =>
    rw [hobj] at h
    by_cases hd : o.deleted <;> simp_all

variable (keccak : List UInt8 → Hash) (db : Database)

/-- Two states whose reads agree: the same account trie, refund, logs and preimages, and
at every address objects the reads cannot tell apart.  The journal and the revisions are
not read. -/
structure Agrees (t u : StateDB Address) : Prop where
  trie : t.trie = u.trie
  objects : ∀ addr, Option.Rel (StateObject.Same keccak db) (t.lookup addr) (u.lookup addr)
  refund : t.refund = u.refund
  thash : t.thash = u.thash
  bhash : t.bhash = u.bhash
  txIndex : t.txIndex = u.txIndex
  logs : t.logs = u.logs
  logSize : t.logSize = u.logSize
  preimages : t.preimages = u.preimages

variable {keccak db}

omit [DecidableEq Address] in
theorem rel_same_refl (x : Option (StateObject Address)) :
    Option.Rel (StateObject.Same keccak db) x x := by
  cases x with
  | none => exact .none
  | some o => exact .some (StateObject.Same.refl o)

omit [DecidableEq Address] in
theorem rel_same_symm {x y : Option (StateObject Address)}
    (h : Option.Rel (StateObject.Same keccak db) x y) : Option.Rel (StateObject.Same keccak db) y x := by
  cases h with
  | none => exact .none
  | some hs => exact .some hs.symm

omit [DecidableEq Address] in
theorem rel_same_trans {x y z : Option (StateObject Address)}
    (h : Option.Rel (StateObject.Same keccak db) x y) (h' : Option.Rel (StateObject.Same keccak db) y z) :
    Option.Rel (StateObject.Same keccak db) x z := by
  cases h with
  | none => exact h'
  | some hs =>
    cases h' with
    | some hs' => exact .some (hs.trans hs')

theorem Agrees.refl (t : StateDB Address) : Agrees keccak db t t :=
  ⟨rfl, fun _ => rel_same_refl _, rfl, rfl, rfl, rfl, rfl, rfl, rfl⟩

theorem Agrees.symm {t u : StateDB Address} (h : Agrees keccak db t u) : Agrees keccak db u t :=
  ⟨h.trie.symm, fun addr => rel_same_symm (h.objects addr), h.refund.symm, h.thash.symm,
    h.bhash.symm, h.txIndex.symm, h.logs.symm, h.logSize.symm, h.preimages.symm⟩

theorem Agrees.trans {t u v : StateDB Address} (h : Agrees keccak db t u) (h' : Agrees keccak db u v) :
    Agrees keccak db t v :=
  ⟨h.trie.trans h'.trie, fun addr => rel_same_trans (h.objects addr) (h'.objects addr),
    h.refund.trans h'.refund, h.thash.trans h'.thash, h.bhash.trans h'.bhash,
    h.txIndex.trans h'.txIndex, h.logs.trans h'.logs, h.logSize.trans h'.logSize,
    h.preimages.trans h'.preimages⟩

/-- States that differ only in the journal and the revisions agree. -/
theorem Agrees.of_objects {t u : StateDB Address} (hobjects : t.stateObjects = u.stateObjects)
    (htrie : t.trie = u.trie) (hrefund : t.refund = u.refund) (hthash : t.thash = u.thash)
    (hbhash : t.bhash = u.bhash) (htxIndex : t.txIndex = u.txIndex) (hlogs : t.logs = u.logs)
    (hlogSize : t.logSize = u.logSize) (hpreimages : t.preimages = u.preimages) :
    Agrees keccak db t u :=
  ⟨htrie, fun addr => by rw [lookup_congr hobjects htrie]; exact rel_same_refl _, hrefund, hthash,
    hbhash, htxIndex, hlogs, hlogSize, hpreimages⟩

@[simp] theorem agrees_append (t : StateDB Address) (entry : JournalEntry Address) :
    Agrees keccak db (t.append entry) t :=
  Agrees.of_objects rfl rfl rfl rfl rfl rfl rfl rfl rfl

theorem agrees_getStateObject (t : StateDB Address) (addr : Address) :
    Agrees keccak db (t.getStateObject addr).2 t := by
  rcases getStateObject_snd t addr with h | ⟨data, -, -, h⟩
  · rw [h]
    exact Agrees.refl t
  · refine ⟨by rw [h]; rfl, fun b => ?_, by rw [h]; rfl, by rw [h]; rfl, by rw [h]; rfl,
      by rw [h]; rfl, by rw [h]; rfl, by rw [h]; rfl, by rw [h]; rfl⟩
    rw [lookup_getStateObject]
    exact rel_same_refl _

/-- Putting objects the reads cannot tell apart into agreeing states. -/
theorem Agrees.setStateObject {t u : StateDB Address} (h : Agrees keccak db t u)
    {obj obj' : StateObject Address} (hs : StateObject.Same keccak db obj obj')
    (hdel : obj.deleted = obj'.deleted) :
    Agrees keccak db (t.setStateObject obj) (u.setStateObject obj') := by
  refine ⟨h.trie, fun addr => ?_, h.refund, h.thash, h.bhash, h.txIndex, h.logs, h.logSize,
    h.preimages⟩
  rw [lookup_setStateObject, lookup_setStateObject, ← hs.address, ← hdel]
  split
  · split
    · exact .none
    · exact .some hs
  · exact h.objects addr

omit [DecidableEq Address] in
theorem rel_cases {α : Type} {r : α → α → Prop} {x y : Option α} (h : Option.Rel r x y) :
    (x = none ∧ y = none) ∨ ∃ a b, x = some a ∧ y = some b ∧ r a b := by
  cases h with
  | none => exact Or.inl ⟨rfl, rfl⟩
  | some hab => exact Or.inr ⟨_, _, rfl, rfl, hab⟩

/-! ## Undoing agrees with agreement -/

theorem modifyStateObject_eq (s : StateDB Address) (addr : Address)
    (f : StateObject Address → StateObject Address) :
    s.modifyStateObject addr f =
      (s.lookup addr).map fun obj => (s.getStateObject addr).2.setStateObject (f obj) := by
  rw [← getStateObject_fst]
  unfold modifyStateObject
  rcases s.getStateObject addr with ⟨_ | obj, s'⟩ <;> rfl

theorem getStateObject_eq (s : StateDB Address) (addr : Address) :
    s.getStateObject addr = (s.lookup addr, (s.getStateObject addr).2) := by
  rw [← getStateObject_fst]

/-- A change through `getStateObject` that the reads see through, on agreeing states. -/
theorem Agrees.modifyStateObject {t u : StateDB Address} (h : Agrees keccak db t u) (addr : Address)
    (f : StateObject Address → StateObject Address)
    (hf : ∀ o o', StateObject.Same keccak db o o' → StateObject.Same keccak db (f o) (f o'))
    (hdel : ∀ o, (f o).deleted = o.deleted) :
    Option.Rel (Agrees keccak db) (t.modifyStateObject addr f) (u.modifyStateObject addr f) := by
  rw [modifyStateObject_eq, modifyStateObject_eq]
  rcases rel_cases (h.objects addr) with ⟨ht, hu⟩ | ⟨o, o', ht, hu, hs⟩
  · rw [ht, hu]
    exact .none
  · rw [ht, hu]
    have hload := (agrees_getStateObject t addr).trans (h.trans (agrees_getStateObject u addr).symm)
    refine .some (hload.setStateObject (hf o o' hs) ?_)
    rw [hdel, hdel, deleted_of_lookup ht, deleted_of_lookup hu]

/-- Undoing an entry on agreeing states gives agreeing states, or panics on both. -/
theorem Agrees.revertEntry {t u : StateDB Address} (h : Agrees keccak db t u)
    (entry : JournalEntry Address) :
    Option.Rel (Agrees keccak db) (t.revertEntry entry) (u.revertEntry entry) := by
  cases entry with
  | createObjectChange account =>
    refine .some ⟨h.trie, fun addr => ?_, h.refund, h.thash, h.bhash, h.txIndex, h.logs, h.logSize,
      h.preimages⟩
    rw [lookup_erase, lookup_erase, h.trie]
    split
    · exact rel_same_refl _
    · exact h.objects addr
  | resetObjectChange prev => exact .some (h.setStateObject (StateObject.Same.refl prev) rfl)
  | suicideChange account prev prevbalance =>
    -- as `modifyStateObject`, but where there is no object there is nothing to undo
    have hload := (agrees_getStateObject t account).trans (h.trans (agrees_getStateObject u account).symm)
    simp only [StateDB.revertEntry]
    rw [getStateObject_eq t, getStateObject_eq u]
    rcases rel_cases (h.objects account) with ⟨ht, hu⟩ | ⟨o, o', ht, hu, hs⟩
    · rw [ht, hu]
      exact .some hload
    · rw [ht, hu]
      refine .some (hload.setStateObject ((hs.setSuicided prev).setBalance prevbalance) ?_)
      simp [StateObject.setBalance, deleted_of_lookup ht, deleted_of_lookup hu]
  | balanceChange account prev =>
    exact h.modifyStateObject account _ (fun _ _ hs => hs.setBalance prev) fun _ => rfl
  | nonceChange account prev =>
    exact h.modifyStateObject account _ (fun _ _ hs => hs.setNonce prev) fun _ => rfl
  | codeChange account prevcode prevhash =>
    exact h.modifyStateObject account _ (fun _ _ hs => hs.setCode (Hash.ofBytes prevhash) prevcode)
      fun _ => rfl
  | storageChange account key prevalue =>
    exact h.modifyStateObject account _ (fun _ _ hs => hs.setState key prevalue) fun _ => rfl
  | refundChange prev =>
    exact .some ⟨h.trie, h.objects, rfl, h.thash, h.bhash, h.txIndex, h.logs, h.logSize, h.preimages⟩
  | addLogChange txhash =>
    exact .some ⟨h.trie, h.objects, h.refund, h.thash, h.bhash, h.txIndex, by simp only [h.logs],
      by simp only [h.logSize], h.preimages⟩
  | addPreimageChange hash =>
    exact .some ⟨h.trie, h.objects, h.refund, h.thash, h.bhash, h.txIndex, h.logs, h.logSize,
      by simp only [h.preimages]⟩
  | touchChange account => exact .some h

theorem Agrees.revertEntries {t u : StateDB Address} (h : Agrees keccak db t u)
    (entries : List (JournalEntry Address)) :
    Option.Rel (Agrees keccak db) (t.revertEntries entries) (u.revertEntries entries) := by
  induction entries generalizing t u with
  | nil => exact .some h
  | cons entry entries ih =>
    simp only [StateDB.revertEntries]
    rcases rel_cases (h.revertEntry entry) with ⟨ht, hu⟩ | ⟨t', u', ht, hu, h'⟩
    · rw [ht, hu]
      exact .none
    · rw [ht, hu]
      exact ih h'

/-- Undoing the journal of agreeing states with the same journal. -/
theorem Agrees.revertJournal {t u : StateDB Address} (h : Agrees keccak db t u)
    (hj : t.journal = u.journal) (k : Nat) :
    Option.Rel (fun v w => Agrees keccak db v w ∧ v.journal = w.journal)
      (t.revertJournal k) (u.revertJournal k) := by
  unfold StateDB.revertJournal
  rw [← hj]
  rcases rel_cases (h.revertEntries (t.journal.drop k).reverse) with ⟨ht, hu⟩ | ⟨v, w, ht, hu, h'⟩
  · rw [ht, hu]
    exact .none
  · rw [ht, hu]
    exact .some ⟨⟨h'.trie, h'.objects, h'.refund, h'.thash, h'.bhash, h'.txIndex, h'.logs, h'.logSize,
      h'.preimages⟩, rfl⟩

theorem revertEntries_append (s : StateDB Address) (entries entries' : List (JournalEntry Address)) :
    s.revertEntries (entries ++ entries') = (s.revertEntries entries).bind (·.revertEntries entries') := by
  induction entries generalizing s with
  | nil => rfl
  | cons entry entries ih =>
    simp only [List.cons_append, StateDB.revertEntries, ih, Option.bind_assoc]

/-- The journal is not read. -/
theorem agrees_withJournal (s : StateDB Address) (journal : List (JournalEntry Address)) :
    Agrees keccak db s { s with journal := journal } :=
  ⟨rfl, fun _ => rel_same_refl _, rfl, rfl, rfl, rfl, rfl, rfl, rfl⟩

/-- Agreeing states, cut to the same journal. -/
theorem rel_map_journal {x y : Option (StateDB Address)} (h : Option.Rel (Agrees keccak db) x y)
    (journal : List (JournalEntry Address)) :
    Option.Rel (fun v w => Agrees keccak db v w ∧ v.journal = w.journal)
      (x.map fun s' => { s' with journal := journal }) (y.map fun s' => { s' with journal := journal }) := by
  rcases rel_cases h with ⟨hx, hy⟩ | ⟨v, w, hx, hy, h'⟩
  · rw [hx, hy]
    exact .none
  · rw [hx, hy]
    exact .some ⟨(agrees_withJournal v journal).symm.trans (h'.trans (agrees_withJournal w journal)), rfl⟩

/-- Undoing the journal past the entry appended last: that entry first. -/
theorem revertJournal_append {t t' : StateDB Address} {entry : JournalEntry Address}
    (hj : t'.journal = t.journal ++ [entry]) {k : Nat} (hk : k ≤ t.journal.length) {w : StateDB Address}
    (hw : t'.revertEntry entry = some w) :
    Option.Rel (fun v w => Agrees keccak db v w ∧ v.journal = w.journal) (t'.revertJournal k)
      (({ w with journal := t.journal } : StateDB Address).revertJournal k) := by
  unfold StateDB.revertJournal
  rw [hj, List.drop_append_of_le_length hk, List.reverse_append, List.take_append_of_le_length hk]
  simp only [List.reverse_cons, List.reverse_nil, List.nil_append, List.singleton_append,
    StateDB.revertEntries, hw, Option.bind_some]
  exact rel_map_journal ((agrees_withJournal w t.journal).revertEntries _) _

/-- Undoing the journal down to `k` undoes it down to `m` first. -/
theorem revertJournal_trans {t w : StateDB Address} {k m : Nat} (hkm : k ≤ m)
    (hm : m ≤ t.journal.length) (hw : t.revertJournal m = some w) :
    Option.Rel (fun v w => Agrees keccak db v w ∧ v.journal = w.journal) (t.revertJournal k)
      (w.revertJournal k) := by
  have hsplit : (t.journal.drop k).reverse =
      (t.journal.drop m).reverse ++ ((t.journal.take m).drop k).reverse := by
    conv_lhs => rw [← List.take_append_drop m t.journal]
    rw [List.drop_append_of_le_length (by simp; omega), List.reverse_append]
  unfold StateDB.revertJournal at hw ⊢
  obtain ⟨w₀, hw₀, rfl⟩ := Option.map_eq_some_iff.mp hw
  rw [hsplit, revertEntries_append, hw₀, Option.bind_some]
  simp only [List.take_take, Nat.min_eq_left hkm]
  exact rel_map_journal ((agrees_withJournal w₀ _).revertEntries _) _

/-! ## Undoing a run -/

variable (keccak db) in
/-- Undoing the journal of `t` down to `k` gives back a state that agrees with `u`. -/
def Undoes (k : Nat) (u t : StateDB Address) : Prop :=
  ∃ v, t.revertJournal k = some v ∧ Agrees keccak db v u

/-- Nothing to undo. -/
theorem undoes_self (u : StateDB Address) : Undoes keccak db u.journal.length u u :=
  ⟨{ u with journal := u.journal.take u.journal.length }, by simp [StateDB.revertJournal, StateDB.revertEntries],
    (agrees_withJournal u _).symm⟩

omit [DecidableEq Address] in
theorem rel_symm {α : Type} {r : α → α → Prop} (hr : ∀ a b, r a b → r b a) {x y : Option α}
    (h : Option.Rel r x y) : Option.Rel r y x := by
  cases h with
  | none => exact .none
  | some hab => exact .some (hr _ _ hab)

/-- States whose journals undo to agreeing states undo to what one of them undoes to. -/
theorem Undoes.of_rel {k : Nat} {u t w : StateDB Address} (h : Undoes keccak db k u w)
    (hrel : Option.Rel (fun v w => Agrees keccak db v w ∧ v.journal = w.journal) (t.revertJournal k)
      (w.revertJournal k)) : Undoes keccak db k u t := by
  obtain ⟨v, hv, hvu⟩ := h
  rcases rel_cases hrel with ⟨-, hnone⟩ | ⟨v', v'', hv', hv'', hagree, -⟩
  · rw [hv] at hnone
    cases hnone
  · rw [hv] at hv''
    cases hv''
    exact ⟨v', hv', hagree.trans hvu⟩

/-- A change that the reads cannot see and that keeps the journal. -/
theorem Undoes.of_agrees {k : Nat} {u t t' : StateDB Address} (h : Undoes keccak db k u t)
    (ht : Agrees keccak db t' t) (hj : t'.journal = t.journal) : Undoes keccak db k u t' :=
  h.of_rel (ht.revertJournal hj k)

/-- A journalled change whose entry, undone right after it, gives back a state that agrees
with the one before. -/
theorem Undoes.append {k : Nat} {u t t' : StateDB Address} (h : Undoes keccak db k u t)
    (hk : k ≤ t.journal.length) {entry : JournalEntry Address} (hj : t'.journal = t.journal ++ [entry])
    {w : StateDB Address} (hw : t'.revertEntry entry = some w) (hwt : Agrees keccak db w t) :
    Undoes keccak db k u t' :=
  (h.of_agrees ((agrees_withJournal w t.journal).symm.trans hwt) rfl).of_rel
    (revertJournal_append hj hk hw)

/-- Undoing the journal down to a later mark keeps what undoing it further gives. -/
theorem Undoes.revertJournal {k m : Nat} {u t w : StateDB Address} (h : Undoes keccak db k u t)
    (hkm : k ≤ m) (hm : m ≤ t.journal.length) (hw : t.revertJournal m = some w) :
    Undoes keccak db k u w :=
  h.of_rel (rel_symm (fun _ _ h => ⟨h.1.symm, h.2.symm⟩) (revertJournal_trans hkm hm hw))

theorem revertJournal_journal {t v : StateDB Address} {k : Nat} (h : t.revertJournal k = some v) :
    v.journal = t.journal.take k := by
  unfold StateDB.revertJournal at h
  obtain ⟨v₀, -, rfl⟩ := Option.map_eq_some_iff.mp h
  rfl

/-- Undoing in two stretches. -/
theorem Undoes.trans {k : Nat} {u t t' : StateDB Address} (h : Undoes keccak db k u t)
    (h' : Undoes keccak db t.journal.length t t') (hpre : t.journal <+: t'.journal)
    (hk : k ≤ t.journal.length) : Undoes keccak db k u t' := by
  obtain ⟨v, hv, hvt⟩ := h'
  have hvj : v.journal = t.journal := by
    rw [revertJournal_journal hv, ← List.prefix_iff_eq_take.mp hpre]
  exact (h.of_agrees hvt hvj).of_rel (revertJournal_trans hk hpre.length_le hv)

end StateDB

/-! ## What the state database keeps of itself -/

variable {Address : Type} [DecidableEq Address]

/-- What undoing an entry needs of it: an object that a reset puts back was live, with a
code hash of 32 bytes. -/
def JournalEntry.Wf : JournalEntry Address → Prop
  | .resetObjectChange prev => prev.deleted = false ∧ prev.data.codeHash.length = HashLength
  | _ => True

namespace StateDB

/-- The live objects: each under its own address, with a code hash of 32 bytes, and
deleted only where the trie holds no account; and the accounts of the trie with code
hashes of 32 bytes. -/
structure ObjectsWf (s : StateDB Address) : Prop where
  address : ∀ addr obj, s.stateObjects addr = some obj → obj.address = addr
  deleted : ∀ addr obj, s.stateObjects addr = some obj → obj.deleted = true → s.trie addr = none
  codeHash : ∀ addr obj, s.stateObjects addr = some obj → obj.data.codeHash.length = HashLength
  trieCodeHash : ∀ addr data, s.trie addr = some data → data.codeHash.length = HashLength

/-- The invariant of the state database: its objects, its journal's entries, and its
revisions in the order of their ids and of their marks, taken before the next id and
marking the journal no further than its length. -/
structure Wf (s : StateDB Address) : Prop extends s.ObjectsWf where
  entries : ∀ entry ∈ s.journal, entry.Wf
  revisions : s.validRevisions.Pairwise fun r r' => r.id < r'.id ∧ r.journalIndex ≤ r'.journalIndex
  ids : ∀ r ∈ s.validRevisions, r.id < s.nextRevisionId
  indices : ∀ r ∈ s.validRevisions, r.journalIndex ≤ s.journal.length

namespace ObjectsWf

variable {s : StateDB Address} (hs : s.ObjectsWf)
include hs

theorem of_eq {t : StateDB Address} (hobjects : t.stateObjects = s.stateObjects) (htrie : t.trie = s.trie) :
    t.ObjectsWf :=
  ⟨by rw [hobjects]; exact hs.address, by rw [hobjects, htrie]; exact hs.deleted,
    by rw [hobjects]; exact hs.codeHash, by rw [htrie]; exact hs.trieCodeHash⟩

/-- What `lookup` gives is the object of its address, live, with a code hash of 32 bytes. -/
theorem lookup {addr : Address} {obj : StateObject Address} (h : s.lookup addr = some obj) :
    obj.address = addr ∧ obj.deleted = false ∧ obj.data.codeHash.length = HashLength := by
  unfold StateDB.lookup at h
  cases hobj : s.stateObjects addr with
  | none =>
    rw [hobj] at h
    obtain ⟨data, hdata, rfl⟩ := Option.map_eq_some_iff.mp h
    exact ⟨rfl, rfl, hs.trieCodeHash addr data hdata⟩
  | some o =>
    rw [hobj] at h
    by_cases hd : o.deleted
    · simp [hd] at h
    · simp only [Option.elim, hd, if_false, Option.some.injEq, Bool.false_eq_true] at h
      subst h
      exact ⟨hs.address addr o hobj, by simpa using hd, hs.codeHash addr o hobj⟩

/-- Where `lookup` gives nothing, the trie holds nothing. -/
theorem trie_of_lookup_none {addr : Address} (h : s.lookup addr = none) : s.trie addr = none := by
  unfold StateDB.lookup at h
  cases hobj : s.stateObjects addr with
  | none =>
    rw [hobj] at h
    simpa using h
  | some o =>
    rw [hobj] at h
    by_cases hd : o.deleted
    · exact hs.deleted addr o hobj hd
    · simp [hd] at h

theorem setStateObject {obj : StateObject Address} (hdel : obj.deleted = false)
    (hcode : obj.data.codeHash.length = HashLength) : (s.setStateObject obj).ObjectsWf := by
  refine ⟨fun addr o h => ?_, fun addr o h hd => ?_, fun addr o h => ?_, hs.trieCodeHash⟩ <;>
    simp only [StateDB.setStateObject, Function.update_apply] at h <;> split at h
  · next heq => cases h; exact heq.symm
  · exact hs.address addr o h
  · cases h; simp [hdel] at hd
  · exact hs.deleted addr o h hd
  · cases h; exact hcode
  · exact hs.codeHash addr o h

theorem erase (addr : Address) :
    ({ s with stateObjects := Function.update s.stateObjects addr none } : StateDB Address).ObjectsWf := by
  refine ⟨fun b o h => ?_, fun b o h hd => ?_, fun b o h => ?_, hs.trieCodeHash⟩ <;>
    simp only [Function.update_apply] at h <;> split at h
  · cases h
  · exact hs.address b o h
  · cases h
  · exact hs.deleted b o h hd
  · cases h
  · exact hs.codeHash b o h

theorem getStateObject (addr : Address) : (s.getStateObject addr).2.ObjectsWf := by
  rcases getStateObject_snd s addr with h | ⟨data, -, hdata, h⟩
  · rw [h]
    exact hs
  · rw [h]
    exact hs.setStateObject rfl (hs.trieCodeHash addr data hdata)

theorem modifyStateObject {addr : Address} {f : StateObject Address → StateObject Address}
    (hdel : ∀ o, (f o).deleted = o.deleted)
    (hcode : ∀ o, o.data.codeHash.length = HashLength → (f o).data.codeHash.length = HashLength)
    {t : StateDB Address} (h : s.modifyStateObject addr f = some t) : t.ObjectsWf := by
  rw [modifyStateObject_eq] at h
  obtain ⟨obj, hobj, rfl⟩ := Option.map_eq_some_iff.mp h
  obtain ⟨-, hd, hc⟩ := hs.lookup hobj
  exact (hs.getStateObject addr).setStateObject (by rw [hdel, hd]) (hcode obj hc)

/-- Undoing an entry keeps the live objects as the state database keeps them. -/
theorem revertEntry {entry : JournalEntry Address} (he : entry.Wf) {t : StateDB Address}
    (h : s.revertEntry entry = some t) : t.ObjectsWf := by
  cases entry with
  | createObjectChange account =>
    cases h
    exact hs.erase account
  | resetObjectChange prev =>
    cases h
    exact hs.setStateObject he.1 he.2
  | suicideChange account prev prevbalance =>
    simp only [StateDB.revertEntry] at h
    rw [getStateObject_eq] at h
    cases hobj : s.lookup account with
    | none =>
      rw [hobj] at h
      cases h
      exact hs.getStateObject account
    | some obj =>
      rw [hobj] at h
      cases h
      obtain ⟨-, hd, hc⟩ := hs.lookup hobj
      exact (hs.getStateObject account).setStateObject hd hc
  | balanceChange account prev =>
    exact hs.modifyStateObject (f := (·.setBalance prev)) (fun _ => rfl) (fun _ h => h) h
  | nonceChange account prev =>
    exact hs.modifyStateObject (f := (·.setNonce prev)) (fun _ => rfl) (fun _ h => h) h
  | codeChange account prevcode prevhash =>
    exact hs.modifyStateObject (f := (·.setCode (Hash.ofBytes prevhash) prevcode)) (fun _ => rfl)
      (fun _ _ => (Hash.ofBytes prevhash).length_bytes) h
  | storageChange account key prevalue =>
    exact hs.modifyStateObject (f := (·.setState key prevalue)) (fun _ => rfl) (fun _ h => h) h
  | refundChange prev =>
    cases h
    exact hs.of_eq rfl rfl
  | addLogChange txhash =>
    cases h
    exact hs.of_eq rfl rfl
  | addPreimageChange hash =>
    cases h
    exact hs.of_eq rfl rfl
  | touchChange account =>
    cases h
    exact hs

end ObjectsWf

/-! ## Changes that the journal takes back -/

variable (keccak : List UInt8 → Hash) (db : Database)

/-- `t'` is `t` changed by journalled steps that undoing the journal down to `t`'s takes
back, with the revisions left as they were. -/
structure Journalled (t t' : StateDB Address) : Prop where
  wf : t'.Wf
  journal : t.journal <+: t'.journal
  validRevisions : t'.validRevisions = t.validRevisions
  nextRevisionId : t'.nextRevisionId = t.nextRevisionId
  undoes : Undoes keccak db t.journal.length t t'

variable {keccak db}

theorem Journalled.refl {t : StateDB Address} (ht : t.Wf) : Journalled keccak db t t :=
  ⟨ht, List.prefix_refl _, rfl, rfl, undoes_self t⟩

theorem Journalled.trans {t t' t'' : StateDB Address} (h : Journalled keccak db t t')
    (h' : Journalled keccak db t' t'') : Journalled keccak db t t'' :=
  ⟨h'.wf, h.journal.trans h'.journal, h'.validRevisions.trans h.validRevisions,
    h'.nextRevisionId.trans h.nextRevisionId, h.undoes.trans h'.undoes h'.journal h.journal.length_le⟩

/-- A change keeps the invariant when it keeps the objects' and appends entries that keep it. -/
theorem Wf.change {t t' : StateDB Address} (ht : t.Wf) (hobj : t'.ObjectsWf)
    {entries : List (JournalEntry Address)} (hj : t'.journal = t.journal ++ entries)
    (hentries : ∀ entry ∈ entries, entry.Wf) (hrev : t'.validRevisions = t.validRevisions)
    (hnext : t'.nextRevisionId = t.nextRevisionId) : t'.Wf := by
  refine ⟨hobj, fun entry hentry => ?_, by rw [hrev]; exact ht.revisions,
    fun r hr => by rw [hnext]; exact ht.ids r (hrev ▸ hr), fun r hr => ?_⟩
  · rw [hj, List.mem_append] at hentry
    rcases hentry with h | h
    · exact ht.entries entry h
    · exact hentries entry h
  · have := ht.indices r (hrev ▸ hr)
    rw [hj, List.length_append]
    omega

/-- A change that the reads cannot see and that journals nothing. -/
theorem Journalled.quiet {t t' : StateDB Address} (ht : t.Wf) (hobj : t'.ObjectsWf)
    (hj : t'.journal = t.journal) (hrev : t'.validRevisions = t.validRevisions)
    (hnext : t'.nextRevisionId = t.nextRevisionId) (hagree : Agrees keccak db t' t) :
    Journalled keccak db t t' :=
  ⟨ht.change hobj (show t'.journal = t.journal ++ [] by rw [hj, List.append_nil]) (by simp) hrev hnext,
    by rw [hj], hrev, hnext, (undoes_self t).of_agrees hagree hj⟩

/-- A change that journals one entry, which undone right after it gives back a state that
agrees with the one before. -/
theorem Journalled.step {t t' w : StateDB Address} (ht : t.Wf) (hobj : t'.ObjectsWf)
    {entry : JournalEntry Address} (hj : t'.journal = t.journal ++ [entry]) (hentry : entry.Wf)
    (hrev : t'.validRevisions = t.validRevisions) (hnext : t'.nextRevisionId = t.nextRevisionId)
    (hw : t'.revertEntry entry = some w) (hwt : Agrees keccak db w t) : Journalled keccak db t t' :=
  ⟨ht.change hobj hj (by simpa using hentry) hrev hnext, ⟨[entry], hj.symm⟩, hrev, hnext,
    (undoes_self t).append le_rfl hj hw hwt⟩

theorem setStateObject_setStateObject (s : StateDB Address) {obj obj' : StateObject Address}
    (h : obj.address = obj'.address) : (s.setStateObject obj).setStateObject obj' = s.setStateObject obj' := by
  simp [setStateObject, h]

/-- Putting back at an address an object that reads as the live one there. -/
theorem agrees_setStateObject_live {t : StateDB Address} {obj obj' : StateObject Address}
    (hlive : t.stateObjects obj'.address = some obj) (hdel : obj.deleted = false)
    (hs : StateObject.Same keccak db obj' obj) (hdel' : obj'.deleted = false) :
    Agrees keccak db (t.setStateObject obj') t := by
  refine ⟨rfl, fun b => ?_, rfl, rfl, rfl, rfl, rfl, rfl, rfl⟩
  rw [lookup_setStateObject]
  split
  · next hb =>
    subst hb
    simp only [hdel', lookup, hlive, Option.elim, hdel]
    exact .some hs
  · exact rel_same_refl _

/-- The object `createObject` makes: at the address, live, with the empty code's hash. -/
theorem createObject_fst (s : StateDB Address) (addr : Address) :
    (s.createObject keccak addr).1.address = addr ∧ (s.createObject keccak addr).1.deleted = false ∧
      (s.createObject keccak addr).1.data.codeHash.length = HashLength :=
  ⟨rfl, rfl, (keccak []).length_bytes⟩

/-- `createObject` where there is no account journals that it made one. -/
theorem createObject_of_none {s : StateDB Address} {addr : Address} (h : s.lookup addr = none) :
    s.createObject keccak addr =
      ((s.createObject keccak addr).1, none, ((s.getStateObject addr).2.append (.createObjectChange addr)).setStateObject
        (s.createObject keccak addr).1) := by
  unfold createObject
  rw [getStateObject_eq, h]

/-- `createObject` over an account journals the object it replaces. -/
theorem createObject_of_some {s : StateDB Address} {addr : Address} {prev : StateObject Address}
    (h : s.lookup addr = some prev) :
    s.createObject keccak addr =
      ((s.createObject keccak addr).1, some prev, ((s.getStateObject addr).2.append (.resetObjectChange prev)).setStateObject
        (s.createObject keccak addr).1) := by
  unfold createObject
  rw [getStateObject_eq, h]

/-! ### One lemma per journal entry -/

section Steps

variable {t : StateDB Address} (ht : t.Wf)
include ht

/-- Reading an account from the trie makes it live; nothing the reads see changes. -/
theorem journalled_getStateObject (addr : Address) :
    Journalled keccak db t (t.getStateObject addr).2 := by
  refine Journalled.quiet ht (ht.toObjectsWf.getStateObject addr) ?_ ?_ ?_ (agrees_getStateObject t addr) <;>
    rcases getStateObject_snd t addr with h | ⟨data, -, -, h⟩ <;> rw [h] <;> rfl

/-- `createObjectChange`: undone, the new object is dropped and the address reads as
before, where the trie holds nothing. -/
theorem journalled_create {addr : Address} (hnone : t.lookup addr = none) {obj : StateObject Address}
    (haddr : obj.address = addr) (hdel : obj.deleted = false)
    (hcode : obj.data.codeHash.length = HashLength) :
    Journalled keccak db t ((t.append (.createObjectChange addr)).setStateObject obj) := by
  refine Journalled.step ht ((ht.toObjectsWf.of_eq (t := t.append _) rfl rfl).setStateObject hdel hcode)
    rfl trivial rfl rfl rfl ⟨rfl, fun b => ?_, rfl, rfl, rfl, rfl, rfl, rfl, rfl⟩
  rw [lookup_erase]
  split
  · next hb =>
    subst hb
    rw [show ((t.append (.createObjectChange b)).setStateObject obj).trie b = t.trie b from rfl,
      ht.toObjectsWf.trie_of_lookup_none hnone, hnone]
    exact .none
  · next hb =>
    rw [lookup_setStateObject, if_neg (by rw [haddr]; exact hb), lookup_append]
    exact rel_same_refl _

/-- `resetObjectChange`: undone, the object replaced is live again. -/
theorem journalled_reset {prev : StateObject Address} (hlive : t.stateObjects prev.address = some prev)
    (hdel : prev.deleted = false) {obj : StateObject Address} (haddr : obj.address = prev.address)
    (hdel' : obj.deleted = false) (hcode' : obj.data.codeHash.length = HashLength) :
    Journalled keccak db t ((t.append (.resetObjectChange prev)).setStateObject obj) := by
  refine Journalled.step ht ((ht.toObjectsWf.of_eq (t := t.append _) rfl rfl).setStateObject hdel' hcode')
    rfl ⟨hdel, ht.codeHash _ _ hlive⟩ rfl rfl rfl (Agrees.of_objects ?_ rfl rfl rfl rfl rfl rfl rfl rfl)
  simp only [StateDB.setStateObject, StateDB.append, haddr, Function.update_idem]
  rw [← hlive, Function.update_eq_self]

/-- An entry undone by changing the object at its address back: undone right after the
change to the live object it journals, the object reads as before. -/
theorem journalled_modify {obj : StateObject Address} (hlive : t.stateObjects obj.address = some obj)
    (hdel : obj.deleted = false) {entry : JournalEntry Address} (hentry : entry.Wf)
    {g : StateObject Address → StateObject Address}
    (hrevert : ∀ s : StateDB Address, s.revertEntry entry = s.modifyStateObject obj.address g)
    {obj' : StateObject Address} (haddr' : obj'.address = obj.address) (hdel' : obj'.deleted = false)
    (hcode' : obj'.data.codeHash.length = HashLength) (hsame : StateObject.Same keccak db (g obj') obj)
    (hgdel : (g obj').deleted = false) :
    Journalled keccak db t ((t.append entry).setStateObject obj') := by
  have hlive' : ((t.append entry).setStateObject obj').stateObjects obj.address = some obj' := by
    simp [StateDB.setStateObject, haddr']
  refine Journalled.step (w := ((t.append entry).setStateObject obj').setStateObject (g obj')) ht
    ((ht.toObjectsWf.of_eq (t := t.append _) rfl rfl).setStateObject hdel' hcode') rfl hentry rfl rfl ?_ ?_
  · rw [hrevert, modifyStateObject_eq, ← getStateObject_fst, getStateObject_of_live hlive' hdel']
    rfl
  · rw [setStateObject_setStateObject _ (haddr'.trans hsame.address.symm)]
    exact (agrees_setStateObject_live (hsame.address ▸ hlive) hdel hsame hgdel).trans (agrees_append t entry)

/-- `suicideChange`: undone, the flag and the balance are as before. -/
theorem journalled_suicide {obj : StateObject Address} (hlive : t.stateObjects obj.address = some obj)
    (hdel : obj.deleted = false) :
    Journalled keccak db t ((t.append (.suicideChange obj.address obj.suicided obj.data.balance)).setStateObject
      (obj.markSuicided.setBalance 0)) := by
  have hlive' : ((t.append (.suicideChange obj.address obj.suicided obj.data.balance)).setStateObject
      (obj.markSuicided.setBalance 0)).stateObjects obj.address = some (obj.markSuicided.setBalance 0) := by
    simp [StateDB.setStateObject, StateObject.setBalance, StateObject.markSuicided]
  have hcode : (obj.markSuicided.setBalance 0).data.codeHash.length = HashLength :=
    ht.codeHash obj.address obj hlive
  refine Journalled.step (w := ((t.append (.suicideChange obj.address obj.suicided obj.data.balance)).setStateObject
      (obj.markSuicided.setBalance 0)).setStateObject obj) ht
    ((ht.toObjectsWf.of_eq (t := t.append _) rfl rfl).setStateObject hdel hcode) rfl trivial rfl rfl ?_ ?_
  · simp only [StateDB.revertEntry]
    rw [getStateObject_of_live hlive' hdel]
    rfl
  · rw [@setStateObject_setStateObject Address _ _ (obj.markSuicided.setBalance 0) obj rfl]
    exact (agrees_setStateObject_live (t := t.append _) hlive hdel (StateObject.Same.refl obj) hdel).trans
      (agrees_append t _)

/-- `touchChange` undoes nothing, as the touch changed nothing the reads see. -/
theorem journalled_touch (addr : Address) :
    Journalled keccak db t (t.append (.touchChange addr)) :=
  Journalled.step ht (ht.toObjectsWf.of_eq (t := t.append _) rfl rfl) rfl trivial rfl rfl rfl
    (agrees_append t _)

/-- `refundChange`: undone, the refund is as before. -/
theorem journalled_AddRefund (gas : UInt64) : Journalled keccak db t (t.AddRefund gas) :=
  Journalled.step ht (ht.toObjectsWf.of_eq (t := t.AddRefund gas) rfl rfl) rfl trivial rfl rfl rfl
    (Agrees.of_objects rfl rfl rfl rfl rfl rfl rfl rfl rfl)

/-- `addLogChange`: undone, the last log of the transaction is dropped. -/
theorem journalled_AddLog (log : Log Address) : Journalled keccak db t (t.AddLog log) := by
  refine Journalled.step ht (ht.toObjectsWf.of_eq (t := t.AddLog log) rfl rfl) rfl trivial rfl rfl rfl
    (Agrees.of_objects rfl rfl rfl rfl rfl rfl ?_ (by simp [AddLog, StateDB.append]) rfl)
  simp only [AddLog, StateDB.append, Function.update_self, Function.update_idem, List.length_append,
    List.length_singleton, List.dropLast_concat]
  split
  · next hlen =>
    have hnil : t.logs t.thash = [] := List.eq_nil_of_length_eq_zero (by omega)
    rw [← hnil, Function.update_eq_self]
  · rw [Function.update_eq_self]

/-- `addPreimageChange`: undone, the preimage is no longer recorded. -/
theorem journalled_AddPreimage (hash : Hash) (preimage : List UInt8) :
    Journalled keccak db t (t.AddPreimage hash preimage) := by
  unfold AddPreimage
  cases hpre : t.preimages hash with
  | some _ => exact Journalled.refl ht
  | none =>
    refine Journalled.step ht (ht.toObjectsWf.of_eq (t := { t.append _ with preimages := _ }) rfl rfl)
      rfl trivial rfl rfl rfl (Agrees.of_objects rfl rfl rfl rfl rfl rfl rfl rfl ?_)
    simp only [StateDB.append, Function.update_idem]
    rw [← hpre, Function.update_eq_self]

/-- `balanceChange`: undone, the balance is as before. -/
theorem journalled_balanceChange {obj : StateObject Address} (hlive : t.stateObjects obj.address = some obj)
    (hdel : obj.deleted = false) (amount : Int) : Journalled keccak db t (obj.SetBalance t amount) :=
  journalled_modify ht hlive hdel (by trivial) (g := (·.setBalance obj.data.balance)) (fun _ => rfl) rfl hdel
    (ht.codeHash obj.address obj hlive) (StateObject.Same.of_eq rfl rfl rfl rfl rfl) hdel

/-- `nonceChange`: undone, the nonce is as before. -/
theorem journalled_nonceChange {obj : StateObject Address} (hlive : t.stateObjects obj.address = some obj)
    (hdel : obj.deleted = false) (nonce : UInt64) : Journalled keccak db t (obj.SetNonce t nonce) :=
  journalled_modify ht hlive hdel (by trivial) (g := (·.setNonce obj.data.nonce)) (fun _ => rfl) rfl hdel
    (ht.codeHash obj.address obj hlive) (StateObject.Same.of_eq rfl rfl rfl rfl rfl) hdel

/-- `codeChange`: undone, the code read before and its hash are put back. -/
theorem journalled_codeChange {obj : StateObject Address} (hlive : t.stateObjects obj.address = some obj)
    (hdel : obj.deleted = false) (codeHash : Hash) (code : Option (List UInt8)) :
    Journalled keccak db t (obj.SetCode keccak db t codeHash code) := by
  have haddr : (obj.Code keccak db).2.address = obj.address := by rw [StateObject.Code_snd]
  have hdel' : (obj.Code keccak db).2.deleted = false := by rw [StateObject.Code_snd]; exact hdel
  exact journalled_modify ht hlive hdel (by trivial)
    (g := (·.setCode (Hash.ofBytes (obj.Code keccak db).2.data.codeHash) (obj.Code keccak db).1))
    (fun s => show s.revertEntry (.codeChange (obj.Code keccak db).2.address _ _) = _ by rw [haddr]; rfl) haddr hdel' codeHash.length_bytes
    (StateObject.same_setCode_Code obj (ht.codeHash _ _ hlive) codeHash code) hdel'

/-- `storageChange`: undone, the slot reads the value read before. -/
theorem journalled_storageChange {obj : StateObject Address} (hlive : t.stateObjects obj.address = some obj)
    (hdel : obj.deleted = false) (key value : Hash) :
    Journalled keccak db t (obj.SetState db t key value) := by
  obtain ⟨c, hc⟩ := @StateObject.GetState_snd _ db obj key
  have haddr : (obj.GetState db key).2.address = obj.address := by rw [hc]
  have hdel' : (obj.GetState db key).2.deleted = false := by rw [hc]; exact hdel
  have hcode : (obj.GetState db key).2.data.codeHash.length = HashLength := by
    rw [hc]; exact ht.codeHash obj.address obj hlive
  exact journalled_modify ht hlive hdel (by trivial) (g := (·.setState key (obj.GetState db key).1))
    (fun s => show s.revertEntry (.storageChange (obj.GetState db key).2.address _ _) = _ by rw [haddr]; rfl) haddr hdel' hcode (StateObject.same_setState_GetState obj key value) hdel'

/-- `createObject` at an address: the new object is live there, and undoing the journal
takes it back, or puts back the object it replaced. -/
theorem journalled_createObject (addr : Address) :
    Journalled keccak db t (t.createObject keccak addr).2.2 ∧
      (t.createObject keccak addr).2.2.stateObjects addr = some (t.createObject keccak addr).1 := by
  have hj : Journalled keccak db t (t.getStateObject addr).2 := journalled_getStateObject ht addr
  obtain ⟨haddr, hdel, hcode⟩ := @createObject_fst _ _ keccak t addr
  cases hl : t.lookup addr with
  | none =>
    rw [createObject_of_none hl]
    exact ⟨hj.trans (journalled_create hj.wf (by rw [lookup_getStateObject]; exact hl) haddr hdel hcode),
      by simp [setStateObject, haddr]⟩
  | some prev =>
    rw [createObject_of_some hl]
    obtain ⟨hpaddr, hpdel, -⟩ := ht.toObjectsWf.lookup hl
    exact ⟨hj.trans (journalled_reset hj.wf (by rw [hpaddr]; exact stateObjects_getStateObject hl) hpdel
      (haddr.trans hpaddr.symm) hdel hcode), by simp [setStateObject, haddr]⟩

/-- `GetOrNewStateObject` gives an object live at its address. -/
theorem journalled_GetOrNewStateObject (addr : Address) :
    Journalled keccak db t (t.GetOrNewStateObject keccak addr).2 ∧
      (t.GetOrNewStateObject keccak addr).2.stateObjects (t.GetOrNewStateObject keccak addr).1.address =
        some (t.GetOrNewStateObject keccak addr).1 ∧ (t.GetOrNewStateObject keccak addr).1.deleted = false := by
  have hj : Journalled keccak db t (t.getStateObject addr).2 := journalled_getStateObject ht addr
  unfold GetOrNewStateObject
  rw [getStateObject_eq]
  cases hl : t.lookup addr with
  | none =>
    have hl' : (t.getStateObject addr).2.lookup addr = none := by rw [lookup_getStateObject]; exact hl
    obtain ⟨hc, hlive⟩ := journalled_createObject hj.wf addr
    obtain ⟨haddr, hdel, -⟩ := @createObject_fst _ _ keccak (t.getStateObject addr).2 addr
    dsimp only
    rw [createObject_of_none hl'] at hc hlive haddr hdel ⊢
    exact ⟨hj.trans hc, by rw [haddr]; exact hlive, hdel⟩
  | some obj =>
    obtain ⟨haddr, hdel, -⟩ := ht.toObjectsWf.lookup hl
    dsimp only
    rw [if_neg (by rw [hdel]; decide)]
    exact ⟨hj, by rw [haddr]; exact stateObjects_getStateObject hl, hdel⟩

/-! ### One lemma per change of the state database -/

theorem journalled_SetBalance (addr : Address) (amount : Int) :
    Journalled keccak db t (t.SetBalance keccak addr amount) := by
  obtain ⟨hj, hlive, hdel⟩ := @journalled_GetOrNewStateObject _ _ keccak db t ht addr
  exact hj.trans (journalled_balanceChange hj.wf hlive hdel amount)

theorem journalled_SetNonce (addr : Address) (nonce : UInt64) :
    Journalled keccak db t (t.SetNonce keccak addr nonce) := by
  obtain ⟨hj, hlive, hdel⟩ := @journalled_GetOrNewStateObject _ _ keccak db t ht addr
  exact hj.trans (journalled_nonceChange hj.wf hlive hdel nonce)

theorem journalled_SetCode (addr : Address) (code : Option (List UInt8)) :
    Journalled keccak db t (t.SetCode keccak db addr code) := by
  obtain ⟨hj, hlive, hdel⟩ := @journalled_GetOrNewStateObject _ _ keccak db t ht addr
  exact hj.trans (journalled_codeChange hj.wf hlive hdel _ code)

theorem journalled_SetState (addr : Address) (key value : Hash) :
    Journalled keccak db t (t.SetState keccak db addr key value) := by
  obtain ⟨hj, hlive, hdel⟩ := @journalled_GetOrNewStateObject _ _ keccak db t ht addr
  exact hj.trans (journalled_storageChange hj.wf hlive hdel key value)

/-- `AddBalance`: a zero amount at most touches the account. -/
theorem journalled_AddBalance (addr : Address) (amount : Int) :
    Journalled keccak db t (t.AddBalance keccak addr amount) := by
  obtain ⟨hj, hlive, hdel⟩ := @journalled_GetOrNewStateObject _ _ keccak db t ht addr
  refine hj.trans ?_
  show Journalled keccak db _ ((t.GetOrNewStateObject keccak addr).1.AddBalance keccak
    (t.GetOrNewStateObject keccak addr).2 amount)
  unfold StateObject.AddBalance
  split
  · split
    · exact journalled_touch hj.wf _
    · exact Journalled.refl hj.wf
  · exact journalled_balanceChange hj.wf hlive hdel _

theorem journalled_SubBalance (addr : Address) (amount : Int) :
    Journalled keccak db t (t.SubBalance keccak addr amount) := by
  obtain ⟨hj, hlive, hdel⟩ := @journalled_GetOrNewStateObject _ _ keccak db t ht addr
  refine hj.trans ?_
  show Journalled keccak db _ ((t.GetOrNewStateObject keccak addr).1.SubBalance
    (t.GetOrNewStateObject keccak addr).2 amount)
  unfold StateObject.SubBalance
  split
  · exact Journalled.refl hj.wf
  · exact journalled_balanceChange hj.wf hlive hdel _

/-- `Suicide` of an account that is not there changes nothing the reads see. -/
theorem journalled_Suicide (addr : Address) : Journalled keccak db t (t.Suicide addr).2 := by
  have hj : Journalled keccak db t (t.getStateObject addr).2 := journalled_getStateObject ht addr
  unfold Suicide
  rw [getStateObject_eq]
  cases hl : t.lookup addr with
  | none => exact hj
  | some obj =>
    obtain ⟨haddr, hdel, -⟩ := ht.toObjectsWf.lookup hl
    have hlive : (t.getStateObject addr).2.stateObjects obj.address = some obj := by
      rw [haddr]
      exact stateObjects_getStateObject hl
    have hsuicide := @journalled_suicide _ _ keccak db _ hj.wf _ hlive hdel
    rw [haddr] at hsuicide
    exact hj.trans hsuicide

/-- `CreateAccount` over an account: the new object, with the old balance, is undone by
putting the old one back. -/
theorem journalled_CreateAccount (addr : Address) : Journalled keccak db t (t.CreateAccount keccak addr) := by
  have hj : Journalled keccak db t (t.getStateObject addr).2 := journalled_getStateObject ht addr
  obtain ⟨haddr, hdel, hcode⟩ := @createObject_fst _ _ keccak t addr
  unfold CreateAccount
  cases hl : t.lookup addr with
  | none =>
    rw [createObject_of_none hl]
    exact hj.trans (journalled_create hj.wf (by rw [lookup_getStateObject]; exact hl) haddr hdel hcode)
  | some prev =>
    rw [createObject_of_some hl]
    obtain ⟨hpaddr, hpdel, -⟩ := ht.toObjectsWf.lookup hl
    dsimp only
    rw [setStateObject_setStateObject _ (by rfl)]
    exact hj.trans (journalled_reset hj.wf (by rw [hpaddr]; exact stateObjects_getStateObject hl) hpdel
      (haddr.trans hpaddr.symm) hdel hcode)

end Steps

/-! ## Snapshots and reverts -/

/-- Undoing an entry keeps the revisions. -/
theorem revertEntry_revisions {s s' : StateDB Address} {entry : JournalEntry Address}
    (h : s.revertEntry entry = some s') :
    s'.validRevisions = s.validRevisions ∧ s'.nextRevisionId = s.nextRevisionId := by
  -- reading an account from the trie keeps them
  have hget : ∀ addr, (s.getStateObject addr).2.validRevisions = s.validRevisions ∧
      (s.getStateObject addr).2.nextRevisionId = s.nextRevisionId := fun addr => by
    rcases getStateObject_snd s addr with h | ⟨_, -, -, h⟩ <;> rw [h] <;> exact ⟨rfl, rfl⟩
  cases entry with
  | suicideChange account prev prevbalance =>
    simp only [StateDB.revertEntry] at h
    rw [getStateObject_eq] at h
    cases hl : s.lookup account <;> rw [hl] at h <;> cases h <;> exact hget account
  | balanceChange account _ | nonceChange account _ | codeChange account _ _ | storageChange account _ _ =>
    rw [StateDB.revertEntry, modifyStateObject_eq] at h
    obtain ⟨obj, -, rfl⟩ := Option.map_eq_some_iff.mp h
    exact hget account
  | createObjectChange _ | resetObjectChange _ | refundChange _ | addLogChange _ | addPreimageChange _
    | touchChange _ =>
    cases h
    exact ⟨rfl, rfl⟩

theorem revertEntries_revisions {s s' : StateDB Address} {entries : List (JournalEntry Address)}
    (h : s.revertEntries entries = some s') :
    s'.validRevisions = s.validRevisions ∧ s'.nextRevisionId = s.nextRevisionId := by
  induction entries generalizing s with
  | nil =>
    cases h
    exact ⟨rfl, rfl⟩
  | cons entry entries ih =>
    obtain ⟨s₁, h₁, h'⟩ := Option.bind_eq_some_iff.mp h
    obtain ⟨hr, hn⟩ := revertEntry_revisions h₁
    obtain ⟨hr', hn'⟩ := ih h'
    exact ⟨hr'.trans hr, hn'.trans hn⟩

theorem ObjectsWf.revertEntries {s t : StateDB Address} (hs : s.ObjectsWf)
    {entries : List (JournalEntry Address)} (he : ∀ entry ∈ entries, entry.Wf)
    (h : s.revertEntries entries = some t) : t.ObjectsWf := by
  induction entries generalizing s with
  | nil =>
    cases h
    exact hs
  | cons entry entries ih =>
    obtain ⟨s₁, h₁, h'⟩ := Option.bind_eq_some_iff.mp h
    exact ih (hs.revertEntry (he entry List.mem_cons_self) h₁)
      (fun e he' => he e (List.mem_cons_of_mem _ he')) h'

/-- Revisions in the order of their indices are in the order of their ids and marks. -/
theorem Wf.revision_lt {s : StateDB Address} (hs : s.Wf) {a b : Nat} {r r' : Revision}
    (ha : s.validRevisions[a]? = some r) (hb : s.validRevisions[b]? = some r') (hab : a < b) :
    r.id < r'.id ∧ r.journalIndex ≤ r'.journalIndex := by
  obtain ⟨ha', rfl⟩ := List.getElem?_eq_some_iff.mp ha
  obtain ⟨hb', rfl⟩ := List.getElem?_eq_some_iff.mp hb
  exact List.pairwise_iff_getElem.mp hs.revisions a b ha' hb' hab

/-- `Snapshot` keeps the invariant: its revision comes after every other, at the journal's
length. -/
theorem Wf.Snapshot {s : StateDB Address} (hs : s.Wf) : s.Snapshot.2.Wf := by
  refine ⟨hs.toObjectsWf.of_eq rfl rfl, hs.entries, ?_, fun r hr => ?_, fun r hr => ?_⟩
  · refine List.pairwise_append.mpr ⟨hs.revisions, List.pairwise_singleton _ _, fun r hr r' hr' => ?_⟩
    rw [List.mem_singleton.mp hr']
    exact ⟨hs.ids r hr, hs.indices r hr⟩
  · rcases List.mem_append.mp hr with hr | hr
    · exact Nat.lt_succ_of_lt (hs.ids r hr)
    · rw [List.mem_singleton.mp hr]
      exact Nat.lt_succ_self _
  · rcases List.mem_append.mp hr with hr | hr
    · exact hs.indices r hr
    · rw [List.mem_singleton.mp hr]
      exact Nat.le_refl _

/-- What `RevertToSnapshot` does when it does not panic: at the index the bisection finds
is a revision of the id, the journal is undone to its mark, and the revisions from it on
are dropped. -/
theorem RevertToSnapshot_some {s s' : StateDB Address} {revid : Nat} (h : s.RevertToSnapshot revid = some s') :
    ∃ i rev w, s.validRevisions[i]? = some rev ∧ rev.id = revid ∧ s.revertJournal rev.journalIndex = some w ∧
      s' = { w with validRevisions := s.validRevisions.take i } := by
  unfold RevertToSnapshot at h
  dsimp only at h
  split at h
  · cases h
  · next rev hrev =>
    split at h
    · cases h
    · next hid =>
      obtain ⟨w, hw, rfl⟩ := Option.map_eq_some_iff.mp h
      exact ⟨_, rev, w, hrev, not_not.mp hid, hw, rfl⟩

/-- The bisection of `RevertToSnapshot` finds a revision where it is, over revisions in
the order of their ids. -/
theorem RevertToSnapshot_eq {s : StateDB Address} (hs : s.Wf) {i : Nat} {rev : Revision}
    (hrev : s.validRevisions[i]? = some rev) :
    s.RevertToSnapshot rev.id =
      (s.revertJournal rev.journalIndex).map fun s' => { s' with validRevisions := s.validRevisions.take i } := by
  have hi : i < s.validRevisions.length := (List.getElem?_eq_some_iff.mp hrev).1
  -- the id at an index below the length, as the bisection reads it
  have hid : ∀ j (hj : j < s.validRevisions.length), (s.validRevisions.getD j ⟨0, 0⟩).id = s.validRevisions[j].id :=
    fun j hj => by rw [List.getD_eq_getElem _ _ hj]
  have hmono : Search.MonotoneBelow s.validRevisions.length
      fun j => decide (rev.id ≤ (s.validRevisions.getD j ⟨0, 0⟩).id) := by
    intro a b hab hb ha
    rcases Nat.eq_or_lt_of_le hab with rfl | hab
    · exact ha
    · have hlt := (hs.revision_lt (List.getElem?_eq_getElem (by omega)) (List.getElem?_eq_getElem hb) hab).1
      simp only [decide_eq_true_eq, hid a (by omega), hid b hb] at ha ⊢
      omega
  have hfirst : Search.IsFirst s.validRevisions.length
      (fun j => decide (rev.id ≤ (s.validRevisions.getD j ⟨0, 0⟩).id)) i := by
    refine ⟨Nat.le_of_lt hi, fun j hj => ?_, fun _ => ?_⟩
    · have hlt := (hs.revision_lt (List.getElem?_eq_getElem (by omega)) hrev hj).1
      simp only [decide_eq_false_iff_not, Nat.not_le, hid j (by omega)]
      exact hlt
    · simp [List.getD_eq_getElem?_getD, hrev]
  unfold RevertToSnapshot
  rw [Search.search_eq hmono hfirst]
  dsimp only
  rw [hrev]
  simp

/-- Where no revision has the id, `RevertToSnapshot` panics. -/
theorem RevertToSnapshot_none {s : StateDB Address} {revid : Nat} (h : ∀ r ∈ s.validRevisions, r.id ≠ revid) :
    s.RevertToSnapshot revid = none := by
  cases hrevert : s.RevertToSnapshot revid with
  | none => rfl
  | some s' =>
    obtain ⟨i, rev, -, hrev, hid, -⟩ := RevertToSnapshot_some hrevert
    exact absurd hid (h rev (List.mem_of_getElem? hrev))

/-- Undoing the journal down to the mark of a valid revision and dropping the revisions from
it on keeps the invariant. -/
theorem Wf.revert {t : StateDB Address} (ht : t.Wf) {i : Nat} {rev : Revision}
    (hrev : t.validRevisions[i]? = some rev) {w : StateDB Address}
    (hw : t.revertJournal rev.journalIndex = some w) :
    ({ w with validRevisions := t.validRevisions.take i } : StateDB Address).Wf := by
  have hmark : rev.journalIndex ≤ t.journal.length := ht.indices rev (List.mem_of_getElem? hrev)
  unfold StateDB.revertJournal at hw
  obtain ⟨w₀, hw₀, rfl⟩ := Option.map_eq_some_iff.mp hw
  have hobj : w₀.ObjectsWf := ht.toObjectsWf.revertEntries
    (fun e he => ht.entries e (List.mem_of_mem_drop (List.mem_reverse.mp he))) hw₀
  refine ⟨hobj.of_eq rfl rfl, fun e he => ht.entries e (List.mem_of_mem_take he),
    ht.revisions.sublist (List.take_sublist _ _), fun r hr => ?_, fun r hr => ?_⟩
  · rw [(revertEntries_revisions hw₀).2]
    exact ht.ids r (List.mem_of_mem_take hr)
  · -- a revision before the one reverted to marks the journal no further than it
    obtain ⟨j, hj, rfl⟩ := List.mem_take_iff_getElem.mp hr
    have hjlen : j < t.validRevisions.length := by omega
    have hle := (ht.revision_lt (List.getElem?_eq_getElem hjlen) hrev (by omega)).2
    simp only [List.length_take_of_le hmark]
    exact hle

/-- `New` keeps the invariant, over a trie whose accounts have code hashes of 32 bytes. -/
theorem wf_New {trie : Address → Option Account}
    (htrie : ∀ addr data, trie addr = some data → data.codeHash.length = HashLength) : (New trie).Wf :=
  ⟨⟨fun _ _ h => (by cases h), fun _ _ h => (by cases h), fun _ _ h => (by cases h), htrie⟩,
    fun _ h => (by cases h), List.Pairwise.nil, fun _ h => (by cases h), fun _ h => (by cases h)⟩

/-! ## A run after a snapshot -/

variable (keccak db) in
/-- The run after `Snapshot` on `s`: the snapshot's revision is valid with only revisions
after it, and the journal undoes to a state that agrees with `s`. -/
structure Tracks (s t : StateDB Address) : Prop where
  wf : t.Wf
  revisions : ∃ later, t.validRevisions = s.validRevisions ++ ⟨s.nextRevisionId, s.journal.length⟩ :: later
  undoes : Undoes keccak db s.journal.length s t

theorem tracks_Snapshot {s : StateDB Address} (hs : s.Wf) : Tracks keccak db s s.Snapshot.2 :=
  ⟨hs.Snapshot, ⟨[], rfl⟩, (undoes_self s).of_agrees (Agrees.of_objects rfl rfl rfl rfl rfl rfl rfl rfl rfl) rfl⟩

namespace Tracks

variable {s t : StateDB Address} (h : Tracks keccak db s t)
include h

/-- The snapshot's revision, after the revisions taken before it. -/
theorem getElem?_revision :
    t.validRevisions[s.validRevisions.length]? = some ⟨s.nextRevisionId, s.journal.length⟩ := by
  obtain ⟨later, hl⟩ := h.revisions
  simp [hl]

theorem mark_le : s.journal.length ≤ t.journal.length :=
  h.wf.indices _ (List.mem_of_getElem? h.getElem?_revision)

theorem journalled {t' : StateDB Address} (hj : Journalled keccak db t t') : Tracks keccak db s t' :=
  ⟨hj.wf, by rw [hj.validRevisions]; exact h.revisions, h.undoes.trans hj.undoes hj.journal h.mark_le⟩

/-- A nested `Snapshot` adds a revision after the snapshot's. -/
theorem Snapshot : Tracks keccak db s t.Snapshot.2 := by
  obtain ⟨later, hl⟩ := h.revisions
  refine ⟨h.wf.Snapshot, ⟨later ++ [⟨t.nextRevisionId, t.journal.length⟩], ?_⟩,
    h.undoes.of_agrees (Agrees.of_objects rfl rfl rfl rfl rfl rfl rfl rfl rfl) rfl⟩
  simp [StateDB.Snapshot, hl]

/-- A revert to a revision taken after the snapshot's undoes the journal no further than
the snapshot's mark, and keeps the snapshot's revision. -/
theorem RevertToSnapshot {revid : Nat} {t' : StateDB Address} (hrevid : s.nextRevisionId < revid)
    (hrevert : t.RevertToSnapshot revid = some t') : Tracks keccak db s t' := by
  obtain ⟨i, rev, w, hrev, hid, hw, rfl⟩ := RevertToSnapshot_some hrevert
  obtain ⟨later, hl⟩ := h.revisions
  have hsnap := h.getElem?_revision
  -- the revision reverted to comes after the snapshot's, as the ids are in the order of the indices
  have hi : s.validRevisions.length < i := by
    rcases Nat.lt_trichotomy i s.validRevisions.length with hlt | heq | hgt
    · have hlt' : rev.id < s.nextRevisionId := (h.wf.revision_lt hrev hsnap hlt).1
      omega
    · rw [heq, hsnap] at hrev
      cases hrev
      exact absurd hid (Nat.ne_of_lt hrevid)
    · exact hgt
  have hmark := (h.wf.revision_lt hsnap hrev hi).2
  refine ⟨h.wf.revert hrev hw, ⟨later.take (i - s.validRevisions.length - 1), ?_⟩, ?_⟩
  · obtain ⟨m, rfl⟩ : ∃ m, i = s.validRevisions.length + (m + 1) := ⟨i - s.validRevisions.length - 1, by omega⟩
    simp [hl, List.take_length_add_append]
  · exact (h.undoes.revertJournal hmark (h.wf.indices rev (List.mem_of_getElem? hrev)) hw).of_agrees
      (Agrees.of_objects rfl rfl rfl rfl rfl rfl rfl rfl rfl) rfl

/-- One call of the run, a revert only to a revision after the snapshot's. -/
theorem run {t' : StateDB Address} (a : Action Address)
    (ha : ∀ revid, a = .RevertToSnapshot revid → s.nextRevisionId < revid)
    (hrun : a.run keccak db t = some t') : Tracks keccak db s t' := by
  cases a with
  | AddBalance addr amount =>
    cases hrun
    exact h.journalled (journalled_AddBalance h.wf addr amount)
  | SubBalance addr amount =>
    cases hrun
    exact h.journalled (journalled_SubBalance h.wf addr amount)
  | SetBalance addr amount =>
    cases hrun
    exact h.journalled (journalled_SetBalance h.wf addr amount)
  | SetNonce addr nonce =>
    cases hrun
    exact h.journalled (journalled_SetNonce h.wf addr nonce)
  | SetCode addr code =>
    cases hrun
    exact h.journalled (journalled_SetCode h.wf addr code)
  | SetState addr key value =>
    cases hrun
    exact h.journalled (journalled_SetState h.wf addr key value)
  | Suicide addr =>
    cases hrun
    exact h.journalled (journalled_Suicide h.wf addr)
  | CreateAccount addr =>
    cases hrun
    exact h.journalled (journalled_CreateAccount h.wf addr)
  | AddRefund gas =>
    cases hrun
    exact h.journalled (journalled_AddRefund h.wf gas)
  | AddLog log =>
    cases hrun
    exact h.journalled (journalled_AddLog h.wf log)
  | AddPreimage hash preimage =>
    cases hrun
    exact h.journalled (journalled_AddPreimage h.wf hash preimage)
  | Snapshot =>
    cases hrun
    exact h.Snapshot
  | RevertToSnapshot revid => exact h.RevertToSnapshot (ha revid rfl) hrun

omit h in
/-- The whole run, by induction over its calls. -/
theorem runs {actions : List (Action Address)}
    (hnested : ∀ revid, .RevertToSnapshot revid ∈ actions → s.nextRevisionId < revid) :
    ∀ {t t' : StateDB Address}, Tracks keccak db s t → Action.runs keccak db t actions = some t' →
      Tracks keccak db s t' := by
  induction actions with
  | nil =>
    intro t t' h hruns
    cases hruns
    exact h
  | cons a actions ih =>
    intro t t' h hruns
    obtain ⟨t₁, h₁, h'⟩ := Option.bind_eq_some_iff.mp hruns
    have hnested' : ∀ revid, .RevertToSnapshot revid ∈ actions → s.nextRevisionId < revid :=
      fun revid hr => hnested revid (List.mem_cons_of_mem _ hr)
    exact ih hnested' (h.run a (fun revid ha => hnested revid (ha ▸ List.mem_cons_self)) h₁) h'

/-- Reverting to the snapshot's revision gives back a state that agrees with `s`, with the
revisions taken before the snapshot. -/
theorem revert : ∃ u, t.RevertToSnapshot s.nextRevisionId = some u ∧ Agrees keccak db u s ∧
    u.validRevisions = s.validRevisions := by
  obtain ⟨v, hv, hvs⟩ := h.undoes
  obtain ⟨later, hl⟩ := h.revisions
  refine ⟨{ v with validRevisions := s.validRevisions }, ?_,
    (Agrees.of_objects (t := { v with validRevisions := s.validRevisions }) (u := v)
      rfl rfl rfl rfl rfl rfl rfl rfl rfl).trans hvs, rfl⟩
  have hrevert := RevertToSnapshot_eq h.wf h.getElem?_revision
  rw [hv] at hrevert
  simpa [hl] using hrevert

end Tracks

/-! ## What the reads see -/

variable (keccak db) in
/-- The reads of the state database agree on two states. -/
structure SameReads (u s : StateDB Address) : Prop where
  Exist : ∀ addr, u.Exist addr = s.Exist addr
  Empty : ∀ addr, u.Empty keccak addr = s.Empty keccak addr
  HasSuicided : ∀ addr, u.HasSuicided addr = s.HasSuicided addr
  GetBalance : ∀ addr, u.GetBalance addr = s.GetBalance addr
  GetNonce : ∀ addr, u.GetNonce addr = s.GetNonce addr
  GetCode : ∀ addr, u.GetCode keccak db addr = s.GetCode keccak db addr
  GetCodeHash : ∀ addr, u.GetCodeHash addr = s.GetCodeHash addr
  GetCodeSize : ∀ addr, u.GetCodeSize db addr = s.GetCodeSize db addr
  GetState : ∀ addr key, u.GetState db addr key = s.GetState db addr key
  GetRefund : u.GetRefund = s.GetRefund
  GetLogs : ∀ hash, u.GetLogs hash = s.GetLogs hash
  Preimages : u.Preimages = s.Preimages

/-- What a getter of `statedb.go` makes of an account: `d` when there is none, `f` of its
object otherwise. -/
def objectRead {β : Type} (d : β) (f : StateObject Address → β) :
    Option (StateObject Address) → β
  | none => d
  | some obj => f obj

/-- A read of the object at an address, on states that agree. -/
theorem Agrees.read {t u : StateDB Address} (h : Agrees keccak db t u) {β : Type}
    (f : Option (StateObject Address) → β)
    (hf : ∀ o o', StateObject.Same keccak db o o' → f (some o) = f (some o')) (addr : Address) :
    f (t.getStateObject addr).1 = f (u.getStateObject addr).1 := by
  rw [getStateObject_fst, getStateObject_fst]
  rcases rel_cases (h.objects addr) with ⟨ht, hu⟩ | ⟨o, o', ht, hu, hs⟩
  · rw [ht, hu]
  · rw [ht, hu]
    exact hf o o' hs

/-- States that agree read the same. -/
theorem Agrees.sameReads {t u : StateDB Address} (h : Agrees keccak db t u) : SameReads keccak db t u where
  Exist := h.read (fun x => x.isSome) fun _ _ _ => rfl
  Empty := h.read (objectRead true fun so => so.empty keccak)
    fun _ _ hs => by simp only [objectRead, StateObject.empty, hs.nonce, hs.balance, hs.codeHash]
  HasSuicided := h.read (objectRead false fun obj => obj.suicided)
    fun _ _ hs => hs.suicided
  GetBalance := h.read (objectRead 0 fun obj => obj.data.balance)
    fun _ _ hs => hs.balance
  GetNonce := h.read (objectRead 0 fun obj => obj.data.nonce)
    fun _ _ hs => hs.nonce
  GetCode := h.read (objectRead none fun obj => (obj.Code keccak db).1)
    fun _ _ hs => hs.code
  GetCodeHash := h.read (objectRead Hash.zero fun obj => Hash.ofBytes obj.data.codeHash)
    fun _ _ hs => by simp only [objectRead, hs.codeHash]
  GetCodeSize := h.read (objectRead 0 fun obj => obj.CodeSize db)
    fun _ _ hs => hs.codeSize
  GetState := fun addr key => h.read (objectRead Hash.zero fun obj => (obj.GetState db key).1)
    (fun _ _ hs => hs.state key) addr
  GetRefund := h.refund
  GetLogs := fun hash => by simp only [GetLogs, h.logs]
  Preimages := h.preimages

/-! ## Reverting to a snapshot -/

variable (keccak db) in
/-- **Snapshots revert exactly.**  After `Snapshot()` on a state that keeps the invariant,
any run of changes, with nested snapshots and reverts only to them, and
`RevertToSnapshot(id)` gives back a state that every read sees as the state at the
snapshot, with valid exactly the revisions taken before it. -/
theorem snapshot_revert (s : StateDB Address) (hs : s.Wf) (actions : List (Action Address))
    (hnested : ∀ revid, .RevertToSnapshot revid ∈ actions → s.Snapshot.1 < revid) {t : StateDB Address}
    (ht : Action.runs keccak db s.Snapshot.2 actions = some t) :
    ∃ u, t.RevertToSnapshot s.Snapshot.1 = some u ∧ SameReads keccak db u s ∧
      u.validRevisions = s.validRevisions := by
  obtain ⟨u, hu, hagree, hrev⟩ := (Tracks.runs hnested (tracks_Snapshot hs) ht).revert
  exact ⟨u, hu, hagree.sameReads, hrev⟩

/-- A run with a nested snapshot and a revert to it, over an empty trie. -/
theorem snapshot_revert_nested :
    (New (fun _ => none) : StateDB Nat).Wf ∧
      (∀ revid, Action.RevertToSnapshot revid ∈
          [.SetNonce 1 5, .Snapshot, .AddBalance 2 7, .RevertToSnapshot 1, .AddRefund 3] →
        (New (fun _ => none) : StateDB Nat).Snapshot.1 < revid) ∧
      ∃ u, ((Action.runs (fun _ => Hash.zero) ⟨fun _ => none, fun _ _ => none⟩ (New (fun _ => none)).Snapshot.2
          [.SetNonce 1 5, .Snapshot, .AddBalance 2 7, .RevertToSnapshot 1, .AddRefund 3]).getD
            (New (fun _ => none))).RevertToSnapshot (New (fun _ => none) : StateDB Nat).Snapshot.1 = some u ∧
        SameReads (fun _ => Hash.zero) ⟨fun _ => none, fun _ _ => none⟩ u (New (fun _ => none)) ∧
        u.validRevisions = (New (fun _ => none) : StateDB Nat).validRevisions := by
  refine ⟨?hwf, ?hnested, snapshot_revert _ _ _ ?hwf _ ?hnested rfl⟩
  case hwf => exact wf_New fun _ _ h => by cases h
  case hnested =>
    intro revid hr
    simp only [List.mem_cons, reduceCtorEq, Action.RevertToSnapshot.injEq, List.not_mem_nil, false_or,
      or_false] at hr
    subst hr
    decide

/-- After `RevertToSnapshot(id)` the revision `id` is no longer valid either: reverting to
it again panics. -/
theorem snapshot_revert_twice :
    ((New (fun _ => none) : StateDB Nat).Snapshot.2.RevertToSnapshot 0).isSome = true ∧
      ((New (fun _ => none) : StateDB Nat).Snapshot.2.RevertToSnapshot 0).bind (·.RevertToSnapshot 0) = none :=
  ⟨rfl, rfl⟩

end StateDB

end Atlantis.State
