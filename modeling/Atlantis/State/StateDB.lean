import Atlantis.State.Object
import Atlantis.Lib.Search

/-!
# The state database and its journal

`core/state/statedb.go` and `core/state/journal.go`.  The state database keeps the live
state objects over the account trie, the refund counter, the logs and the preimages.
Every change to them appends to the journal an entry that knows how to undo it;
`Snapshot` marks the journal's length as a revision, and `RevertToSnapshot` undoes the
entries after the revision's mark, last first, and drops the revision and every revision
after it.

The account trie is not written by any change modelled here (only by `Finalise` and
`Commit`), so it is a map from addresses to the accounts it holds, decoded: `none` where it
holds none, or the read or the decoding fails.  The journal's count of dirty addresses, the
set of dirty objects and the remembered database error are read by no function modelled
here and are left out.  A nil pointer dereference, and a revision that cannot be reverted,
are panics: the functions that can panic return an `Option`.
-/

namespace Atlantis.State

/-- `journalEntry`: a change and what it takes to undo it. -/
inductive JournalEntry (Address : Type) where
  | createObjectChange (account : Address)
  | resetObjectChange (prev : StateObject Address)
  | suicideChange (account : Address) (prev : Bool) (prevbalance : Int)
  | balanceChange (account : Address) (prev : Int)
  | nonceChange (account : Address) (prev : UInt64)
  | storageChange (account : Address) (key prevalue : Hash)
  | codeChange (account : Address) (prevcode : Option (List UInt8)) (prevhash : List UInt8)
  | refundChange (prev : UInt64)
  | addLogChange (txhash : Hash)
  | addPreimageChange (hash : Hash)
  | touchChange (account : Address)

/-- `types.Log`: the fields a contract gives, and those `AddLog` fills in.  The block
number and the removed flag are set by no function modelled here and are left out. -/
structure Log (Address : Type) where
  address : Address
  topics : List Hash
  data : List UInt8
  txHash : Hash
  txIndex : Nat
  blockHash : Hash
  index : Nat

/-- `revision`: a snapshot's id and the journal's length when it was taken. -/
structure Revision where
  id : Nat
  journalIndex : Nat

/-- `StateDB`.  A log list empty under a hash is no entry of the source's map. -/
structure StateDB (Address : Type) where
  trie : Address → Option Account
  stateObjects : Address → Option (StateObject Address)
  refund : UInt64
  thash : Hash
  bhash : Hash
  txIndex : Nat
  logs : Hash → List (Log Address)
  logSize : Nat
  preimages : Hash → Option (List UInt8)
  journal : List (JournalEntry Address)
  validRevisions : List Revision
  nextRevisionId : Nat

namespace StateDB

variable {Address : Type} [DecidableEq Address] (keccak : List UInt8 → Hash) (db : Database)

/-- `New`: the state database over the account trie of a root, opened; nothing live,
journalled or logged. -/
def New (trie : Address → Option Account) : StateDB Address :=
  ⟨trie, fun _ => none, 0, Hash.zero, Hash.zero, 0, fun _ => [], 0, fun _ => none, [], [], 0⟩

/-- `journal.append`. -/
def append (s : StateDB Address) (entry : JournalEntry Address) : StateDB Address :=
  { s with journal := s.journal ++ [entry] }

/-- `setStateObject`: the object becomes the live one at its address.  The methods of an
object change it where it lives, which is under its own address: they end with it. -/
def setStateObject (s : StateDB Address) (object : StateObject Address) : StateDB Address :=
  { s with stateObjects := Function.update s.stateObjects object.address (some object) }

/-- `getStateObject`: the live object, unless it is deleted; else the account the trie
holds, which becomes live. -/
def getStateObject (s : StateDB Address) (addr : Address) :
    Option (StateObject Address) × StateDB Address :=
  match s.stateObjects addr with
  | some obj => if obj.deleted then (none, s) else (some obj, s)
  | none =>
    match s.trie addr with
    | none => (none, s)
    | some data =>
      let obj := StateObject.newObject addr data
      (some obj, s.setStateObject obj)

/-- `createObject`: a fresh object replaces the one at the address, if any, which is
returned and journalled. -/
def createObject (s : StateDB Address) (addr : Address) :
    StateObject Address × Option (StateObject Address) × StateDB Address :=
  let (prev, s) := s.getStateObject addr
  -- `newObject` fills in the balance and code hash of `Account{}`
  let newobj := (StateObject.newObject addr ⟨0, 0, Hash.zero, emptyCodeHash keccak⟩).setNonce 0
  let s := match prev with
    | none => s.append (.createObjectChange addr)
    | some prev => s.append (.resetObjectChange prev)
  (newobj, prev, s.setStateObject newobj)

/-- `GetOrNewStateObject`. -/
def GetOrNewStateObject (s : StateDB Address) (addr : Address) :
    StateObject Address × StateDB Address :=
  match s.getStateObject addr with
  | (some obj, s) =>
    if obj.deleted then
      let (obj, _, s) := createObject keccak s addr
      (obj, s)
    else (obj, s)
  | (none, s) =>
    let (obj, _, s) := createObject keccak s addr
    (obj, s)

/-- `CreateAccount`: a fresh object, which keeps the balance of the one it replaces. -/
def CreateAccount (s : StateDB Address) (addr : Address) : StateDB Address :=
  let (new, prev, s) := createObject keccak s addr
  match prev with
  | none => s
  | some prev => s.setStateObject (new.setBalance prev.data.balance)

end StateDB

/-! ## The journalled changes of a state object -/

namespace StateObject

variable {Address : Type} [DecidableEq Address] (keccak : List UInt8 → Hash) (db : Database)

/-- `touch`. -/
def touch (o : StateObject Address) (s : StateDB Address) : StateDB Address :=
  s.append (.touchChange o.address)

/-- `SetBalance`. -/
def SetBalance (o : StateObject Address) (s : StateDB Address) (amount : Int) : StateDB Address :=
  (s.append (.balanceChange o.address o.data.balance)).setStateObject (o.setBalance amount)

/-- `AddBalance`: a zero amount only touches an empty account. -/
def AddBalance (o : StateObject Address) (s : StateDB Address) (amount : Int) : StateDB Address :=
  if amount = 0 then
    if o.empty keccak then o.touch s else s
  else o.SetBalance s (o.data.balance + amount)

/-- `SubBalance`. -/
def SubBalance (o : StateObject Address) (s : StateDB Address) (amount : Int) : StateDB Address :=
  if amount = 0 then s else o.SetBalance s (o.data.balance - amount)

/-- `SetNonce`. -/
def SetNonce (o : StateObject Address) (s : StateDB Address) (nonce : UInt64) : StateDB Address :=
  (s.append (.nonceChange o.address o.data.nonce)).setStateObject (o.setNonce nonce)

/-- `SetCode`: the code before, as `Code` loads it, is journalled. -/
def SetCode (o : StateObject Address) (s : StateDB Address) (codeHash : Hash)
    (code : Option (List UInt8)) : StateDB Address :=
  let (prevcode, o) := o.Code keccak db
  (s.append (.codeChange o.address prevcode o.data.codeHash)).setStateObject (o.setCode codeHash code)

/-- `SetState`: the value before, as `GetState` reads it, is journalled. -/
def SetState (o : StateObject Address) (s : StateDB Address) (key value : Hash) : StateDB Address :=
  let (prevalue, o) := o.GetState db key
  (s.append (.storageChange o.address key prevalue)).setStateObject (o.setState key value)

end StateObject

/-! ## Undoing the journal -/

namespace StateDB

variable {Address : Type} [DecidableEq Address] (keccak : List UInt8 → Hash) (db : Database)

/-- `getStateObject(addr).f(...)`: a change to the object at an address, which panics
when there is none. -/
def modifyStateObject (s : StateDB Address) (addr : Address)
    (f : StateObject Address → StateObject Address) : Option (StateDB Address) :=
  match s.getStateObject addr with
  | (some obj, s) => some (s.setStateObject (f obj))
  | (none, _) => none

/-- `journalEntry.revert`. -/
def revertEntry (s : StateDB Address) : JournalEntry Address → Option (StateDB Address)
  | .createObjectChange account =>
    some { s with stateObjects := Function.update s.stateObjects account none }
  | .resetObjectChange prev => some (s.setStateObject prev)
  | .suicideChange account prev prevbalance =>
    -- unlike the other changes to an object, this one checks that the object is there
    match s.getStateObject account with
    | (some obj, s) => some (s.setStateObject ({ obj with suicided := prev }.setBalance prevbalance))
    | (none, s) => some s
  | .balanceChange account prev => s.modifyStateObject account (·.setBalance prev)
  | .nonceChange account prev => s.modifyStateObject account (·.setNonce prev)
  | .codeChange account prevcode prevhash =>
    s.modifyStateObject account (·.setCode (Hash.ofBytes prevhash) prevcode)
  | .storageChange account key prevalue => s.modifyStateObject account (·.setState key prevalue)
  | .refundChange prev => some { s with refund := prev }
  | .addLogChange txhash =>
    let logs := s.logs txhash
    some { s with
      logs := Function.update s.logs txhash (if logs.length = 1 then [] else logs.dropLast)
      logSize := s.logSize - 1 }
  | .addPreimageChange hash => some { s with preimages := Function.update s.preimages hash none }
  | .touchChange _ => some s

/-- The loop of `journal.revert`: the entries undone in the order given. -/
def revertEntries (s : StateDB Address) : List (JournalEntry Address) → Option (StateDB Address)
  | [] => some s
  | entry :: entries => (s.revertEntry entry).bind fun s => s.revertEntries entries

/-- `journal.revert`: the entries from the last down to index `snapshot` undone, and the
journal cut there. -/
def revertJournal (s : StateDB Address) (snapshot : Nat) : Option (StateDB Address) :=
  (s.revertEntries (s.journal.drop snapshot).reverse).map
    fun s' => { s' with journal := s.journal.take snapshot }

/-- `Snapshot`. -/
def Snapshot (s : StateDB Address) : Nat × StateDB Address :=
  let id := s.nextRevisionId
  (id, { s with
    nextRevisionId := s.nextRevisionId + 1
    validRevisions := s.validRevisions ++ [⟨id, s.journal.length⟩] })

/-- `RevertToSnapshot`: the revision is found by bisection over the revisions, which are in
the order of their ids; one that is not there cannot be reverted. -/
def RevertToSnapshot (s : StateDB Address) (revid : Nat) : Option (StateDB Address) :=
  let idx := Search.search s.validRevisions.length
    fun i => decide (revid ≤ (s.validRevisions.getD i ⟨0, 0⟩).id)
  match s.validRevisions[idx]? with
  | none => none
  | some rev =>
    if rev.id ≠ revid then none
    else (s.revertJournal rev.journalIndex).map fun s' =>
      { s' with validRevisions := s.validRevisions.take idx }

/-! ## Changes -/

/-- `AddLog`: the log gets the current transaction's hash and index, the block's hash and
its index among the logs. -/
def AddLog (s : StateDB Address) (log : Log Address) : StateDB Address :=
  let s := s.append (.addLogChange s.thash)
  let log := { log with txHash := s.thash, blockHash := s.bhash, txIndex := s.txIndex,
                        index := s.logSize }
  { s with logs := Function.update s.logs s.thash (s.logs s.thash ++ [log]),
           logSize := s.logSize + 1 }

/-- `AddPreimage`: only a preimage not yet recorded is added. -/
def AddPreimage (s : StateDB Address) (hash : Hash) (preimage : List UInt8) : StateDB Address :=
  match s.preimages hash with
  | some _ => s
  | none =>
    let s := s.append (.addPreimageChange hash)
    { s with preimages := Function.update s.preimages hash (some preimage) }

/-- `AddRefund`. -/
def AddRefund (s : StateDB Address) (gas : UInt64) : StateDB Address :=
  let s := s.append (.refundChange s.refund)
  { s with refund := s.refund + gas }

/-- `AddBalance`.  `GetOrNewStateObject` always gives an object, so the source's check
for nil is left out here and below. -/
def AddBalance (s : StateDB Address) (addr : Address) (amount : Int) : StateDB Address :=
  let (obj, s) := s.GetOrNewStateObject keccak addr
  obj.AddBalance keccak s amount

/-- `SubBalance`. -/
def SubBalance (s : StateDB Address) (addr : Address) (amount : Int) : StateDB Address :=
  let (obj, s) := s.GetOrNewStateObject keccak addr
  obj.SubBalance s amount

/-- `SetBalance`. -/
def SetBalance (s : StateDB Address) (addr : Address) (amount : Int) : StateDB Address :=
  let (obj, s) := s.GetOrNewStateObject keccak addr
  obj.SetBalance s amount

/-- `SetNonce`. -/
def SetNonce (s : StateDB Address) (addr : Address) (nonce : UInt64) : StateDB Address :=
  let (obj, s) := s.GetOrNewStateObject keccak addr
  obj.SetNonce s nonce

/-- `SetCode`. -/
def SetCode (s : StateDB Address) (addr : Address) (code : Option (List UInt8)) : StateDB Address :=
  let (obj, s) := s.GetOrNewStateObject keccak addr
  obj.SetCode keccak db s (keccak (code.getD [])) code

/-- `SetState`. -/
def SetState (s : StateDB Address) (addr : Address) (key value : Hash) : StateDB Address :=
  let (obj, s) := s.GetOrNewStateObject keccak addr
  obj.SetState db s key value

/-- `Suicide`: the account is marked and its balance cleared; there must be one. -/
def Suicide (s : StateDB Address) (addr : Address) : Bool × StateDB Address :=
  match s.getStateObject addr with
  | (none, s) => (false, s)
  | (some obj, s) =>
    let s := s.append (.suicideChange addr obj.suicided obj.data.balance)
    (true, s.setStateObject (obj.markSuicided.setBalance 0))

/-! ## Reads

The reads fill the caches of the objects as they go; they return here only what they
read. -/

/-- `Exist`: there is an account, also a suicided one. -/
def Exist (s : StateDB Address) (addr : Address) : Bool :=
  (s.getStateObject addr).1.isSome

/-- `Empty`: there is no account, or it is empty. -/
def Empty (s : StateDB Address) (addr : Address) : Bool :=
  match (s.getStateObject addr).1 with
  | none => true
  | some so => so.empty keccak

/-- `GetBalance`. -/
def GetBalance (s : StateDB Address) (addr : Address) : Int :=
  match (s.getStateObject addr).1 with
  | none => 0
  | some obj => obj.data.balance

/-- `GetNonce`. -/
def GetNonce (s : StateDB Address) (addr : Address) : UInt64 :=
  match (s.getStateObject addr).1 with
  | none => 0
  | some obj => obj.data.nonce

/-- `GetCode`. -/
def GetCode (s : StateDB Address) (addr : Address) : Option (List UInt8) :=
  match (s.getStateObject addr).1 with
  | none => none
  | some obj => (obj.Code keccak db).1

/-- `GetCodeSize`. -/
def GetCodeSize (s : StateDB Address) (addr : Address) : Nat :=
  match (s.getStateObject addr).1 with
  | none => 0
  | some obj => obj.CodeSize db

/-- `GetCodeHash`. -/
def GetCodeHash (s : StateDB Address) (addr : Address) : Hash :=
  match (s.getStateObject addr).1 with
  | none => Hash.zero
  | some obj => Hash.ofBytes obj.data.codeHash

/-- `GetState`. -/
def GetState (s : StateDB Address) (addr : Address) (key : Hash) : Hash :=
  match (s.getStateObject addr).1 with
  | none => Hash.zero
  | some obj => (obj.GetState db key).1

/-- `HasSuicided`. -/
def HasSuicided (s : StateDB Address) (addr : Address) : Bool :=
  match (s.getStateObject addr).1 with
  | none => false
  | some obj => obj.suicided

/-- `GetRefund`. -/
def GetRefund (s : StateDB Address) : UInt64 := s.refund

/-- `GetLogs`. -/
def GetLogs (s : StateDB Address) (hash : Hash) : List (Log Address) := s.logs hash

/-- `Preimages`. -/
def Preimages (s : StateDB Address) : Hash → Option (List UInt8) := s.preimages

end StateDB

/-! ## Runs -/

/-- The calls a run makes on the state database, as in the snapshot test of the source. -/
inductive Action (Address : Type) where
  | AddBalance (addr : Address) (amount : Int)
  | SubBalance (addr : Address) (amount : Int)
  | SetBalance (addr : Address) (amount : Int)
  | SetNonce (addr : Address) (nonce : UInt64)
  | SetCode (addr : Address) (code : Option (List UInt8))
  | SetState (addr : Address) (key value : Hash)
  | Suicide (addr : Address)
  | CreateAccount (addr : Address)
  | AddRefund (gas : UInt64)
  | AddLog (log : Log Address)
  | AddPreimage (hash : Hash) (preimage : List UInt8)
  | Snapshot
  | RevertToSnapshot (revid : Nat)

namespace Action

variable {Address : Type} [DecidableEq Address] (keccak : List UInt8 → Hash) (db : Database)

/-- One call; `none` when it panics. -/
def run (s : StateDB Address) : Action Address → Option (StateDB Address)
  | .AddBalance addr amount => some (s.AddBalance keccak addr amount)
  | .SubBalance addr amount => some (s.SubBalance keccak addr amount)
  | .SetBalance addr amount => some (s.SetBalance keccak addr amount)
  | .SetNonce addr nonce => some (s.SetNonce keccak addr nonce)
  | .SetCode addr code => some (s.SetCode keccak db addr code)
  | .SetState addr key value => some (s.SetState keccak db addr key value)
  | .Suicide addr => some (s.Suicide addr).2
  | .CreateAccount addr => some (s.CreateAccount keccak addr)
  | .AddRefund gas => some (s.AddRefund gas)
  | .AddLog log => some (s.AddLog log)
  | .AddPreimage hash preimage => some (s.AddPreimage hash preimage)
  | .Snapshot => some s.Snapshot.2
  | .RevertToSnapshot revid => s.RevertToSnapshot revid

/-- The calls one after the other; `none` when one panics. -/
def runs (s : StateDB Address) : List (Action Address) → Option (StateDB Address)
  | [] => some s
  | a :: as => (a.run keccak db s).bind fun s => runs s as

end Action

end Atlantis.State
