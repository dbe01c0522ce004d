import Atlantis.Common.Types

/-!
# Accounts and state objects

`core/state/state_object.go`: an account as the account trie stores it (`Account`), and the
live copy of it that the state database changes (`stateObject`), with its caches of the
contract code and of the storage slots read or written.

The database under the state is a pair of reads (`Database`): the code stored under a
code hash, and the value the storage trie of a root holds under a key.  A read that fails
gives `none`, as the source's nil slice or its error; the trie's own reading and the
decoding of what it holds are part of the read.  Addresses are of any type with decidable
equality, and `keccak` is a parameter.

Go's byte slices are lists of bytes, except the code of an object: whether it is nil or
not decides whether it has been loaded, and a nil code set by `SetCode` is not loaded, so
there it is an `Option`.  A balance is a `big.Int`, an integer.
-/

namespace Atlantis.State

/-- `Account`: the consensus representation of an account. -/
structure Account where
  nonce : UInt64
  balance : Int
  root : Hash
  codeHash : List UInt8

/-- The reads of the database under the state. -/
structure Database where
  /-- `ContractCode`: the code stored under a code hash (nil when the read fails). -/
  ContractCode : Hash → Option (List UInt8)
  /-- The value under a key in the storage trie of a root, zero where there is none. -/
  Storage : Hash → Hash → Option Hash

/-- `cachingDB.ContractCodeSize`: the length of the code a read of it returns (its size
cache holds the lengths of codes read before). -/
def Database.ContractCodeSize (db : Database) (codeHash : Hash) : Nat :=
  ((db.ContractCode codeHash).getD []).length

/-- `emptyCodeHash`: the hash of the empty code. -/
def emptyCodeHash (keccak : List UInt8 → Hash) : List UInt8 :=
  (keccak []).bytes

/-- `stateObject`: the account at an address while the state database changes it, with the
code once loaded, the storage slots read (`cachedStorage`) and written (`dirtyStorage`),
and its flags.  The storage trie it opens is that of its root, so it is left out. -/
structure StateObject (Address : Type) where
  address : Address
  data : Account
  code : Option (List UInt8)
  cachedStorage : Hash → Option Hash
  dirtyStorage : Hash → Option Hash
  dirtyCode : Bool
  suicided : Bool
  deleted : Bool

namespace StateObject

variable {Address : Type} (keccak : List UInt8 → Hash) (db : Database)

/-- `newObject`: a fresh object for an account, nothing loaded. -/
def newObject (address : Address) (data : Account) : StateObject Address :=
  ⟨address, data, none, fun _ => none, fun _ => none, false, false, false⟩

/-- `empty`: no nonce, no balance and no code (EIP-161). -/
def empty (o : StateObject Address) : Bool :=
  o.data.nonce == 0 && o.data.balance == 0 && o.data.codeHash == emptyCodeHash keccak

/-- `markSuicided`. -/
def markSuicided (o : StateObject Address) : StateObject Address :=
  { o with suicided := true }

/-- `setBalance`. -/
def setBalance (o : StateObject Address) (amount : Int) : StateObject Address :=
  { o with data := { o.data with balance := amount } }

/-- `setNonce`. -/
def setNonce (o : StateObject Address) (nonce : UInt64) : StateObject Address :=
  { o with data := { o.data with nonce := nonce } }

/-- `setCode`. -/
def setCode (o : StateObject Address) (codeHash : Hash) (code : Option (List UInt8)) :
    StateObject Address :=
  { o with code := code, data := { o.data with codeHash := codeHash.bytes }, dirtyCode := true }

/-- `setState`: the slot's value, cached and to be written. -/
def setState (o : StateObject Address) (key value : Hash) : StateObject Address :=
  { o with cachedStorage := Function.update o.cachedStorage key (some value),
           dirtyStorage := Function.update o.dirtyStorage key (some value) }

/-- `Code`: the loaded code, nothing for the empty code hash, else the code read from the
database, which is then kept as loaded. -/
def Code (o : StateObject Address) : Option (List UInt8) × StateObject Address :=
  match o.code with
  | some code => (some code, o)
  | none =>
    if o.data.codeHash = emptyCodeHash keccak then (none, o)
    else
      let code := db.ContractCode (Hash.ofBytes o.data.codeHash)
      (code, { o with code := code })

/-- `GetState`: the cached value of a slot, else the value read from the storage trie,
which is then cached; a read that fails gives zero and is not cached. -/
def GetState (o : StateObject Address) (key : Hash) : Hash × StateObject Address :=
  match o.cachedStorage key with
  | some value => (value, o)
  | none =>
    match db.Storage o.data.root key with
    | none => (Hash.zero, o)
    | some value => (value, { o with cachedStorage := Function.update o.cachedStorage key (some value) })

/-- The size `StateDB.GetCodeSize` gives of an object: of its loaded code, else as the
database reads it. -/
def CodeSize (o : StateObject Address) : Nat :=
  match o.code with
  | some code => code.length
  | none => db.ContractCodeSize (Hash.ofBytes o.data.codeHash)

end StateObject

end Atlantis.State
