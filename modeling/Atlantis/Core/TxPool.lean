import Atlantis.Core.TxList
import Atlantis.Lib.AList

/-!
# The transaction pool's promotion and limits

`core/tx_pool.go`: `promoteTx`, `enqueueTx`, `removeTx` and `promoteExecutables`, which moves
the transactions of the future queue that have become executable to the pending lists and
then enforces the pool's limits: `AccountQueue` queued transactions for each account it
processed (locals exempt), `GlobalSlots` pending transactions in all (taken from the
accounts above `AccountSlots` until they are level), and `GlobalQueue` queued ones in all
(taken from the non-local accounts with the latest heartbeat first).

The pool holds the fields these functions read or write.  The state database and the managed
pending state are the nonces and balances they return; the account set of the locals is a
list; `all` is the lookup of transactions by hash.  The source's maps from addresses are
association lists, iterated in the order of their entries (the source's maps iterate in an
unspecified order), and a list mutated in place is written back to its map.  The priced list
(`priced.Removed`, `priced.Put`), the metrics, the logs and the event sent for the promoted
transactions are left out: nothing here reads them (the pool's calls into the priced list are
`PricedPool` of `Atlantis.Core.TxPriced`).  Heartbeats are the times `now` the
caller passes, and `delete(pool.beats, addr)` sets the zero time.

The three stages of `promoteExecutables` are separate definitions: the loop over the accounts
(`promoteAccount`), the pending limit (`capPending`) and the queue limit (`capQueued`).
-/

namespace Atlantis.Core

/-- The fields of `TxPoolConfig` these functions read. -/
structure TxPoolConfig where
  PriceBump : Nat
  AccountSlots : Nat
  GlobalSlots : Nat
  AccountQueue : Nat
  GlobalQueue : Nat

/-- `TxPool`: the nonces and balances of the current state, the block gas limit, the nonces of
the pending state, the local accounts, the pending and queued lists, the heartbeats and the
lookup of all transactions by hash. -/
structure TxPool (Address : Type) where
  config : TxPoolConfig
  currentNonce : Address → Nat
  currentBalance : Address → Nat
  currentMaxGas : Nat
  pendingNonce : Address → Nat
  locals : List Address
  pending : AList fun _ : Address => TxList Address
  queue : AList fun _ : Address => TxList Address
  beats : Address → Nat
  all : Hash → Option (Transaction Address)

namespace TxPool

variable {Address : Type} [DecidableEq Address]

/-- `pool.all.Remove` for each of `txs`. -/
def removeAll (pool : TxPool Address) (txs : List (Transaction Address)) : TxPool Address :=
  { pool with all := fun h => if txs.any (fun tx => tx.hash = h) then none else pool.all h }

/-- `pendingState.SetNonce(addr, nonce)` when `nonce` is below the pending nonce. -/
def lowerNonce (pool : TxPool Address) (addr : Address) (nonce : Nat) : TxPool Address :=
  if nonce < pool.pendingNonce addr then
    { pool with pendingNonce := Function.update pool.pendingNonce addr nonce }
  else pool

/-- Writes the queued list of `addr`, which the source mutates in place, back to the map. -/
def setQueue (pool : TxPool Address) (addr : Address) (list : TxList Address) : TxPool Address :=
  { pool with queue := pool.queue.replace addr list }

/-- The number of pending transactions, counted over the pending lists. -/
def pendingCount (pool : TxPool Address) : Nat := (pool.pending.entries.map fun e => e.2.Len).sum

/-- The number of queued transactions, counted over the queued lists. -/
def queuedCount (pool : TxPool Address) : Nat := (pool.queue.entries.map fun e => e.2.Len).sum

/-- `pool.pending[addr].Len()`, zero where there is no list. -/
def pendingLen (pool : TxPool Address) (addr : Address) : Nat :=
  ((pool.pending.lookup addr).map TxList.Len).getD 0

/-- `pool.queue[addr].Len()`, zero where there is no list. -/
def queuedLen (pool : TxPool Address) (addr : Address) : Nat :=
  ((pool.queue.lookup addr).map TxList.Len).getD 0

/-- `promoteTx`: add `tx` to the pending list of `addr` (created, strict, if there is none);
an older transaction of its nonce that it does not outbid keeps its place and `tx` is
dropped, one that it outbids is dropped; then the heartbeat and the pending nonce move on. -/
def promoteTx (pool : TxPool Address) (addr : Address) (hash : Hash) (tx : Transaction Address)
    (now : Nat) : Bool × TxPool Address :=
  let list := (pool.pending.lookup addr).getD (newTxList true)
  let added := list.Add tx pool.config.PriceBump
  let pool := { pool with pending := pool.pending.insert addr added.2.2 }
  if !added.1 then (false, { pool with all := Function.update pool.all hash none })
  else
    let pool := match added.2.1 with
      | some old => { pool with all := Function.update pool.all old.hash none }
      | none => pool
    -- Failsafe to work around direct pending inserts (tests)
    let pool := if pool.all hash = none then
      { pool with all := Function.update pool.all hash (some tx) } else pool
    (true, { pool with
      beats := Function.update pool.beats addr now
      pendingNonce := Function.update pool.pendingNonce addr (tx.nonce + 1) })

/-- `enqueueTx`: add `tx` to the queued list of its sender (created, not strict, if there is
none), on the same terms as `promoteTx`.  Its result and error are not modelled: the one
caller here, `removeTx`, ignores them. -/
def enqueueTx (pool : TxPool Address) (hash : Hash) (tx : Transaction Address) : TxPool Address :=
  let list := (pool.queue.lookup tx.sender).getD (newTxList false)
  let added := list.Add tx pool.config.PriceBump
  let pool := { pool with queue := pool.queue.insert tx.sender added.2.2 }
  if !added.1 then pool
  else
    let pool := match added.2.1 with
      | some old => { pool with all := Function.update pool.all old.hash none }
      | none => pool
    if pool.all hash = none then { pool with all := Function.update pool.all hash (some tx) }
    else pool

/-- The pending half of `removeTx`: remove `tx` from the pending list of `addr`, drop the list
and the heartbeat once it is empty, put the transactions it invalidates back in the queue and
lower the pending nonce; `none` when the list does not hold the nonce of `tx`. -/
def removePending (pool : TxPool Address) (addr : Address) (tx : Transaction Address) :
    Option (TxPool Address) :=
  match pool.pending.lookup addr with
  | some pending =>
    let removed := pending.Remove tx
    if removed.1 then
      let pool := if removed.2.2.Empty then
          { pool with
            pending := pool.pending.erase addr
            beats := Function.update pool.beats addr 0 }
        else { pool with pending := pool.pending.replace addr removed.2.2 }
      let pool := removed.2.1.foldl (fun pool t => pool.enqueueTx t.hash t) pool
      some (pool.lowerNonce addr tx.nonce)
    else none
  | none => none

/-- The queued half of `removeTx`: remove `tx` from the queued list of `addr` and drop the
list once it is empty. -/
def removeQueued (pool : TxPool Address) (addr : Address) (tx : Transaction Address) :
    TxPool Address :=
  match pool.queue.lookup addr with
  | some future =>
    let removed := future.Remove tx
    if removed.2.2.Empty then { pool with queue := pool.queue.erase addr }
    else { pool with queue := pool.queue.replace addr removed.2.2 }
  | none => pool

/-- `removeTx`: forget the transaction of `hash` and take it out of the pending list of its
sender, or else of its queued list. -/
def removeTx (pool : TxPool Address) (hash : Hash) : TxPool Address :=
  match pool.all hash with
  | none => pool
  | some tx =>
    let pool := { pool with all := Function.update pool.all hash none }
    match pool.removePending tx.sender tx with
    | some pool => pool
    | none => pool.removeQueued tx.sender tx

/-! ### The loop over the accounts -/

/-- One turn of the loop of `promoteExecutables` over the accounts: drop the queued
transactions below the account's nonce and those it cannot pay for, promote the ones that
have become executable, cap the rest at `AccountQueue` unless the account is local, and drop
the queued list once it is empty. -/
def promoteAccount (now : Nat) (pool : TxPool Address) (addr : Address) : TxPool Address :=
  match pool.queue.lookup addr with
  | none => pool
  | some list =>
    let forwards := list.Forward (pool.currentNonce addr)
    let pool := (pool.setQueue addr forwards.2).removeAll forwards.1
    let drops := forwards.2.Filter (pool.currentBalance addr) pool.currentMaxGas
    let pool := (pool.setQueue addr drops.2.2).removeAll drops.1
    let readies := drops.2.2.Ready (pool.pendingNonce addr)
    let pool := readies.1.foldl (fun pool tx => (pool.promoteTx addr tx.hash tx now).2)
      (pool.setQueue addr readies.2)
    let caps := if addr ∉ pool.locals then readies.2.Cap pool.config.AccountQueue
      else ([], readies.2)
    let pool := (pool.setQueue addr caps.2).removeAll caps.1
    if caps.2.Empty then { pool with queue := pool.queue.erase addr } else pool

/-! ### The pending limit -/

/-- One offender's share of a round of the equalisation: `list.Cap(list.Len() - 1)` on its
pending list, with each dropped transaction forgotten and the pending nonce lowered to it.
(The source never reaches an offender without a pending list, nor one whose list is empty.) -/
def dropPending (pool : TxPool Address) (addr : Address) : TxPool Address :=
  match pool.pending.lookup addr with
  | none => pool
  | some list =>
    let caps := list.Cap (list.Len - 1)
    caps.1.foldl
      (fun pool tx => { pool with all := Function.update pool.all tx.hash none }.lowerNonce addr tx.nonce)
      { pool with pending := pool.pending.replace addr caps.2 }

/-- A round of the equalisation over `offenders`, each dropping one transaction and
`pending` counting down once for each. -/
def dropRound (pool : TxPool Address) (pending : Nat) :
    List Address → TxPool Address × Nat
  | [] => (pool, pending)
  | addr :: offenders => dropRound (pool.dropPending addr) (pending - 1) offenders

theorem dropRound_snd (pool : TxPool Address) (pending : Nat) (offenders : List Address) :
    (dropRound pool pending offenders).2 = pending - offenders.length := by
  induction offenders generalizing pool pending with
  | nil => rfl
  | cons addr offenders ih =>
    rw [dropRound, ih, List.length_cons]
    omega

/-- The equalisation loops of the pending limit: while the pool holds more than `GlobalSlots`
pending transactions and `watch` holds more than `limit`, every offender drops one. -/
def equalize (offenders : List Address) (watch : Address) (limit : Nat) (pool : TxPool Address)
    (pending : Nat) : TxPool Address × Nat :=
  if h : pool.config.GlobalSlots < pending ∧ limit < pool.pendingLen watch then
    match hoff : offenders with
    | [] => (pool, pending)
    | addr :: rest =>
      have : (dropRound pool pending (addr :: rest)).2 < pending := by
        rw [dropRound_snd, List.length_cons]
        omega
      equalize offenders watch limit (dropRound pool pending (addr :: rest)).1
        (dropRound pool pending (addr :: rest)).2
  else (pool, pending)
termination_by pending

/-- The order in which the spammers' priority queue pops: the non-local accounts with more
than `AccountSlots` pending transactions, the longest list first. -/
def spammers (pool : TxPool Address) : List Address :=
  ((pool.pending.entries.filter fun e => e.1 ∉ pool.locals ∧ pool.config.AccountSlots < e.2.Len).mergeSort
    fun e f => f.2.Len ≤ e.2.Len).map (·.1)

/-- The loop that pops the offenders: each one after the first levels the ones before it down
to its own length. -/
def popOffenders (pool : TxPool Address) (pending : Nat) (offenders : List Address) :
    List Address → TxPool Address × Nat × List Address
  | [] => (pool, pending, offenders)
  | offender :: spammers =>
    if pool.config.GlobalSlots < pending then
      let leveled := match offenders with
        | [] => (pool, pending)
        | o :: os => equalize (o :: os) ((o :: os).getLast (List.cons_ne_nil o os))
            (pool.pendingLen offender) pool pending
      popOffenders leveled.1 leveled.2 (offenders ++ [offender]) spammers
    else (pool, pending, offenders)

/-- The pending limit of `promoteExecutables`: over `GlobalSlots`, level the offenders down
one after the other, then all together down to `AccountSlots`. -/
def capPending (pool : TxPool Address) : TxPool Address :=
  let pending := pool.pendingCount
  if pool.config.GlobalSlots < pending then
    let popped := popOffenders pool pending [] pool.spammers
    match popped.2.2 with
    | [] => popped.1
    | o :: os =>
      if pool.config.GlobalSlots < popped.2.1 then
        (equalize (o :: os) ((o :: os).getLast (List.cons_ne_nil o os)) pool.config.AccountSlots
          popped.1 popped.2.1).1
      else popped.1
  else pool

/-! ### The queue limit -/

/-- The partial drop of the queue limit: remove transactions from the front of `txs` (the
account's list from its highest nonce down) while `drop` is positive. -/
def dropTail : List (Transaction Address) → Nat → TxPool Address → TxPool Address × Nat
  | [], drop, pool => (pool, drop)
  | tx :: txs, drop, pool =>
    if 0 < drop then dropTail txs (drop - 1) (pool.removeTx tx.hash) else (pool, drop)

/-- The loop of the queue limit over the accounts, the latest heartbeat first: drop a whole
queued list when it is no longer than what is left to drop, or else its last transactions. -/
def dropQueued : List Address → Nat → TxPool Address → TxPool Address
  | [], _, pool => pool
  | addr :: addresses, drop, pool =>
    if 0 < drop then
      let list := (pool.queue.lookup addr).getD (newTxList false)
      if list.Len ≤ drop then
        dropQueued addresses (drop - list.Len)
          (list.Flatten.foldl (fun pool tx => pool.removeTx tx.hash) pool)
      else
        let tail := dropTail list.Flatten.reverse drop pool
        dropQueued addresses tail.2 tail.1
    else pool

/-- The queue limit of `promoteExecutables`: over `GlobalQueue`, drop the queued transactions of
the non-local accounts, those with the latest heartbeat first. -/
def capQueued (pool : TxPool Address) : TxPool Address :=
  let queued := pool.queuedCount
  if pool.config.GlobalQueue < queued then
    let addresses := (pool.queue.keys.filter fun a => a ∉ pool.locals).mergeSort
      fun a b => pool.beats a ≤ pool.beats b
    dropQueued addresses.reverse (queued - pool.config.GlobalQueue) pool
  else pool

/-- `promoteExecutables`: the loop over `accounts` (every account with a queued list when it is
`nil`), then the pending limit, then the queue limit. -/
def promoteExecutables (pool : TxPool Address) (accounts : Option (List Address)) (now : Nat) :
    TxPool Address :=
  ((accounts.getD pool.queue.keys).foldl (promoteAccount now) pool).capPending.capQueued

end TxPool

end Atlantis.Core
