import Mathlib

/-!
# LES flow control: the server's buffer value of a client, and the client's estimate of it

`les/flowcontrol`: a server keeps a buffer value for each client (`ClientNode`), and each
client an estimate of it (`ServerNode`).  Both recharge by `MinRecharge` per millisecond up
to `BufLimit` (`recalc`, the body `recalcBV` and `recalcBLE` share); the server charges a
request's cost once it has been processed, the client the request's maximum cost when it is
queued, and a reply carries the server's value back to the client, which takes off the costs
it queued since (`GotReply`).  Times are `mclock.AbsTime` nanoseconds (`Int64`), buffer
values `uint64` with Go's wrapping arithmetic.

`handleMsg` checks a request against its cost capped at `BufLimit`, but charges it uncapped:
a request that costs more than `BufLimit` passes the check on a full buffer, the charge wraps
the buffer value round, and the recharge that follows caps it back to a full buffer
(`serveRequest_over_limit`).
-/

namespace Atlantis.Les

/-- `mclock.AbsTime`: a monotonic clock reading in nanoseconds. -/
abbrev AbsTime := Int64

/-- `fcTimeConst`: one millisecond in nanoseconds. -/
def fcTimeConst : UInt64 := 1000000

/-- `safetyMargin`: one millisecond in nanoseconds. -/
def safetyMargin : UInt64 := 1000000

/-- `ServerParams`: the buffer limit and the recharge per millisecond. -/
structure ServerParams where
  BufLimit : UInt64
  MinRecharge : UInt64
  deriving DecidableEq, Repr

/-- The body `recalcBV` and `recalcBLE` share: `value`, last recharged at `lastTime`,
recharged up to `time` (nothing for a clock that went back), and capped at `BufLimit`. -/
def recalc (params : ServerParams) (value : UInt64) (lastTime time : AbsTime) : UInt64 :=
  let dt : UInt64 := if time < lastTime then 0 else (time - lastTime).toUInt64
  let value := value + params.MinRecharge * dt / fcTimeConst
  if value > params.BufLimit then params.BufLimit else value

/-- A value capped at `limit`, as the Go code writes it, is at most `limit`. -/
theorem capped_le (value limit : UInt64) : (if value > limit then limit else value) ≤ limit := by
  split
  · exact UInt64.le_refl _
  · exact UInt64.not_lt.mp ‹_›

section recalc

variable (params : ServerParams) (value : UInt64) (lastTime time : AbsTime)

/-- A recharge never leaves more than `BufLimit`. -/
theorem recalc_le : recalc params value lastTime time ≤ params.BufLimit :=
  capped_le _ _

/-- A recharge at the time of the last one adds nothing: it only caps. -/
theorem recalc_same :
    recalc params value time time = if value > params.BufLimit then params.BufLimit else value := by
  have hdt : (time - time).toUInt64 = 0 := by rw [Int64.sub_self]; rfl
  simp only [recalc, Int64.lt_irrefl, if_false, hdt, UInt64.mul_zero, UInt64.zero_div,
    UInt64.add_zero]

/-- What a recharge adds is below `2^45`: a `uint64` divided by `fcTimeConst`. -/
theorem toNat_div_fcTimeConst_lt (x : UInt64) : (x / fcTimeConst).toNat < 2 ^ 45 := by
  have hx := UInt64.toNat_lt x
  rw [UInt64.toNat_div]
  change x.toNat / 1000000 < 2 ^ 45
  omega

/-- A full buffer stays full when `BufLimit` leaves room for any recharge. -/
theorem recalc_full (h : params.BufLimit.toNat < 2 ^ 63) :
    recalc params params.BufLimit lastTime time = params.BufLimit := by
  simp only [recalc]
  generalize params.MinRecharge * _ = x
  have hx := toNat_div_fcTimeConst_lt x
  split
  · rfl
  · rename_i hle
    have hle' := UInt64.not_lt.mp hle
    rw [UInt64.le_iff_toNat_le, UInt64.toNat_add] at hle'
    apply UInt64.toNat_inj.mp
    rw [UInt64.toNat_add]
    omega

end recalc

/-! ## The server's side of a client -/

/-- `ClientNode`: the client's buffer value at the server, and when it was last recharged.
Its `ClientManager` node is a component of its own: `AcceptRequest` and `RequestProcessed`
take what the manager's `accept` and `processed` return. -/
structure ClientNode where
  params : ServerParams
  bufValue : UInt64
  lastTime : AbsTime
  deriving DecidableEq, Repr

/-- `NewClientNode`: a full buffer at `now`. -/
def NewClientNode (params : ServerParams) (now : AbsTime) : ClientNode :=
  ⟨params, params.BufLimit, now⟩

namespace ClientNode

def recalcBV (peer : ClientNode) (time : AbsTime) : ClientNode :=
  { peer with bufValue := recalc peer.params peer.bufValue peer.lastTime time, lastTime := time }

/-- `AcceptRequest` at `now`: the recharged buffer value, with the manager's answer `accept`. -/
def AcceptRequest (peer : ClientNode) (now : AbsTime) (accept : Bool) :
    (UInt64 × Bool) × ClientNode :=
  let peer := peer.recalcBV now
  ((peer.bufValue, accept), peer)

/-- `RequestProcessed(cost)` at `now`, where the manager's `processed` returned the recharge
value `rcValue` and the real cost `rcost`: the buffer value sent back, and `rcost`. -/
def RequestProcessed (peer : ClientNode) (cost : UInt64) (now : AbsTime) (rcValue rcost : UInt64) :
    (UInt64 × UInt64) × ClientNode :=
  let peer := peer.recalcBV now
  let peer := { peer with bufValue := peer.bufValue - cost }
  let peer := peer.recalcBV now
  -- the manager's credit only ever raises the buffer value
  let peer :=
    if rcValue < peer.params.BufLimit then
      let bv := peer.params.BufLimit - rcValue
      if bv > peer.bufValue then { peer with bufValue := bv } else peer
    else peer
  ((peer.bufValue, rcost), peer)

@[simp] theorem recalcBV_params (peer : ClientNode) (time : AbsTime) :
    (peer.recalcBV time).params = peer.params := rfl

@[simp] theorem recalcBV_bufValue (peer : ClientNode) (time : AbsTime) :
    (peer.recalcBV time).bufValue = recalc peer.params peer.bufValue peer.lastTime time := rfl

/-- A cost above `BufLimit` charged on a full buffer: the charge wraps the value round to
`2^64 - cost + BufLimit`, above `BufLimit`, the recharge at the same time caps it, and the
buffer stays full. -/
theorem RequestProcessed_over_full (peer : ClientNode) (cost : UInt64) (now : AbsTime)
    (rcValue rcost : UInt64) (hfull : peer.bufValue = peer.params.BufLimit)
    (hlimit : peer.params.BufLimit.toNat < 2 ^ 63) (hover : peer.params.BufLimit < cost) :
    peer.RequestProcessed cost now rcValue rcost =
      ((peer.params.BufLimit, rcost), { peer with bufValue := peer.params.BufLimit, lastTime := now }) := by
  have h1 : recalc peer.params peer.bufValue peer.lastTime now = peer.params.BufLimit := by
    rw [hfull]
    exact recalc_full _ _ _ hlimit
  have hwrap : peer.params.BufLimit - cost > peer.params.BufLimit := by
    have hc := UInt64.toNat_lt cost
    rw [UInt64.lt_iff_toNat_lt] at hover
    rw [gt_iff_lt, UInt64.lt_iff_toNat_lt, UInt64.toNat_sub]
    omega
  have h2 : recalc peer.params (peer.params.BufLimit - cost) now now = peer.params.BufLimit := by
    rw [recalc_same, if_pos hwrap]
  simp only [RequestProcessed, recalcBV, h1, h2]
  by_cases hrc : rcValue < peer.params.BufLimit
  · -- the manager's credit `BufLimit - rcValue` is no more than a full buffer
    have hcredit := UInt64.sub_le (UInt64.le_of_lt hrc)
    rw [if_pos hrc, if_neg (UInt64.not_lt.mpr hcredit)]
  · rw [if_neg hrc]

end ClientNode

/-! ## The client's side of a server -/

/-- `ServerNode`: the client's estimate of its buffer value at the server, the sum of the
maximum costs it queued, and that sum after each request still waiting for its reply
(the Go map `pending`). -/
structure ServerNode where
  bufEstimate : UInt64
  lastTime : AbsTime
  params : ServerParams
  sumCost : UInt64
  pending : UInt64 → Option UInt64

/-- `NewServerNode`: a full estimate at `now`, nothing pending. -/
def NewServerNode (params : ServerParams) (now : AbsTime) : ServerNode :=
  ⟨params.BufLimit, now, params, 0, fun _ => none⟩

namespace ServerNode

def recalcBLE (peer : ServerNode) (time : AbsTime) : ServerNode :=
  { peer with bufEstimate := recalc peer.params peer.bufEstimate peer.lastTime time,
              lastTime := time }

/-- `canSend(maxCost)` at `now`: the waiting time in nanoseconds before a request of
maximum cost `maxCost` may be sent, with a safety margin of one millisecond of recharge
(the relative buffer level it also returns is not modelled). -/
def canSend (peer : ServerNode) (maxCost : UInt64) (now : AbsTime) : UInt64 × ServerNode :=
  let peer := peer.recalcBLE now
  let maxCost := maxCost + safetyMargin * peer.params.MinRecharge / fcTimeConst
  let maxCost := if maxCost > peer.params.BufLimit then peer.params.BufLimit else maxCost
  if peer.bufEstimate ≥ maxCost then (0, peer)
  else ((maxCost - peer.bufEstimate) * fcTimeConst / peer.params.MinRecharge, peer)

def CanSend (peer : ServerNode) (maxCost : UInt64) (now : AbsTime) : UInt64 × ServerNode :=
  peer.canSend maxCost now

def QueueRequest (peer : ServerNode) (reqID maxCost : UInt64) : ServerNode :=
  { peer with bufEstimate := peer.bufEstimate - maxCost, sumCost := peer.sumCost + maxCost,
              pending := Function.update peer.pending reqID (some (peer.sumCost + maxCost)) }

/-- `GotReply(reqID, bv)` at `now`: the estimate restarts from the reported value less the
costs queued after `reqID`; a reply to no pending request changes nothing. -/
def GotReply (peer : ServerNode) (reqID bv : UInt64) (now : AbsTime) : ServerNode :=
  let bv := if bv > peer.params.BufLimit then peer.params.BufLimit else bv
  match peer.pending reqID with
  | none => peer
  | some sc =>
    let cc := peer.sumCost - sc
    { peer with pending := Function.update peer.pending reqID none,
                bufEstimate := if bv > cc then bv - cc else 0, lastTime := now }

end ServerNode

/-! ## A client's calls on its node of a server -/

/-- The calls a client makes on its node of a server. -/
inductive ServerCall where
  | CanSend (maxCost : UInt64) (now : AbsTime)
  | QueueRequest (reqID maxCost : UInt64)
  | GotReply (reqID bv : UInt64) (now : AbsTime)

namespace ServerCall

/-- The maximum cost a call queues. -/
def queued : ServerCall → UInt64
  | QueueRequest _ maxCost => maxCost
  | _ => 0

/-- Whether a call queues, or answers, the request `reqID`. -/
def names (reqID : UInt64) : ServerCall → Prop
  | QueueRequest id _ => id = reqID
  | GotReply id _ _ => id = reqID
  | CanSend _ _ => False

end ServerCall

namespace ServerNode

def call (peer : ServerNode) : ServerCall → ServerNode
  | .CanSend maxCost now => (peer.CanSend maxCost now).2
  | .QueueRequest reqID maxCost => peer.QueueRequest reqID maxCost
  | .GotReply reqID bv now => peer.GotReply reqID bv now

def run (peer : ServerNode) (calls : List ServerCall) : ServerNode := calls.foldl call peer

theorem canSend_snd (peer : ServerNode) (maxCost : UInt64) (now : AbsTime) :
    (peer.canSend maxCost now).2 = peer.recalcBLE now := by
  simp only [canSend]
  split <;> split <;> rfl

/-- `GotReply` answering a pending request. -/
theorem GotReply_of_pending {peer : ServerNode} {reqID sc : UInt64} (bv : UInt64) (now : AbsTime)
    (h : peer.pending reqID = some sc) :
    peer.GotReply reqID bv now =
      let bv := if bv > peer.params.BufLimit then peer.params.BufLimit else bv
      { peer with pending := Function.update peer.pending reqID none,
                  bufEstimate := if bv > peer.sumCost - sc then bv - (peer.sumCost - sc) else 0,
                  lastTime := now } := by
  simp only [GotReply, h]

/-- `GotReply` answering no pending request changes nothing. -/
theorem GotReply_of_none {peer : ServerNode} {reqID : UInt64} (bv : UInt64) (now : AbsTime)
    (h : peer.pending reqID = none) : peer.GotReply reqID bv now = peer := by
  simp only [GotReply, h]

theorem GotReply_params (peer : ServerNode) (reqID bv : UInt64) (now : AbsTime) :
    (peer.GotReply reqID bv now).params = peer.params := by
  cases h : peer.pending reqID with
  | none => rw [GotReply_of_none bv now h]
  | some sc => rw [GotReply_of_pending bv now h]

theorem call_params (peer : ServerNode) (c : ServerCall) : (peer.call c).params = peer.params := by
  cases c with
  | CanSend maxCost now => rw [call, CanSend, canSend_snd]; rfl
  | QueueRequest reqID maxCost => rfl
  | GotReply reqID bv now => exact GotReply_params peer reqID bv now

theorem run_params (peer : ServerNode) (calls : List ServerCall) :
    (peer.run calls).params = peer.params := by
  induction calls generalizing peer with
  | nil => rfl
  | cons c calls ih => rw [run, List.foldl_cons, ← run, ih, call_params]

/-- A call that neither queues nor answers `reqID` leaves its pending sum alone, and adds
what it queues to `sumCost`. -/
theorem call_other (peer : ServerNode) (c : ServerCall) (reqID : UInt64) (hc : ¬ c.names reqID) :
    (peer.call c).pending reqID = peer.pending reqID ∧
      (peer.call c).sumCost = peer.sumCost + c.queued := by
  cases c with
  | CanSend maxCost now =>
    simp only [call, CanSend, canSend_snd, ServerCall.queued, UInt64.add_zero]
    exact ⟨rfl, rfl⟩
  | QueueRequest id maxCost =>
    have hne : reqID ≠ id := fun h => hc h.symm
    exact ⟨Function.update_of_ne hne _ _, rfl⟩
  | GotReply id bv now =>
    have hne : reqID ≠ id := fun h => hc h.symm
    simp only [call, ServerCall.queued, UInt64.add_zero]
    cases h : peer.pending id with
    | none => rw [GotReply_of_none bv now h]; exact ⟨rfl, rfl⟩
    | some sc => rw [GotReply_of_pending bv now h]; exact ⟨Function.update_of_ne hne _ _, rfl⟩

/-- Over calls that neither queue nor answer `reqID`, its pending sum stays, and `sumCost`
grows by the maximum costs they queue. -/
theorem run_other (peer : ServerNode) (calls : List ServerCall) (reqID : UInt64)
    (h : ∀ c ∈ calls, ¬ c.names reqID) :
    (peer.run calls).pending reqID = peer.pending reqID ∧
      (peer.run calls).sumCost = peer.sumCost + (calls.map ServerCall.queued).sum := by
  induction calls generalizing peer with
  | nil => exact ⟨rfl, (UInt64.add_zero _).symm⟩
  | cons c calls ih =>
    obtain ⟨hpend, hsum⟩ := call_other peer c reqID (h c List.mem_cons_self)
    obtain ⟨ihpend, ihsum⟩ := ih (peer.call c) fun c' hc' => h c' (List.mem_cons_of_mem c hc')
    rw [run, List.foldl_cons, ← run]
    refine ⟨ihpend.trans hpend, ?_⟩
    rw [ihsum, hsum, List.map_cons, List.sum_cons, UInt64.add_assoc]

/-- `GotReply(reqID, bv)`, for every history of calls in which `reqID` was queued and since
neither queued again nor answered: the estimate restarts at `now` from `bv`, capped at
`BufLimit`, less the maximum costs queued since (`0` if they are more), and `reqID` is no
longer pending.  The sums are `uint64`, as Go's. -/
theorem GotReply_queued_since (peer : ServerNode) (pre post : List ServerCall)
    (reqID maxCost bv : UInt64) (now : AbsTime) (hpost : ∀ c ∈ post, ¬ c.names reqID) :
    let q := peer.run (pre ++ .QueueRequest reqID maxCost :: post)
    let cc := (post.map ServerCall.queued).sum
    let bv' := if bv > peer.params.BufLimit then peer.params.BufLimit else bv
    q.call (.GotReply reqID bv now) =
      { q with pending := Function.update q.pending reqID none,
               bufEstimate := if bv' > cc then bv' - cc else 0, lastTime := now } := by
  intro q cc bv'
  let Q := (peer.run pre).QueueRequest reqID maxCost
  have hq : q = Q.run post := by
    simp only [q, Q, run, List.foldl_append, List.foldl_cons]
    rfl
  obtain ⟨hpend, hsum⟩ := run_other Q post reqID hpost
  have hparams : q.params = peer.params := by
    rw [hq, run_params]
    exact run_params peer pre
  have hQpend : Q.pending reqID = some ((peer.run pre).sumCost + maxCost) :=
    Function.update_self ..
  -- the sum queued since is what `sumCost` grew by after `reqID` was queued
  have hcc : q.sumCost - ((peer.run pre).sumCost + maxCost) = cc := by
    have hQsum : Q.sumCost = (peer.run pre).sumCost + maxCost := rfl
    rw [hq, hsum, hQsum]
    grind
  have hqpend : q.pending reqID = some ((peer.run pre).sumCost + maxCost) := by
    rw [hq, hpend, hQpend]
  rw [call, GotReply_of_pending bv now hqpend]
  simp only [hcc, hparams, bv']

/-- A request queued at a cost of 50, then another at 100 and a `CanSend`: the reply to the
first restarts the estimate from the reported value less the 100 queued since. -/
theorem GotReply_queued_since_two :
    (∀ c ∈ [ServerCall.QueueRequest 2 100, .CanSend 10 5], ¬ c.names 1) ∧
    let q := (NewServerNode ⟨1000, 10⟩ 0).run
      ([] ++ .QueueRequest 1 50 :: [.QueueRequest 2 100, .CanSend 10 5])
    let cc := ([ServerCall.QueueRequest 2 100, .CanSend 10 5].map ServerCall.queued).sum
    let bv' := if (700 : UInt64) > (NewServerNode ⟨1000, 10⟩ 0).params.BufLimit then
      (NewServerNode ⟨1000, 10⟩ 0).params.BufLimit else 700
    q.call (.GotReply 1 700 7) =
      { q with pending := Function.update q.pending 1 none,
               bufEstimate := if bv' > cc then bv' - cc else 0, lastTime := 7 } := by
  have hpost : ∀ c ∈ [ServerCall.QueueRequest 2 100, .CanSend 10 5], ¬ c.names 1 := by
    simp [ServerCall.names]
  exact ⟨hpost, GotReply_queued_since _ [] _ 1 50 700 7 hpost⟩

end ServerNode

/-! ## Requests in `handleMsg`, and their cost at the client -/

/-- `requestCosts`: the cost table entry of one message code. -/
structure requestCosts where
  baseCost : UInt64
  reqCost : UInt64
  deriving DecidableEq, Repr

/-- The `reject` closure of `handleMsg` for `reqCnt` items (at most `maxCnt`) at `now`:
whether the request is rejected, and the client node after `AcceptRequest`.  The cost is
capped at `BufLimit` before it is compared with the buffer value. -/
def reject (defParams : ServerParams) (costs : requestCosts) (fcClient : Option ClientNode)
    (reqCnt maxCnt : UInt64) (now : AbsTime) (accept : Bool) : Bool × Option ClientNode :=
  match fcClient with
  | none => (true, none)
  | some peer =>
    if reqCnt > maxCnt then (true, some peer)
    else
      let r := peer.AcceptRequest now accept
      let cost := costs.baseCost + reqCnt * costs.reqCost
      let cost := if cost > defParams.BufLimit then defParams.BufLimit else cost
      (cost > r.1.1, some r.2)

/-- One request of `handleMsg`: the `reject` check at `accepted`, then `RequestProcessed`
at `processed`, charged the uncapped cost `baseCost + reqCnt * reqCost`.  `none` is the
`ErrRequestRejected` error, which drops the peer; otherwise the buffer value sent back in
the reply, with the client node. -/
def serveRequest (defParams : ServerParams) (costs : requestCosts) (peer : ClientNode)
    (reqCnt maxCnt : UInt64) (accepted processed : AbsTime) (accept : Bool)
    (rcValue rcost : UInt64) : Option (UInt64 × ClientNode) :=
  match reject defParams costs (some peer) reqCnt maxCnt accepted accept with
  | (false, some peer) =>
    let r := peer.RequestProcessed (costs.baseCost + reqCnt * costs.reqCost) processed rcValue rcost
    some (r.1.1, r.2)
  | _ => none

/-- A request that costs more than `BufLimit` and passes `reject` (the buffer value, capped
at `BufLimit`, is no more than a full buffer) is charged more than the buffer value
`RequestProcessed` takes it from, and the charge leaves the buffer full: served, it is
answered with `BufLimit` whatever the manager credits, and the server's node is full. -/
theorem serveRequest_over_limit (p : ServerParams) (costs : requestCosts) (peer : ClientNode)
    (hparams : peer.params = p) (hlimit : p.BufLimit.toNat < 2 ^ 63) (reqCnt maxCnt : UInt64)
    (accepted processed : AbsTime) (accept : Bool) (rcValue rcost : UInt64)
    (hserved : (reject p costs (some peer) reqCnt maxCnt accepted accept).1 = false)
    (hover : p.BufLimit < costs.baseCost + reqCnt * costs.reqCost) :
    ((peer.AcceptRequest accepted accept).2.recalcBV processed).bufValue <
        costs.baseCost + reqCnt * costs.reqCost ∧
      serveRequest p costs peer reqCnt maxCnt accepted processed accept rcValue rcost =
        some (p.BufLimit, ⟨p, p.BufLimit, processed⟩) := by
  subst hparams
  have hcnt : ¬ reqCnt > maxCnt := by
    intro h
    simp [reject, h] at hserved
  -- the check compares the capped cost, `BufLimit`, with the recharged buffer value: it
  -- passes on a full buffer only
  have hfull : (peer.recalcBV accepted).bufValue = peer.params.BufLimit := by
    have hge : ¬ peer.params.BufLimit > (peer.recalcBV accepted).bufValue := by
      simpa [reject, hcnt, ClientNode.AcceptRequest, hover] using hserved
    exact UInt64.le_antisymm (recalc_le _ _ _ _) (UInt64.not_lt.mp hge)
  have hrej : reject peer.params costs (some peer) reqCnt maxCnt accepted accept =
      (false, some (peer.recalcBV accepted)) := by
    refine Prod.ext hserved ?_
    simp only [reject, if_neg hcnt]
    rfl
  refine ⟨UInt64.lt_of_le_of_lt (recalc_le _ _ _ _) hover, ?_⟩
  rw [serveRequest, hrej]
  simp only [ClientNode.RequestProcessed_over_full (peer.recalcBV accepted) _ processed rcValue rcost
    hfull hlimit hover]
  rfl

/-- The server parameters `NewLesServer` sets. -/
def defParams : ServerParams := ⟨300000000, 50000⟩

/-- `peer.GetRequestCost` for `amount` items: the client's maximum cost, capped at `BufLimit`. -/
def GetRequestCost (fcServerParams : ServerParams) (costs : requestCosts) (amount : UInt64) :
    UInt64 :=
  let cost := costs.baseCost + costs.reqCost * amount
  if cost > fcServerParams.BufLimit then fcServerParams.BufLimit else cost

/-- A fresh client asks a fresh server for `MaxHeaderFetch` (192) headers at one millisecond,
with a cost table of 2000000 a header: the request's capped cost, `BufLimit`, may be sent at
once, the server serves it, charges 384000000 against a buffer of 300000000, and answers
with a full buffer. -/
theorem serveRequest_over_limit_headers :
    ((NewServerNode defParams 0).CanSend (GetRequestCost defParams ⟨0, 2000000⟩ 192) 1000000).1 = 0 ∧
      (((NewClientNode defParams 0).AcceptRequest 1000000 true).2.recalcBV 2000000).bufValue <
          (0 : UInt64) + 192 * 2000000 ∧
        serveRequest defParams ⟨0, 2000000⟩ (NewClientNode defParams 0) 192 192 1000000 2000000 true 0 0 =
          some (defParams.BufLimit, ⟨defParams, defParams.BufLimit, 2000000⟩) :=
  ⟨by decide, serveRequest_over_limit defParams ⟨0, 2000000⟩ (NewClientNode defParams 0) rfl
    (by decide) 192 192 1000000 2000000 true 0 0 (by decide) (by decide)⟩

end Atlantis.Les
