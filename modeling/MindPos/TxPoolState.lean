import MindPos.TxPool

/-! # The pool's queues, index and slot gauge under interleaved operations

`txpool/txpool.go`, `account.go`, `queue_account.go`, `lookup_map.go` and `slot_gauge.go`. Each
account keeps an enqueued and a promoted queue, both heaps by nonce, and the nonce it expects
next. The index holds the transactions the pool knows, by hash, and the gauge counts the slots the
queued transactions take. `addTx` checks the gauge and hands the transaction to the main loop,
which runs the enqueue and promote handlers each in a goroutine of its own, so the operations
interleave. A step here is one operation taken whole, and the requests handed to the main loop and
not yet handled are part of the state. The gauge is a `uint64` whose `decrease` adds the
complement, so it wraps. Validation of a new transaction, the event manager and the metrics are
left out. -/
namespace TxpoolState

open EdgeTypes

/-- A transaction as the pool holds it: what the queues order by, the hash the index keys it by,
and its encoded size, which the gauge counts in slots. -/
structure PoolTx where
  tx : Txpool.Transaction
  hash : Hash
  size : UInt64
  deriving DecidableEq

def PoolTx.fromAddr (t : PoolTx) : Address := t.tx.fromAddr

def PoolTx.nonce (t : PoolTx) : UInt64 := t.tx.nonce

def txSlotSize : UInt64 := 32 * 1024

def highPressureMark : UInt64 := 80

def maxAccountDemotions : UInt64 := 10

def maxAccountSkips : UInt64 := 10

def errTxPoolOverflow : String := "txpool is full"

def errNonceTooLow : String := "nonce too low"

def errAlreadyKnown : String := "already known"

def errMaxEnqueuedLimitReached : String := "maximum number of enqueued transactions reached"

def errRejectFutureTx : String := "rejected future tx due to low slots"

def txSlots (tx : PoolTx) : UInt64 := (tx.size + txSlotSize - 1) / txSlotSize

def slotsRequired (txs : List PoolTx) : UInt64 :=
  txs.foldl (fun slots tx => slots + txSlots tx) 0

/-! ## The slot gauge and the index -/

structure SlotGauge where
  height : UInt64
  max : UInt64
  deriving DecidableEq

def SlotGauge.read (g : SlotGauge) : UInt64 := g.height

def SlotGauge.increase (g : SlotGauge) (slots : UInt64) : SlotGauge :=
  { g with height := g.height + slots }

/-- `decrease`: `atomic.AddUint64(&g.height, ^(slots - 1))`. -/
def SlotGauge.decrease (g : SlotGauge) (slots : UInt64) : SlotGauge :=
  { g with height := g.height + ~~~(slots - 1) }

def SlotGauge.highPressure (g : SlotGauge) : Bool := g.read > highPressureMark * g.max / 100

/-- `lookupMap.add`: `none` when the hash is known. -/
def lookupMap.add (index : List PoolTx) (tx : PoolTx) : Option (List PoolTx) :=
  if index.any (·.hash = tx.hash) then none else some (tx :: index)

def lookupMap.remove (index : List PoolTx) (txs : List PoolTx) : List PoolTx :=
  index.filter fun t => !txs.any (·.hash = t.hash)

/-! ## Account queues -/

/-- `minNonceQueue.Less`. -/
def nonceLess (a b : PoolTx) : Bool := Txpool.minNonceQueue.less a.tx b.tx

def accountQueue.push (q : List PoolTx) (tx : PoolTx) : List PoolTx :=
  ContainerHeap.push nonceLess q tx

def accountQueue.peek (q : List PoolTx) : Option PoolTx := q.head?

def accountQueue.pop (q : List PoolTx) : Option PoolTx × List PoolTx :=
  if q.length = 0 then (none, q) else ContainerHeap.pop nonceLess q

/-- `accountQueue.clear`: what it removed, and the empty queue. -/
def accountQueue.clear (q : List PoolTx) : List PoolTx × List PoolTx := (q, [])

def accountQueue.pruneLoop (nonce : UInt64) : ℕ → List PoolTx → List PoolTx × List PoolTx
  | 0, q => ([], q)
  | fuel + 1, q =>
    match accountQueue.peek q with
    | none => ([], q)
    | some tx =>
      if tx.nonce ≥ nonce then ([], q)
      else
        let popped := accountQueue.pop q
        let rest := accountQueue.pruneLoop nonce fuel popped.2
        (popped.1.toList ++ rest.1, rest.2)

/-- `accountQueue.prune`: what it removed, and the queue left. -/
def accountQueue.prune (q : List PoolTx) (nonce : UInt64) : List PoolTx × List PoolTx :=
  accountQueue.pruneLoop nonce q.length q

/-! ## Accounts -/

structure Account where
  address : Address
  enqueued : List PoolTx
  promoted : List PoolTx
  nextNonce : UInt64
  demotions : UInt64
  skips : UInt64
  maxEnqueued : UInt64
  deriving DecidableEq

/-- `account.reset`: the promoted transactions below the new nonce, the enqueued ones below it
when it is ahead, the promotion it signals, and the account. -/
def Account.reset (a : Account) (nonce : UInt64) :
    List PoolTx × List PoolTx × Option Address × Account :=
  let prunedPromoted := accountQueue.prune a.promoted nonce
  let a := { a with promoted := prunedPromoted.2 }
  if nonce ≤ a.nextNonce then (prunedPromoted.1, [], none, a)
  else
    let prunedEnqueued := accountQueue.prune a.enqueued nonce
    let a := { a with
      enqueued := prunedEnqueued.2
      nextNonce := nonce }
    let promoteReq := match accountQueue.peek a.enqueued with
      | some first => if first.nonce = nonce then some first.fromAddr else none
      | none => none
    (prunedPromoted.1, prunedEnqueued.1, promoteReq, a)

def Account.enqueue (a : Account) (tx : PoolTx) : Except String Account :=
  if UInt64.ofNat a.enqueued.length = a.maxEnqueued then .error errMaxEnqueuedLimitReached
  else if tx.nonce < a.nextNonce then .error errNonceTooLow
  else .ok { a with enqueued := accountQueue.push a.enqueued tx }

def Account.promoteLoop (a : Account) (nextNonce : UInt64) :
    ℕ → Account × UInt64 × List PoolTx × List PoolTx
  | 0 => (a, nextNonce, [], [])
  | fuel + 1 =>
    match accountQueue.peek a.enqueued with
    | none => (a, nextNonce, [], [])
    | some head =>
      if head.nonce ≠ nextNonce then (a, nextNonce, [], [])
      else
        match accountQueue.pop a.enqueued with
        | (none, _) => (a, nextNonce, [], [])
        | (some tx, enqueued) =>
          let pruned := accountQueue.prune enqueued (tx.nonce + 1)
          let a := { a with
            enqueued := pruned.2
            promoted := accountQueue.push a.promoted tx }
          let r := a.promoteLoop (tx.nonce + 1) fuel
          (r.1, r.2.1, tx :: r.2.2.1, pruned.1 ++ r.2.2.2)

/-- `account.promote`: the promoted and the pruned transactions, and the account. -/
def Account.promote (a : Account) : List PoolTx × List PoolTx × Account :=
  let currentNonce := a.nextNonce
  match accountQueue.peek a.enqueued with
  | none => ([], [], a)
  | some first =>
    if first.nonce > currentNonce then ([], [], a)
    else
      let r := a.promoteLoop first.nonce a.enqueued.length
      (r.2.2.1, r.2.2.2, if r.2.1 > currentNonce then { r.1 with nextNonce := r.2.1 } else r.1)

def Account.getLowestTx (a : Account) : Option PoolTx :=
  match accountQueue.peek a.promoted with
  | some firstPromoted => some firstPromoted
  | none => accountQueue.peek a.enqueued

/-! ## The pool -/

/-- The fields of `TxPool` its operations read and write: the accounts in the order the map is
ranged over, the executables queue, the index, the gauge, and the requests the main loop has
received and whose handlers have not run. -/
structure TxPool where
  accounts : List Account
  executables : List PoolTx
  baseFee : UInt64
  index : List PoolTx
  gauge : SlotGauge
  enqueueReqs : List PoolTx
  promoteReqs : List Address
  maxAccountEnqueued : UInt64

/-- `NewTxPool`. -/
def TxPool.new (maxSlots maxAccountEnqueued : UInt64) : TxPool :=
  ⟨[], [], 0, [], ⟨0, maxSlots⟩, [], [], maxAccountEnqueued⟩

def TxPool.getAccount (p : TxPool) (addr : Address) : Option Account :=
  p.accounts.find? (·.address = addr)

def TxPool.setAccount (p : TxPool) (a : Account) : TxPool :=
  { p with accounts := p.accounts.map fun b => if b.address = a.address then a else b }

def TxPool.cleanup (p : TxPool) (stale : List PoolTx) : TxPool :=
  { p with
    index := lookupMap.remove p.index stale
    gauge := p.gauge.decrease (slotsRequired stale) }

/-- `createAccountOnce`, with the nonce of the latest state. -/
def TxPool.createAccountOnce (p : TxPool) (addr : Address) (stateNonce : UInt64) : TxPool :=
  if p.accounts.any (·.address = addr) then p
  else { p with accounts := p.accounts ++ [⟨addr, [], [], stateNonce, 0, 0, p.maxAccountEnqueued⟩] }

/-- `addTx` after `validateTx` has passed. -/
def TxPool.addTx (p : TxPool) (tx : PoolTx) (stateNonce : UInt64) : Except String TxPool := do
  if p.gauge.highPressure then
    -- `signalPruning` only wakes the pruning handler, which is a step of its own here
    match p.getAccount tx.fromAddr with
    | some account => if tx.nonce > account.nextNonce then throw errRejectFutureTx
    | none => pure ()
  if slotsRequired [tx] > p.gauge.max - p.gauge.read then throw errTxPoolOverflow
  match lookupMap.add p.index tx with
  | none => throw errAlreadyKnown
  | some index =>
    let p := { p with index := index }
    let p := p.createAccountOnce tx.fromAddr stateNonce
    pure { p with enqueueReqs := p.enqueueReqs ++ [tx] }

/-- `handleEnqueueRequest`. The account exists: `addTx` created it. -/
def TxPool.handleEnqueueRequest (p : TxPool) (tx : PoolTx) : TxPool :=
  match p.getAccount tx.fromAddr with
  | none => p
  | some account =>
    match account.enqueue tx with
    | .error _ => { p with index := lookupMap.remove p.index [tx] }
    | .ok account =>
      let p := { p.setAccount account with gauge := p.gauge.increase (slotsRequired [tx]) }
      if tx.nonce > account.nextNonce then p
      else { p with promoteReqs := p.promoteReqs ++ [tx.fromAddr] }

def TxPool.handlePromoteRequest (p : TxPool) (addr : Address) : TxPool :=
  match p.getAccount addr with
  | none => p
  | some account =>
    let r := account.promote
    (p.setAccount r.2.2).cleanup r.2.1

def TxPool.resetAccount (acc : TxPool × List PoolTx × List PoolTx) (update : Address × UInt64) :
    TxPool × List PoolTx × List PoolTx :=
  match acc.1.getAccount update.1 with
  | none => acc
  | some account =>
    let r := account.reset update.2
    let p := acc.1.setAccount { r.2.2.2 with demotions := 0 }
    ({ p with promoteReqs := p.promoteReqs ++ r.2.2.1.toList }, acc.2.1 ++ r.1, acc.2.2 ++ r.2.1)

def TxPool.resetAccounts (p : TxPool) (stateNonces : List (Address × UInt64)) : TxPool :=
  if stateNonces.length = 0 then p
  else
    let r := stateNonces.foldl TxPool.resetAccount (p, [], [])
    let p := if r.2.1.length > 0 then r.1.cleanup r.2.1 else r.1
    if r.2.2.length > 0 then p.cleanup r.2.2 else p

def TxPool.pruneAccountWithNonceHoles (p : TxPool) (addr : Address) : TxPool :=
  match p.getAccount addr with
  | none => p
  | some account =>
    match accountQueue.peek account.enqueued with
    | none => p
    | some firstTx =>
      if firstTx.nonce = account.nextNonce then p
      else
        let removed := accountQueue.clear account.enqueued
        (p.setAccount { account with enqueued := removed.2 }).cleanup removed.1

def TxPool.pruneAccountsWithNonceHoles (p : TxPool) : TxPool :=
  (p.accounts.map (·.address)).foldl TxPool.pruneAccountWithNonceHoles p

/-- `Drop`: the account's nonce is rolled back to the transaction's, and both its queues are
cleared. -/
def TxPool.drop (p : TxPool) (tx : PoolTx) : TxPool :=
  match p.getAccount tx.fromAddr with
  | none => p
  | some account =>
    let account := { account with nextNonce := tx.nonce }
    let droppedPromoted := accountQueue.clear account.promoted
    let p := (p.setAccount { account with promoted := droppedPromoted.2 }).cleanup droppedPromoted.1
    let droppedEnqueued := accountQueue.clear account.enqueued
    (p.setAccount { account with
      promoted := droppedPromoted.2
      enqueued := droppedEnqueued.2 }).cleanup droppedEnqueued.1

def TxPool.modifyAccount (p : TxPool) (addr : Address) (f : Account → Account) : TxPool :=
  match p.getAccount addr with
  | none => p
  | some account => p.setAccount (f account)

def TxPool.demote (p : TxPool) (tx : PoolTx) : TxPool :=
  match p.getAccount tx.fromAddr with
  | none => p
  | some account =>
    if account.demotions ≥ maxAccountDemotions then
      (p.drop tx).modifyAccount tx.fromAddr fun a => { a with demotions := 0 }
    else p.setAccount { account with demotions := account.demotions + 1 }

def TxPool.updateAccountSkipsCount (latestActiveAccounts : List Address) (p : TxPool)
    (addr : Address) : TxPool :=
  match p.getAccount addr with
  | none => p
  | some account =>
    if addr ∈ latestActiveAccounts then p.setAccount { account with skips := 0 }
    else
      match account.getLowestTx with
      | none => p
      | some firstTx =>
        let account := { account with skips := account.skips + 1 }
        let p := p.setAccount account
        if account.skips < maxAccountSkips then p
        else (p.drop firstTx).modifyAccount addr fun a => { a with skips := 0 }

def TxPool.updateAccountSkipsCounts (p : TxPool) (latestActiveAccounts : List Address) :
    TxPool :=
  (p.accounts.map (·.address)).foldl (TxPool.updateAccountSkipsCount latestActiveAccounts) p

/-- `processEvent`: the mined transactions leave the index, the accounts are reset to the nonces
of the latest state, and a node that does not seal counts the skips. -/
def TxPool.processEvent (p : TxPool) (minedTxs : List PoolTx)
    (stateNonces : List (Address × UInt64)) (sealing : Bool) : TxPool :=
  let p := { p with index := lookupMap.remove p.index minedTxs }
  let p := p.resetAccounts stateNonces
  if sealing then p else p.updateAccountSkipsCounts (stateNonces.map Prod.fst)

/-! ## Block building -/

/-- `maxPriceQueue.Less`. -/
def priceLess (baseFee : UInt64) (a b : PoolTx) : Bool :=
  Txpool.maxPriceQueue.less baseFee a.tx b.tx

def TxPool.pushExecutable (p : TxPool) (tx : PoolTx) : TxPool :=
  { p with executables := ContainerHeap.push (priceLess p.baseFee) p.executables tx }

def getPrimaries (accounts : List Account) : List PoolTx :=
  accounts.filterMap fun a => accountQueue.peek a.promoted

def TxPool.prepare (p : TxPool) (baseFee : UInt64) : TxPool :=
  let p := if p.executables.length ≠ 0 then { p with executables := [] } else p
  let p := { p with baseFee := baseFee }
  (getPrimaries p.accounts).foldl TxPool.pushExecutable p

def TxPool.peek (p : TxPool) : Option PoolTx × TxPool :=
  if p.executables.length = 0 then (none, p)
  else
    let r := ContainerHeap.pop (priceLess p.baseFee) p.executables
    (r.1, { p with executables := r.2 })

/-- `Pop`: the head of the account's promoted queue is taken off, whatever it is, and the gauge
lowered by the slots of the transaction given. -/
def TxPool.pop (p : TxPool) (tx : PoolTx) : TxPool :=
  match p.getAccount tx.fromAddr with
  | none => p
  | some account =>
    let promoted := (accountQueue.pop account.promoted).2
    let p := { p.setAccount { account with
        promoted := promoted
        demotions := 0 } with
      gauge := p.gauge.decrease (slotsRequired [tx]) }
    match accountQueue.peek promoted with
    | some next => p.pushExecutable next
    | none => p

/-! ## Runs -/

/-- The pool and the transaction the block builder's latest `Peek` returned. -/
structure System where
  pool : TxPool
  building : Option PoolTx

/-- One operation, whole. `popGuard` says which transactions block building may pop: any it was
given, in the source. -/
inductive Step (popGuard : TxPool → PoolTx → Prop) : System → System → Prop where
  | addTx {s p} (tx : PoolTx) (stateNonce : UInt64) :
    s.pool.addTx tx stateNonce = .ok p → Step popGuard s { s with pool := p }
  | handleEnqueueRequest {s} (tx : PoolTx) : tx ∈ s.pool.enqueueReqs →
    Step popGuard s { s with pool :=
      { s.pool with enqueueReqs := s.pool.enqueueReqs.erase tx }.handleEnqueueRequest tx }
  | handlePromoteRequest {s} (addr : Address) : addr ∈ s.pool.promoteReqs →
    Step popGuard s { s with pool :=
      { s.pool with promoteReqs := s.pool.promoteReqs.erase addr }.handlePromoteRequest addr }
  /-- The nonces are those of the latest state: each sender of a mined transaction has one, above
  that transaction's. -/
  | processEvent {s} (minedTxs : List PoolTx) (stateNonces : List (Address × UInt64))
      (sealing : Bool) : (stateNonces.map Prod.fst).Nodup →
    (∀ tx ∈ minedTxs, ∃ n, (tx.fromAddr, n) ∈ stateNonces ∧ tx.nonce < n) →
    Step popGuard s { s with pool := s.pool.processEvent minedTxs stateNonces sealing }
  | pruneAccountsWithNonceHoles {s} :
    Step popGuard s { s with pool := s.pool.pruneAccountsWithNonceHoles }
  | prepare {s} (baseFee : UInt64) : Step popGuard s ⟨s.pool.prepare baseFee, none⟩
  | peek {s} : Step popGuard s ⟨s.pool.peek.2, s.pool.peek.1⟩
  | pop {s tx} : s.building = some tx → popGuard s.pool tx →
    Step popGuard s ⟨s.pool.pop tx, none⟩
  | drop {s tx} : s.building = some tx → Step popGuard s ⟨s.pool.drop tx, none⟩
  | demote {s tx} : s.building = some tx → Step popGuard s ⟨s.pool.demote tx, none⟩

inductive Execution (popGuard : TxPool → PoolTx → Prop) : System → System → Prop where
  | nil (s) : Execution popGuard s s
  | cons {s s' s''} : Step popGuard s s' → Execution popGuard s' s'' → Execution popGuard s s''

/-- A state some run from a new pool reaches. -/
def Reachable (popGuard : TxPool → PoolTx → Prop) (s : System) : Prop :=
  ∃ maxSlots maxAccountEnqueued,
    Execution popGuard ⟨TxPool.new maxSlots maxAccountEnqueued, none⟩ s

def Account.txs (a : Account) : List PoolTx := a.enqueued ++ a.promoted

def slotsHeld (p : TxPool) : UInt64 := slotsRequired (p.accounts.flatMap Account.txs)

end TxpoolState
