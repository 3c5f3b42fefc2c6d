import MindPos.TxPoolState
import MindPos.StateExecutor
import MindPos.StateCallFrames
import MindPos.TypesRlp

/-! # Admission of a transaction to the pool

`TxPool.validateTx` (`txpool/txpool.go`), `Transaction.Cost` (`types/transaction.go`) and
`minNonceQueue.Less` (`txpool/queue_account.go`). The fee fields of a `*types.Transaction` are
pointers, and the decoder sets those of the transaction's type only: a dynamic fee transaction
has no gas price, another no caps. `GetGasPrice` reads an absent field as zero, but `Cost` copies
the gas price when the fee cap is zero, and `Less` compares the gas prices of two transactions of
one nonce: both dereference an absent gas price, a panic, `none` here. `Cmp` of two `nil`
pointers returns before it reads them, as they are the same pointer. -/
namespace TxpoolValidate

open EdgeTypes

/-- A `*types.Transaction` with its three fee fields as the pointers they are; the fee fields of
`body` are not read. -/
structure Tx where
  body : Transaction
  gasPrice : Option Int
  gasTipCap : Option Int
  gasFeeCap : Option Int
  deriving DecidableEq

def Tx.ofDecoded (t : Transaction) : Tx :=
  if t.type = .dynamicFeeTx then ⟨t, none, some t.gasTipCap, some t.gasFeeCap⟩
  else ⟨t, some t.gasPrice, none, none⟩

def Tx.toQueued (t : Tx) : Txpool.Transaction :=
  ⟨t.body.fromAddr, t.body.nonce, t.gasPrice, t.gasTipCap, t.gasFeeCap⟩

def Tx.toPoolTx (t : Tx) : TxpoolState.PoolTx :=
  ⟨t.toQueued, t.body.hash, UInt64.ofNat t.body.marshalRLP.length⟩

/-- `Transaction.Cost`: the fee cap when it is set and not zero, else the gas price, which `Set`
dereferences. -/
def Tx.cost (t : Tx) : Option Int :=
  let factor := match t.gasFeeCap with
    | some gasFeeCap => if gasFeeCap ≠ 0 then some gasFeeCap else t.gasPrice
    | none => t.gasPrice
  factor.map fun factor => factor * (t.body.gas.toNat : Int) + t.body.value

/-! ## `validateTx` -/

/-- The forks `validateTx` reads. -/
structure Forks where
  homestead : Bool
  eip158 : Bool
  istanbul : Bool
  london : Bool

/-- What `validateTx` reads of the pool: its forks, signer, deployment whitelist, base fee and
price limit, and of the state at the head the nonces, the balances and the block gas limit. -/
structure TxPool where
  forks : Forks
  sender : Transaction → Except String Address
  deploymentWhitelist : List Address
  baseFee : UInt64
  priceLimit : UInt64
  getNonce : Address → UInt64
  getBalance : Address → Except String Int
  gasLimit : UInt64

def txMaxSize : ℕ := 128 * 1024

/-- `state.TxPoolMaxInitCodeSize`, twice `SpuriousDragonMaxCodeSize`. -/
def txPoolMaxInitCodeSize : ℕ := 2 * 24576

def errInvalidTxType : String := "invalid tx type"

def errOversizedData : String := "oversized data"

def errNegativeValue : String := "negative value"

def errExtractSignature : String := "cannot extract signature"

def errInvalidSender : String := "invalid sender"

def errSmartContractRestricted : String := "smart contract deployment restricted"

def errUnderpriced : String := "transaction underpriced"

def errFeeCapVeryHigh : String := "max fee per gas higher than 2^256-1"

def errTipVeryHigh : String := "max priority fee per gas higher than 2^256-1"

def errTipAboveFeeCap : String := "max priority fee per gas higher than max fee per gas"

def errInvalidAccountState : String := "invalid account state"

def errInsufficientFunds : String := "insufficient funds for gas * price + value"

def errIntrinsicGas : String := "intrinsic gas too low"

def errBlockLimitExceeded : String := "exceeds block gas limit"

/-- `deploymentWhitelist.allowed`: every address when the list is empty. -/
def deploymentWhitelist.allowed (addresses : List Address) (addr : Address) : Bool :=
  addresses.isEmpty || addresses.contains addr

def TxPool.checkFees (p : TxPool) (t : Tx) : Except String Unit :=
  if t.body.type = .dynamicFeeTx then
    if !p.forks.london then .error errInvalidTxType
    else
      match t.gasFeeCap, t.gasTipCap with
      | some gasFeeCap, some gasTipCap =>
        if StateExecutor.exceeds256Bits gasFeeCap then .error errFeeCapVeryHigh
        else if StateExecutor.exceeds256Bits gasTipCap then .error errTipVeryHigh
        else if gasFeeCap < gasTipCap then .error errTipAboveFeeCap
        else if gasFeeCap < p.baseFee.toNat then .error errUnderpriced
        else .ok ()
      | _, _ => .error errUnderpriced
  else if t.toQueued.getGasPrice p.baseFee < p.priceLimit.toNat then .error errUnderpriced
  else .ok ()

def TxPool.recoverSender (p : TxPool) (t : Tx) : Except String Tx :=
  match p.sender t.body with
  | .error _ => .error errExtractSignature
  | .ok fromAddr =>
    if t.body.fromAddr ≠ zeroAddress ∧ t.body.fromAddr ≠ fromAddr then .error errInvalidSender
    else if t.body.fromAddr = zeroAddress then .ok { t with body.fromAddr := fromAddr }
    else .ok t

def TxPool.checkContractCreation (p : TxPool) (t : Tx) : Except String Unit :=
  if t.body.toAddr.isNone then
    if !deploymentWhitelist.allowed p.deploymentWhitelist t.body.fromAddr then
      .error errSmartContractRestricted
    else if p.forks.eip158 ∧ t.body.input.length > txPoolMaxInitCodeSize then
      .error StateCallFrames.errMaxCodeSizeExceeded
    else .ok ()
  else .ok ()

/-- `validateTx` up to the balance of the sender, which cannot panic: the transaction with its
sender set, and the balance. -/
def TxPool.checksBeforeCost (p : TxPool) (t : Tx) : Except String (Tx × Int) :=
  if t.body.type = .stateTx then .error errInvalidTxType
  else if t.body.marshalRLP.length > txMaxSize then .error errOversizedData
  else if t.body.value < 0 then .error errNegativeValue
  else do
    let t ← p.recoverSender t
    p.checkContractCreation t
    p.checkFees t
    if p.getNonce t.body.fromAddr > t.body.nonce then .error TxpoolState.errNonceTooLow
    else
      match p.getBalance t.body.fromAddr with
      | .ok accountBalance => .ok (t, accountBalance)
      | .error _ => .error errInvalidAccountState

/-- `validateTx` after `Cost`: the balance, the intrinsic gas and the block gas limit. -/
def TxPool.checksAfterCost (p : TxPool) (t : Tx) (accountBalance cost : Int) :
    Except String Tx :=
  if accountBalance < cost then .error errInsufficientFunds
  else do
    let intrinsicGas ← StateExecutor.transactionGasCost t.body p.forks.homestead p.forks.istanbul
    if t.body.gas < intrinsicGas then .error errIntrinsicGas
    else if t.body.gas > p.gasLimit then .error errBlockLimitExceeded
    else .ok t

/-- `validateTx`: the checks before `Cost`, `Cost`, which may panic, and the checks after it. It
returns the transaction with its sender set. -/
def TxPool.validateTx (p : TxPool) (t : Tx) : ExceptT String Option Tx := do
  let (t, accountBalance) ← monadLift (p.checksBeforeCost t)
  let cost ← monadLift t.cost
  monadLift (p.checksAfterCost t accountBalance cost)

/-! ## Where `validateTx` panics -/

@[simp] theorem Tx.cost_setFrom (t : Tx) (a : Address) :
    ({ t with body.fromAddr := a } : Tx).cost = t.cost := rfl

@[simp] theorem TxPool.checkFees_setFrom (p : TxPool) (t : Tx) (a : Address) :
    p.checkFees { t with body.fromAddr := a } = p.checkFees t := rfl

theorem Tx.cost_eq_none_iff {t : Tx} :
    t.cost = none ↔ t.gasPrice = none ∧ (t.gasFeeCap = none ∨ t.gasFeeCap = some 0) := by
  rcases t with ⟨body, gasPrice, gasTipCap, _ | gasFeeCap⟩
  · simp [Tx.cost]
  · by_cases h : gasFeeCap = 0 <;> simp [Tx.cost, h]

theorem Tx.ofDecoded_cost_eq_none_iff {t : Transaction} :
    (Tx.ofDecoded t).cost = none ↔ t.type = .dynamicFeeTx ∧ t.gasFeeCap = 0 := by
  rw [Tx.cost_eq_none_iff]
  unfold Tx.ofDecoded
  split_ifs with h <;> simp [h]

theorem TxPool.recoverSender_ok {p : TxPool} {t t' : Tx} (h : p.recoverSender t = .ok t') :
    ∃ a, t' = { t with body.fromAddr := a } := by
  unfold TxPool.recoverSender at h
  split at h
  · cases h
  · next fromAddr _ =>
    split_ifs at h
    · cases h
      exact ⟨fromAddr, rfl⟩
    · cases h
      exact ⟨t.body.fromAddr, rfl⟩

theorem TxPool.checksBeforeCost_ok {p : TxPool} {t t' : Tx} {b : Int}
    (h : p.checksBeforeCost t = .ok (t', b)) :
    (∃ a, t' = { t with body.fromAddr := a }) ∧ p.checkFees t = .ok () := by
  unfold TxPool.checksBeforeCost at h
  split_ifs at h
  obtain ⟨t₁, hsender, h⟩ := Except.bind_eq_ok_iff.mp h
  obtain ⟨a, rfl⟩ := p.recoverSender_ok hsender
  obtain ⟨⟨⟩, -, h⟩ := Except.bind_eq_ok_iff.mp h
  obtain ⟨⟨⟩, hfees, h⟩ := Except.bind_eq_ok_iff.mp h
  refine ⟨⟨a, ?_⟩, by rwa [TxPool.checkFees_setFrom] at hfees⟩
  split_ifs at h
  split at h
  · cases h
    rfl
  · cases h

theorem TxPool.validateTx_run (p : TxPool) (t : Tx) :
    (p.validateTx t).run = match p.checksBeforeCost t with
      | .error e => some (.error e)
      | .ok (t', accountBalance) => t'.cost.map (p.checksAfterCost t' accountBalance) := by
  unfold TxPool.validateTx
  cases p.checksBeforeCost t with
  | error e => rfl
  | ok tb =>
    obtain ⟨t', b⟩ := tb
    rw [lift_ok_bind]
    dsimp only
    cases t'.cost <;> rfl

theorem TxPool.validateTx_run_eq_none_iff {p : TxPool} {t : Tx} :
    (p.validateTx t).run = none ↔ (∃ tb, p.checksBeforeCost t = .ok tb) ∧ t.cost = none := by
  rw [TxPool.validateTx_run]
  cases h : p.checksBeforeCost t with
  | error e => simp
  | ok tb =>
    obtain ⟨t', b⟩ := tb
    obtain ⟨⟨a, rfl⟩, -⟩ := TxPool.checksBeforeCost_ok h
    simp

theorem TxPool.baseFee_le_of_checkFees {p : TxPool} {t : Transaction}
    (h : p.checkFees (Tx.ofDecoded t) = .ok ()) (htype : t.type = .dynamicFeeTx) :
    (p.baseFee.toNat : Int) ≤ t.gasFeeCap := by
  simp only [TxPool.checkFees, Tx.ofDecoded, htype, if_true] at h
  split_ifs at h with _ _ _ _ hlow
  exact Int.not_lt.mp hlow

theorem TxPool.validateTx_ofDecoded_eq_none_iff {p : TxPool} {t : Transaction} :
    (p.validateTx (Tx.ofDecoded t)).run = none ↔
      (∃ tb, p.checksBeforeCost (Tx.ofDecoded t) = .ok tb) ∧ t.type = .dynamicFeeTx ∧
        t.gasFeeCap = 0 := by
  rw [TxPool.validateTx_run_eq_none_iff, Tx.ofDecoded_cost_eq_none_iff]

theorem TxPool.validateTx_ofDecoded_ne_none {p : TxPool} (hbase : 0 < p.baseFee)
    (t : Transaction) : (p.validateTx (Tx.ofDecoded t)).run ≠ none := by
  intro hnone
  obtain ⟨⟨⟨t', b⟩, hchecks⟩, htype, hcap⟩ := TxPool.validateTx_ofDecoded_eq_none_iff.mp hnone
  have hle := TxPool.baseFee_le_of_checkFees (TxPool.checksBeforeCost_ok hchecks).2 htype
  have hpos : 0 < p.baseFee.toNat := UInt64.lt_iff_toNat_lt.mp hbase
  omega

/-! ## The queue of an account -/

/-- `minNonceQueue.Less` on the pointers: at one nonce the gas prices are compared, and `Cmp`
dereferences both unless both are `nil`. -/
def minNonceQueue.less (a b : Txpool.Transaction) : Option Bool :=
  if a.nonce = b.nonce then
    match a.gasPrice, b.gasPrice with
    | some pa, some pb => some (decide (pa > pb))
    | none, none => some false
    | _, _ => none
  else some (decide (a.nonce < b.nonce))

def accountQueue.push (q : List TxpoolState.PoolTx) (tx : TxpoolState.PoolTx) :
    Option (List TxpoolState.PoolTx) :=
  ContainerHeap.pushM (fun a b => minNonceQueue.less a.tx b.tx) q tx

/-- `account.enqueue`, whose push may panic. -/
def Account.enqueue (a : TxpoolState.Account) (tx : TxpoolState.PoolTx) :
    ExceptT String Option TxpoolState.Account :=
  if UInt64.ofNat a.enqueued.length = a.maxEnqueued then
    throw TxpoolState.errMaxEnqueuedLimitReached
  else if tx.nonce < a.nextNonce then throw TxpoolState.errNonceTooLow
  else do
    let enqueued ← monadLift (accountQueue.push a.enqueued tx)
    pure { a with enqueued }

theorem minNonceQueue.less_eq_none_iff {a b : Txpool.Transaction} :
    minNonceQueue.less a b = none ↔ a.nonce = b.nonce ∧ a.gasPrice.isSome ≠ b.gasPrice.isSome := by
  unfold minNonceQueue.less
  split_ifs with h
  · cases a.gasPrice <;> cases b.gasPrice <;> simp [h]
  · simp [h]

theorem minNonceQueue.less_eq_some {a b : Txpool.Transaction}
    (h : a.gasPrice.isSome = b.gasPrice.isSome) :
    minNonceQueue.less a b = some (Txpool.minNonceQueue.less a b) := by
  unfold minNonceQueue.less Txpool.minNonceQueue.less
  split_ifs with hn
  · cases ha : a.gasPrice <;> cases hb : b.gasPrice <;> simp_all
  · rfl

@[simp] theorem accountQueue.push_nil (tx : TxpoolState.PoolTx) :
    accountQueue.push [] tx = some [tx] :=
  ContainerHeap.pushM_nil _ tx

theorem accountQueue.push_singleton (a b : TxpoolState.PoolTx) :
    accountQueue.push [b] a =
      (minNonceQueue.less a.tx b.tx).map fun lt => if lt then [a, b] else [b, a] :=
  ContainerHeap.pushM_singleton _ a b

theorem accountQueue.push_eq_some {q : List TxpoolState.PoolTx} {tx : TxpoolState.PoolTx}
    (h : ∀ x ∈ tx :: q, x.tx.gasPrice.isSome = tx.tx.gasPrice.isSome) :
    accountQueue.push q tx = some (TxpoolState.accountQueue.push q tx) :=
  ContainerHeap.pushM_eq_some fun a ha b hb =>
    minNonceQueue.less_eq_some ((h a ha).trans (h b hb).symm)

theorem Account.enqueue_run {a : TxpoolState.Account} {tx : TxpoolState.PoolTx}
    (hlen : UInt64.ofNat a.enqueued.length ≠ a.maxEnqueued) (hnonce : ¬ tx.nonce < a.nextNonce) :
    (Account.enqueue a tx).run =
      (accountQueue.push a.enqueued tx).map fun enqueued => .ok { a with enqueued } := by
  unfold Account.enqueue
  rw [if_neg hlen, if_neg hnonce]
  cases accountQueue.push a.enqueued tx <;> rfl

theorem Account.enqueue_eq {a : TxpoolState.Account} {tx : TxpoolState.PoolTx}
    (h : ∀ x ∈ tx :: a.enqueued, x.tx.gasPrice.isSome = tx.tx.gasPrice.isSome) :
    (Account.enqueue a tx).run = some (TxpoolState.Account.enqueue a tx) := by
  unfold TxpoolState.Account.enqueue
  split_ifs with hlen hnonce
  · simp [Account.enqueue, hlen]
  · simp [Account.enqueue, hlen, hnonce]
  · rw [Account.enqueue_run hlen hnonce, accountQueue.push_eq_some h]
    rfl

/-! ## Signatures -/

def secp256k1N : Int := 0xfffffffffffffffffffffffffffffffebaaedce6af48a03bbfd25e8cd0364141

/-- `crypto.ValidateSignatureValues`. -/
def validateSignatureValues (v r s : Int) (isHomestead : Bool) : Bool :=
  if r < 1 ∨ s < 1 then false
  else if v < 0 ∨ 1 < v then false
  else if isHomestead then decide (r < secp256k1N ∧ s ≤ secp256k1N / 2)
  else decide (r < secp256k1N ∧ s < secp256k1N)

/-- `encodeSignature`: `R` and `S` in 32 bytes each, then `V`. -/
def encodeSignature (r s v : Int) (isHomestead : Bool) : Except String (List UInt8) :=
  if validateSignatureValues v r s isHomestead then
    .ok (rightAlign 32 (RlpEncoding.toBE r.toNat) ++ rightAlign 32 (RlpEncoding.toBE s.toNat) ++
      [UInt8.ofNat v.toNat])
  else .error "invalid txn signature"

def sampleTxSender (t : Transaction) : Except String Address := do
  let sig ← encodeSignature t.r t.s (if t.type = .dynamicFeeTx then t.v else t.v - 27) true
  pure (bytesToAddress (sig.take 32))

/-- A zero signature is refused before any recovery. -/
example : sampleTxSender StateExecutor.sampleDynamicFeeTx = .error "invalid txn signature" := by
  decide

/-! ## Decoded transactions that panic -/

def zeroFeeTx : Transaction :=
  ⟨0, 0, 0, 0, 21000, some StateExecutor.sampleRecipient, 0, [], 0, 1, 1, zeroHash, zeroAddress,
    .dynamicFeeTx⟩

def legacyTx : Transaction :=
  ⟨5, 1, 0, 0, 21000, some StateExecutor.sampleRecipient, 0, [], 27, 1, 1, zeroHash, zeroAddress,
    .legacyTx⟩

def feeBumpTx : Transaction :=
  ⟨5, 0, 1, 1, 21000, some StateExecutor.sampleRecipient, 0, [], 0, 1, 1, zeroHash, zeroAddress,
    .dynamicFeeTx⟩

def samplePool : TxPool :=
  ⟨⟨true, true, true, true⟩, sampleTxSender, [], 0, 0, fun _ => 0, fun _ => .ok 1000000, 30000000⟩

def freshAccount : TxpoolState.Account := ⟨StateExecutor.sampleSender, [], [], 0, 0, 0, 128⟩

theorem admission_panics_on_decoded_transactions :
    (∃ input t, Transaction.unmarshalRLP input = .ok t ∧
      (samplePool.validateTx (Tx.ofDecoded t)).run = none) ∧
    ∃ input₁ input₂ t₁ t₂ v₁ v₂ a, Transaction.unmarshalRLP input₁ = .ok t₁ ∧
      Transaction.unmarshalRLP input₂ = .ok t₂ ∧
      (samplePool.validateTx (Tx.ofDecoded t₁)).run = some (.ok v₁) ∧
      (samplePool.validateTx (Tx.ofDecoded t₂)).run = some (.ok v₂) ∧
      (Account.enqueue freshAccount v₁.toPoolTx).run = some (.ok a) ∧
      (Account.enqueue a v₂.toPoolTx).run = none := by
  refine ⟨⟨_, _, Transaction.unmarshalRLP_marshalRLP zeroFeeTx, by decide⟩,
    _, _, _, _, _, _, ?a, Transaction.unmarshalRLP_marshalRLP legacyTx,
    Transaction.unmarshalRLP_marshalRLP feeBumpTx, rfl, rfl, ?legacy, ?feeBump⟩
  case legacy =>
    rw [Account.enqueue_run (by decide) (by decide), show freshAccount.enqueued = [] from rfl,
      accountQueue.push_nil]
    rfl
  case feeBump =>
    rw [Account.enqueue_run (by decide) (by decide), accountQueue.push_singleton]
    rfl

end TxpoolValidate
