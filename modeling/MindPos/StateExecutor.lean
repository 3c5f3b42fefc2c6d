import Mathlib
import MindPos.EdgeTypes

/-! # The fees of a state transition

`state/executor.go`, `Transition.apply`. The sender is charged the whole gas limit before
execution (`subGasLimitPrice`), at the fee cap when it is set. After execution it is refunded the
gas left at the price of `GetGasPrice`, the coinbase is paid the gas used at the effective tip,
and under London the gas used at the base fee goes to the burn contract. Amounts are `big.Int`,
integers here.

A transition is a state: `apply` runs in `EStateM`, so an error keeps what the steps before it
changed, as the Go method does; `Apply` then reverts the account state only. The call or the
creation is a parameter `execute`. -/
namespace StateExecutor

open EdgeTypes

/-- The forks `apply` reads of `chain.ForksInTime`. -/
structure Forks where
  homestead : Bool
  istanbul : Bool
  london : Bool
  deriving DecidableEq

/-- The part of `runtime.TxContext` that `apply` reads. -/
structure TxContext where
  baseFee : UInt64
  coinbase : Address
  burnContract : Address
  deriving DecidableEq

/-- The account state `apply` reads and writes: balances, nonces and the refund counter. -/
structure Ledger where
  balance : Address → Int
  nonce : Address → UInt64
  refund : UInt64

/-- `Txn.AddBalance`. -/
def Ledger.addBalance (l : Ledger) (addr : Address) (amount : Int) : Ledger :=
  { l with balance := Function.update l.balance addr (l.balance addr + amount) }

def errNotEnoughFunds : String := "not enough funds"

/-- `Txn.SubBalance`: a zero amount is a no-op, an amount above the balance an error. -/
def Ledger.subBalance (l : Ledger) (addr : Address) (amount : Int) : Except String Ledger :=
  if amount = 0 then .ok l
  else if l.balance addr < amount then .error errNotEnoughFunds
  else .ok (l.addBalance addr (-amount))

/-- `Txn.IncrNonce`. -/
def Ledger.incrNonce (l : Ledger) (addr : Address) : Ledger :=
  { l with nonce := Function.update l.nonce addr (l.nonce addr + 1) }

/-- `runtime.ExecutionResult`, without its return value and error. -/
structure ExecutionResult where
  gasLeft : UInt64
  gasUsed : UInt64
  failed : Bool
  deriving DecidableEq

/-- `ExecutionResult.UpdateGasUsed`: the refund is capped at half the gas used. -/
def ExecutionResult.updateGasUsed (r : ExecutionResult) (gasLimit refund : UInt64) :
    ExecutionResult :=
  let gasUsed := gasLimit - r.gasLeft
  let refund := if refund > gasUsed / 2 then gasUsed / 2 else refund
  { r with gasLeft := r.gasLeft + refund, gasUsed := gasUsed - refund }

/-- The fields of `Transition` that `apply` reads and writes. -/
structure Transition where
  ledger : Ledger
  gasPool : UInt64
  ctx : TxContext
  config : Forks

abbrev TransitionM := EStateM String Transition

def txGas : UInt64 := 21000
def txGasContractCreation : UInt64 := 53000
def stateTransactionGasLimit : UInt64 := 1000000

/-- `contracts.SystemCaller`. -/
def systemCaller : Address :=
  bytesToAddress (RlpEncoding.toBE 0xffffFFFfFFffffffffffffffFfFFFfffFFFfFFfE)

def errNonceIncorrect : String := "incorrect nonce"
def errNotEnoughFundsForGas : String := "not enough funds to cover gas costs"
def errBlockLimitReached : String := "gas limit reached in the pool"
def errIntrinsicGasOverflow : String := "overflow in intrinsic gas calculation"
def errNotEnoughIntrinsicGas : String := "not enough gas supplied for intrinsic gas costs"
def errTipAboveFeeCap : String := "max priority fee per gas higher than max fee per gas"
def errTipVeryHigh : String := "max priority fee per gas higher than 2^256-1"
def errFeeCapVeryHigh : String := "max fee per gas higher than 2^256-1"
def errFeeCapTooLow : String := "max fee per gas less than block base fee"

/-! ## Prices -/

/-- `Transaction.GetGasPrice`: the gas price when set; otherwise, with a base fee, the tip above
the base fee capped by the fee cap. -/
def getGasPrice (msg : Transaction) (baseFee : UInt64) : Int :=
  if msg.gasPrice ≠ 0 then msg.gasPrice
  else if baseFee = 0 then 0
  else if msg.gasFeeCap ≠ 0 ∨ msg.gasTipCap ≠ 0 then
    min (msg.gasTipCap + baseFee.toNat) msg.gasFeeCap
  else 0

def upfrontFactor (msg : Transaction) : Int :=
  if msg.gasFeeCap ≠ 0 then msg.gasFeeCap else msg.gasPrice

def effectiveTip (config : Forks) (baseFee : UInt64) (msg : Transaction) (gasPrice : Int) : Int :=
  if config.london ∧ msg.type = .dynamicFeeTx then
    min (msg.gasFeeCap - baseFee.toNat) msg.gasTipCap
  else gasPrice

/-! ## The checks before execution -/

/-- `TransactionGasCost`. -/
def transactionGasCost (msg : Transaction) (isHomestead isIstanbul : Bool) :
    Except String UInt64 :=
  let cost : UInt64 := if msg.toAddr.isNone ∧ isHomestead then txGasContractCreation else txGas
  let payload := msg.input
  if payload.length = 0 then .ok cost
  else
    let zeros : UInt64 := (payload.count 0).toUInt64
    let nonZeros := payload.length.toUInt64 - zeros
    let nonZeroCost : UInt64 := if isIstanbul then 16 else 68
    if (UInt64.ofNat (2 ^ 64 - 1) - cost) / nonZeroCost < nonZeros then
      .error errIntrinsicGasOverflow
    else
      let cost := cost + nonZeros * nonZeroCost
      if (UInt64.ofNat (2 ^ 64 - 1) - cost) / 4 < zeros then .error errIntrinsicGasOverflow
      else .ok (cost + zeros * 4)

/-- `big.Int.BitLen() > 256`. -/
def exceeds256Bits (x : Int) : Bool := 2 ^ 256 ≤ x.natAbs

/-- `Transition.checkDynamicFees`. -/
def Transition.checkDynamicFees (t : Transition) (msg : Transaction) : Except String Unit :=
  if msg.type ≠ .dynamicFeeTx then .ok ()
  else if msg.gasFeeCap = 0 ∧ msg.gasTipCap = 0 then .ok ()
  else if exceeds256Bits msg.gasFeeCap then .error errFeeCapVeryHigh
  else if exceeds256Bits msg.gasTipCap then .error errTipVeryHigh
  else if msg.gasFeeCap < msg.gasTipCap then .error errTipAboveFeeCap
  else if msg.gasFeeCap < t.ctx.baseFee.toNat then .error errFeeCapTooLow
  else .ok ()

/-- `Transition.nonceCheck`. -/
def Transition.nonceCheck (t : Transition) (msg : Transaction) : Except String Unit :=
  if t.ledger.nonce msg.fromAddr ≠ msg.nonce then .error errNonceIncorrect else .ok ()

/-- `Transition.subGasLimitPrice`: the whole gas limit at the upfront factor. -/
def Transition.subGasLimitPrice (msg : Transaction) : TransitionM Unit := fun t =>
  match t.ledger.subBalance msg.fromAddr (msg.gas.toNat * upfrontFactor msg) with
  | .error _ => .error errNotEnoughFundsForGas t
  | .ok ledger => .ok () { t with ledger := ledger }

/-- `checkAndProcessTx`. -/
def checkAndProcessTx (msg : Transaction) : TransitionM Unit := do
  let t ← get
  ofExcept (t.nonceCheck msg)
  ofExcept (t.checkDynamicFees msg)
  Transition.subGasLimitPrice msg

/-- `checkAndProcessStateTx`. -/
def checkAndProcessStateTx (msg : Transaction) : Except String Unit :=
  if msg.gasPrice ≠ 0 then .error "gasPrice of state transaction must be zero"
  else if msg.gas ≠ stateTransactionGasLimit then
    .error ("gas of state transaction must be " ++ toString stateTransactionGasLimit)
  else if msg.fromAddr ≠ systemCaller then
    .error "state transaction sender must be the system caller"
  else if msg.toAddr = none ∨ msg.toAddr = some zeroAddress then
    .error "to of state transaction must be specified"
  else .ok ()

/-- `Transition.subGasPool`. -/
def Transition.subGasPool (amount : UInt64) : TransitionM Unit := fun t =>
  if t.gasPool < amount then .error errBlockLimitReached t
  else .ok () { t with gasPool := t.gasPool - amount }

/-- `Transition.addGasPool`. -/
def Transition.addGasPool (amount : UInt64) : TransitionM Unit :=
  modify fun t => { t with gasPool := t.gasPool + amount }

/-! ## `apply` -/

/-- `Create2` or `Call2` of the transaction on the account state, at the gas price of the
context, with the gas left after the intrinsic cost. -/
abbrev Execute := Ledger → Transaction → Int → UInt64 → ExecutionResult × Ledger

variable (execute : Execute)

/-- `Transition.apply`. A call first increments the sender's nonce; a creation increments it
inside `Create2`. -/
def Transition.apply (msg : Transaction) : TransitionM ExecutionResult := do
  (if msg.type = .stateTx then ofExcept (checkAndProcessStateTx msg) else checkAndProcessTx msg)
  Transition.subGasPool msg.gas
  let t ← get
  let intrinsicGasCost ← ofExcept (transactionGasCost msg t.config.homestead t.config.istanbul)
  let gasLeft := msg.gas - intrinsicGasCost
  if gasLeft > msg.gas then throw errNotEnoughIntrinsicGas
  let gasPrice := getGasPrice msg t.ctx.baseFee
  let ledger := if msg.toAddr.isNone then t.ledger else t.ledger.incrNonce msg.fromAddr
  let executed := execute ledger msg gasPrice gasLeft
  let result := executed.1.updateGasUsed msg.gas executed.2.refund
  let ledger := executed.2.addBalance msg.fromAddr (result.gasLeft.toNat * gasPrice)
  let ledger := ledger.addBalance t.ctx.coinbase
    (result.gasUsed.toNat * effectiveTip t.config t.ctx.baseFee msg gasPrice)
  let ledger := if t.config.london ∧ msg.type ≠ .stateTx then
      ledger.addBalance t.ctx.burnContract (result.gasUsed.toNat * t.ctx.baseFee.toNat)
    else ledger
  set { t with ledger := ledger }
  Transition.addGasPool result.gasLeft
  pure result

/-- `Transition.Apply`: on an error the account state is reverted to its snapshot; the gas pool
is not part of it. -/
def Transition.Apply (msg : Transaction) : TransitionM ExecutionResult := fun t =>
  match (Transition.apply execute msg).run t with
  | .ok r t' => .ok r t'
  | .error e t' => .error e { t' with ledger := t.ledger }

/-! ## Supply -/

def supply (s : Finset Address) (l : Ledger) : Int := ∑ a ∈ s, l.balance a

def upfrontCharge (msg : Transaction) : Int :=
  if msg.type = .stateTx then 0 else msg.gas.toNat * upfrontFactor msg

section Supply

variable {s : Finset Address}

theorem supply_addBalance {addr : Address} (h : addr ∈ s) (l : Ledger) (amount : Int) :
    supply s (l.addBalance addr amount) = supply s l + amount := by
  unfold supply Ledger.addBalance
  rw [Finset.sum_update_of_mem h, Finset.sum_eq_add_sum_sdiff_singleton_of_mem h l.balance]
  ring

@[simp] theorem supply_incrNonce (l : Ledger) (addr : Address) :
    supply s (l.incrNonce addr) = supply s l := rfl

theorem supply_subBalance {addr : Address} (h : addr ∈ s) {l l' : Ledger} {amount : Int}
    (hsub : l.subBalance addr amount = .ok l') : supply s l' = supply s l - amount := by
  unfold Ledger.subBalance at hsub
  split_ifs at hsub with h0
  · cases hsub
    simp [h0]
  · cases hsub
    rw [supply_addBalance h]
    ring

end Supply

/-! ## What a successful `apply` did -/

theorem run_ofExcept {α : Type} (e : Except String α) (t : Transition) :
    (ofExcept e : TransitionM α).run t =
      match e with
      | .ok a => .ok a t
      | .error x => .error x t := by
  cases e <;> rfl

theorem checkAndProcessTx_ok {msg : Transaction} {t t₁ : Transition} {u : Unit}
    (h : (checkAndProcessTx msg).run t = .ok u t₁) :
    t.nonceCheck msg = .ok () ∧ t.checkDynamicFees msg = .ok () ∧
      t.ledger.subBalance msg.fromAddr (msg.gas.toNat * upfrontFactor msg) = .ok t₁.ledger ∧
      t₁ = { t with ledger := t₁.ledger } := by
  simp only [checkAndProcessTx, EStateM.run_bind, EStateM.run_get, run_ofExcept] at h
  cases hn : t.nonceCheck msg with
  | error e => simp [hn] at h
  | ok _ =>
    cases hd : t.checkDynamicFees msg with
    | error e => simp [hn, hd] at h
    | ok _ =>
      simp only [hn, hd, EStateM.run, Transition.subGasLimitPrice] at h
      cases hs : t.ledger.subBalance msg.fromAddr (msg.gas.toNat * upfrontFactor msg) with
      | error e => simp [hs] at h
      | ok l =>
        simp only [hs, EStateM.Result.ok.injEq] at h
        obtain ⟨-, rfl⟩ := h
        exact ⟨rfl, rfl, rfl, rfl⟩

theorem run_subGasPool (amount : UInt64) (t : Transition) :
    (Transition.subGasPool amount).run t =
      if t.gasPool < amount then .error errBlockLimitReached t
      else .ok () { t with gasPool := t.gasPool - amount } := rfl

theorem checks_ok {msg : Transaction} {t t₁ : Transition} {u : Unit}
    (h : (if msg.type = .stateTx then ofExcept (checkAndProcessStateTx msg)
      else checkAndProcessTx msg : TransitionM Unit).run t = .ok u t₁) :
    t₁.ctx = t.ctx ∧ t₁.config = t.config ∧ t₁.gasPool = t.gasPool ∧
      (msg.type ≠ .stateTx → t.checkDynamicFees msg = .ok ()) ∧
      ∀ s : Finset Address, msg.fromAddr ∈ s →
        supply s t₁.ledger = supply s t.ledger - upfrontCharge msg := by
  by_cases hst : msg.type = .stateTx
  · rw [if_pos hst, run_ofExcept] at h
    cases hc : checkAndProcessStateTx msg with
    | error e => simp [hc] at h
    | ok _ =>
      simp only [hc, EStateM.Result.ok.injEq] at h
      obtain ⟨-, rfl⟩ := h
      refine ⟨rfl, rfl, rfl, fun hne => absurd hst hne, fun s _ => ?_⟩
      simp [upfrontCharge, hst]
  · rw [if_neg hst] at h
    obtain ⟨-, hd, hsub, ht₁⟩ := checkAndProcessTx_ok h
    rw [ht₁]
    refine ⟨rfl, rfl, rfl, fun _ => hd, fun s hs => ?_⟩
    rw [supply_subBalance hs hsub, upfrontCharge, if_neg hst]

def feeCredits (config : Forks) (baseFee : UInt64) (msg : Transaction) (r : ExecutionResult) :
    Int :=
  let gasPrice := getGasPrice msg baseFee
  r.gasLeft.toNat * gasPrice + r.gasUsed.toNat * effectiveTip config baseFee msg gasPrice +
    if config.london ∧ msg.type ≠ .stateTx then r.gasUsed.toNat * baseFee.toNat else 0

theorem apply_ok {msg : Transaction} {t t' : Transition} {r : ExecutionResult}
    (h : (Transition.apply execute msg).run t = .ok r t') :
    ∃ t₁ : Transition, ∃ gasLeft : UInt64,
      t₁.ctx = t.ctx ∧ t₁.config = t.config ∧
      (msg.type ≠ .stateTx → t.checkDynamicFees msg = .ok ()) ∧
      (∀ s : Finset Address, msg.fromAddr ∈ s →
        supply s t₁.ledger = supply s t.ledger - upfrontCharge msg) ∧
      msg.gas ≤ t.gasPool ∧ gasLeft ≤ msg.gas ∧
      let executed := execute (if msg.toAddr.isNone then t₁.ledger
        else t₁.ledger.incrNonce msg.fromAddr) msg (getGasPrice msg t.ctx.baseFee) gasLeft
      r = executed.1.updateGasUsed msg.gas executed.2.refund ∧
        t'.ctx = t.ctx ∧ t'.config = t.config ∧ t'.gasPool = t.gasPool - msg.gas + r.gasLeft ∧
        ∀ s : Finset Address, msg.fromAddr ∈ s → t.ctx.coinbase ∈ s → t.ctx.burnContract ∈ s →
          supply s t'.ledger = supply s executed.2 + feeCredits t.config t.ctx.baseFee msg r := by
  simp only [Transition.apply, EStateM.run_bind] at h
  split at h
  next u t₁ hpre =>
    obtain ⟨hctx, hcfg, hpool, hdyn, hsup⟩ := checks_ok hpre
    by_cases hp : t₁.gasPool < msg.gas
    · simp [run_subGasPool, hp] at h
    simp only [run_subGasPool, if_neg hp, EStateM.run_get, run_ofExcept, hctx, hcfg] at h
    cases hc : transactionGasCost msg t.config.homestead t.config.istanbul with
    | error e => simp [hc] at h
    | ok cost =>
      by_cases hg : msg.gas - cost > msg.gas
      · simp [hc, hg] at h
      simp only [hc, if_neg hg, EStateM.run_bind, EStateM.run_set, EStateM.run_modify,
        EStateM.run_pure, Transition.addGasPool, EStateM.Result.ok.injEq] at h
      obtain ⟨rfl, rfl⟩ := h
      refine ⟨t₁, msg.gas - cost, hctx, hcfg, hdyn, hsup, hpool ▸ UInt64.not_lt.mp hp,
        UInt64.not_lt.mp hg, rfl, rfl, rfl, by rw [hpool], fun s hfrom hcoin hburn => ?_⟩
      unfold feeCredits
      by_cases hl : t.config.london = true ∧ msg.type ≠ .stateTx
      · rw [if_pos hl, if_pos hl, supply_addBalance hburn, supply_addBalance hcoin,
          supply_addBalance hfrom]
        push_cast
        ring
      · rw [if_neg hl, if_neg hl, supply_addBalance hcoin, supply_addBalance hfrom]
        ring
  next => cases h

theorem updateGasUsed_gasLeft_add_gasUsed {r : ExecutionResult} {gasLimit : UInt64}
    (refund : UInt64) (h : r.gasLeft ≤ gasLimit) :
    (r.updateGasUsed gasLimit refund).gasLeft.toNat +
      (r.updateGasUsed gasLimit refund).gasUsed.toNat = gasLimit.toNat := by
  have hused := UInt64.toNat_sub_of_le _ _ h
  have hcap : ∀ f : UInt64, f ≤ (gasLimit - r.gasLeft) / 2 →
      (r.gasLeft + f).toNat + (gasLimit - r.gasLeft - f).toNat = gasLimit.toNat := by
    intro f hf
    have hhalf := UInt64.le_iff_toNat_le.mp hf
    rw [UInt64.toNat_div, hused, show (2 : UInt64).toNat = 2 from rfl] at hhalf
    have hf' : f ≤ gasLimit - r.gasLeft := by
      rw [UInt64.le_iff_toNat_le, hused]
      omega
    rw [UInt64.toNat_sub_of_le _ _ hf', hused, UInt64.toNat_add]
    have := UInt64.toNat_lt gasLimit
    have := UInt64.le_iff_toNat_le.mp h
    omega
  simp only [ExecutionResult.updateGasUsed]
  split_ifs with hr
  · exact hcap _ (UInt64.le_refl _)
  · exact hcap _ (UInt64.not_lt.mp hr)

section Run

variable {msg : Transaction} {t t' : Transition} {r : ExecutionResult}

theorem apply_gasLeft_add_gasUsed (hgas : ∀ l p g, (execute l msg p g).1.gasLeft ≤ g)
    (h : (Transition.apply execute msg).run t = .ok r t') :
    r.gasLeft.toNat + r.gasUsed.toNat = msg.gas.toNat := by
  obtain ⟨t₁, gasLeft, -, -, -, -, -, hleft, hr, -⟩ := apply_ok execute h
  rw [hr]
  exact updateGasUsed_gasLeft_add_gasUsed _ (UInt64.le_trans (hgas _ _ _) hleft)

theorem apply_gasPool (hgas : ∀ l p g, (execute l msg p g).1.gasLeft ≤ g)
    (h : (Transition.apply execute msg).run t = .ok r t') :
    t'.gasPool.toNat + r.gasUsed.toNat = t.gasPool.toNat := by
  have hsum := apply_gasLeft_add_gasUsed execute hgas h
  obtain ⟨t₁, gasLeft, -, -, -, -, hpool, -, -, -, -, ht', -⟩ := apply_ok execute h
  have hpool' := UInt64.le_iff_toNat_le.mp hpool
  rw [ht', UInt64.toNat_add, UInt64.toNat_sub_of_le _ _ hpool]
  have := UInt64.toNat_lt t.gasPool
  rw [Nat.mod_eq_of_lt (by omega)]
  omega

theorem supply_apply {s : Finset Address} (hexec : ∀ l p g, supply s (execute l msg p g).2 = supply s l)
    (hs : msg.fromAddr ∈ s ∧ t.ctx.coinbase ∈ s ∧ t.ctx.burnContract ∈ s)
    (h : (Transition.apply execute msg).run t = .ok r t') :
    supply s t'.ledger =
      supply s t.ledger - upfrontCharge msg + feeCredits t.config t.ctx.baseFee msg r := by
  obtain ⟨hfrom, hcoin, hburn⟩ := hs
  obtain ⟨t₁, gasLeft, -, -, -, hsup, -, -, -, -, -, -, hfees⟩ := apply_ok execute h
  rw [hfees s hfrom hcoin hburn, hexec, apply_ite (supply s), supply_incrNonce, ite_self,
    hsup s hfrom]

theorem checkDynamicFees_ok (hd : msg.type = .dynamicFeeTx)
    (hfees : ¬(msg.gasFeeCap = 0 ∧ msg.gasTipCap = 0)) (h : t.checkDynamicFees msg = .ok ()) :
    msg.gasTipCap ≤ msg.gasFeeCap ∧ (t.ctx.baseFee.toNat : Int) ≤ msg.gasFeeCap := by
  unfold Transition.checkDynamicFees at h
  rw [if_neg (not_not.mpr hd), if_neg hfees] at h
  split_ifs at h with h1 h2 h3 h4
  exact ⟨not_lt.mp h3, not_lt.mp h4⟩

theorem feeCredits_dynamicFeeTx {config : Forks} {baseFee : UInt64} (hl : config.london = true)
    (hd : msg.type = .dynamicFeeTx) (hp : msg.gasPrice = 0) (hb : baseFee ≠ 0)
    (hfees : ¬(msg.gasFeeCap = 0 ∧ msg.gasTipCap = 0)) :
    feeCredits config baseFee msg r =
      (r.gasLeft.toNat + r.gasUsed.toNat) * min (msg.gasTipCap + baseFee.toNat) msg.gasFeeCap := by
  have hprice : getGasPrice msg baseFee = min (msg.gasTipCap + baseFee.toNat) msg.gasFeeCap := by
    rw [getGasPrice, if_neg (not_not.mpr hp), if_neg hb, if_pos (not_and_or.mp hfees)]
  have htip : effectiveTip config baseFee msg (getGasPrice msg baseFee) =
      min (msg.gasTipCap + baseFee.toNat) msg.gasFeeCap - baseFee.toNat := by
    rw [effectiveTip, if_pos ⟨hl, hd⟩]
    omega
  have hburn : config.london = true ∧ msg.type ≠ .stateTx := ⟨hl, by rw [hd]; decide⟩
  simp only [feeCredits, if_pos hburn]
  rw [htip, hprice]
  push_cast
  ring

theorem feeCredits_legacyTx {config : Forks} {baseFee : UInt64} (hl : config.london = true)
    (hd : msg.type = .legacyTx) (hcap : msg.gasFeeCap = 0) (htip : msg.gasTipCap = 0) :
    feeCredits config baseFee msg r =
      (r.gasLeft.toNat + r.gasUsed.toNat) * msg.gasPrice + r.gasUsed.toNat * baseFee.toNat := by
  have hprice : getGasPrice msg baseFee = msg.gasPrice := by
    unfold getGasPrice
    split_ifs <;> simp_all
  have hburn : config.london = true ∧ msg.type ≠ .stateTx := ⟨hl, by rw [hd]; decide⟩
  have htipPrice : effectiveTip config baseFee msg (getGasPrice msg baseFee) =
      getGasPrice msg baseFee := if_neg (by simp [hd])
  simp only [feeCredits, if_pos hburn]
  rw [htipPrice, hprice]
  push_cast
  ring

variable {s : Finset Address}

theorem supply_apply_dynamicFeeTx (hexec : ∀ l p g, supply s (execute l msg p g).2 = supply s l)
    (hgas : ∀ l p g, (execute l msg p g).1.gasLeft ≤ g)
    (hs : msg.fromAddr ∈ s ∧ t.ctx.coinbase ∈ s ∧ t.ctx.burnContract ∈ s)
    (hl : t.config.london = true) (hd : msg.type = .dynamicFeeTx) (hp : msg.gasPrice = 0)
    (hb : t.ctx.baseFee ≠ 0) (hfees : ¬(msg.gasFeeCap = 0 ∧ msg.gasTipCap = 0))
    (h : (Transition.apply execute msg).run t = .ok r t') :
    supply s t'.ledger = supply s t.ledger -
      msg.gas.toNat * (msg.gasFeeCap - min (msg.gasTipCap + t.ctx.baseFee.toNat) msg.gasFeeCap) := by
  obtain ⟨t₁, gasLeft, -, -, hdyn, -⟩ := apply_ok execute h
  have hnotState : msg.type ≠ .stateTx := by rw [hd]; decide
  obtain ⟨-, hbase⟩ := checkDynamicFees_ok hd hfees (hdyn hnotState)
  have hcap : msg.gasFeeCap ≠ 0 := by
    have hpos : t.ctx.baseFee.toNat ≠ 0 := fun h0 => hb (UInt64.toNat_inj.mp h0)
    omega
  have hsum := apply_gasLeft_add_gasUsed execute hgas h
  rw [supply_apply execute hexec hs h, feeCredits_dynamicFeeTx hl hd hp hb hfees, upfrontCharge,
    if_neg hnotState, upfrontFactor, if_pos hcap]
  rw [← Nat.cast_add, hsum]
  ring

theorem supply_apply_legacyTx (hexec : ∀ l p g, supply s (execute l msg p g).2 = supply s l)
    (hgas : ∀ l p g, (execute l msg p g).1.gasLeft ≤ g)
    (hs : msg.fromAddr ∈ s ∧ t.ctx.coinbase ∈ s ∧ t.ctx.burnContract ∈ s)
    (hl : t.config.london = true) (hd : msg.type = .legacyTx) (hcap : msg.gasFeeCap = 0)
    (htip : msg.gasTipCap = 0) (h : (Transition.apply execute msg).run t = .ok r t') :
    supply s t'.ledger = supply s t.ledger + r.gasUsed.toNat * t.ctx.baseFee.toNat := by
  have hnotState : msg.type ≠ .stateTx := by rw [hd]; decide
  have hsum := apply_gasLeft_add_gasUsed execute hgas h
  rw [supply_apply execute hexec hs h, feeCredits_legacyTx hl hd hcap htip, upfrontCharge,
    if_neg hnotState, upfrontFactor, if_neg (not_not.mpr hcap)]
  rw [← Nat.cast_add, hsum]
  ring

end Run

/-! ## Two transfers under London -/

/-- `Call2` to an account without code: the value moves to the recipient and all the gas is left;
a value the sender cannot pay fails the call with nothing moved. -/
def callWithoutCode : Execute := fun l msg _ gas =>
  match l.subBalance msg.fromAddr msg.value with
  | .ok l' => (⟨gas, 0, false⟩, l'.addBalance (msg.toAddr.getD zeroAddress) msg.value)
  | .error _ => (⟨gas, 0, true⟩, l)

theorem supply_callWithoutCode {s : Finset Address} {msg : Transaction} (hfrom : msg.fromAddr ∈ s)
    (hto : msg.toAddr.getD zeroAddress ∈ s) (l : Ledger) (p : Int) (g : UInt64) :
    supply s (callWithoutCode l msg p g).2 = supply s l := by
  unfold callWithoutCode
  cases hsub : l.subBalance msg.fromAddr msg.value with
  | ok l' =>
    rw [supply_addBalance hto, supply_subBalance hfrom hsub]
    ring
  | error e => rfl

theorem callWithoutCode_gasLeft_le (msg : Transaction) (l : Ledger) (p : Int) (g : UInt64) :
    (callWithoutCode l msg p g).1.gasLeft ≤ g := by
  unfold callWithoutCode
  split <;> exact UInt64.le_refl g

def sampleSender : Address := bytesToAddress [1]
def sampleRecipient : Address := bytesToAddress [2]
def sampleCoinbase : Address := bytesToAddress [3]
def sampleBurn : Address := bytesToAddress [4]

def sampleAccounts : Finset Address := {sampleSender, sampleRecipient, sampleCoinbase, sampleBurn}

def sampleTransition : Transition where
  ledger := ⟨fun a => if a = sampleSender then 1000000 else 0, fun _ => 0, 0⟩
  gasPool := 30000000
  ctx := ⟨5, sampleCoinbase, sampleBurn⟩
  config := ⟨true, true, true⟩

def sampleDynamicFeeTx : Transaction :=
  ⟨0, 0, 1, 10, 21000, some sampleRecipient, 0, [], 0, 0, 0, zeroHash, sampleSender, .dynamicFeeTx⟩

def sampleLegacyTx : Transaction :=
  ⟨0, 6, 0, 0, 21000, some sampleRecipient, 0, [], 0, 0, 0, zeroHash, sampleSender, .legacyTx⟩

theorem apply_fee_flows_do_not_balance_under_london :
    (∃ r t', (Transition.apply callWithoutCode sampleDynamicFeeTx).run sampleTransition = .ok r t' ∧
      t'.ledger.balance sampleSender = 1000000 - 210000 ∧
      t'.ledger.balance sampleCoinbase = 21000 ∧ t'.ledger.balance sampleBurn = 105000 ∧
      supply sampleAccounts t'.ledger = supply sampleAccounts sampleTransition.ledger - 84000) ∧
    (∃ r t', (Transition.apply callWithoutCode sampleLegacyTx).run sampleTransition = .ok r t' ∧
      t'.ledger.balance sampleSender = 1000000 - 126000 ∧
      t'.ledger.balance sampleCoinbase = 126000 ∧ t'.ledger.balance sampleBurn = 105000 ∧
      supply sampleAccounts t'.ledger = supply sampleAccounts sampleTransition.ledger + 105000) := by
  have hs : sampleSender ∈ sampleAccounts ∧ sampleTransition.ctx.coinbase ∈ sampleAccounts ∧
      sampleTransition.ctx.burnContract ∈ sampleAccounts := by decide +kernel
  have hto : sampleRecipient ∈ sampleAccounts := by decide +kernel
  constructor
  · have hexec := supply_callWithoutCode
      (show sampleDynamicFeeTx.fromAddr ∈ sampleAccounts from hs.1) hto
    refine ⟨_, _, rfl, by decide +kernel, by decide +kernel, by decide +kernel, ?_⟩
    rw [supply_apply_dynamicFeeTx callWithoutCode hexec (callWithoutCode_gasLeft_le _) hs rfl rfl rfl
      (show sampleTransition.ctx.baseFee ≠ 0 by decide)
      (show ¬(sampleDynamicFeeTx.gasFeeCap = 0 ∧ sampleDynamicFeeTx.gasTipCap = 0) by decide) rfl]
    decide
  · have hexec := supply_callWithoutCode
      (show sampleLegacyTx.fromAddr ∈ sampleAccounts from hs.1) hto
    refine ⟨_, _, rfl, by decide +kernel, by decide +kernel, by decide +kernel, ?_⟩
    rw [supply_apply_legacyTx callWithoutCode hexec (callWithoutCode_gasLeft_le _) hs rfl rfl rfl rfl
      rfl]
    decide +kernel

/-! ## A failed `Apply` -/

theorem transactionGasCost_error {msg : Transaction} {isHomestead isIstanbul : Bool} {e : String}
    (h : transactionGasCost msg isHomestead isIstanbul = .error e) : e = errIntrinsicGasOverflow := by
  unfold transactionGasCost at h
  dsimp only at h
  split_ifs at h <;> cases h <;> rfl

theorem checks_error {msg : Transaction} {t t₁ : Transition} {e : String}
    (h : (if msg.type = .stateTx then ofExcept (checkAndProcessStateTx msg)
      else checkAndProcessTx msg : TransitionM Unit).run t = .error e t₁) : t₁ = t := by
  by_cases hst : msg.type = .stateTx
  · rw [if_pos hst, run_ofExcept] at h
    split at h
    · cases h
    · cases h
      rfl
  · rw [if_neg hst] at h
    simp only [checkAndProcessTx, EStateM.run_bind, EStateM.run_get, run_ofExcept] at h
    cases hn : t.nonceCheck msg with
    | error e' =>
      simp only [hn] at h
      cases h
      rfl
    | ok _ =>
      cases hd : t.checkDynamicFees msg with
      | error e' =>
        simp only [hn, hd] at h
        cases h
        rfl
      | ok _ =>
        simp only [hn, hd, EStateM.run, Transition.subGasLimitPrice] at h
        cases hs : t.ledger.subBalance msg.fromAddr (msg.gas.toNat * upfrontFactor msg) with
        | error e' =>
          simp only [hs] at h
          cases h
          rfl
        | ok l => simp [hs] at h

theorem apply_error {msg : Transaction} {t t' : Transition} {e : String}
    (h : (Transition.apply execute msg).run t = .error e t') :
    t'.gasPool = t.gasPool ∨
      (msg.gas ≤ t.gasPool ∧ t'.gasPool = t.gasPool - msg.gas ∧
        (e = errIntrinsicGasOverflow ∨ e = errNotEnoughIntrinsicGas)) := by
  simp only [Transition.apply, EStateM.run_bind] at h
  split at h
  next u t₁ hpre =>
    obtain ⟨hctx, hcfg, hpool, -, -⟩ := checks_ok hpre
    by_cases hp : t₁.gasPool < msg.gas
    · simp only [run_subGasPool, if_pos hp] at h
      cases h
      exact .inl hpool
    simp only [run_subGasPool, if_neg hp, EStateM.run_get, run_ofExcept, hctx, hcfg] at h
    have htaken : t₁.gasPool - msg.gas = t.gasPool - msg.gas := by rw [hpool]
    cases hc : transactionGasCost msg t.config.homestead t.config.istanbul with
    | error e' =>
      simp only [hc] at h
      cases h
      exact .inr ⟨hpool ▸ UInt64.not_lt.mp hp, htaken, .inl (transactionGasCost_error hc)⟩
    | ok cost =>
      by_cases hg : msg.gas - cost > msg.gas
      · simp only [hc, if_pos hg] at h
        cases h
        exact .inr ⟨hpool ▸ UInt64.not_lt.mp hp, htaken, .inr rfl⟩
      · simp only [hc, if_neg hg, EStateM.run_bind, EStateM.run_set, EStateM.run_modify,
          EStateM.run_pure, Transition.addGasPool] at h
        cases h
  next e' t₁ hpre =>
    cases h
    rw [checks_error hpre]
    exact .inl rfl

theorem Apply_error {msg : Transaction} {t t' : Transition} {e : String}
    (h : (Transition.Apply execute msg).run t = .error e t') :
    t'.ledger = t.ledger ∧ (t'.gasPool = t.gasPool ∨
      (msg.gas ≤ t.gasPool ∧ t'.gasPool = t.gasPool - msg.gas ∧
        (e = errIntrinsicGasOverflow ∨ e = errNotEnoughIntrinsicGas))) := by
  simp only [Transition.Apply, EStateM.run] at h
  split at h
  · cases h
  · next e' t₁ happ =>
    cases h
    have happ' : (Transition.apply execute msg).run t = .error e t₁ := happ
    have hpool := apply_error execute happ'
    exact ⟨rfl, hpool⟩

def lowGasTx : Transaction :=
  ⟨0, 0, 0, 0, 1000, some sampleRecipient, 0, [], 0, 0, 0, zeroHash, sampleSender, .legacyTx⟩

theorem failed_apply_keeps_gas_pool_charge :
    ∃ t', (Transition.Apply callWithoutCode lowGasTx).run sampleTransition =
        .error errNotEnoughIntrinsicGas t' ∧
      t'.gasPool = sampleTransition.gasPool - 1000 ∧ t'.gasPool ≠ sampleTransition.gasPool :=
  ⟨_, rfl, rfl, by decide⟩

end StateExecutor
