import MindPos.StateTxnSnapshots

/-! # Call frames of the state transition

`Transition.applyCall` and `applyCreate` (`state/executor.go`) run one frame of a message on the
block's `Txn`: a snapshot, the value transfer, the runtime, and a revert when the runtime fails.
The runtimes themselves (the address-list precompiles, the precompiled contracts and the EVM,
which makes its nested frames through `Callx`) are a parameter `execute`. -/
namespace StateCallFrames

open EdgeTypes StateTxnSnapshots

/-- `runtime.CallType`. -/
inductive CallType where
  | call
  | callCode
  | delegateCall
  | staticCall
  | create
  | create2
  deriving DecidableEq, Repr

/-- The fields of `runtime.Contract` the frames read; a nil value is `none`. -/
structure Contract where
  type : CallType
  codeAddress : Address
  address : Address
  caller : Address
  depth : ℕ
  value : Option ℕ
  gas : UInt64

/-- `runtime.ExecutionResult`, without the gas used, which the frames do not read. -/
structure ExecutionResult where
  returnValue : List UInt8
  gasLeft : UInt64
  err : Option String
  address : Address
  deriving DecidableEq

def ExecutionResult.failed (r : ExecutionResult) : Bool := r.err.isSome

def errInsufficientBalance : String := "insufficient balance for transfer"
def errMaxCodeSizeExceeded : String := "evm: max code size exceeded"
def errContractAddressCollision : String := "contract address collision"
def errDepth : String := "max call depth exceeded"
def errCodeStoreOutOfGas : String := "contract creation code storage out of gas"
def errNotAuth : String := "not in allow list"

def spuriousDragonMaxCodeSize : ℕ := 24576

/-- The forks the frames read of `chain.ForksInTime`. -/
structure Forks where
  homestead : Bool
  eip158 : Bool
  deriving DecidableEq

/-- `addresslist.EnabledRole` and `AdminRole`, the words a list stores for an address. -/
def enabledRole : Hash := hashOfNat 1
def adminRole : Hash := hashOfNat 2

/-- `Role.Enabled`. -/
def enabled (role : Hash) : Bool := role = adminRole || role = enabledRole

/-- `AddressList.GetRole`: the list contract's storage slot of the address. -/
def getRole (s : Txn) (list addr : Address) : Hash := s.getState list (bytesToHash addr.bytes)

/-- The runtimes `run` hands a frame to. -/
inductive Runtime where
  | deploymentAllowList
  | deploymentBlockList
  | txnAllowList
  | txnBlockList
  | bridgeAllowList
  | bridgeBlockList
  | precompiles
  | evm
  deriving DecidableEq, Repr

/-- The fields of `Transition` the frames read: the forks, and each address list as the address
of its precompile when it is enabled. -/
structure Transition where
  config : Forks
  deploymentAllowList : Option Address
  deploymentBlockList : Option Address
  txnAllowList : Option Address
  txnBlockList : Option Address
  bridgeAllowList : Option Address
  bridgeBlockList : Option Address

def notAuth : ExecutionResult := ⟨[], 0, some errNotAuth, zeroAddress⟩

/-- `Transfer`: nothing for a nil value, and the runtime's error for a balance too small. -/
def transfer (s : Txn) (fromAddr toAddr : Address) (amount : Option ℕ) : Except String Txn :=
  match amount with
  | none => .ok s
  | some amount =>
    match s.subBalance fromAddr amount with
    | .error err =>
      .error (if err = StateExecutor.errNotEnoughFunds then errInsufficientBalance else err)
    | .ok s => .ok (s.addBalance toAddr amount)

/-- `hasCodeOrNonce`; `emptyCodeHashTwo` is the keccak of no bytes as a hash. -/
def hasCodeOrNonce (s : Txn) (addr : Address) : Bool :=
  s.getNonce addr ≠ 0 || (s.getCodeHash addr ≠ emptyCodeHash && s.getCodeHash addr ≠ zeroHash)

variable (execute : Runtime → Contract → Txn → ExecutionResult × Txn)
  (canRunPrecompile : Contract → Bool) (keccak : List UInt8 → Hash)

namespace Transition

variable (t : Transition)

/-- `run`: a list's own precompile, then the transaction lists' check of the caller, the bridge
lists, the precompiled contracts, and the EVM, which runs any contract. -/
def run (s : Txn) (c : Contract) : ExecutionResult × Txn :=
  if t.deploymentAllowList = some c.codeAddress then execute .deploymentAllowList c s
  else if t.deploymentBlockList = some c.codeAddress then execute .deploymentBlockList c s
  else
    -- the transaction allow list takes precedence over the block list
    let listed : Option (ExecutionResult × Txn) :=
      match t.txnAllowList, t.txnBlockList with
      | some list, _ =>
        if list = c.codeAddress then some (execute .txnAllowList c s)
        else if c.caller ≠ StateExecutor.systemCaller ∧ enabled (getRole s list c.caller) = false then
          some (notAuth, s)
        else none
      | none, some list =>
        if list = c.codeAddress then some (execute .txnBlockList c s)
        else if c.caller ≠ StateExecutor.systemCaller ∧ getRole s list c.caller = enabledRole then
          some (notAuth, s)
        else none
      | none, none => none
    match listed with
    | some r => r
    | none =>
      if t.bridgeAllowList = some c.codeAddress then execute .bridgeAllowList c s
      else if t.bridgeBlockList = some c.codeAddress then execute .bridgeBlockList c s
      else if canRunPrecompile c then execute .precompiles c s
      else execute .evm c s

/-- `applyCall`; `none` where a revert panics. -/
def applyCall (s : Txn) (c : Contract) (callType : CallType) : Option (ExecutionResult × Txn) :=
  if c.depth > 1024 + 1 then some (⟨[], c.gas, some errDepth, zeroAddress⟩, s)
  else
    let (snapshot, s) := s.snapshot
    let s := s.touchAccount c.address
    let transferred := if callType = .call then transfer s c.caller c.address c.value else .ok s
    match transferred with
    | .error err => some (⟨[], c.gas, some err, zeroAddress⟩, s)
    | .ok s =>
      let (result, s) := t.run execute canRunPrecompile s c
      if result.failed then (s.revertToSnapshot snapshot).map (result, ·) else some (result, s)

def deploymentDenied (s : Txn) (caller : Address) : Bool :=
  match t.deploymentAllowList, t.deploymentBlockList with
  | some list, _ => !enabled (getRole s list caller)
  | none, some list => getRole s list caller == enabledRole
  | none, none => false

/-- `applyCreate`; `none` where a revert panics. -/
def applyCreate (s : Txn) (c : Contract) : Option (ExecutionResult × Txn) :=
  let gasLimit := c.gas
  if c.depth > 1024 + 1 then some (⟨[], gasLimit, some errDepth, zeroAddress⟩, s)
  else
    let s := s.incrNonce c.caller
    if hasCodeOrNonce s c.address then
      some (⟨[], 0, some errContractAddressCollision, zeroAddress⟩, s)
    else
      let (snapshot, s) := s.snapshot
      let s := if t.config.eip158 then (s.createAccount c.address).incrNonce c.address else s
      match transfer s c.caller c.address c.value with
      | .error err => some (⟨[], gasLimit, some err, zeroAddress⟩, s)
      | .ok s =>
        if t.deploymentDenied s c.caller then some (notAuth, s)
        else
          let (result, s) := t.run execute canRunPrecompile s c
          if result.failed then (s.revertToSnapshot snapshot).map (result, ·)
          else if t.config.eip158 ∧ result.returnValue.length > spuriousDragonMaxCodeSize then
            (s.revertToSnapshot snapshot).map (⟨[], 0, some errMaxCodeSizeExceeded, zeroAddress⟩, ·)
          else
            let gasCost := result.returnValue.length.toUInt64 * 200
            if result.gasLeft < gasCost then
              let result := { result with err := some errCodeStoreOutOfGas, returnValue := [] }
              if t.config.homestead then
                (s.revertToSnapshot snapshot).map ({ result with gasLeft := 0 }, ·)
              else some (result, s)
            else
              some ({ result with gasLeft := result.gasLeft - gasCost, address := c.address },
                s.setCode keccak c.address result.returnValue)

/-- `Callx`: a creation (`CREATE` and `CREATE2` both set the type to `Create`) or a call. -/
def callx (s : Txn) (c : Contract) : Option (ExecutionResult × Txn) :=
  if c.type = .create then t.applyCreate execute canRunPrecompile keccak s c
  else t.applyCall execute canRunPrecompile s c c.type

end Transition

/-! ## What a failed frame leaves -/

theorem transfer_treeWrite {s s' : Txn} {fromAddr toAddr : Address} {amount : Option ℕ}
    (h : transfer s fromAddr toAddr amount = .ok s') : s.TreeWrite s' := by
  unfold transfer at h
  split at h
  · cases h
    exact .refl
  · unfold Txn.subBalance at h
    split_ifs at h
    · cases h
      exact Txn.upsertAccount_treeWrite _ _ _
    · cases h
      exact (Txn.upsertAccount_treeWrite _ _ _).trans (Txn.upsertAccount_treeWrite _ _ _)

theorem transfer_error {s : Txn} {fromAddr toAddr : Address} {amount : Option ℕ} {err : String}
    (h : transfer s fromAddr toAddr amount = .error err) : err = errInsufficientBalance := by
  unfold transfer at h
  split at h
  · cases h
  · unfold Txn.subBalance at h
    split_ifs at h
    cases h
    rfl

variable {execute canRunPrecompile keccak}

/-- The runtimes work on the state through its operations, which keep the saved trees. -/
def KeepsSnapshots (execute : Runtime → Contract → Txn → ExecutionResult × Txn) : Prop :=
  ∀ rt c s, s.snapshots <+: (execute rt c s).2.snapshots

namespace Transition

variable {t : Transition}

theorem run_cases (s : Txn) (c : Contract) :
    (∃ rt, t.run execute canRunPrecompile s c = execute rt c s) ∨
      t.run execute canRunPrecompile s c = (notAuth, s) := by
  unfold run
  by_cases hda : t.deploymentAllowList = some c.codeAddress
  · exact .inl ⟨_, if_pos hda⟩
  rw [if_neg hda]
  by_cases hdb : t.deploymentBlockList = some c.codeAddress
  · exact .inl ⟨_, if_pos hdb⟩
  rw [if_neg hdb]
  dsimp only
  split
  · rename_i heq
    split at heq <;> (try split_ifs at heq) <;> cases heq
    all_goals first | exact .inl ⟨_, rfl⟩ | exact .inr rfl
  · split_ifs <;> exact .inl ⟨_, rfl⟩

theorem run_keeps_snapshots (hexec : KeepsSnapshots execute) (s : Txn) (c : Contract) :
    s.snapshots <+: (t.run execute canRunPrecompile s c).2.snapshots := by
  rcases run_cases s c with ⟨rt, hrt⟩ | hna
  · exact hrt ▸ hexec rt c s
  · exact hna ▸ List.prefix_refl _

theorem revert_after_run (hexec : KeepsSnapshots execute) {s s₀ u : Txn} {id : ℕ}
    (hsnap : s.snapshot = (id, s₀)) (hw : s₀.TreeWrite u) (c : Contract) :
    (t.run execute canRunPrecompile u c).2.revertToSnapshot id =
      some { (t.run execute canRunPrecompile u c).2 with txn := s.txn } := by
  have hid : id = s.snapshot.1 := by rw [hsnap]
  have hs₀ : s₀ = s.snapshot.2 := by rw [hsnap]
  subst hid hs₀
  exact revertToSnapshot_of_saved (hw.snapshots ▸ run_keeps_snapshots hexec u c)

variable {s s' : Txn} {c : Contract} {r : ExecutionResult}

theorem applyCall_failed (hexec : KeepsSnapshots execute) {callType : CallType}
    (h : t.applyCall execute canRunPrecompile s c callType = some (r, s')) (hr : r.failed = true) :
    s'.txn = s.txn ∨
      (r.err = some errInsufficientBalance ∧ s'.txn = (s.touchAccount c.address).txn) := by
  unfold applyCall at h
  by_cases hdepth : c.depth > 1024 + 1
  · rw [if_pos hdepth] at h
    cases h
    exact .inl rfl
  rw [if_neg hdepth] at h
  generalize hsnap : s.snapshot = p at h
  obtain ⟨snapshot, s₀⟩ := p
  have hs₀ : s₀ = { s with snapshots := s.snapshots ++ [s.txn] } := (congrArg Prod.snd hsnap).symm
  dsimp only at h
  split at h
  · rename_i err herr
    cases h
    refine .inr ⟨?_, ?_⟩
    · split_ifs at herr
      rw [transfer_error herr]
    · rw [hs₀]
      exact upsertAccount_txn_congr (t := { s with snapshots := s.snapshots ++ [s.txn] }) (u := s)
        rfl rfl c.address true id
  · rename_i s₁ hs₁
    have hw : s₀.TreeWrite s₁ := by
      refine (Txn.upsertAccount_treeWrite c.address true id).trans ?_
      split_ifs at hs₁
      · exact transfer_treeWrite hs₁
      · cases hs₁
        exact .refl
    have hrevert : (t.run execute canRunPrecompile s₁ c).2.revertToSnapshot snapshot =
        some { (t.run execute canRunPrecompile s₁ c).2 with txn := s.txn } :=
      revert_after_run hexec hsnap hw c
    generalize t.run execute canRunPrecompile s₁ c = p at h hrevert
    obtain ⟨result, s₂⟩ := p
    dsimp only at h hrevert
    split_ifs at h with hfail
    · rw [hrevert] at h
      cases h
      exact .inl rfl
    · cases h
      exact absurd hr hfail

theorem applyCreate_failed (hexec : KeepsSnapshots execute)
    (h : t.applyCreate execute canRunPrecompile keccak s c = some (r, s')) (hr : r.failed = true) :
    s'.txn = s.txn ∨ s'.txn = (s.incrNonce c.caller).txn ∨
      r.err = some errInsufficientBalance ∨ r = notAuth ∨
      (r.err = some errCodeStoreOutOfGas ∧ t.config.homestead = false) := by
  unfold applyCreate at h
  dsimp only at h
  by_cases hdepth : c.depth > 1024 + 1
  · rw [if_pos hdepth] at h
    cases h
    exact .inl rfl
  rw [if_neg hdepth] at h
  by_cases hcol : hasCodeOrNonce (s.incrNonce c.caller) c.address = true
  · rw [if_pos hcol] at h
    cases h
    exact .inr (.inl rfl)
  rw [if_neg hcol] at h
  generalize hsnap : (s.incrNonce c.caller).snapshot = p at h
  obtain ⟨snapshot, s₀⟩ := p
  dsimp only at h
  have hw₁ : s₀.TreeWrite
      (if t.config.eip158 = true then (s₀.createAccount c.address).incrNonce c.address else s₀) := by
    split_ifs
    · exact (Txn.createAccount_treeWrite c.address).trans (Txn.upsertAccount_treeWrite _ _ _)
    · exact .refl
  generalize (if t.config.eip158 = true then (s₀.createAccount c.address).incrNonce c.address
    else s₀) = s₁ at h hw₁
  split at h
  · rename_i err herr
    cases h
    exact .inr (.inr (.inl (by rw [transfer_error herr])))
  rename_i s₂ hs₂
  have hw₂ := hw₁.trans (transfer_treeWrite hs₂)
  by_cases hden : t.deploymentDenied s₂ c.caller = true
  · rw [if_pos hden] at h
    cases h
    exact .inr (.inr (.inr (.inl rfl)))
  rw [if_neg hden] at h
  have hrevert : (t.run execute canRunPrecompile s₂ c).2.revertToSnapshot snapshot =
      some { (t.run execute canRunPrecompile s₂ c).2 with txn := (s.incrNonce c.caller).txn } :=
    revert_after_run hexec hsnap hw₂ c
  generalize t.run execute canRunPrecompile s₂ c = p at h hrevert
  obtain ⟨result, s₃⟩ := p
  dsimp only at h hrevert
  split_ifs at h with hfail hsize hgas hhome
  · rw [hrevert] at h
    cases h
    exact .inr (.inl rfl)
  · rw [hrevert] at h
    cases h
    exact .inr (.inl rfl)
  · rw [hrevert] at h
    cases h
    exact .inr (.inl rfl)
  · cases h
    exact .inr (.inr (.inr (.inr ⟨rfl, by simpa using hhome⟩)))
  · cases h
    exact absurd hr hfail

end Transition

/-! ## Failed frames that keep their effects -/

def sampleCaller : Address := bytesToAddress [1]
def sampleNewAddress : Address := bytesToAddress [2]
def sampleFreshAddress : Address := bytesToAddress [3]
def sampleAllowList : Address := bytesToAddress [9]

def sampleCallerSnapshot : ReadSnapshot where
  getStorage _ _ _ := zeroHash
  getAccount addr :=
    if addr = sampleCaller then some ⟨0, 10, emptyStateHash, emptyCodeHash⟩ else none
  getCode _ := none

def sampleTransition : Transition :=
  ⟨⟨true, true⟩, some sampleAllowList, none, none, none, none, none⟩

def deniedCreate : Contract := ⟨.create, sampleNewAddress, sampleNewAddress, sampleCaller, 1, some 5, 100000⟩

def underfundedCall : Contract :=
  ⟨.call, sampleFreshAddress, sampleFreshAddress, sampleCaller, 1, some 20, 100000⟩

theorem failed_frames_keep_value_and_accounts (execute : Runtime → Contract → Txn → ExecutionResult × Txn)
    (canRunPrecompile : Contract → Bool) (keccak : List UInt8 → Hash) :
    (newTxn sampleCallerSnapshot).getBalance sampleCaller = 10 ∧
    (newTxn sampleCallerSnapshot).exist sampleNewAddress = false ∧
    (newTxn sampleCallerSnapshot).exist sampleFreshAddress = false ∧
    (∃ r s', sampleTransition.callx execute canRunPrecompile keccak (newTxn sampleCallerSnapshot)
        deniedCreate = some (r, s') ∧ r.failed = true ∧
      s'.getBalance sampleCaller = 5 ∧ s'.getBalance sampleNewAddress = 5 ∧
      s'.exist sampleNewAddress = true ∧ s'.getNonce sampleNewAddress = 1) ∧
    ∃ r s', sampleTransition.callx execute canRunPrecompile keccak (newTxn sampleCallerSnapshot)
        underfundedCall = some (r, s') ∧ r.failed = true ∧ s'.exist sampleFreshAddress = true :=
  ⟨rfl, rfl, rfl, ⟨_, _, rfl, rfl, rfl, rfl, rfl, rfl⟩, ⟨_, _, rfl, rfl, rfl⟩⟩

end StateCallFrames
