import MindPos.EvmState
import MindPos.StateCallFrames

/-! # The call instructions

`opCall` and `buildCallContract` (`state/runtime/evm/instructions.go`). The base cost, the cap of
EIP-150 at all but a 64th of the gas left, and the charge of the callee's gas are `uint64`
arithmetic. With EIP-150 none of it wraps where a call goes through. Before it, the request is
taken as it is, and a request near `2^64` wraps the charge below the base cost while the callee
gets all of it. The host's functions and its `Callx` are parameters. -/
namespace EvmState

open EdgeTypes
open StateCallFrames (CallType ExecutionResult)

def errExecutionReverted : String := "execution was reverted"

inductive OpCode where
  | call
  | callCode
  | delegateCall
  | staticCall
  deriving DecidableEq, Repr

def OpCode.callType : OpCode → CallType
  | .call => .call
  | .callCode => .callCode
  | .delegateCall => .delegateCall
  | .staticCall => .staticCall

/-- The functions of the host the call instructions read. -/
structure Host where
  empty : Address → Bool
  accountExists : Address → Bool
  getBalance : Address → ℤ
  getCode : Address → List UInt8

/-- `runtime.Contract`; a nil value is `none`. -/
structure CallContract where
  code : List UInt8
  type : CallType
  codeAddress : Address
  address : Address
  origin : Address
  caller : Address
  depth : ℕ
  value : Option ℤ
  input : List UInt8
  gas : UInt64
  static : Bool

/-- The operands `buildCallContract` pops; only `CALL` and `CALLCODE` have a value. -/
structure CallArgs where
  initialGas : ℤ
  addr : Address
  value : Option ℤ
  inOffset : ℤ
  inSize : ℤ
  retOffset : ℤ
  retSize : ℤ

def State.popCallArgs (c : State) (op : OpCode) : CallArgs × State :=
  let (initialGas, c) := c.pop
  let (addr, c) := c.popAddr
  let (value, c) := if op = .call ∨ op = .callCode then (some c.pop.1, c.pop.2) else (none, c)
  let (inOffset, c) := c.pop
  let (inSize, c) := c.pop
  let (retOffset, c) := c.pop
  let (retSize, c) := c.pop
  (⟨initialGas, addr, value, inOffset, inSize, retOffset, retSize⟩, c)

def State.prepareCall (c : State) (op : OpCode) : Except State (CallArgs × List UInt8 × State) :=
  let (a, c) := c.popCallArgs op
  match c.get2 a.inOffset a.inSize with
  | (none, c) => .error c
  | (some args, c) =>
    match c.allocateMemory a.retOffset a.retSize with
    | (false, c) => .error c
    | (true, c) => .ok (a, args, c)

def transfersValue (op : OpCode) (value : Option ℤ) : Bool :=
  (op = .call ∨ op = .callCode) && value.any (· ≠ 0)

def callBaseCost (config : Forks) (host : Host) (op : OpCode) (addr : Address)
    (transfersValue : Bool) : UInt64 :=
  let gasCost : UInt64 := if config.eip150 then 700 else 40
  let gasCost :=
    if op = .call then
      if config.eip158 then (if transfersValue && host.empty addr then gasCost + 25000 else gasCost)
      else if !host.accountExists addr then gasCost + 25000 else gasCost
    else gasCost
  if transfersValue then gasCost + 9000 else gasCost

def callGas (eip150 : Bool) (gas gasCost : UInt64) (initialGas : ℤ) : Option UInt64 :=
  let ok := isUint64 initialGas
  if eip150 then
    let availableGas := gas - gasCost
    let availableGas := availableGas - availableGas / 64
    if !ok || availableGas < UInt64.ofNat initialGas.toNat then some availableGas
    else some (UInt64.ofNat initialGas.toNat)
  else if !ok then none
  else some (UInt64.ofNat initialGas.toNat)

def State.chargeCall (c : State) (gasCost : UInt64) (initialGas : ℤ) :
    Except State (UInt64 × State) :=
  match callGas c.config.eip150 c.gas gasCost initialGas with
  | none => .error (c.exit errOutOfGas)
  | some gas =>
    match c.consumeGas (gasCost + gas) with
    | (false, c) => .error c
    | (true, c) => .ok (gas, c)

/-- `NewContractCall`, then the static flag and the frame `CALLCODE` and `DELEGATECALL` run in. -/
def Contract.newCallContract (parent : Contract) (op : OpCode) (addr : Address) (value : Option ℤ)
    (gas : UInt64) (code args : List UInt8) : CallContract where
  code := code
  type := .call
  codeAddress := addr
  address := if op = .callCode ∨ op = .delegateCall then parent.address else addr
  origin := parent.origin
  caller := if op = .delegateCall then parent.caller else parent.address
  depth := parent.depth + 1
  value := if op = .delegateCall then parent.value else value
  input := args
  gas := gas
  static := op = .staticCall ∨ parent.static

/-- `buildCallContract`: the contract, the return range and the error, and the frame after. -/
def State.buildCallContract (c : State) (host : Host) (op : OpCode) :
    (Option CallContract × UInt64 × UInt64 × Option String) × State :=
  match c.prepareCall op with
  | .error c => ((none, 0, 0, none), c)
  | .ok (a, args, c) =>
    let transfersValue := transfersValue op a.value
    let gasCost := callBaseCost c.config host op a.addr transfersValue
    match c.chargeCall gasCost a.initialGas with
    | .error c => ((none, 0, 0, none), c)
    | .ok (gas, c) =>
      let gas := if transfersValue then gas + 2300 else gas
      let contract := c.msg.newCallContract op a.addr a.value gas (host.getCode a.addr) args
      if transfersValue && a.value.any (host.getBalance c.msg.address < ·) then
        ((some contract, 0, 0, some "bad"), c)
      else
        ((some contract, UInt64.ofNat a.retOffset.toNat, UInt64.ofNat a.retSize.toNat, none), c)

def copyInto (mem : List UInt8) (offset size : ℕ) (src : List UInt8) : List UInt8 :=
  let n := min size src.length
  mem.take offset ++ src.take n ++ mem.drop (offset + n)

/-- `opCall`, with the callee run by `callx`. -/
def State.opCall (host : Host) (callx : CallContract → ExecutionResult) (op : OpCode)
    (c : State) : State :=
  let c := { c with returnData := [] }
  if op = .call ∧ c.msg.static ∧ c.stack[2]?.any (· ≠ 0) then c.exit errWriteProtection
  else if op = .delegateCall ∧ !c.config.homestead then c.exit errOpCodeNotFound
  else if op = .staticCall ∧ !c.config.byzantium then c.exit errOpCodeNotFound
  else
    match c.buildCallContract host op with
    | ((contract, _, _, some _), c) =>
      let c := c.push 0
      match contract with
      | some contract => { c with gas := c.gas + contract.gas }
      | none => c
    | ((none, _, _, none), c) => c
    | ((some contract, offset, size, none), c) =>
      let result := callx { contract with type := op.callType }
      let c := c.push (if result.err.isNone then 1 else 0)
      let c :=
        if (result.err.isNone || result.err = some errExecutionReverted) &&
            result.returnValue ≠ [] && 0 < size then
          { c with memory := copyInto c.memory offset.toNat size.toNat result.returnValue }
        else c
      { c with gas := c.gas + result.gasLeft, returnData := result.returnValue }

/-! ## The gas of a call -/

def allButOne64th (n : ℕ) : ℕ := n - n / 64

theorem toNat_allButOne64th (x : UInt64) : (x - x / 64).toNat = allButOne64th x.toNat := by
  have hle : x / 64 ≤ x := by
    rw [UInt64.le_iff_toNat_le, UInt64.toNat_div]
    exact Nat.div_le_self _ _
  rw [UInt64.toNat_sub_of_le _ _ hle, UInt64.toNat_div]
  rfl

theorem callBaseCost_le (config : Forks) (host : Host) (op : OpCode) (addr : Address)
    (transfersValue : Bool) : (callBaseCost config host op addr transfersValue).toNat ≤ 34700 := by
  unfold callBaseCost
  dsimp only
  split_ifs <;> decide

theorem callGas_le_allButOne64th {g b gas : UInt64} {R : ℤ} (h : callGas true g b R = some gas) :
    gas.toNat ≤ allButOne64th (g - b).toNat := by
  rw [← toNat_allButOne64th]
  simp only [callGas, if_true] at h
  split_ifs at h with hcap
  · cases h
    exact Nat.le_refl _
  · cases h
    simp only [Bool.or_eq_true, Bool.not_eq_true', not_or, Bool.not_eq_false,
      decide_eq_true_eq] at hcap
    exact UInt64.le_iff_toNat_le.mp (UInt64.not_lt.mp hcap.2)

theorem callGas_eip150_of_le {g b : UInt64} {R : ℤ} (hb : b ≤ g) (hR : 0 ≤ R) :
    ∃ gas, callGas true g b R = some gas ∧
      gas.toNat = min R.toNat (allButOne64th (g.toNat - b.toNat)) := by
  have hL := toNat_allButOne64th (g - b)
  rw [UInt64.toNat_sub_of_le _ _ hb] at hL
  simp only [callGas, if_true]
  by_cases hu : isUint64 R
  · have hRlt : R.toNat < 2 ^ 64 := by
      simp only [isUint64, decide_eq_true_eq] at hu
      omega
    have hRn : (UInt64.ofNat R.toNat).toNat = R.toNat := UInt64.toNat_ofNat_of_lt' hRlt
    by_cases hcap : g - b - (g - b) / 64 < UInt64.ofNat R.toNat
    · refine ⟨g - b - (g - b) / 64, by simp [hu, hcap], ?_⟩
      rw [UInt64.lt_iff_toNat_lt, hL, hRn] at hcap
      omega
    · refine ⟨UInt64.ofNat R.toNat, by simp [hu, hcap], ?_⟩
      rw [UInt64.lt_iff_toNat_lt, hL, hRn] at hcap
      omega
  · refine ⟨g - b - (g - b) / 64, by simp [hu], ?_⟩
    have hRge : 2 ^ 64 ≤ R.toNat := by
      simp only [isUint64, decide_eq_true_eq, not_and, not_lt] at hu
      omega
    have hlt := UInt64.toNat_lt (g - b - (g - b) / 64)
    omega

theorem callGas_eip150_of_lt {g b gas : UInt64} {R : ℤ} (hb : g < b) (hsmall : b.toNat ≤ 34700)
    (h : callGas true g b R = some gas) : g < b + gas := by
  have hle := callGas_le_allButOne64th h
  have hwrap : (g - b).toNat = 2 ^ 64 - b.toNat + g.toNat := by
    rw [UInt64.toNat_sub]
    rw [UInt64.lt_iff_toNat_lt] at hb
    omega
  rw [hwrap, allButOne64th] at hle
  rw [UInt64.lt_iff_toNat_lt] at hb ⊢
  rw [UInt64.toNat_add]
  omega

/-! ## The charge -/

theorem State.chargeCall_eip150_of_le {c : State} {b : UInt64} {R : ℤ} (hcfg : c.config.eip150)
    (hb : b ≤ c.gas) (hR : 0 ≤ R) :
    ∃ gas c', c.chargeCall b R = .ok (gas, c') ∧
      gas.toNat = min R.toNat (allButOne64th (c.gas.toNat - b.toNat)) ∧
      c'.gas.toNat + (b.toNat + gas.toNat) = c.gas.toNat := by
  obtain ⟨gas, hgas, hval⟩ := callGas_eip150_of_le hb hR
  have hfit : b.toNat + gas.toNat ≤ c.gas.toNat := by
    have := UInt64.le_iff_toNat_le.mp hb
    rw [hval, allButOne64th]
    omega
  have hsum : (b + gas).toNat = b.toNat + gas.toNat := by
    rw [UInt64.toNat_add]
    exact Nat.mod_eq_of_lt (by have := UInt64.toNat_lt c.gas; omega)
  have hle : b + gas ≤ c.gas := by
    rw [UInt64.le_iff_toNat_le, hsum]
    exact hfit
  refine ⟨gas,
    { c with
      currentConsumedGas := c.currentConsumedGas + (b + gas)
      gas := c.gas - (b + gas) }, ?_, hval, ?_⟩
  · simp only [State.chargeCall, hcfg, hgas, State.consumeGas_of_le hle]
  · show (c.gas - (b + gas)).toNat + _ = _
    rw [UInt64.toNat_sub_of_le _ _ hle, hsum]
    omega

theorem State.chargeCall_eip150_of_lt {c : State} {b : UInt64} {R : ℤ} (hcfg : c.config.eip150)
    (hb : c.gas < b) (hsmall : b.toNat ≤ 34700) : ∃ c', c.chargeCall b R = .error c' := by
  simp only [State.chargeCall, hcfg]
  split
  · exact ⟨_, rfl⟩
  · next gas hgas =>
    rw [State.consumeGas_of_lt (callGas_eip150_of_lt hb hsmall hgas)]
    exact ⟨_, rfl⟩

@[simp] theorem State.config_popCallArgs (c : State) (op : OpCode) :
    (c.popCallArgs op).2.config = c.config := by
  unfold State.popCallArgs
  split_ifs <;> simp

theorem State.config_of_prepareCall {c c₁ : State} {op : OpCode} {a : CallArgs}
    {args : List UInt8} (h : c.prepareCall op = .ok (a, args, c₁)) : c₁.config = c.config := by
  unfold State.prepareCall at h
  dsimp only at h
  split at h
  · cases h
  · next args' c₂ hget =>
    split at h
    · cases h
    · next c₃ halloc =>
      cases h
      have h₂ := congrArg (fun p => p.2.config) hget
      have h₃ := congrArg (fun p => p.2.config) halloc
      simp only [State.config_get2, State.config_popCallArgs, State.config_allocateMemory] at h₂ h₃
      rw [← h₃, ← h₂]

section Build

variable {c c₁ c' : State} {host : Host} {op : OpCode} {a : CallArgs} {args : List UInt8}

theorem State.buildCallContract_of_chargeCall_error (hprep : c.prepareCall op = .ok (a, args, c₁))
    (hch : c₁.chargeCall (callBaseCost c₁.config host op a.addr (transfersValue op a.value))
      a.initialGas = .error c') :
    c.buildCallContract host op = ((none, 0, 0, none), c') := by
  simp only [State.buildCallContract, hprep, hch]

theorem State.buildCallContract_of_chargeCall_ok {gas : UInt64}
    (hprep : c.prepareCall op = .ok (a, args, c₁))
    (hch : c₁.chargeCall (callBaseCost c₁.config host op a.addr (transfersValue op a.value))
      a.initialGas = .ok (gas, c')) :
    (c.buildCallContract host op).1.1 = some (c'.msg.newCallContract op a.addr a.value
      (if transfersValue op a.value then gas + 2300 else gas) (host.getCode a.addr) args) ∧
    (c.buildCallContract host op).2 = c' := by
  simp only [State.buildCallContract, hprep, hch]
  split_ifs <;> exact ⟨rfl, rfl⟩

theorem State.buildCallContract_eip150 (hcfg : c.config.eip150)
    (hprep : c.prepareCall op = .ok (a, args, c₁)) (hR : 0 ≤ a.initialGas) :
    let b := callBaseCost c.config host op a.addr (transfersValue op a.value)
    let gas := min a.initialGas.toNat (allButOne64th (c₁.gas.toNat - b.toNat))
    ((c.buildCallContract host op).1.1.isSome ↔ b ≤ c₁.gas) ∧
    ∀ k o s e c', c.buildCallContract host op = ((some k, o, s, e), c') →
      c'.gas.toNat + (b.toNat + gas) = c₁.gas.toNat ∧
      k.gas.toNat = gas + if transfersValue op a.value then 2300 else 0 := by
  intro b gas
  have hcfg₁ : c₁.config = c.config := State.config_of_prepareCall hprep
  have hsmall := callBaseCost_le c.config host op a.addr (transfersValue op a.value)
  rw [← hcfg₁] at hcfg
  rcases hch : c₁.chargeCall b a.initialGas with c₂ | ⟨g, c₂⟩
  · have hlt : c₁.gas < b := by
      refine UInt64.not_le.mp fun hb => ?_
      obtain ⟨_, _, hok, -⟩ := c₁.chargeCall_eip150_of_le hcfg hb hR
      rw [hch] at hok
      cases hok
    rw [State.buildCallContract_of_chargeCall_error hprep (by rw [hcfg₁]; exact hch)]
    exact ⟨by simp [UInt64.not_le.mpr hlt], fun _ _ _ _ _ h => by cases h⟩
  · have hb : b ≤ c₁.gas := by
      refine UInt64.not_lt.mp fun hlt => ?_
      obtain ⟨_, herr⟩ := c₁.chargeCall_eip150_of_lt (R := a.initialGas) hcfg hlt hsmall
      rw [hch] at herr
      cases herr
    obtain ⟨g', c₂', hok, hval, hpay⟩ := c₁.chargeCall_eip150_of_le hcfg hb hR
    rw [hch] at hok
    obtain ⟨rfl, rfl⟩ := Prod.mk.inj (Except.ok.inj hok)
    obtain ⟨hk, hc⟩ := State.buildCallContract_of_chargeCall_ok hprep (by rw [hcfg₁]; exact hch)
    refine ⟨by simp [hk, hb], fun k o s e c' h => ?_⟩
    rw [h] at hk hc
    simp only [Option.some.injEq] at hk hc
    subst hk hc
    have hgas : gas = g.toNat := hval.symm
    refine ⟨by rw [hgas]; exact hpay, ?_⟩
    have hcap : g.toNat ≤ allButOne64th (2 ^ 64 - 1) := by
      rw [hval]
      have := UInt64.toNat_lt c₁.gas
      exact (min_le_right _ _).trans (by unfold allButOne64th; omega)
    show (if transfersValue op a.value then g + 2300 else g).toNat = _
    rw [hgas]
    split_ifs
    · rw [UInt64.toNat_add]
      exact Nat.mod_eq_of_lt (by unfold allButOne64th at hcap; simp at hcap ⊢; omega)
    · simp

end Build

theorem State.chargeCall_pre_eip150 {c : State} {b : UInt64} {R : ℤ}
    (hcfg : c.config.eip150 = false) (hR : isUint64 R) (hfit : b.toNat + R.toNat < 2 ^ 64) :
    (∃ gas c', c.chargeCall b R = .ok (gas, c')) ↔ b.toNat + R.toNat ≤ c.gas.toNat := by
  have hRlt : R.toNat < 2 ^ 64 := by omega
  have hRn : (UInt64.ofNat R.toNat).toNat = R.toNat := UInt64.toNat_ofNat_of_lt' hRlt
  have hsum : (b + UInt64.ofNat R.toNat).toNat = b.toNat + R.toNat := by
    rw [UInt64.toNat_add, hRn]
    exact Nat.mod_eq_of_lt hfit
  simp only [State.chargeCall, hcfg, callGas, hR, Bool.not_true, Bool.false_eq_true, if_false]
  by_cases hle : b + UInt64.ofNat R.toNat ≤ c.gas
  · rw [State.consumeGas_of_le hle]
    rw [UInt64.le_iff_toNat_le, hsum] at hle
    exact iff_of_true ⟨_, _, rfl⟩ hle
  · rw [State.consumeGas_of_lt (UInt64.not_le.mp hle)]
    rw [UInt64.le_iff_toNat_le, hsum] at hle
    exact iff_of_false (fun ⟨_, _, h⟩ => by cases h) hle

def preEip150Frame : State :=
  ⟨[2 ^ 64 - 1, 2, 0, 0, 0, 0, 0], [], 0, 100, 0, none, false, [],
    ⟨true, true, true, false, false⟩, ⟨zeroAddress, zeroAddress, zeroAddress, 0, some 0, false⟩⟩

def existingAccounts : Host := ⟨fun _ => false, fun _ => true, fun _ => 0, fun _ => []⟩

theorem call_gas_wraps_before_eip150 :
    ∃ k c', preEip150Frame.buildCallContract existingAccounts .call = ((some k, 0, 0, none), c') ∧
      k.gas.toNat = 2 ^ 64 - 1 ∧ c'.gas.toNat = 61 ∧
      preEip150Frame.gas.toNat + 2300 < k.gas.toNat := by
  have hk : (preEip150Frame.buildCallContract existingAccounts .call).1.1.map CallContract.gas =
      some (2 ^ 64 - 1) := by decide +kernel
  have hrange : (preEip150Frame.buildCallContract existingAccounts .call).1.2 = (0, 0, none) := by
    decide +kernel
  have hgas : (preEip150Frame.buildCallContract existingAccounts .call).2.gas = 61 := by
    decide +kernel
  rcases hr : preEip150Frame.buildCallContract existingAccounts .call with ⟨⟨_ | k, range⟩, c'⟩
  · rw [hr] at hk
    cases hk
  · rw [hr] at hk hrange hgas
    simp only [Option.map_some, Option.some.injEq] at hk
    refine ⟨k, c', by rw [← hrange], by rw [hk]; decide +kernel, by rw [hgas]; rfl, ?_⟩
    rw [hk]
    decide +kernel

end EvmState
