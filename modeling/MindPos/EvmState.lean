import MindPos.EdgeTypes

/-! # The state of an EVM frame

`state/runtime/evm/state.go`. The stack holds big integers, top first. Gas, the memory size and
the expansion cost are `uint64`: `allocateMemory` charges `3w + w²/512` for `w` words against the
cost it charged last, and `w²` wraps once `w` reaches `2^32`, which offsets and sizes of up to
`0xffffffffe0` bytes each allow. -/
namespace EvmState

open EdgeTypes RlpEncoding

def errOutOfGas : String := "out of gas"

def errReturnDataOutOfBounds : String := "return data out of bounds"

def errWriteProtection : String := "write protection"

def errOpCodeNotFound : String := "opcode not found"

/-- The forks the EVM reads of `chain.ForksInTime`. -/
structure Forks where
  homestead : Bool
  byzantium : Bool
  constantinople : Bool
  eip150 : Bool
  eip158 : Bool

/-- The fields of the frame's `runtime.Contract` that calls read; a nil value is `none`. -/
structure Contract where
  address : Address
  origin : Address
  caller : Address
  depth : ℕ
  value : Option ℤ
  static : Bool

structure State where
  stack : List ℤ
  memory : List UInt8
  lastGasCost : UInt64
  gas : UInt64
  currentConsumedGas : UInt64
  err : Option String
  stop : Bool
  returnData : List UInt8
  config : Forks
  msg : Contract

def State.exit (c : State) (err : String) : State := { c with stop := true, err := some err }

def State.consumeGas (c : State) (gas : UInt64) : Bool × State :=
  let c := { c with currentConsumedGas := c.currentConsumedGas + gas }
  if c.gas < gas then (false, c.exit errOutOfGas) else (true, { c with gas := c.gas - gas })

/-- `pop`. `Run` checks the stack holds as many values as the instruction reads, so the nil of
an empty stack is never read; it is zero here. -/
def State.pop (c : State) : ℤ × State :=
  match c.stack with
  | [] => (0, c)
  | x :: rest => (x, { c with stack := rest })

def State.push (c : State) (x : ℤ) : State := { c with stack := x :: c.stack }

/-- `popAddr`: the address of the last twenty bytes of the popped value. -/
def State.popAddr (c : State) : Address × State :=
  let (b, c) := c.pop
  (bytesToAddress (toBE b.natAbs), c)

/-- `IsUint64`. -/
def isUint64 (x : ℤ) : Bool := 0 ≤ x ∧ x < 2 ^ 64

/-- `common.ExtendByteSlice`: zeros up to `needLength`, then the first `needLength` bytes. -/
def extendByteSlice (b : List UInt8) (needLength : ℕ) : List UInt8 :=
  (if 0 < needLength - b.length then b ++ List.replicate (needLength - b.length) 0 else b).take
    needLength

/-- `allocateMemory`: whether the range fits, after the gas of the expansion. -/
def State.allocateMemory (c : State) (offset size : ℤ) : Bool × State :=
  if !isUint64 offset || !isUint64 size then (false, c.exit errReturnDataOutOfBounds)
  else if size = 0 then (true, c)
  else
    let o := UInt64.ofNat offset.toNat
    let s := UInt64.ofNat size.toNat
    if o > 0xffffffffe0 ∨ s > 0xffffffffe0 then (false, c.exit errReturnDataOutOfBounds)
    else
      let newSize := o + s
      if UInt64.ofNat c.memory.length < newSize then
        let w := (newSize + 31) / 32
        let newCost := 3 * w + w * w / 512
        let cost := newCost - c.lastGasCost
        match { c with lastGasCost := newCost }.consumeGas cost with
        | (false, c) => (false, c.exit errOutOfGas)
        | (true, c) => (true, { c with memory := extendByteSlice c.memory (w * 32).toNat })
      else (true, c)

/-- `get2`: the bytes of the range, after its expansion; `none` when the expansion fails. -/
def State.get2 (c : State) (offset length : ℤ) : Option (List UInt8) × State :=
  if length = 0 then (some [], c)
  else
    match c.allocateMemory offset length with
    | (false, c) => (none, c)
    | (true, c) => (some ((c.memory.drop offset.toNat).take length.toNat), c)

@[simp] theorem State.config_exit (c : State) (err : String) : (c.exit err).config = c.config :=
  rfl

@[simp] theorem State.config_consumeGas (c : State) (gas : UInt64) :
    (c.consumeGas gas).2.config = c.config := by
  unfold State.consumeGas
  dsimp only
  split_ifs <;> rfl

@[simp] theorem State.stack_exit (c : State) (err : String) : (c.exit err).stack = c.stack :=
  rfl

@[simp] theorem State.stack_consumeGas (c : State) (gas : UInt64) :
    (c.consumeGas gas).2.stack = c.stack := by
  unfold State.consumeGas
  dsimp only
  split_ifs <;> rfl

@[simp] theorem State.config_pop (c : State) : c.pop.2.config = c.config := by
  unfold State.pop
  split <;> rfl

@[simp] theorem State.config_popAddr (c : State) : c.popAddr.2.config = c.config := by
  simp [State.popAddr]

@[simp] theorem State.config_allocateMemory (c : State) (offset size : ℤ) :
    (c.allocateMemory offset size).2.config = c.config := by
  unfold State.allocateMemory
  dsimp only
  split_ifs
  · rfl
  · rfl
  · rfl
  · split
    all_goals
      next c₁ hc =>
      have h₁ := congrArg (fun p => p.2.config) hc
      simp only [State.config_consumeGas] at h₁
      simp [h₁]
  · rfl

@[simp] theorem State.config_get2 (c : State) (offset length : ℤ) :
    (c.get2 offset length).2.config = c.config := by
  unfold State.get2
  split_ifs
  · rfl
  · split
    all_goals
      next c₁ hc =>
      have h₁ := congrArg (fun p => p.2.config) hc
      simp only [State.config_allocateMemory] at h₁
      exact h₁.symm

/-! ## The cost of the memory -/

def memoryCost (w : ℕ) : ℕ := 3 * w + w * w / 512

/-- The memory is a whole number of words, and `lastGasCost` is what they cost. -/
structure MemoryCharged (c : State) : Prop where
  words : 32 ∣ c.memory.length
  bounded : c.memory.length < 2 ^ 64
  cost : c.lastGasCost.toNat = memoryCost (c.memory.length / 32)

@[simp] theorem length_extendByteSlice (b : List UInt8) (n : ℕ) :
    (extendByteSlice b n).length = n := by
  unfold extendByteSlice
  split_ifs <;> simp <;> omega

theorem memoryCost_mono {m w : ℕ} (h : m ≤ w) : memoryCost m ≤ memoryCost w :=
  Nat.add_le_add (by omega) (Nat.div_le_div_right (Nat.mul_le_mul h h))

theorem toNat_wordsCost {w : UInt64} (hw : w.toNat < 2 ^ 32) :
    (3 * w + w * w / 512).toNat = memoryCost w.toNat := by
  have hsq : w.toNat * w.toNat < 2 ^ 64 :=
    calc w.toNat * w.toNat < 2 ^ 32 * 2 ^ 32 := Nat.mul_lt_mul'' hw hw
      _ = 2 ^ 64 := by norm_num
  have hdiv : w.toNat * w.toNat / 512 < 2 ^ 55 := by omega
  rw [UInt64.toNat_add, UInt64.toNat_mul, UInt64.toNat_div, UInt64.toNat_mul, Nat.mod_eq_of_lt hsq]
  simp only [UInt64.reduceToNat, memoryCost]
  omega

theorem State.consumeGas_of_le {c : State} {gas : UInt64} (h : gas ≤ c.gas) :
    c.consumeGas gas =
      (true, { c with currentConsumedGas := c.currentConsumedGas + gas, gas := c.gas - gas }) := by
  simp [State.consumeGas, UInt64.not_lt.mpr h]

theorem State.consumeGas_of_lt {c : State} {gas : UInt64} (h : c.gas < gas) :
    c.consumeGas gas =
      (false, { c with currentConsumedGas := c.currentConsumedGas + gas }.exit errOutOfGas) := by
  simp [State.consumeGas, h]

theorem State.allocateMemory_eq_true {c c' : State} {offset size : ℤ}
    (h : c.allocateMemory offset size = (true, c')) :
    c' = c ∨ (isUint64 offset ∧ isUint64 size ∧
      ¬ (UInt64.ofNat offset.toNat > 0xffffffffe0 ∨ UInt64.ofNat size.toNat > 0xffffffffe0) ∧
      UInt64.ofNat c.memory.length < UInt64.ofNat offset.toNat + UInt64.ofNat size.toNat ∧
      let w := (UInt64.ofNat offset.toNat + UInt64.ofNat size.toNat + 31) / 32
      3 * w + w * w / 512 - c.lastGasCost ≤ c.gas ∧
      c' = { c with
        lastGasCost := 3 * w + w * w / 512
        currentConsumedGas := c.currentConsumedGas + (3 * w + w * w / 512 - c.lastGasCost)
        gas := c.gas - (3 * w + w * w / 512 - c.lastGasCost)
        memory := extendByteSlice c.memory (w * 32).toNat }) := by
  unfold State.allocateMemory at h
  dsimp only at h
  split_ifs at h with hint hzero hbound hgrow
  · simp at h
  · exact .inl (Prod.mk.inj h).2.symm
  · simp at h
  · simp only [Bool.or_eq_true, Bool.not_eq_eq_eq_not, Bool.not_true, not_or,
      Bool.not_eq_false] at hint
    split at h
    · simp at h
    · next c₁ hgas =>
      simp only [State.consumeGas] at hgas
      split_ifs at hgas with hlt
      · simp at hgas
      · obtain ⟨-, rfl⟩ := Prod.mk.inj hgas
        exact .inr ⟨hint.1, hint.2, hbound, hgrow, UInt64.not_lt.mp hlt, (Prod.mk.inj h).2.symm⟩
  · exact .inl (Prod.mk.inj h).2.symm

theorem State.allocateMemory_charges_memoryCost {c c' : State} {offset size : ℤ}
    (hc : MemoryCharged c) (hsmall : offset + size + 32 ≤ 2 ^ 37)
    (h : c.allocateMemory offset size = (true, c')) :
    MemoryCharged c' ∧ c'.gas.toNat +
      (memoryCost (c'.memory.length / 32) - memoryCost (c.memory.length / 32)) = c.gas.toNat := by
  rcases c.allocateMemory_eq_true h with rfl | ⟨hoff, hsz, -, hgrow, hgas, rfl⟩
  · exact ⟨hc, by simp⟩
  simp only [isUint64, decide_eq_true_eq] at hoff hsz
  have hnew : (UInt64.ofNat offset.toNat + UInt64.ofNat size.toNat).toNat =
      offset.toNat + size.toNat := by
    rw [UInt64.toNat_add, UInt64.toNat_ofNat', UInt64.toNat_ofNat']
    omega
  set wN := (offset.toNat + size.toNat + 31) / 32 with hwN
  have hw : ((UInt64.ofNat offset.toNat + UInt64.ofNat size.toNat + 31) / 32).toNat = wN := by
    rw [UInt64.toNat_div, UInt64.toNat_add, hnew]
    simp only [UInt64.reduceToNat]
    omega
  have hwlt : wN < 2 ^ 32 := by omega
  have hcost := toNat_wordsCost (hw ▸ hwlt)
  rw [hw] at hcost
  obtain ⟨m, hm⟩ := hc.words
  have hlen : (UInt64.ofNat c.memory.length).toNat = c.memory.length :=
    UInt64.toNat_ofNat_of_lt' hc.bounded
  rw [UInt64.lt_iff_toNat_lt, hlen, hnew] at hgrow
  have hmw : m ≤ wN := by omega
  have hlast : c.lastGasCost ≤ 3 * ((UInt64.ofNat offset.toNat + UInt64.ofNat size.toNat + 31) / 32) +
      (UInt64.ofNat offset.toNat + UInt64.ofNat size.toNat + 31) / 32 *
        ((UInt64.ofNat offset.toNat + UInt64.ofNat size.toNat + 31) / 32) / 512 := by
    rw [UInt64.le_iff_toNat_le, hcost, hc.cost, hm, Nat.mul_div_cancel_left m (by norm_num)]
    exact memoryCost_mono hmw
  have hcharge := UInt64.toNat_sub_of_le _ _ hlast
  rw [hcost, hc.cost, hm, Nat.mul_div_cancel_left m (by norm_num)] at hcharge
  have hmem : ((UInt64.ofNat offset.toNat + UInt64.ofNat size.toNat + 31) / 32 * 32).toNat =
      wN * 32 := by
    rw [UInt64.toNat_mul, hw]
    simp only [UInt64.reduceToNat]
    omega
  refine ⟨⟨?_, ?_, ?_⟩, ?_⟩
  · simp [hmem]
  · simp only [length_extendByteSlice, hmem]
    omega
  · simp only [length_extendByteSlice, hmem, Nat.mul_div_cancel wN (by norm_num : 0 < 32)]
    exact hcost
  · simp only [length_extendByteSlice, hmem, Nat.mul_div_cancel wN (by norm_num : 0 < 32), hm,
      Nat.mul_div_cancel_left m (by norm_num : 0 < 32)]
    rw [UInt64.toNat_sub_of_le _ _ hgas, hcharge]
    have := UInt64.le_iff_toNat_le.mp hgas
    rw [hcharge] at this
    omega

def sampleFrame : State :=
  ⟨[], [], 0, 2 ^ 63, 0, none, false, [], ⟨true, true, true, true, true⟩,
    ⟨zeroAddress, zeroAddress, zeroAddress, 0, some 0, false⟩⟩

theorem memory_expansion_charge_wraps :
    ∃ c', sampleFrame.allocateMemory 0 (2 ^ 37) = (true, c') ∧ c'.memory.length = 2 ^ 37 ∧
      c'.gas.toNat + 3 * 2 ^ 32 = sampleFrame.gas.toNat ∧
      memoryCost (c'.memory.length / 32) - memoryCost (sampleFrame.memory.length / 32) =
        3 * 2 ^ 32 + 2 ^ 55 := by
  have hok : (sampleFrame.allocateMemory 0 (2 ^ 37)).1 = true := by decide +kernel
  have hgas : (sampleFrame.allocateMemory 0 (2 ^ 37)).2.gas.toNat + 3 * 2 ^ 32 =
      sampleFrame.gas.toNat := by decide +kernel
  have h : sampleFrame.allocateMemory 0 (2 ^ 37) =
      (true, (sampleFrame.allocateMemory 0 (2 ^ 37)).2) := by
    rw [← hok]
  have hlen : (sampleFrame.allocateMemory 0 (2 ^ 37)).2.memory.length = 2 ^ 37 := by
    rcases sampleFrame.allocateMemory_eq_true h with hsame | ⟨-, -, -, -, -, hc'⟩
    · rw [hsame] at hgas
      exact absurd (Nat.add_left_cancel (hgas.trans (Nat.add_zero _).symm)) (by norm_num)
    · rw [hc', length_extendByteSlice]
      decide +kernel
  refine ⟨_, h, hlen, hgas, ?_⟩
  rw [hlen]
  decide +kernel

end EvmState
