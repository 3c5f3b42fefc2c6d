import Mathlib
import MindPos.BlockchainVerify
import MindPos.StateExecutor
import MindPos.EvmArithmetic

/-! # The gas schedule of the chain

`blockchain/blockchain.go`: `calculateGasLimit`, which moves the gas limit a 1/1024 step towards
the block gas target, `CalculateBaseFee` of EIP-1559, and the running average of gas prices that
`eth_gasPrice` publishes.
Both compute in `uint64` and `big.Int` as the source does; the statements compare them with the
same quantities in unbounded numbers. -/
namespace BlockchainGas

open EdgeTypes BlockchainVerify

/-! ## The gas limit -/

/-- `Blockchain.calculateGasLimit`, with the chain's `BlockGasTarget`. -/
def calculateGasLimit (blockGasTarget parentGasLimit : UInt64) : UInt64 :=
  if blockGasTarget = 0 then parentGasLimit
  else if parentGasLimit = blockGasTarget then blockGasTarget
  else
    let delta := parentGasLimit * 1 / blockGasTargetDivisor
    if parentGasLimit < blockGasTarget then min blockGasTarget (parentGasLimit + delta)
    else max blockGasTarget (max (parentGasLimit - delta) 0)

section GasLimit

variable {T P : UInt64}

theorem toNat_gasLimitDelta (P : UInt64) : (P * 1 / blockGasTargetDivisor).toNat = P.toNat / 1024 := by
  rw [UInt64.mul_one, UInt64.toNat_div]
  rfl

theorem toNat_calculateGasLimit_of_lt (hlt : P.toNat < T.toNat)
    (hfit : P.toNat + P.toNat / 1024 < 2 ^ 64) :
    (calculateGasLimit T P).toNat = min T.toNat (P.toNat + P.toNat / 1024) := by
  have hT : T ≠ 0 := fun h => by rw [h] at hlt; simp at hlt
  have hPT : P ≠ T := fun h => by rw [h] at hlt; exact Nat.lt_irrefl _ hlt
  unfold calculateGasLimit
  rw [if_neg hT, if_neg hPT, if_pos (UInt64.lt_iff_toNat_lt.mpr hlt), UInt64.toNat_min,
    UInt64.toNat_add, toNat_gasLimitDelta, Nat.mod_eq_of_lt hfit]

theorem toNat_calculateGasLimit_of_le (hT : T ≠ 0) (hle : T.toNat ≤ P.toNat) :
    (calculateGasLimit T P).toNat = max T.toNat (P.toNat - P.toNat / 1024) := by
  unfold calculateGasLimit
  rw [if_neg hT]
  by_cases hPT : P = T
  · subst hPT
    rw [if_pos rfl]
    omega
  have hsub : (P - P * 1 / blockGasTargetDivisor).toNat = P.toNat - P.toNat / 1024 := by
    rw [UInt64.toNat_sub_of_le _ _ (UInt64.le_iff_toNat_le.mpr (by rw [toNat_gasLimitDelta]; omega)),
      toNat_gasLimitDelta]
  rw [if_neg hPT, if_neg (by rw [UInt64.lt_iff_toNat_lt]; omega), UInt64.toNat_max,
    UInt64.toNat_max, hsub]
  simp

theorem calculateGasLimit_between (hT : T ≠ 0) (hfit : P.toNat + P.toNat / 1024 < 2 ^ 64) :
    min P.toNat T.toNat ≤ (calculateGasLimit T P).toNat ∧
      (calculateGasLimit T P).toNat ≤ max P.toNat T.toNat ∧
      (calculateGasLimit T P).toNat ≤ P.toNat + P.toNat / 1024 ∧
      P.toNat ≤ (calculateGasLimit T P).toNat + P.toNat / 1024 := by
  rcases Nat.lt_or_ge P.toNat T.toNat with hlt | hle
  · rw [toNat_calculateGasLimit_of_lt hlt hfit]
    omega
  · rw [toNat_calculateGasLimit_of_le hT hle]
    omega

theorem calculateGasLimit_closer (hT : 1024 ≤ T.toNat) (hfit : T.toNat + T.toNat / 1024 < 2 ^ 64)
    (hP : 1024 ≤ P.toNat) (hne : P ≠ T) :
    ((calculateGasLimit T P).toNat - T.toNat) + (T.toNat - (calculateGasLimit T P).toNat) <
        (P.toNat - T.toNat) + (T.toNat - P.toNat) ∧
      1024 ≤ (calculateGasLimit T P).toNat := by
  have hne' : P.toNat ≠ T.toNat := fun h => hne (UInt64.toNat_inj.mp h)
  rcases Nat.lt_or_ge P.toNat T.toNat with hlt | hle
  · rw [toNat_calculateGasLimit_of_lt hlt (by omega)]
    omega
  · have hT0 : T ≠ 0 := fun h => by rw [h] at hT; simp at hT
    rw [toNat_calculateGasLimit_of_le hT0 hle]
    omega

theorem exists_iterate_calculateGasLimit_eq (hT : 1024 ≤ T.toNat)
    (hfit : T.toNat + T.toNat / 1024 < 2 ^ 64) (hP : 1024 ≤ P.toNat) :
    ∃ n, (calculateGasLimit T)^[n] P = T := by
  induction h : (P.toNat - T.toNat) + (T.toNat - P.toNat) using Nat.strong_induction_on
    generalizing P with
  | _ k ih =>
    by_cases hPT : P = T
    · exact ⟨0, hPT⟩
    obtain ⟨hcloser, hbound⟩ := calculateGasLimit_closer hT hfit hP hPT
    obtain ⟨n, hn⟩ := ih _ (h ▸ hcloser) hbound rfl
    exact ⟨n + 1, by rw [Function.iterate_succ_apply, hn]⟩

theorem toNat_absDiff {P G : UInt64} (hP : P.toNat < 2 ^ 63) (hG : G.toNat < 2 ^ 63) :
    (if P.toInt64 - G.toInt64 < 0 then (P.toInt64 - G.toInt64) * -1
      else P.toInt64 - G.toInt64).toUInt64.toNat = (P.toNat - G.toNat) + (G.toNat - P.toNat) := by
  have hP' : P.toInt64.toInt = P.toNat := by
    rw [Int64.toInt, UInt64.toBitVec_toInt64, BitVec.toInt_eq_toNat_cond]
    simp only [UInt64.toNat_toBitVec]
    omega
  have hG' : G.toInt64.toInt = G.toNat := by
    rw [Int64.toInt, UInt64.toBitVec_toInt64, BitVec.toInt_eq_toNat_cond]
    simp only [UInt64.toNat_toBitVec]
    omega
  have hd : (P.toInt64 - G.toInt64).toInt = (P.toNat : ℤ) - G.toNat := by
    rw [Int64.toInt_sub, hP', hG']
    exact Int.bmod_eq_of_le (by omega) (by omega)
  have htoNat (x : Int64) (hx : 0 ≤ x.toInt) : x.toUInt64.toNat = x.toInt.toNat :=
    Int64.toNat_toUInt64_of_le (Int64.le_iff_toInt_le.mpr hx)
  have h0 : (0 : Int64).toInt = 0 := rfl
  split_ifs with hneg
  · rw [Int64.lt_iff_toInt_lt, hd, h0] at hneg
    have hm : ((P.toInt64 - G.toInt64) * -1).toInt = (G.toNat : ℤ) - P.toNat := by
      rw [Int64.toInt_mul, hd, show (-1 : Int64).toInt = -1 from rfl]
      exact (Int.bmod_eq_of_le (by omega) (by omega)).trans (by omega)
    rw [htoNat _ (by rw [hm]; omega), hm]
    omega
  · rw [Int64.lt_iff_toInt_lt, hd, h0] at hneg
    rw [htoNat _ (by rw [hd]; exact not_lt.mp hneg), hd]
    omega

theorem verifyGasLimit_eq_ok_iff {header parent : Header} (hn : header.number ≠ 0)
    (hG : header.gasLimit.toNat < 2 ^ 63) (hP : parent.gasLimit.toNat < 2 ^ 63) :
    verifyGasLimit header parent = .ok () ↔
      header.gasUsed.toNat ≤ header.gasLimit.toNat ∧
        (parent.gasLimit.toNat - header.gasLimit.toNat) +
          (header.gasLimit.toNat - parent.gasLimit.toNat) ≤ parent.gasLimit.toNat / 1024 := by
  unfold verifyGasLimit
  by_cases hused : header.gasUsed > header.gasLimit
  · rw [if_pos hused]
    have := UInt64.lt_iff_toNat_lt.mp hused
    simp only [reduceCtorEq, false_iff, not_and, not_le]
    omega
  rw [if_neg hused, if_neg hn]
  dsimp only
  have hused' : header.gasUsed.toNat ≤ header.gasLimit.toNat := by
    have := UInt64.lt_iff_toNat_lt.not.mp hused
    omega
  have hlimit : (parent.gasLimit / blockGasTargetDivisor).toNat = parent.gasLimit.toNat / 1024 := by
    rw [UInt64.toNat_div]
    rfl
  generalize hD : (if parent.gasLimit.toInt64 - header.gasLimit.toInt64 < 0 then
    (parent.gasLimit.toInt64 - header.gasLimit.toInt64) * -1
    else parent.gasLimit.toInt64 - header.gasLimit.toInt64) = D
  have hD' : D.toUInt64.toNat = (parent.gasLimit.toNat - header.gasLimit.toNat) +
      (header.gasLimit.toNat - parent.gasLimit.toNat) := hD ▸ toNat_absDiff hP hG
  by_cases hdiff : D.toUInt64 > parent.gasLimit / blockGasTargetDivisor
  · rw [if_pos hdiff]
    rw [gt_iff_lt, UInt64.lt_iff_toNat_lt, hD', hlimit] at hdiff
    simp only [reduceCtorEq, false_iff, not_and, not_le]
    omega
  · rw [if_neg hdiff]
    rw [gt_iff_lt, UInt64.lt_iff_toNat_lt, hD', hlimit] at hdiff
    simp only [true_iff]
    omega

theorem verifyGasLimit_calculateGasLimit {header parent : Header} {T : UInt64} (hT : T ≠ 0)
    (hn : header.number ≠ 0) (hP : parent.gasLimit.toNat < 2 ^ 63) (hT' : T.toNat < 2 ^ 63)
    (hlimit : header.gasLimit = calculateGasLimit T parent.gasLimit)
    (hused : header.gasUsed ≤ header.gasLimit) :
    verifyGasLimit header parent = .ok () := by
  have hstep := calculateGasLimit_between (P := parent.gasLimit) hT (by omega)
  rw [← hlimit] at hstep
  have hused' := UInt64.le_iff_toNat_le.mp hused
  rw [verifyGasLimit_eq_ok_iff hn (by omega) hP]
  omega

end GasLimit

def gasHeader (number gasLimit gasUsed baseFee : UInt64) : Header :=
  ⟨zeroHash, zeroHash, [], zeroHash, zeroHash, zeroHash, [], 0, number, gasLimit, gasUsed, 0, [],
    zeroHash, [], zeroHash, baseFee⟩

theorem gas_limit_schedule_wraps_near_max :
    calculateGasLimit (2 ^ 64 - 1) (2 ^ 64 - 2) = 18014398509481981 ∧
      verifyGasLimit (gasHeader 1 1 0 0) (gasHeader 0 (2 ^ 64 - 1) 0 0) = .ok () := by
  constructor
  · decide +kernel
  · decide +kernel

/-! ## The base fee -/

def baseFeeOf (baseFeeEM gasLimit gasUsed baseFee : ℕ) : ℕ :=
  let target := gasLimit / baseFeeEM
  if gasUsed = target then baseFee
  else if target < gasUsed then baseFee + max 1 (baseFee * (gasUsed - target) / target / 8)
  else baseFee - baseFee * (target - gasUsed) / target / 8

section BaseFee

variable {isLondon : UInt64 → Bool} {EM G : UInt64} {parent : Header}

theorem toNat_calcBaseFeeDelta {d t B : UInt64} (hmul : B.toNat * d.toNat < 2 ^ 64) :
    (calcBaseFeeDelta d t B).toNat = B.toNat * d.toNat / t.toNat / 8 := by
  rw [calcBaseFeeDelta, UInt64.toNat_div, UInt64.toNat_div, UInt64.toNat_mul,
    Nat.mod_eq_of_lt hmul]
  rfl

theorem toNat_calcBaseFeeDelta_le {d t B : UInt64} (hd : d.toNat ≤ t.toNat) :
    (calcBaseFeeDelta d t B).toNat ≤ B.toNat / 8 := by
  rw [calcBaseFeeDelta, UInt64.toNat_div, UInt64.toNat_div, UInt64.toNat_mul]
  apply Nat.div_le_div_right
  rcases Nat.eq_zero_or_pos t.toNat with ht | ht
  · rw [ht, Nat.div_zero]
    exact Nat.zero_le _
  calc B.toNat * d.toNat % 2 ^ 64 / t.toNat
      ≤ B.toNat * d.toNat / t.toNat := Nat.div_le_div_right (Nat.mod_le _ _)
    _ ≤ B.toNat := Nat.div_le_of_le_mul (by rw [Nat.mul_comm t.toNat]; exact Nat.mul_le_mul_left _ hd)

theorem toNat_calcBaseFeeDelta_lt (d t B : UInt64) : (calcBaseFeeDelta d t B).toNat < 2 ^ 61 := by
  rw [calcBaseFeeDelta, UInt64.toNat_div, UInt64.toNat_div]
  have := (B * d).toNat_lt
  have : (B * d).toNat / t.toNat ≤ (B * d).toNat := Nat.div_le_self _ _
  show _ / 8 < _
  omega

theorem calculateBaseFee_of_isLondon (hL : isLondon parent.number) :
    calculateBaseFee isLondon EM G parent =
      if parent.gasUsed = parent.gasLimit / EM then parent.baseFee
      else if parent.gasUsed > parent.gasLimit / EM then
        parent.baseFee + max (calcBaseFeeDelta (parent.gasUsed - parent.gasLimit / EM)
          (parent.gasLimit / EM) parent.baseFee) 1
      else max (parent.baseFee - calcBaseFeeDelta (parent.gasLimit / EM - parent.gasUsed)
          (parent.gasLimit / EM) parent.baseFee) 0 := by
  rw [calculateBaseFee, hL, if_neg (by decide)]

theorem toNat_calculateBaseFee (hL : isLondon parent.number)
    (hmul : parent.baseFee.toNat * ((parent.gasUsed.toNat - parent.gasLimit.toNat / EM.toNat) +
      (parent.gasLimit.toNat / EM.toNat - parent.gasUsed.toNat)) < 2 ^ 64)
    (hfit : baseFeeOf EM.toNat parent.gasLimit.toNat parent.gasUsed.toNat parent.baseFee.toNat <
      2 ^ 64) :
    (calculateBaseFee isLondon EM G parent).toNat =
      baseFeeOf EM.toNat parent.gasLimit.toNat parent.gasUsed.toNat parent.baseFee.toNat := by
  have htarget : (parent.gasLimit / EM).toNat = parent.gasLimit.toNat / EM.toNat :=
    UInt64.toNat_div _ _
  rw [calculateBaseFee_of_isLondon hL]
  unfold baseFeeOf at *
  dsimp only at *
  by_cases heq : parent.gasUsed = parent.gasLimit / EM
  · rw [if_pos heq, if_pos (by rw [heq, htarget])]
  have heq' : parent.gasUsed.toNat ≠ parent.gasLimit.toNat / EM.toNat := by
    rw [← htarget]
    exact fun h => heq (UInt64.toNat_inj.mp h)
  rw [if_neg heq, if_neg heq'] at *
  by_cases hgt : parent.gasUsed > parent.gasLimit / EM
  · have hgt' := UInt64.lt_iff_toNat_lt.mp hgt
    rw [htarget] at hgt'
    rw [if_pos hgt, if_pos hgt'] at *
    rw [Nat.sub_eq_zero_of_le (Nat.le_of_lt hgt'), Nat.add_zero] at hmul
    have hd : (parent.gasUsed - parent.gasLimit / EM).toNat =
        parent.gasUsed.toNat - parent.gasLimit.toNat / EM.toNat := by
      rw [UInt64.toNat_sub_of_le _ _ (UInt64.le_of_lt hgt), htarget]
    have hdelta := toNat_calcBaseFeeDelta (t := parent.gasLimit / EM)
      (d := parent.gasUsed - parent.gasLimit / EM) (B := parent.baseFee) (by rw [hd]; exact hmul)
    rw [hd, htarget] at hdelta
    rw [UInt64.toNat_add, UInt64.toNat_max, hdelta, Nat.max_comm]
    exact Nat.mod_eq_of_lt (by simpa using hfit)
  · have hlt' : parent.gasUsed.toNat < parent.gasLimit.toNat / EM.toNat := by
      have := UInt64.lt_iff_toNat_lt.not.mp hgt
      omega
    rw [if_neg hgt, if_neg (by omega)] at *
    rw [Nat.sub_eq_zero_of_le (Nat.le_of_lt hlt'), Nat.zero_add] at hmul
    have hd : (parent.gasLimit / EM - parent.gasUsed).toNat =
        parent.gasLimit.toNat / EM.toNat - parent.gasUsed.toNat := by
      rw [UInt64.toNat_sub_of_le _ _ (UInt64.le_iff_toNat_le.mpr (by rw [htarget]; omega)), htarget]
    have hdelta := toNat_calcBaseFeeDelta (t := parent.gasLimit / EM)
      (d := parent.gasLimit / EM - parent.gasUsed) (B := parent.baseFee) (by rw [hd]; exact hmul)
    rw [hd, htarget] at hdelta
    have hle := toNat_calcBaseFeeDelta_le (t := parent.gasLimit / EM)
      (d := parent.gasLimit / EM - parent.gasUsed) (B := parent.baseFee) (by rw [hd, htarget]; omega)
    rw [UInt64.toNat_max, UInt64.toNat_sub_of_le _ _ (UInt64.le_iff_toNat_le.mpr (by omega)),
      hdelta]
    simp

theorem calculateBaseFee_decrease_le (hL : isLondon parent.number)
    (hB : parent.baseFee.toNat + 2 ^ 61 ≤ 2 ^ 64) :
    parent.baseFee.toNat ≤ (calculateBaseFee isLondon EM G parent).toNat +
      parent.baseFee.toNat / 8 := by
  rw [calculateBaseFee_of_isLondon hL]
  split_ifs with heq hgt
  · omega
  · have := toNat_calcBaseFeeDelta_lt (parent.gasUsed - parent.gasLimit / EM) (parent.gasLimit / EM)
      parent.baseFee
    rw [UInt64.toNat_add, UInt64.toNat_max, Nat.mod_eq_of_lt (by simp; omega)]
    omega
  · have hlt : parent.gasUsed < parent.gasLimit / EM := UInt64.lt_of_le_of_ne (UInt64.not_lt.mp hgt) heq
    have hle := toNat_calcBaseFeeDelta_le (t := parent.gasLimit / EM)
      (d := parent.gasLimit / EM - parent.gasUsed) (B := parent.baseFee)
      (by rw [UInt64.toNat_sub_of_le _ _ (UInt64.le_of_lt hlt)]; omega)
    rw [UInt64.toNat_max, UInt64.toNat_sub_of_le _ _ (UInt64.le_iff_toNat_le.mpr (by omega))]
    simp only [UInt64.toNat_zero, Nat.zero_le, max_eq_left]
    omega

end BaseFee

theorem base_fee_increase_wraps :
    calculateBaseFee (fun _ => true) 2 1000000000 (gasHeader 1 40000000 40000000 1000000000000) =
        1009707849539 ∧
      baseFeeOf 2 40000000 40000000 1000000000000 = 1125000000000 := by
  constructor
  · decide +kernel
  · decide

/-! ## The average gas price -/

/-- `Blockchain.gpAverage`: the average gas price and the number of prices behind it. -/
structure GasPriceAverage where
  price : ℤ
  count : ℤ
  deriving DecidableEq, Repr

def errDivisionByZero : String := "division by zero"

/-- `Blockchain.calcArithmeticAverage`. -/
def calcArithmeticAverage (newValues : List ℤ) (sum : ℤ) : Except String GasPriceAverage :=
  let newAverageCount : ℤ := newValues.length
  if newAverageCount = 0 then .error errDivisionByZero
  else .ok ⟨sum / newAverageCount, newAverageCount⟩

/-- `Blockchain.calcRollingAverage`: `old * (n - |M|) / n + sum / n`, over the old count `n`. -/
def calcRollingAverage (g : GasPriceAverage) (newValues : List ℤ) (sum : ℤ) :
    Except String GasPriceAverage :=
  let inputSetCount : ℤ := newValues.length
  if g.count = 0 then .error errDivisionByZero
  else .ok ⟨g.price * (g.count - inputSetCount) / g.count + sum / g.count,
    inputSetCount + g.count⟩

/-- `Blockchain.updateGasPriceAvg`: the branch is chosen on `count.Uint64()`. -/
def updateGasPriceAvg (g : GasPriceAverage) (newValues : List ℤ) : Except String GasPriceAverage :=
  let sum := newValues.foldl (· + ·) 0
  if EvmState.uint64 g.count = 0 then calcArithmeticAverage newValues sum
  else calcRollingAverage g newValues sum

/-- `Blockchain.updateGasPriceAvgWithBlock`: a block without transactions leaves the average. -/
def updateGasPriceAvgWithBlock (g : GasPriceAverage) (block : Block) :
    Except String GasPriceAverage :=
  if block.transactions.length < 1 then .ok g
  else updateGasPriceAvg g (block.transactions.map fun tx =>
    StateExecutor.getGasPrice tx block.header.baseFee)

def gasPriceAvgAfter (g : GasPriceAverage) (blocks : List Block) : Except String GasPriceAverage :=
  blocks.foldlM updateGasPriceAvgWithBlock g

/-- `Eth.GasPrice`: the average through `Uint64()`, at least the operator's price limit. -/
def gasPrice (priceLimit : UInt64) (g : GasPriceAverage) : UInt64 :=
  max priceLimit (UInt64.ofNat (EvmState.uint64 g.price))

def runningMean (g : GasPriceAverage) (M : List ℤ) : GasPriceAverage :=
  ⟨(g.price * g.count + M.sum) / (g.count + M.length), g.count + M.length⟩

section Average

variable {g g' : GasPriceAverage} {M : List ℤ}

theorem uint64_count_eq_zero_iff (hc0 : 0 ≤ g.count) (hc : g.count < 2 ^ 64) :
    EvmState.uint64 g.count = 0 ↔ g.count = 0 := by
  rw [EvmState.uint64, Nat.mod_eq_of_lt (by omega)]
  omega

theorem updateGasPriceAvg_of_count_eq_zero (hc : g.count = 0) (hM : M ≠ []) :
    updateGasPriceAvg g M = .ok (runningMean g M) := by
  have hlen : (M.length : ℤ) ≠ 0 := by simpa using hM
  rw [updateGasPriceAvg, if_pos (by rw [hc]; rfl), calcArithmeticAverage, if_neg hlen,
    runningMean, hc, ← List.sum_eq_foldl]
  simp

theorem updateGasPriceAvg_of_count_pos (hc0 : 0 < g.count) (hc : g.count < 2 ^ 64) :
    updateGasPriceAvg g M = .ok ⟨g.price * (g.count - M.length) / g.count + M.sum / g.count,
      M.length + g.count⟩ := by
  rw [updateGasPriceAvg, if_neg (by rw [uint64_count_eq_zero_iff hc0.le hc]; omega),
    calcRollingAverage, if_neg (by omega), ← List.sum_eq_foldl]

theorem updateGasPriceAvg_count (hc0 : 0 ≤ g.count) (hc : g.count < 2 ^ 64)
    (hM : M ≠ []) : ∃ g', updateGasPriceAvg g M = .ok g' ∧ g'.count = g.count + M.length := by
  rcases hc0.eq_or_lt with hz | hpos
  · exact ⟨_, updateGasPriceAvg_of_count_eq_zero hz.symm hM, rfl⟩
  · refine ⟨_, updateGasPriceAvg_of_count_pos hpos hc, ?_⟩
    dsimp only
    omega

theorem price_updateGasPriceAvg_nonneg (hp : 0 ≤ g.price) (hc0 : 0 ≤ g.count)
    (hc : g.count < 2 ^ 64) (hM : ∀ x ∈ M, 0 ≤ x) (hlen : M.length ≤ g.count ∨ g.count = 0)
    (h : updateGasPriceAvg g M = .ok g') : 0 ≤ g'.price := by
  have hsum : 0 ≤ M.sum := List.sum_nonneg hM
  rcases hc0.eq_or_lt with hz | hpos
  · cases M with
    | nil => simp [updateGasPriceAvg, calcArithmeticAverage, ← hz, EvmState.uint64] at h
    | cons x xs =>
      rw [updateGasPriceAvg_of_count_eq_zero hz.symm (List.cons_ne_nil x xs)] at h
      cases h
      exact Int.ediv_nonneg (by rw [← hz]; simpa using hsum) (by omega)
  · rw [updateGasPriceAvg_of_count_pos hpos hc] at h
    cases h
    have hgap : 0 ≤ g.count - M.length := by omega
    exact Int.add_nonneg (Int.ediv_nonneg (Int.mul_nonneg hp hgap) hpos.le)
      (Int.ediv_nonneg hsum hpos.le)

theorem updateGasPriceAvgWithBlock_count {b : Block} (hc0 : 0 ≤ g.count)
    (hc : g.count < 2 ^ 64) :
    ∃ g', updateGasPriceAvgWithBlock g b = .ok g' ∧ g'.count = g.count + b.transactions.length := by
  unfold updateGasPriceAvgWithBlock
  split_ifs with hempty
  · exact ⟨g, rfl, by omega⟩
  · obtain ⟨g', hg', hcount⟩ := updateGasPriceAvg_count (M := b.transactions.map fun tx =>
      StateExecutor.getGasPrice tx b.header.baseFee) hc0 hc
      (by simpa [← List.length_pos_iff] using hempty)
    exact ⟨g', hg', by simpa using hcount⟩

theorem gasPriceAvgAfter_count (blocks : List Block) (hc0 : 0 ≤ g.count)
    (hfit : g.count + (blocks.map fun b => (b.transactions.length : ℤ)).sum < 2 ^ 64) :
    ∃ g', gasPriceAvgAfter g blocks = .ok g' ∧
      g'.count = g.count + (blocks.map fun b => (b.transactions.length : ℤ)).sum := by
  induction blocks generalizing g with
  | nil => exact ⟨g, rfl, by simp⟩
  | cons b bs ih =>
    have hlen : (0 : ℤ) ≤ (bs.map fun b => (b.transactions.length : ℤ)).sum :=
      List.sum_nonneg (by simp)
    simp only [List.map_cons, List.sum_cons] at hfit ⊢
    obtain ⟨g₁, hg₁, hcount₁⟩ := updateGasPriceAvgWithBlock_count (b := b) hc0 (by omega)
    obtain ⟨g', hg', hcount'⟩ := ih (g := g₁) (by omega) (by omega)
    refine ⟨g', ?_, by omega⟩
    rw [gasPriceAvgAfter, List.foldlM_cons, hg₁]
    exact hg'

end Average

theorem gas_price_average_goes_negative :
    (updateGasPriceAvg ⟨0, 0⟩ [10] >>= fun g => updateGasPriceAvg g [1, 1, 1]) = .ok ⟨-17, 4⟩ ∧
      runningMean ⟨10, 1⟩ [1, 1, 1] = ⟨3, 4⟩ ∧ gasPrice 0 ⟨-17, 4⟩ = 17 := by
  refine ⟨rfl, rfl, ?_⟩
  decide

end BlockchainGas
