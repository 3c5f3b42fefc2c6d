import Mathlib
import MindPos.EvmArithmetic
import MindPos.StateCallFrames

/-! # The MODEXP precompile

`state/runtime/precompiled/modexp.go`, with the helpers of `precompiled.go` it calls. `gas` prices
an input from its three 256-bit length words; `run` reads the operands through the low 64 bits
of each word; `Precompiled.Run` charges the first before it calls the second. EIP-198 says what
both compute, over the input padded with zeros. -/

namespace Eip198

open RlpEncoding (ofBE toBE)

/-- `width` bytes of the input from `offset`, zero past its end. -/
def paddedBytes (input : List UInt8) (offset width : ℕ) : List UInt8 :=
  (input.drop offset).take width ++ List.replicate (width - (input.drop offset).length) 0

def baseLen (input : List UInt8) : ℕ := ofBE (paddedBytes input 0 32)

def expLen (input : List UInt8) : ℕ := ofBE (paddedBytes input 32 32)

def modLen (input : List UInt8) : ℕ := ofBE (paddedBytes input 64 32)

def multComplexity (x : ℕ) : ℕ :=
  if x ≤ 64 then x ^ 2
  else if x ≤ 1024 then x ^ 2 / 4 + 96 * x - 3072
  else x ^ 2 / 16 + 480 * x - 199680

def expHead (input : List UInt8) : ℕ :=
  ofBE (paddedBytes input (96 + baseLen input) (min 32 (expLen input)))

def adjustedExponentLength (Le head : ℕ) : ℕ :=
  if Le ≤ 32 then Nat.log 2 head else 8 * (Le - 32) + Nat.log 2 head

def gas (input : List UInt8) : ℕ :=
  min (2 ^ 64 - 1) (multComplexity (max (modLen input) (baseLen input)) *
    max (adjustedExponentLength (expLen input) (expHead input)) 1 / 20)

/-- `B ^ E % M` in `Lm` bytes, zero for a zero modulus. -/
def output (input : List UInt8) : List UInt8 :=
  let b := ofBE (paddedBytes input 96 (baseLen input))
  let e := ofBE (paddedBytes input (96 + baseLen input) (expLen input))
  let m := ofBE (paddedBytes input (96 + baseLen input + expLen input) (modLen input))
  let v := if m = 0 then 0 else b ^ e % m
  List.replicate (modLen input - (toBE v).length) 0 ++ toBE v

section Padded

variable {input : List UInt8} {offset width : ℕ}

@[simp] theorem length_paddedBytes : (paddedBytes input offset width).length = width := by
  simp only [paddedBytes, List.length_append, List.length_take, List.length_replicate]
  omega

theorem paddedBytes_drop (k : ℕ) :
    paddedBytes (input.drop k) offset width = paddedBytes input (k + offset) width := by
  rw [paddedBytes, paddedBytes, List.drop_drop]

theorem paddedBytes_of_length_le (h : input.length ≤ offset) :
    paddedBytes input offset width = List.replicate width 0 := by
  rw [paddedBytes, List.drop_of_length_le h]
  simp

theorem ofBE_paddedBytes_lt : ofBE (paddedBytes input offset width) < 256 ^ width := by
  simpa using RlpEncoding.ofBE_lt (paddedBytes input offset width)

end Padded

theorem multComplexity_ge_of_le {x : ℕ} (hx : 2 ^ 64 ≤ x) : 2 ^ 64 * 20 ≤ multComplexity x := by
  have hsq : 2 ^ 128 ≤ x ^ 2 := by
    calc (2 : ℕ) ^ 128 = (2 ^ 64) ^ 2 := by norm_num
      _ ≤ x ^ 2 := Nat.pow_le_pow_left hx 2
  rw [multComplexity, if_neg (by omega), if_neg (by omega)]
  omega

theorem gas_of_le_max {input : List UInt8} {head : ℕ}
    (h : 2 ^ 64 ≤ max (modLen input) (baseLen input)) :
    min (2 ^ 64 - 1) (multComplexity (max (modLen input) (baseLen input)) *
      max (adjustedExponentLength (expLen input) head) 1 / 20) = 2 ^ 64 - 1 := by
  have hmc := multComplexity_ge_of_le h
  have hmul : multComplexity (max (modLen input) (baseLen input)) ≤
      multComplexity (max (modLen input) (baseLen input)) *
        max (adjustedExponentLength (expLen input) head) 1 :=
    Nat.le_mul_of_pos_right _ (by omega)
  have hdiv : 2 ^ 64 ≤ multComplexity (max (modLen input) (baseLen input)) *
      max (adjustedExponentLength (expLen input) head) 1 / 20 :=
    (Nat.le_div_iff_mul_le (by decide)).mpr (by omega)
  omega

theorem output_eq_nil {input : List UInt8} (h : modLen input = 0) : output input = [] := by
  simp [output, h, paddedBytes, RlpEncoding.ofBE, RlpEncoding.toBE, RlpEncoding.toBEAux]

end Eip198

namespace Precompiled

open RlpEncoding (ofBE toBE)
open StateCallFrames (ExecutionResult)
open Eip198 (paddedBytes)

/-- `Precompiled.get`: `size` bytes of the input, zero past its end, and the input after them.
The bytes land in the shared `p.buf`, which every caller copies before the next call. -/
def get (input : List UInt8) (size : ℕ) : List UInt8 × List UInt8 :=
  let n := min size input.length
  (input.take n ++ List.replicate (size - n) 0, input.drop n)

/-- `Precompiled.getUint64`: the low eight bytes of the next 32-byte word. -/
def getUint64 (input : List UInt8) : UInt64 × List UInt8 :=
  let r := get input 32
  (UInt64.ofNat (ofBE (r.1.drop 24)), r.2)

def leftPad (buf : List UInt8) (n : ℕ) : List UInt8 :=
  if buf.length > n then buf else List.replicate (n - buf.length) 0 ++ buf

def errSliceBounds : String := "slice bounds out of range"

namespace ModExp

def adjustedExponentLength (expLen head : ℤ) : ℤ :=
  let bitlength : ℕ := if head ≠ 0 then EvmState.bitLen head - 1 else 0
  if expLen ≤ 32 then bitlength else (expLen - 32) * 8 + bitlength

def subMul (x a b c : ℤ) : ℤ := x * b - c + x * x / a

def multComplexity (x : ℤ) : ℤ :=
  if x ≤ 64 then x * x
  else if x ≤ 1024 then subMul x 4 96 3072
  else subMul x 16 480 199680

def divisor : ℤ := 20

/-- `modExp.gas`: the lengths are `big.Int`s, but the exponent's head is found at the low 64 bits
of the base length. -/
def gas (input : List UInt8) : UInt64 :=
  let r₁ := get input 32
  let baseLen : ℤ := ofBE r₁.1
  let r₂ := get r₁.2 32
  let expLen : ℤ := ofBE r₂.1
  let modLen : ℤ := ofBE (get r₂.2 32).1
  let input := if input.length > 96 then input.drop 96 else []
  let expHeadLen : ℕ := if expLen < 32 then EvmState.uint64 expLen else 32
  let bLen := EvmState.uint64 baseLen
  let expHead : ℤ := if bLen < input.length then ofBE (get (input.drop bLen) expHeadLen).1 else 0
  let gasCost := multComplexity (if modLen ≥ baseLen then modLen else baseLen)
  let adjExpLen := adjustedExponentLength expLen expHead
  let gasCost := (if adjExpLen ≥ 1 then gasCost * adjExpLen else gasCost * 1) / divisor
  if !EvmState.isUint64 gasCost then UInt64.ofNat (2 ^ 64 - 1) else UInt64.ofNat gasCost.toNat

/-- `modExp.run`: the three lengths through `getUint64`, then the operands. -/
def run (input : List UInt8) : Except String (List UInt8) :=
  let r₁ := getUint64 input
  let r₂ := getUint64 r₁.2
  let r₃ := getUint64 r₂.2
  let baseLen := r₁.1
  let exponentLen := r₂.1
  let modulusLen := r₃.1
  if baseLen = 0 ∧ modulusLen = 0 then .ok []
  -- `int(...)` of a length from `2^63` on is negative, and `get` panics slicing to it
  else if 2 ^ 63 ≤ baseLen.toNat ∨ 2 ^ 63 ≤ exponentLen.toNat ∨ 2 ^ 63 ≤ modulusLen.toNat then
    .error errSliceBounds
  else
    let v₁ := get r₃.2 baseLen.toNat
    let base := ofBE v₁.1
    let v₂ := get v₁.2 exponentLen.toNat
    let exponent := ofBE v₂.1
    let modulus := ofBE (get v₂.2 modulusLen.toNat).1
    let res := if modulus ≠ 0 then toBE (base ^ exponent % modulus) else []
    .ok (leftPad res modulusLen.toNat)

end ModExp

/-- `Precompiled.Run` on the MODEXP contract, for a frame with `gas` left; a panic of `run` is an
error. `run` returns no error of its own, so the result never fails past the gas check. -/
def run (gas : UInt64) (input : List UInt8) : Except String ExecutionResult :=
  let gasCost := ModExp.gas input
  if gas < gasCost then .ok ⟨[], 0, some EvmState.errOutOfGas, EdgeTypes.zeroAddress⟩
  else (ModExp.run input).map fun returnValue =>
    ⟨returnValue, gas - gasCost, none, EdgeTypes.zeroAddress⟩

/-! ## `gas` is EIP-198's price -/

theorem get_eq (input : List UInt8) (size : ℕ) :
    get input size = (paddedBytes input 0 size, input.drop size) := by
  rcases Nat.le_total size input.length with hle | hle
  · simp [get, paddedBytes, Nat.min_eq_left hle, Nat.sub_eq_zero_of_le hle]
  · simp [get, paddedBytes, Nat.min_eq_right hle, List.take_of_length_le hle,
      List.drop_of_length_le hle]

theorem ofBE_drop (bs : List UInt8) (k : ℕ) :
    ofBE (bs.drop k) = ofBE bs % 256 ^ (bs.length - k) := by
  have hlt : ofBE (bs.drop k) < 256 ^ (bs.length - k) := by
    simpa using RlpEncoding.ofBE_lt (bs.drop k)
  have hsplit := RlpEncoding.ofBE_append (bs.take k) (bs.drop k)
  rw [List.take_append_drop, List.length_drop] at hsplit
  rw [hsplit, Nat.add_comm, Nat.add_mul_mod_self_right, Nat.mod_eq_of_lt hlt]

theorem getUint64_eq (input : List UInt8) :
    getUint64 input = (UInt64.ofNat (ofBE (paddedBytes input 0 32) % 2 ^ 64), input.drop 32) := by
  simp only [getUint64, get_eq, ofBE_drop, Eip198.length_paddedBytes]
  norm_num

theorem uint64_natCast (n : ℕ) : EvmState.uint64 (n : ℤ) = n % 2 ^ 64 := rfl

theorem bitLen_natCast_sub_one {n : ℕ} (hn : n ≠ 0) : EvmState.bitLen (n : ℤ) - 1 = Nat.log 2 n := by
  have hsize : Nat.size n = Nat.log 2 n + 1 :=
    le_antisymm (Nat.size_le.mpr (Nat.lt_pow_succ_log_self (by decide) n))
      (Nat.lt_size.mpr (Nat.pow_log_le_self 2 hn))
  rw [EvmState.bitLen, Int.natAbs_natCast, hsize, Nat.add_sub_cancel]

namespace ModExp

theorem adjustedExponentLength_natCast (Le head : ℕ) :
    adjustedExponentLength Le head = (Eip198.adjustedExponentLength Le head : ℤ) := by
  have hbit : (if (head : ℤ) ≠ 0 then EvmState.bitLen head - 1 else 0) = Nat.log 2 head := by
    by_cases h : head = 0
    · rw [if_neg (by simpa using h), h, Nat.log_zero_right]
    · rw [if_pos (by simpa using h), bitLen_natCast_sub_one h]
  rw [adjustedExponentLength, Eip198.adjustedExponentLength, hbit]
  split_ifs <;> push_cast <;> omega

theorem multComplexity_natCast (x : ℕ) : multComplexity x = (Eip198.multComplexity x : ℤ) := by
  rw [multComplexity, Eip198.multComplexity]
  split_ifs with h64 h1024 <;> try omega
  · push_cast
    ring
  · have h : 3072 ≤ x ^ 2 / 4 + 96 * x := by omega
    rw [subMul, Nat.cast_sub h, sq]
    push_cast
    ring
  · have h : 199680 ≤ x ^ 2 / 16 + 480 * x := by omega
    rw [subMul, Nat.cast_sub h, sq]
    push_cast
    ring

theorem gasCost_natCast (x adj : ℕ) :
    (if (adj : ℤ) ≥ 1 then multComplexity x * adj else multComplexity x * 1) / divisor =
      ((Eip198.multComplexity x * max adj 1 / 20 : ℕ) : ℤ) := by
  have hmax : (if (adj : ℤ) ≥ 1 then multComplexity x * adj else multComplexity x * 1) =
      ((Eip198.multComplexity x * max adj 1 : ℕ) : ℤ) := by
    rw [multComplexity_natCast]
    split_ifs with h
    · rw [Nat.max_eq_left (by omega)]
      push_cast
      rfl
    · rw [Nat.max_eq_right (by omega)]
      push_cast
      rfl
  rw [hmax, divisor, Int.natCast_ediv]
  rfl

theorem toNat_cap (n : ℕ) :
    (if !EvmState.isUint64 (n : ℤ) then UInt64.ofNat (2 ^ 64 - 1)
      else UInt64.ofNat (n : ℤ).toNat).toNat = min (2 ^ 64 - 1) n := by
  by_cases h : n < 2 ^ 64
  · rw [if_neg (by simp [EvmState.isUint64]; omega), Int.toNat_natCast,
      UInt64.toNat_ofNat_of_lt' h]
    omega
  · rw [if_pos (by simp [EvmState.isUint64]; omega), UInt64.toNat_ofNat']
    omega

theorem expHead_eq (input : List UInt8) (bLen k : ℕ) :
    (if bLen < (if input.length > 96 then input.drop 96 else []).length then
      (ofBE (get ((if input.length > 96 then input.drop 96 else []).drop bLen) k).1 : ℤ) else 0) =
      ofBE (paddedBytes input (96 + bLen) k) := by
  have hrest : (if input.length > 96 then input.drop 96 else []) = input.drop 96 := by
    split_ifs with h
    · rfl
    · exact (List.drop_of_length_le (by omega)).symm
  rw [hrest]
  split_ifs with h
  · rw [get_eq, Eip198.paddedBytes_drop, Eip198.paddedBytes_drop, Nat.add_zero]
  · rw [Eip198.paddedBytes_of_length_le (by simp at h; omega), RlpEncoding.ofBE_replicate_zero]
    rfl

theorem expHeadLen_eq (Le : ℕ) :
    (if (Le : ℤ) < 32 then EvmState.uint64 Le else 32) = min 32 Le := by
  split_ifs with h
  · rw [uint64_natCast, Nat.mod_eq_of_lt (by omega)]
    omega
  · omega

theorem toNat_gas_eq_min (input : List UInt8) :
    (gas input).toNat = min (2 ^ 64 - 1)
      (Eip198.multComplexity (max (Eip198.modLen input) (Eip198.baseLen input)) *
        max (Eip198.adjustedExponentLength (Eip198.expLen input)
          (ofBE (paddedBytes input (96 + Eip198.baseLen input % 2 ^ 64)
            (min 32 (Eip198.expLen input))))) 1 / 20) := by
  have hmax : ∀ a b : ℕ, (if (a : ℤ) ≥ b then (a : ℤ) else b) = ((max a b : ℕ) : ℤ) := by
    intro a b
    split_ifs <;> omega
  simp only [gas]
  rw [expHead_eq, expHeadLen_eq]
  simp only [get_eq, Eip198.paddedBytes_drop, List.drop_drop, Nat.add_zero, Nat.reduceAdd,
    uint64_natCast]
  rw [adjustedExponentLength_natCast, hmax, gasCost_natCast, toNat_cap]
  rfl

end ModExp

theorem toNat_gas (input : List UInt8) : (ModExp.gas input).toNat = Eip198.gas input := by
  rw [ModExp.toNat_gas_eq_min, Eip198.gas]
  by_cases hb : Eip198.baseLen input < 2 ^ 64
  · rw [Nat.mod_eq_of_lt hb]
    rfl
  · rw [Eip198.gas_of_le_max (by omega), Eip198.gas_of_le_max (by omega)]

/-! ## `run` reads what `gas` priced, below `2^63` -/

theorem toNat_ofNat_mod_of_lt {L : ℕ} (h : L < 2 ^ 63) : (UInt64.ofNat (L % 2 ^ 64)).toNat = L := by
  rw [UInt64.toNat_ofNat', Nat.mod_mod, Nat.mod_eq_of_lt (by omega)]

theorem leftPad_toBE_of_lt {v n : ℕ} (hv : v < 256 ^ n) :
    leftPad (toBE v) n = List.replicate (n - (toBE v).length) 0 ++ toBE v := by
  have := RlpEncoding.toBE_length_le hv
  rw [leftPad, if_neg (by omega)]

theorem leftPad_res_eq {b e m n : ℕ} (hm : m < 256 ^ n) :
    leftPad (if m ≠ 0 then toBE (b ^ e % m) else []) n =
      List.replicate (n - (toBE (if m = 0 then 0 else b ^ e % m)).length) 0 ++
        toBE (if m = 0 then 0 else b ^ e % m) := by
  by_cases hm0 : m = 0
  · rw [if_neg (not_not.mpr hm0), if_pos hm0]
    simp [leftPad, RlpEncoding.toBE, RlpEncoding.toBEAux]
  · rw [if_pos hm0, if_neg hm0]
    exact leftPad_toBE_of_lt ((Nat.mod_lt _ (Nat.pos_of_ne_zero hm0)).trans hm)

namespace ModExp

theorem run_eq_output (input : List UInt8) (hb : Eip198.baseLen input < 2 ^ 63)
    (he : Eip198.expLen input < 2 ^ 63) (hm : Eip198.modLen input < 2 ^ 63) :
    run input = .ok (Eip198.output input) := by
  have hb' : (UInt64.ofNat (ofBE (paddedBytes input 0 32) % 2 ^ 64)).toNat =
      Eip198.baseLen input := toNat_ofNat_mod_of_lt hb
  have he' : (UInt64.ofNat (ofBE (paddedBytes input 32 32) % 2 ^ 64)).toNat =
      Eip198.expLen input := toNat_ofNat_mod_of_lt he
  have hm' : (UInt64.ofNat (ofBE (paddedBytes input 64 32) % 2 ^ 64)).toNat =
      Eip198.modLen input := toNat_ofNat_mod_of_lt hm
  simp only [run, getUint64_eq, Eip198.paddedBytes_drop, List.drop_drop, Nat.add_zero,
    Nat.reduceAdd]
  by_cases hz : Eip198.baseLen input = 0 ∧ Eip198.modLen input = 0
  · rw [if_pos ⟨UInt64.toNat_inj.mp (by rw [hb', hz.1]; rfl),
      UInt64.toNat_inj.mp (by rw [hm', hz.2]; rfl)⟩, Eip198.output_eq_nil hz.2]
  rw [if_neg (fun h => hz ⟨by rw [← hb', h.1]; rfl, by rw [← hm', h.2]; rfl⟩),
    if_neg (by rw [hb', he', hm']; omega)]
  simp only [get_eq, Eip198.paddedBytes_drop, List.drop_drop, Nat.add_zero, hb', he', hm']
  rw [leftPad_res_eq Eip198.ofBE_paddedBytes_lt]
  rfl

end ModExp

theorem run_of_le {gas : UInt64} {input : List UInt8} (hgas : Eip198.gas input ≤ gas.toNat)
    (hb : Eip198.baseLen input < 2 ^ 63) (he : Eip198.expLen input < 2 ^ 63)
    (hm : Eip198.modLen input < 2 ^ 63) :
    ∃ r, run gas input = .ok r ∧ r.returnValue = Eip198.output input ∧
      r.gasLeft.toNat = gas.toNat - Eip198.gas input ∧ r.err = none := by
  have hle : ModExp.gas input ≤ gas := UInt64.le_iff_toNat_le.mpr (by rw [toNat_gas]; exact hgas)
  refine ⟨⟨Eip198.output input, gas - ModExp.gas input, none, EdgeTypes.zeroAddress⟩, ?_, rfl,
    ?_, rfl⟩
  · rw [run, if_neg (UInt64.not_lt.mpr hle), ModExp.run_eq_output input hb he hm]
    rfl
  · rw [UInt64.toNat_sub_of_le _ _ hle, toNat_gas]

theorem run_of_lt {gas : UInt64} {input : List UInt8} (hgas : gas.toNat < Eip198.gas input) :
    run gas input = .ok ⟨[], 0, some EvmState.errOutOfGas, EdgeTypes.zeroAddress⟩ := by
  rw [run, if_pos (UInt64.lt_iff_toNat_lt.mpr (by rw [toNat_gas]; exact hgas))]

def truncatedExpInput : List UInt8 :=
  List.replicate 32 0 ++ (List.replicate 23 0 ++ 1 :: List.replicate 7 0 ++ [32]) ++
    (List.replicate 31 0 ++ [1]) ++ List.replicate 32 0 ++ [5]

theorem modexp_run_truncates_exponent_length :
    Eip198.gas truncatedExpInput = 7378697629483820646 ∧
      run (2 ^ 63) truncatedExpInput =
        .ok ⟨[1], 2 ^ 63 - 7378697629483820646, none, EdgeTypes.zeroAddress⟩ ∧
      Eip198.output truncatedExpInput = [0] := by
  refine ⟨?_, ?_, ?_⟩
  · rw [← toNat_gas]
    decide +kernel
  · decide +kernel
  · decide +kernel

end Precompiled
