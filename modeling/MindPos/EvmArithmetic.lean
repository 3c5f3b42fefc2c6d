import Mathlib
import MindPos.EvmState
import MindPos.EvmWords

/-! # The arithmetic, comparison, bitwise and shift instructions

`state/runtime/evm/instructions.go` and the dispatch table. The stack holds `big.Int`s; a handler
pops its operands and writes its result over the new top in place. Results go back to words
through `toU256`, and the signed instructions read their operands through `to256`. `opByte`
reads its index with `Int64`, which keeps the low 64 bits of the index as a signed number. The
exponent loop runs over the 64-bit words of the exponent. -/
namespace EvmState

open EvmWords (ArithOp)

def errStackUnderflow : String := "stack underflow"

def errStackOverflow : String := "stack overflow"

/-- `stackSize`, the most values the stack may hold. -/
def stackSize : ℕ := 1024

/-- `x.BitLen()`: the bits of the absolute value. -/
def bitLen (x : ℤ) : ℕ := Nat.size x.natAbs

def tt256 : ℤ := 2 ^ 256

def tt256m1 : ℤ := tt256 - 1

def toU256 (x : ℤ) : ℤ := if x < 0 ∨ bitLen x > 256 then Int.land x tt256m1 else x

def to256 (x : ℤ) : ℤ := if bitLen x > 255 then x - tt256 else x

/-- `x.Int64()`: the low 64 bits of `|x|` as an `int64`, negated for a negative `x`. -/
def int64 (x : ℤ) : ℤ :=
  (if x < 0 then -((x.natAbs % 2 ^ 64 : ℕ) : ℤ) else ((x.natAbs % 2 ^ 64 : ℕ) : ℤ)).bmod (2 ^ 64)

/-- `x.Uint64()`: the low 64 bits of `|x|`. -/
def uint64 (x : ℤ) : ℕ := x.natAbs % 2 ^ 64

def equalOrOverflowsUint256 (b : ℤ) : Bool := bitLen b > 8

def State.setTop (c : State) (f : ℤ → ℤ) : State :=
  match c.stack with
  | [] => c
  | b :: rest => { c with stack := f b :: rest }

def State.unaryOp (f : ℤ → ℤ) (c : State) : State := c.setTop f

def State.binaryOp (f : ℤ → ℤ → ℤ) (c : State) : State :=
  let (a, c) := c.pop
  c.setTop (f a)

def State.ternaryOp (f : ℤ → ℤ → ℤ → ℤ) (c : State) : State :=
  let (a, c) := c.pop
  let (b, c) := c.pop
  c.setTop (f a b)

def State.opAdd : State → State := State.binaryOp fun a b => toU256 (a + b)

def State.opMul : State → State := State.binaryOp fun a b => toU256 (a * b)

def State.opSub : State → State := State.binaryOp fun a b => toU256 (a - b)

def State.opDiv : State → State :=
  State.binaryOp fun a b => if b.sign = 0 then 0 else toU256 (a / b)

def State.opSDiv : State → State :=
  State.binaryOp fun a b =>
    let a := to256 a
    let b := to256 b
    if b.sign = 0 then 0
    else
      let neg := a.sign ≠ b.sign
      let q := |a| / |b|
      toU256 (if neg then -q else q)

def State.opMod : State → State :=
  State.binaryOp fun a b => if b.sign = 0 then 0 else toU256 (a % b)

def State.opSMod : State → State :=
  State.binaryOp fun a b =>
    let a := to256 a
    let b := to256 b
    if b.sign = 0 then 0
    else
      let neg := a.sign < 0
      let r := |a| % |b|
      toU256 (if neg then -r else r)

def expWord : ℕ → ℕ → ℤ × ℤ → ℤ × ℤ
  | 0, _, zx => zx
  | i + 1, d, (z, x) =>
    let z := if d % 2 = 1 then toU256 (z * x) else z
    expWord i (d / 2) (z, toU256 (x * x))

def expLoop (x y : ℤ) : ℤ :=
  ((Nat.digits (2 ^ 64) y.natAbs).foldl (fun zx d => expWord 64 d zx) (1, x)).1

def State.expGas (c : State) (y : ℤ) : UInt64 :=
  let gas : UInt64 := if c.config.eip158 then 50 else 10
  UInt64.ofNat ((bitLen y + 7) / 8) * gas

/-- `opExp`: the gas of the exponent's bytes, then the loop. -/
def State.opExp (c : State) : State :=
  let (x, c) := c.pop
  match c.stack with
  | [] => c
  | y :: _ =>
    match c.consumeGas (c.expGas y) with
    | (false, c) => c
    | (true, c) => c.setTop fun y => expLoop x y

def State.opAddMod : State → State :=
  State.ternaryOp fun a b z => if z.sign = 0 then 0 else toU256 ((a + b) % z)

def State.opMulMod : State → State :=
  State.ternaryOp fun a b z => if z.sign = 0 then 0 else toU256 ((a * b) % z)

def State.opAnd : State → State := State.binaryOp Int.land

def State.opOr : State → State := State.binaryOp Int.lor

def State.opXor : State → State := State.binaryOp Int.xor

def opByteMask : ℤ := 255

/-- `opByte`, with the index read by `Int64` and the shift computed in `int64`. -/
def State.opByte : State → State :=
  State.binaryOp fun x y =>
    let indx := int64 x
    if indx > 31 then 0
    else
      let sh := ((31 - indx) * 8).bmod (2 ^ 64)
      Int.land (y.shiftRight (sh % 2 ^ 64).toNat) opByteMask

def State.opNot : State → State := State.unaryOp fun a => toU256 (Int.lnot a)

def State.opIsZero : State → State := State.unaryOp fun a => if a.sign = 0 then 1 else 0

def State.opEq : State → State := State.binaryOp fun a b => if a = b then 1 else 0

def State.opLt : State → State := State.binaryOp fun a b => if a < b then 1 else 0

def State.opGt : State → State := State.binaryOp fun a b => if a > b then 1 else 0

def State.opSlt : State → State :=
  State.binaryOp fun a b => if to256 a < to256 b then 1 else 0

def State.opSgt : State → State :=
  State.binaryOp fun a b => if to256 a > to256 b then 1 else 0

def wordSize : ℤ := 32

/-- `opSignExtension`: copy bit `8 ext + 7` upward through a mask of the bits below it. -/
def State.opSignExtension : State → State :=
  State.binaryOp fun ext x =>
    if ext > wordSize then x
    else
      let bit := (UInt64.ofNat (uint64 ext) * 8 + 7).toNat
      let mask := Int.shiftLeft 1 bit - 1
      toU256 (if x.testBit bit then Int.lor x (Int.lnot mask) else Int.land x mask)

def State.shiftOp (f : ℤ → ℤ → ℤ) (c : State) : State :=
  if !c.config.constantinople then c.exit errOpCodeNotFound else c.binaryOp f

def State.opShl : State → State :=
  State.shiftOp fun shift value =>
    if equalOrOverflowsUint256 shift then 0 else toU256 (value.shiftLeft (uint64 shift))

def State.opShr : State → State :=
  State.shiftOp fun shift value =>
    if equalOrOverflowsUint256 shift then 0 else toU256 (value.shiftRight (uint64 shift))

def State.opSar : State → State :=
  State.shiftOp fun shift value =>
    let value := to256 value
    if equalOrOverflowsUint256 shift then (if value.sign ≥ 0 then 0 else tt256m1)
    else toU256 (value.shiftRight (uint64 shift))

/-! ## The dispatch table -/

def ArithOp.inst : ArithOp → State → State
  | .add => State.opAdd
  | .mul => State.opMul
  | .sub => State.opSub
  | .div => State.opDiv
  | .sdiv => State.opSDiv
  | .mod => State.opMod
  | .smod => State.opSMod
  | .exp => State.opExp
  | .addMod => State.opAddMod
  | .mulMod => State.opMulMod
  | .and => State.opAnd
  | .or => State.opOr
  | .xor => State.opXor
  | .byte => State.opByte
  | .not => State.opNot
  | .isZero => State.opIsZero
  | .eq => State.opEq
  | .lt => State.opLt
  | .gt => State.opGt
  | .slt => State.opSlt
  | .sgt => State.opSgt
  | .signExtend => State.opSignExtension
  | .shl => State.opShl
  | .shr => State.opShr
  | .sar => State.opSar

def ArithOp.stack : ArithOp → ℕ
  | .addMod | .mulMod => 3
  | .not | .isZero | .signExtend => 1
  | _ => 2

def ArithOp.gas : ArithOp → UInt64
  | .mul | .div | .sdiv | .mod | .smod | .signExtend => 5
  | .exp => 10
  | .addMod | .mulMod => 8
  | _ => 3

def State.runArith (op : ArithOp) (c : State) : State :=
  if c.stack.length < ArithOp.stack op then c.exit errStackUnderflow
  else
    match c.consumeGas (ArithOp.gas op) with
    | (false, c) => c.exit errOutOfGas
    | (true, c) =>
      let c := ArithOp.inst op c
      if c.stack.length > stackSize then c.exit errStackOverflow else c

/-! ## Stacks and words -/

section Stack

variable {c : State} {a b n : ℤ} {rest : List ℤ}

theorem State.pop_of_stack (h : c.stack = a :: rest) : c.pop = (a, { c with stack := rest }) := by
  simp [State.pop, h]

theorem State.setTop_of_stack {f : ℤ → ℤ} (h : c.stack = b :: rest) :
    c.setTop f = { c with stack := f b :: rest } := by
  simp [State.setTop, h]

theorem State.unaryOp_of_stack {f : ℤ → ℤ} (h : c.stack = a :: rest) :
    c.unaryOp f = { c with stack := f a :: rest } :=
  State.setTop_of_stack h

theorem State.binaryOp_of_stack {f : ℤ → ℤ → ℤ} (h : c.stack = a :: b :: rest) :
    c.binaryOp f = { c with stack := f a b :: rest } := by
  simp [State.binaryOp, State.pop, State.setTop, h]

theorem State.binaryOp_of_single {f : ℤ → ℤ → ℤ} (h : c.stack = [a]) :
    c.binaryOp f = { c with stack := [] } := by
  simp [State.binaryOp, State.pop, State.setTop, h]

theorem State.ternaryOp_of_stack {f : ℤ → ℤ → ℤ → ℤ}
    (h : c.stack = a :: b :: n :: rest) :
    c.ternaryOp f = { c with stack := f a b n :: rest } := by
  simp [State.ternaryOp, State.pop, State.setTop, h]

end Stack

section Words

open EvmWords (Word)

def ofWord (w : Word) : ℤ := w.toNat

theorem ofWord_nonneg (w : Word) : 0 ≤ ofWord w := Int.natCast_nonneg _

theorem ofWord_lt (w : Word) : ofWord w < 2 ^ 256 := by
  unfold ofWord
  exact_mod_cast w.isLt

theorem State.shiftOp_of_constantinople {c : State} {f : ℤ → ℤ → ℤ}
    (h : c.config.constantinople) : c.shiftOp f = c.binaryOp f := by
  simp [State.shiftOp, h]

theorem State.shiftOp_of_not_constantinople {c : State} {f : ℤ → ℤ → ℤ}
    (h : ¬ c.config.constantinople) : c.shiftOp f = c.exit errOpCodeNotFound := by
  simp [State.shiftOp, h]

theorem toU256_eq_emod (x : ℤ) : toU256 x = x % 2 ^ 256 := by
  unfold toU256
  split_ifs with h
  · exact TwosComplement.land_two_pow_sub_one x 256
  · simp only [not_or, not_lt, bitLen] at h
    have hlt : x.natAbs < 2 ^ 256 := Nat.size_le.mp (by omega)
    omega

theorem to256_ofWord (x : Word) : to256 (ofWord x) = x.toInt := by
  rw [BitVec.toInt_eq_toNat_cond]
  unfold to256 bitLen ofWord
  rw [Int.natAbs_natCast]
  have hlt := x.isLt
  by_cases h : 2 ^ 255 ≤ x.toNat
  · rw [if_pos (Nat.lt_size.mpr h), if_neg (by omega)]
    rfl
  · rw [if_neg (fun h' => h (Nat.lt_size.mp h')), if_pos (by omega)]

theorem equalOrOverflowsUint256_ofWord (s : Word) :
    equalOrOverflowsUint256 (ofWord s) ↔ 256 ≤ s.toNat := by
  unfold equalOrOverflowsUint256 bitLen ofWord
  rw [Int.natAbs_natCast, decide_eq_true_iff, gt_iff_lt, Nat.lt_size]

theorem int64_ofWord {a : Word} (h : a.toNat % 2 ^ 64 < 2 ^ 63) :
    int64 (ofWord a) = (a.toNat % 2 ^ 64 : ℕ) := by
  unfold int64 ofWord
  rw [if_neg (by omega), Int.natAbs_natCast]
  exact Int.bmod_eq_of_le (by omega) (by omega)

theorem uint64_ofWord {s : Word} (h : s.toNat < 2 ^ 64) : uint64 (ofWord s) = s.toNat := by
  unfold uint64 ofWord
  rw [Int.natAbs_natCast, Nat.mod_eq_of_lt h]

end Words

end EvmState
