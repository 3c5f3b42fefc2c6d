import MindPos.TwosComplement

/-! # Words and the values of the arithmetic instructions

A word is a `BitVec 256`. The value each arithmetic, comparison, bitwise and shift instruction
leaves on the stack, as the Yellow Paper gives it: division and remainders by zero give zero,
`SMOD` takes the sign of the dividend, `BYTE` counts bytes from the most significant and gives
zero from the 32nd on, `SIGNEXTEND` copies bit `8b + 7` upward for `b < 31`, and shifts by 256
or more give zero or the sign. -/
namespace EvmWords

abbrev Word := BitVec 256

def ofBool (p : Bool) : Word := if p then 1 else 0

def mod (a b : Word) : Word := if b = 0 then 0 else a % b

def smod (a b : Word) : Word := if b = 0 then 0 else a.srem b

def addMod (a b n : Word) : Word :=
  if n = 0 then 0 else BitVec.ofNat 256 ((a.toNat + b.toNat) % n.toNat)

def mulMod (a b n : Word) : Word :=
  if n = 0 then 0 else BitVec.ofNat 256 ((a.toNat * b.toNat) % n.toNat)

def byte (i x : Word) : Word :=
  if i.toNat < 32 then (x >>> (8 * (31 - i.toNat))) &&& 0xff else 0

def signExtend (b x : Word) : Word :=
  if b.toNat < 31 then (x.setWidth (8 * (b.toNat + 1))).signExtend 256 else x

inductive ArithOp where
  | add | mul | sub | div | sdiv | mod | smod | exp | addMod | mulMod
  | and | or | xor | byte | not | isZero | eq | lt | gt | slt | sgt
  | signExtend | shl | shr | sar
  deriving DecidableEq, Repr

def ArithOp.arity : ArithOp → ℕ
  | .addMod | .mulMod => 3
  | .not | .isZero => 1
  | _ => 2

def ArithOp.eval (op : ArithOp) (args : List Word) : Word :=
  let a := args.getD 0 0
  let b := args.getD 1 0
  let n := args.getD 2 0
  match op with
  | .add => a + b
  | .mul => a * b
  | .sub => a - b
  | .div => a / b
  | .sdiv => a.sdiv b
  | .mod => EvmWords.mod a b
  | .smod => EvmWords.smod a b
  | .exp => a ^ b.toNat
  | .addMod => EvmWords.addMod a b n
  | .mulMod => EvmWords.mulMod a b n
  | .and => a &&& b
  | .or => a ||| b
  | .xor => a ^^^ b
  | .byte => EvmWords.byte a b
  | .not => ~~~a
  | .isZero => ofBool (a == 0)
  | .eq => ofBool (a == b)
  | .lt => ofBool (a.ult b)
  | .gt => ofBool (b.ult a)
  | .slt => ofBool (a.slt b)
  | .sgt => ofBool (b.slt a)
  | .signExtend => EvmWords.signExtend a b
  | .shl => b <<< a.toNat
  | .shr => b >>> a.toNat
  | .sar => b.sshiftRight a.toNat

end EvmWords
