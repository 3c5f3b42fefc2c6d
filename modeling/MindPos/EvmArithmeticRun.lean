import MindPos.EvmArithmeticSpec

/-! # A turn of `Run` on an arithmetic instruction

The dispatch table against `ArithOp.eval`: every handler the table registers, `opExp` apart,
leaves the instruction's value on a stack of words, `opByte` for indices below `2^63`, and a
turn of `Run` charges the table's gas around it. Whatever the operands, the stack stays a
stack of words, turn after turn. -/
namespace EvmState

open EvmWords

variable {c : State} {rest : List ℤ}

theorem ArithOp.stack_le_arity (op : ArithOp) : ArithOp.stack op ≤ op.arity := by
  cases op <;> decide

theorem ArithOp.arity_pos (op : ArithOp) : 0 < op.arity := by
  cases op <;> decide

theorem ArithOp.inst_words {op : ArithOp} {args : List Word} (hlen : args.length = op.arity)
    (h : c.stack = args.map ofWord ++ rest) (hexp : op ≠ .exp)
    (hshift : op = .shl ∨ op = .shr ∨ op = .sar → c.config.constantinople)
    (hbyte : op = .byte → (args.getD 0 0).toNat < 2 ^ 63) :
    ArithOp.inst op c = { c with stack := ofWord (op.eval args) :: rest } := by
  match op, args, hlen with
  | .add, [a, b], _ => exact State.opAdd_words h
  | .mul, [a, b], _ => exact State.opMul_words h
  | .sub, [a, b], _ => exact State.opSub_words h
  | .div, [a, b], _ => exact State.opDiv_words h
  | .sdiv, [a, b], _ => exact State.opSDiv_words h
  | .mod, [a, b], _ => exact State.opMod_words h
  | .smod, [a, b], _ => exact State.opSMod_words h
  | .exp, _, _ => exact absurd rfl hexp
  | .addMod, [a, b, n], _ => exact State.opAddMod_words h
  | .mulMod, [a, b, n], _ => exact State.opMulMod_words h
  | .and, [a, b], _ => exact State.opAnd_words h
  | .or, [a, b], _ => exact State.opOr_words h
  | .xor, [a, b], _ => exact State.opXor_words h
  | .byte, [a, b], _ => exact State.opByte_words h (hbyte rfl)
  | .not, [a], _ => exact State.opNot_words h
  | .isZero, [a], _ => exact State.opIsZero_words h
  | .eq, [a, b], _ => exact State.opEq_words h
  | .lt, [a, b], _ => exact State.opLt_words h
  | .gt, [a, b], _ => exact State.opGt_words h
  | .slt, [a, b], _ => exact State.opSlt_words h
  | .sgt, [a, b], _ => exact State.opSgt_words h
  | .signExtend, [a, b], _ => exact State.opSignExtension_words h
  | .shl, [a, b], _ => exact State.opShl_words (hshift (.inl rfl)) h
  | .shr, [a, b], _ => exact State.opShr_words (hshift (.inr (.inl rfl))) h
  | .sar, [a, b], _ => exact State.opSar_words (hshift (.inr (.inr rfl))) h

theorem State.runArith_words {op : ArithOp} {args : List Word} (hlen : args.length = op.arity)
    (h : c.stack = args.map ofWord ++ rest) (hlim : c.stack.length ≤ stackSize)
    (hgas : ArithOp.gas op ≤ c.gas) (hexp : op ≠ .exp)
    (hshift : op = .shl ∨ op = .shr ∨ op = .sar → c.config.constantinople)
    (hbyte : op = .byte → (args.getD 0 0).toNat < 2 ^ 63) :
    c.runArith op = { c with
      stack := ofWord (op.eval args) :: rest
      currentConsumedGas := c.currentConsumedGas + ArithOp.gas op
      gas := c.gas - ArithOp.gas op } := by
  have hdepth : c.stack.length = op.arity + rest.length := by
    rw [h, List.length_append, List.length_map, hlen]
  have hcheck : ¬ c.stack.length < ArithOp.stack op := by
    have := ArithOp.stack_le_arity op
    omega
  rw [State.runArith, if_neg hcheck, State.consumeGas_of_le hgas]
  dsimp only
  rw [ArithOp.inst_words (c := { c with
    currentConsumedGas := c.currentConsumedGas + ArithOp.gas op
    gas := c.gas - ArithOp.gas op }) hlen h hexp hshift hbyte]
  have hover : ¬ rest.length + 1 > stackSize := by
    have := ArithOp.arity_pos op
    omega
  simp only [List.length_cons, if_neg hover]

theorem State.runArith_signExtend_single {a : ℤ} (h : c.stack = [a])
    (hgas : ArithOp.gas .signExtend ≤ c.gas) :
    c.runArith .signExtend = { c with
      stack := []
      currentConsumedGas := c.currentConsumedGas + ArithOp.gas .signExtend
      gas := c.gas - ArithOp.gas .signExtend } := by
  have hcheck : ¬ c.stack.length < ArithOp.stack .signExtend := by
    simp [h, ArithOp.stack]
  rw [State.runArith, if_neg hcheck, State.consumeGas_of_le hgas]
  dsimp only
  rw [ArithOp.inst, State.opSignExtension, State.binaryOp_of_single (c := { c with
    currentConsumedGas := c.currentConsumedGas + ArithOp.gas .signExtend
    gas := c.gas - ArithOp.gas .signExtend }) h]
  rfl

/-! ## The stack of words -/

/-- Every slot of the stack holds a word. -/
def State.WordStack (c : State) : Prop := ∃ ws : List Word, c.stack = ws.map ofWord

theorem exists_ofWord {x : ℤ} (h₀ : 0 ≤ x) (h : x < 2 ^ 256) :
    ∃ w : Word, ofWord w = x := by
  refine ⟨BitVec.ofNat 256 x.toNat, ?_⟩
  rw [ofWord, BitVec.toNat_ofNat, Nat.mod_eq_of_lt (by omega)]
  omega

theorem State.WordStack.of_stack {c' : State} (hc : c.WordStack) (h : c'.stack = c.stack) :
    c'.WordStack := by
  obtain ⟨ws, hws⟩ := hc
  exact ⟨ws, h.trans hws⟩

section Operands

variable {a b : Word} {ws : List Word}

theorem State.binaryOp_wordStack {f : ℤ → ℤ → ℤ}
    (h : c.stack = ofWord a :: ofWord b :: ws.map ofWord)
    (hv : ∃ v : Word, ofWord v = f (ofWord a) (ofWord b)) : (c.binaryOp f).WordStack := by
  obtain ⟨v, hv⟩ := hv
  exact ⟨v :: ws, by rw [State.binaryOp_of_stack h, ← hv]; rfl⟩

theorem State.opByte_wordStack (h : c.stack = ofWord a :: ofWord b :: ws.map ofWord) :
    c.opByte.WordStack := by
  refine State.binaryOp_wordStack h ?_
  dsimp only
  split_ifs
  · exact ⟨0, by simp [ofWord]⟩
  · rw [opByteMask, show (255 : ℤ) = 2 ^ 8 - 1 by norm_num, TwosComplement.land_two_pow_sub_one]
    refine exists_ofWord (Int.emod_nonneg _ (by norm_num)) ?_
    calc _ < (2 : ℤ) ^ 8 := Int.emod_lt_of_pos _ (by norm_num)
      _ < 2 ^ 256 := by norm_num

theorem State.opExp_wordStack (h : c.stack = ofWord a :: ofWord b :: ws.map ofWord) :
    c.opExp.WordStack := by
  by_cases hgas : c.expGas (ofWord b) ≤ c.gas
  · exact ⟨a ^ b.toNat :: ws, by rw [State.opExp_words h hgas]; rfl⟩
  · exact ⟨b :: ws, by rw [State.opExp_of_lt h (UInt64.not_le.mp hgas)]; rfl⟩

end Operands

theorem ArithOp.inst_wordStack (op : ArithOp) (hc : c.WordStack)
    (hdepth : ArithOp.stack op ≤ c.stack.length) : (ArithOp.inst op c).WordStack := by
  obtain ⟨ws, hws⟩ := hc
  have hlen : c.stack.length = ws.length := by rw [hws, List.length_map]
  by_cases hfull : op.arity ≤ ws.length
  swap
  · have hop : op = .signExtend := by
      cases op <;> simp_all [ArithOp.stack, ArithOp.arity]
    subst hop
    obtain ⟨x, rfl⟩ : ∃ x, ws = [x] :=
      List.length_eq_one_iff.mp (by simp_all [ArithOp.stack, ArithOp.arity]; omega)
    exact ⟨[], by rw [ArithOp.inst, State.opSignExtension, State.binaryOp_of_single hws]; rfl⟩
  obtain ⟨args, rest, hargs, rfl⟩ : ∃ args rest, args.length = op.arity ∧ ws = args ++ rest :=
    ⟨ws.take op.arity, ws.drop op.arity, List.length_take_of_le hfull,
      (List.take_append_drop _ _).symm⟩
  rw [List.map_append] at hws
  by_cases hexp : op = .exp
  · subst hexp
    obtain ⟨a, b, rfl⟩ := List.length_eq_two.mp hargs
    exact State.opExp_wordStack hws
  by_cases hshift : (op = .shl ∨ op = .shr ∨ op = .sar) ∧ ¬ c.config.constantinople
  · obtain ⟨hop, hcfg⟩ := hshift
    refine State.WordStack.of_stack ⟨args ++ rest, by rw [hws, List.map_append]⟩ ?_
    rcases hop with rfl | rfl | rfl <;>
      simp only [ArithOp.inst, State.opShl, State.opShr, State.opSar,
        State.shiftOp_of_not_constantinople hcfg, State.stack_exit]
  by_cases hbyte : op = .byte ∧ ¬ (args.getD 0 0).toNat < 2 ^ 63
  · obtain ⟨rfl, -⟩ := hbyte
    obtain ⟨a, b, rfl⟩ := List.length_eq_two.mp hargs
    exact State.opByte_wordStack hws
  refine ⟨op.eval args :: rest, ?_⟩
  rw [ArithOp.inst_words hargs hws hexp (fun hop => of_not_not fun hcfg => hshift ⟨hop, hcfg⟩)
    (fun hop => of_not_not fun hb => hbyte ⟨hop, hb⟩)]
  rfl

theorem State.runArith_wordStack (op : ArithOp) (hc : c.WordStack) : (c.runArith op).WordStack := by
  unfold State.runArith
  split_ifs with hdepth
  · exact hc.of_stack rfl
  rcases hg : c.consumeGas (ArithOp.gas op) with ⟨ok, c'⟩
  have hstack : c'.stack = c.stack := by rw [← State.stack_consumeGas c (ArithOp.gas op), hg]
  cases ok
  · exact hc.of_stack hstack
  have hinst := ArithOp.inst_wordStack op (hc.of_stack hstack) (by rw [hstack]; omega)
  dsimp only
  split_ifs
  · exact hinst.of_stack rfl
  · exact hinst

theorem State.foldl_runArith_wordStack (ops : List ArithOp) (hc : c.WordStack) :
    (ops.foldl (fun c op => c.runArith op) c).WordStack := by
  induction ops generalizing c with
  | nil => exact hc
  | cons op ops ih => exact ih (State.runArith_wordStack op hc)

end EvmState
