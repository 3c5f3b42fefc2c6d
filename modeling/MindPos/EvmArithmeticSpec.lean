import Mathlib
import MindPos.EvmArithmetic

/-! # The arithmetic handlers against the words' values

On a stack of words each handler leaves the value `ArithOp.eval` gives, so every entry stays a
word. The signed handlers agree through the signed reading of a word (`to256_ofWord`) and
truncated division, `opExp` through its square-and-multiply loop, and `opByte` only for indices
below `2^63`, which `Int64` keeps: at `2^64` it reads byte 0. -/
namespace EvmState

open EvmWords

theorem ofWord_inj {a b : Word} : ofWord a = ofWord b ↔ a = b := by
  simp [ofWord, BitVec.toNat_inj]

theorem sign_ofWord_eq_zero {a : Word} : (ofWord a).sign = 0 ↔ a = 0 := by
  rw [Int.sign_eq_zero_iff_zero, ← ofWord_inj]
  rfl

theorem ofWord_ofBool (p : Bool) : ofWord (ofBool p) = if p then 1 else 0 := by
  cases p <;> rfl

theorem toU256_of_lt {x : ℤ} (h₀ : 0 ≤ x) (h : x < 2 ^ 256) : toU256 x = x := by
  rw [toU256_eq_emod, Int.emod_eq_of_lt h₀ h]

theorem toU256_eq_ofWord {x : ℤ} {w : Word} (h : (w.toNat : ℤ) = x % 2 ^ 256) :
    toU256 x = ofWord w := by
  rw [toU256_eq_emod, ofWord, h]

theorem shiftRight_ofWord (x : Word) (k : ℕ) :
    (ofWord x).shiftRight k = ((x.toNat >>> k : ℕ) : ℤ) :=
  (Int.natCast_shiftRight _ _).symm

/-! ## The exponent loop -/

theorem expWord_eq (n d : ℕ) {z x : ℤ} (hz : z % 2 ^ 256 = z) (hx : x % 2 ^ 256 = x) :
    expWord n d (z, x) = (z * x ^ (d % 2 ^ n) % 2 ^ 256, x ^ 2 ^ n % 2 ^ 256) := by
  induction n generalizing d z x with
  | zero =>
    simp only [expWord, Nat.mod_one, pow_zero, mul_one, pow_one, hz, hx]
  | succ n ih =>
    have hz' : (if d % 2 = 1 then toU256 (z * x) else z) % 2 ^ 256 =
        if d % 2 = 1 then toU256 (z * x) else z := by
      split_ifs
      · rw [toU256_eq_emod, Int.emod_emod_of_dvd _ dvd_rfl]
      · exact hz
    rw [expWord, ih (d / 2) hz' (by rw [toU256_eq_emod, Int.emod_emod_of_dvd _ dvd_rfl])]
    simp only [toU256_eq_emod]
    have hbit : (if d % 2 = 1 then z * x % 2 ^ 256 else z) ≡ z * x ^ (d % 2) [ZMOD 2 ^ 256] := by
      split_ifs with hd
      · rw [hd, pow_one]
        exact Int.mod_modEq _ _
      · rw [show d % 2 = 0 by omega, pow_zero, mul_one]
    have hsq (k : ℕ) : (x * x % 2 ^ 256) ^ k ≡ x ^ (2 * k) [ZMOD 2 ^ 256] := by
      rw [pow_mul, sq]
      exact (Int.mod_modEq _ _).pow k
    have hsplit : d % 2 ^ (n + 1) = d % 2 + 2 * (d / 2 % 2 ^ n) := by
      rw [pow_succ', Nat.mod_mul]
    refine Prod.ext ?_ ?_
    · show _ ≡ _ [ZMOD 2 ^ 256]
      calc (if d % 2 = 1 then z * x % 2 ^ 256 else z) * (x * x % 2 ^ 256) ^ (d / 2 % 2 ^ n)
          ≡ z * x ^ (d % 2) * x ^ (2 * (d / 2 % 2 ^ n)) [ZMOD 2 ^ 256] := hbit.mul (hsq _)
        _ = z * x ^ (d % 2 ^ (n + 1)) := by rw [hsplit, pow_add, mul_assoc]
    · show _ ≡ _ [ZMOD 2 ^ 256]
      rw [show 2 ^ (n + 1) = 2 * 2 ^ n from pow_succ' 2 n]
      exact hsq _

theorem foldl_expWord (ds : List ℕ) (hds : ∀ d ∈ ds, d < 2 ^ 64) {z x : ℤ}
    (hz : z % 2 ^ 256 = z) (hx : x % 2 ^ 256 = x) :
    ds.foldl (fun zx d => expWord 64 d zx) (z, x) =
      (z * x ^ Nat.ofDigits (2 ^ 64) ds % 2 ^ 256, x ^ 2 ^ (64 * ds.length) % 2 ^ 256) := by
  induction ds generalizing z x with
  | nil =>
    generalize (2 : ℤ) ^ 256 = M at hz hx ⊢
    simp [hz, hx]
  | cons d ds ih =>
    have hd := hds d List.mem_cons_self
    rw [List.foldl_cons, expWord_eq 64 d hz hx, Nat.mod_eq_of_lt hd,
      ih (fun e he => hds e (List.mem_cons_of_mem d he)) (Int.emod_emod_of_dvd _ dvd_rfl)
        (Int.emod_emod_of_dvd _ dvd_rfl)]
    refine Prod.ext ?_ ?_
    · show _ ≡ _ [ZMOD 2 ^ 256]
      calc z * x ^ d % 2 ^ 256 * (x ^ 2 ^ 64 % 2 ^ 256) ^ Nat.ofDigits (2 ^ 64) ds
          ≡ z * x ^ d * (x ^ 2 ^ 64) ^ Nat.ofDigits (2 ^ 64) ds [ZMOD 2 ^ 256] :=
            (Int.mod_modEq _ _).mul ((Int.mod_modEq _ _).pow _)
        _ = z * x ^ Nat.ofDigits (2 ^ 64) (d :: ds) := by
            rw [Nat.ofDigits_cons, pow_add, pow_mul, mul_assoc]
    · show _ ≡ _ [ZMOD 2 ^ 256]
      calc (x ^ 2 ^ 64 % 2 ^ 256) ^ 2 ^ (64 * ds.length)
          ≡ (x ^ 2 ^ 64) ^ 2 ^ (64 * ds.length) [ZMOD 2 ^ 256] := (Int.mod_modEq _ _).pow _
        _ = x ^ 2 ^ (64 * (d :: ds).length) := by
            rw [← pow_mul, ← pow_add, List.length_cons, Nat.mul_succ, Nat.add_comm]

theorem expLoop_ofWord (a b : Word) : expLoop (ofWord a) (ofWord b) = ofWord (a ^ b.toNat) := by
  have ha : ofWord a % 2 ^ 256 = ofWord a := Int.emod_eq_of_lt (ofWord_nonneg a) (ofWord_lt a)
  unfold expLoop
  rw [show (ofWord b).natAbs = b.toNat from Int.natAbs_natCast _,
    foldl_expWord _ (fun d hd => Nat.digits_lt_base (by decide) hd) (by decide) ha,
    Nat.ofDigits_digits, one_mul, ofWord, ofWord, TwosComplement.toNat_pow]
  push_cast
  rfl

section Handlers

variable {c : State} {a b n : Word} {rest : List ℤ}

theorem State.unaryOp_words {f : ℤ → ℤ} {v : Word} (h : c.stack = ofWord a :: rest)
    (hv : f (ofWord a) = ofWord v) : c.unaryOp f = { c with stack := ofWord v :: rest } := by
  rw [State.unaryOp_of_stack h, hv]

theorem State.binaryOp_words {f : ℤ → ℤ → ℤ} {v : Word}
    (h : c.stack = ofWord a :: ofWord b :: rest)
    (hv : f (ofWord a) (ofWord b) = ofWord v) :
    c.binaryOp f = { c with stack := ofWord v :: rest } := by
  rw [State.binaryOp_of_stack h, hv]

theorem State.ternaryOp_words {f : ℤ → ℤ → ℤ → ℤ} {v : Word}
    (h : c.stack = ofWord a :: ofWord b :: ofWord n :: rest)
    (hv : f (ofWord a) (ofWord b) (ofWord n) = ofWord v) :
    c.ternaryOp f = { c with stack := ofWord v :: rest } := by
  rw [State.ternaryOp_of_stack h, hv]

theorem State.opAdd_words (h : c.stack = ofWord a :: ofWord b :: rest) :
    c.opAdd = { c with stack := ofWord (a + b) :: rest } := by
  rw [State.opAdd]
  refine State.binaryOp_words h ?_
  refine toU256_eq_ofWord ?_
  rw [BitVec.toNat_add]
  push_cast
  rfl

theorem State.opMul_words (h : c.stack = ofWord a :: ofWord b :: rest) :
    c.opMul = { c with stack := ofWord (a * b) :: rest } := by
  rw [State.opMul]
  refine State.binaryOp_words h ?_
  refine toU256_eq_ofWord ?_
  rw [BitVec.toNat_mul]
  push_cast
  rfl

theorem State.opSub_words (h : c.stack = ofWord a :: ofWord b :: rest) :
    c.opSub = { c with stack := ofWord (a - b) :: rest } := by
  rw [State.opSub]
  refine State.binaryOp_words h ?_
  refine toU256_eq_ofWord ?_
  rw [BitVec.toNat_sub]
  have ha := ofWord_lt a
  have hb := ofWord_lt b
  unfold ofWord at ha hb ⊢
  push_cast [Nat.le_of_lt b.isLt]
  omega

theorem State.opDiv_words (h : c.stack = ofWord a :: ofWord b :: rest) :
    c.opDiv = { c with stack := ofWord (a / b) :: rest } := by
  rw [State.opDiv]
  refine State.binaryOp_words h ?_
  split_ifs with hb
  · rw [sign_ofWord_eq_zero.mp hb]
    simp [ofWord]
  · have hq : ofWord a / ofWord b = ofWord (a / b) := by
      simp [ofWord, BitVec.toNat_udiv]
    rw [hq, toU256_of_lt (ofWord_nonneg _) (ofWord_lt _)]

theorem State.opMod_words (h : c.stack = ofWord a :: ofWord b :: rest) :
    c.opMod = { c with stack := ofWord (mod a b) :: rest } := by
  rw [State.opMod]
  refine State.binaryOp_words h ?_
  unfold mod
  by_cases hb : b = 0
  · rw [if_pos (sign_ofWord_eq_zero.mpr hb), if_pos hb]
    rfl
  · rw [if_neg (mt sign_ofWord_eq_zero.mp hb), if_neg hb]
    have hr : ofWord a % ofWord b = ofWord (a % b) := by
      simp [ofWord, BitVec.toNat_umod]
    rw [hr, toU256_of_lt (ofWord_nonneg _) (ofWord_lt _)]

theorem toU256_natCast_emod {m : ℕ} {n : Word} (hn : n ≠ 0) :
    toU256 ((m : ℤ) % ofWord n) = ofWord (BitVec.ofNat 256 (m % n.toNat)) := by
  have hlt : m % n.toNat < 2 ^ 256 :=
    (Nat.mod_lt _ (Nat.pos_of_ne_zero fun h0 => hn (BitVec.eq_of_toNat_eq h0))).trans n.isLt
  have hr : (m : ℤ) % ofWord n = (m % n.toNat : ℕ) := by
    unfold ofWord
    push_cast
    rfl
  rw [hr, toU256_of_lt (Int.natCast_nonneg _) (by exact_mod_cast hlt), ofWord, BitVec.toNat_ofNat,
    Nat.mod_eq_of_lt hlt]

theorem State.opAddMod_words (h : c.stack = ofWord a :: ofWord b :: ofWord n :: rest) :
    c.opAddMod = { c with stack := ofWord (addMod a b n) :: rest } := by
  rw [State.opAddMod]
  refine State.ternaryOp_words h ?_
  unfold addMod
  by_cases hn : n = 0
  · rw [if_pos (sign_ofWord_eq_zero.mpr hn), if_pos hn]
    rfl
  · rw [if_neg (mt sign_ofWord_eq_zero.mp hn), if_neg hn, ← toU256_natCast_emod hn]
    unfold ofWord
    push_cast
    rfl

theorem State.opMulMod_words (h : c.stack = ofWord a :: ofWord b :: ofWord n :: rest) :
    c.opMulMod = { c with stack := ofWord (mulMod a b n) :: rest } := by
  rw [State.opMulMod]
  refine State.ternaryOp_words h ?_
  unfold mulMod
  by_cases hn : n = 0
  · rw [if_pos (sign_ofWord_eq_zero.mpr hn), if_pos hn]
    rfl
  · rw [if_neg (mt sign_ofWord_eq_zero.mp hn), if_neg hn, ← toU256_natCast_emod hn]
    unfold ofWord
    push_cast
    rfl

theorem State.opAnd_words (h : c.stack = ofWord a :: ofWord b :: rest) :
    c.opAnd = { c with stack := ofWord (a &&& b) :: rest } := by
  rw [State.opAnd]
  exact State.binaryOp_words h rfl

theorem State.opOr_words (h : c.stack = ofWord a :: ofWord b :: rest) :
    c.opOr = { c with stack := ofWord (a ||| b) :: rest } := by
  rw [State.opOr]
  exact State.binaryOp_words h rfl

theorem State.opXor_words (h : c.stack = ofWord a :: ofWord b :: rest) :
    c.opXor = { c with stack := ofWord (a ^^^ b) :: rest } := by
  rw [State.opXor]
  exact State.binaryOp_words h rfl

theorem State.opNot_words (h : c.stack = ofWord a :: rest) :
    c.opNot = { c with stack := ofWord (~~~a) :: rest } := by
  rw [State.opNot]
  refine State.unaryOp_words h ?_
  refine toU256_eq_ofWord ?_
  show _ = Int.negSucc a.toNat % 2 ^ 256
  have ha := a.isLt
  rw [BitVec.toNat_not, Int.negSucc_eq]
  push_cast [Nat.one_le_two_pow]
  omega

theorem State.opIsZero_words (h : c.stack = ofWord a :: rest) :
    c.opIsZero = { c with stack := ofWord (ofBool (a == 0)) :: rest } := by
  rw [State.opIsZero]
  refine State.unaryOp_words h ?_
  rw [ofWord_ofBool]
  simp only [sign_ofWord_eq_zero, beq_iff_eq]

theorem State.opEq_words (h : c.stack = ofWord a :: ofWord b :: rest) :
    c.opEq = { c with stack := ofWord (ofBool (a == b)) :: rest } := by
  rw [State.opEq]
  refine State.binaryOp_words h ?_
  rw [ofWord_ofBool]
  simp only [ofWord_inj, beq_iff_eq]

theorem State.opLt_words (h : c.stack = ofWord a :: ofWord b :: rest) :
    c.opLt = { c with stack := ofWord (ofBool (a.ult b)) :: rest } := by
  rw [State.opLt]
  refine State.binaryOp_words h ?_
  rw [ofWord_ofBool]
  simp [ofWord, BitVec.ult_iff_toNat_lt]

theorem State.opGt_words (h : c.stack = ofWord a :: ofWord b :: rest) :
    c.opGt = { c with stack := ofWord (ofBool (b.ult a)) :: rest } := by
  rw [State.opGt]
  refine State.binaryOp_words h ?_
  rw [ofWord_ofBool]
  simp [ofWord, BitVec.ult_iff_toNat_lt]

theorem State.opSlt_words (h : c.stack = ofWord a :: ofWord b :: rest) :
    c.opSlt = { c with stack := ofWord (ofBool (a.slt b)) :: rest } := by
  rw [State.opSlt]
  refine State.binaryOp_words h ?_
  rw [ofWord_ofBool, to256_ofWord, to256_ofWord]
  simp [BitVec.slt_iff_toInt_lt]

theorem State.opSgt_words (h : c.stack = ofWord a :: ofWord b :: rest) :
    c.opSgt = { c with stack := ofWord (ofBool (b.slt a)) :: rest } := by
  rw [State.opSgt]
  refine State.binaryOp_words h ?_
  rw [ofWord_ofBool, to256_ofWord, to256_ofWord]
  simp [BitVec.slt_iff_toInt_lt]

theorem toInt_sign_eq_zero {a : Word} : a.toInt.sign = 0 ↔ a = 0 := by
  rw [Int.sign_eq_zero_iff_zero, ← BitVec.toInt_zero (w := 256), BitVec.toInt_inj]
  exact Iff.rfl

theorem State.opSDiv_words (h : c.stack = ofWord a :: ofWord b :: rest) :
    c.opSDiv = { c with stack := ofWord (a.sdiv b) :: rest } := by
  rw [State.opSDiv]
  refine State.binaryOp_words h ?_
  simp only [to256_ofWord]
  by_cases hb : b = 0
  · rw [if_pos (toInt_sign_eq_zero.mpr hb), hb, show (0 : Word) = 0#256 from rfl, BitVec.sdiv_zero]
    rfl
  · rw [if_neg (mt toInt_sign_eq_zero.mp hb), ← TwosComplement.tdiv_eq_abs_div]
    exact toU256_eq_ofWord (TwosComplement.natCast_toNat_eq_of_toInt_emod (BitVec.toInt_sdiv a b))

theorem State.opSMod_words (h : c.stack = ofWord a :: ofWord b :: rest) :
    c.opSMod = { c with stack := ofWord (smod a b) :: rest } := by
  rw [State.opSMod]
  refine State.binaryOp_words h ?_
  simp only [to256_ofWord]
  unfold smod
  by_cases hb : b = 0
  · rw [if_pos (toInt_sign_eq_zero.mpr hb), if_pos hb]
    rfl
  · have hneg : a.toInt.sign < 0 ↔ a.toInt < 0 := by
      rw [← not_le, Int.sign_nonneg_iff, not_le]
    rw [if_neg (mt toInt_sign_eq_zero.mp hb), if_neg hb]
    simp only [hneg]
    rw [← TwosComplement.tmod_eq_abs_emod]
    refine toU256_eq_ofWord ?_
    rw [TwosComplement.natCast_toNat_eq_toInt_emod, BitVec.toInt_srem]

theorem State.opByte_words_of_low (h : c.stack = ofWord a :: ofWord b :: rest)
    (ha : a.toNat % 2 ^ 64 < 2 ^ 63) :
    c.opByte =
      { c with stack := ofWord (byte (BitVec.ofNat 256 (a.toNat % 2 ^ 64)) b) :: rest } := by
  rw [State.opByte]
  refine State.binaryOp_words h ?_
  have hi : (BitVec.ofNat 256 (a.toNat % 2 ^ 64)).toNat = a.toNat % 2 ^ 64 := by
    rw [BitVec.toNat_ofNat]
    omega
  simp only [int64_ofWord ha]
  unfold byte
  rw [hi]
  by_cases h32 : a.toNat % 2 ^ 64 < 32
  · rw [if_neg (by omega), if_pos h32]
    have hsh : ((((31 - (a.toNat % 2 ^ 64 : ℕ)) * 8 : ℤ)).bmod (2 ^ 64) % 2 ^ 64).toNat =
        8 * (31 - a.toNat % 2 ^ 64) := by
      rw [Int.bmod_eq_of_le (by omega) (by omega)]
      omega
    rw [hsh, opByteMask, show (255 : ℤ) = 2 ^ 8 - 1 by norm_num, shiftRight_ofWord,
      TwosComplement.land_two_pow_sub_one, ofWord, BitVec.toNat_and, BitVec.toNat_ushiftRight,
      show (0xff : Word).toNat = 2 ^ 8 - 1 from rfl, Nat.and_two_pow_sub_one_eq_mod]
    push_cast
    rfl
  · rw [if_pos (by omega), if_neg h32]
    rfl

theorem State.opByte_words (h : c.stack = ofWord a :: ofWord b :: rest) (ha : a.toNat < 2 ^ 63) :
    c.opByte = { c with stack := ofWord (byte a b) :: rest } := by
  have hlow : BitVec.ofNat 256 (a.toNat % 2 ^ 64) = a := by
    apply BitVec.eq_of_toNat_eq
    rw [BitVec.toNat_ofNat]
    omega
  rw [State.opByte_words_of_low h (by omega), hlow]

theorem State.opExp_words (h : c.stack = ofWord a :: ofWord b :: rest)
    (hgas : c.expGas (ofWord b) ≤ c.gas) :
    c.opExp = { c with
      stack := ofWord (a ^ b.toNat) :: rest
      currentConsumedGas := c.currentConsumedGas + c.expGas (ofWord b)
      gas := c.gas - c.expGas (ofWord b) } := by
  rw [State.opExp, State.pop_of_stack h]
  dsimp only
  rw [show State.expGas { c with stack := ofWord b :: rest } (ofWord b) = c.expGas (ofWord b)
      from rfl,
    State.consumeGas_of_le (c := { c with stack := ofWord b :: rest }) hgas]
  dsimp only
  rw [State.setTop_of_stack rfl, expLoop_ofWord]

theorem byte_index_wraps_at_two_pow_64 :
    (State.opByte { sampleFrame with stack := [ofWord (2 ^ 64), ofWord (2 ^ 255)] }).stack =
        [ofWord 128] ∧
      ArithOp.eval .byte [2 ^ 64, 2 ^ 255] = 0 := by
  constructor
  · decide +kernel
  · decide +kernel

theorem State.opExp_of_lt (h : c.stack = ofWord a :: ofWord b :: rest)
    (hgas : c.gas < c.expGas (ofWord b)) :
    c.opExp = State.exit { c with
      stack := ofWord b :: rest
      currentConsumedGas := c.currentConsumedGas + c.expGas (ofWord b) } errOutOfGas := by
  rw [State.opExp, State.pop_of_stack h]
  dsimp only
  rw [show State.expGas { c with stack := ofWord b :: rest } (ofWord b) = c.expGas (ofWord b)
      from rfl,
    State.consumeGas_of_lt (c := { c with stack := ofWord b :: rest }) hgas]

theorem State.opShl_words (hc : c.config.constantinople)
    (h : c.stack = ofWord a :: ofWord b :: rest) :
    c.opShl = { c with stack := ofWord (b <<< a.toNat) :: rest } := by
  rw [State.opShl, State.shiftOp_of_constantinople hc]
  refine State.binaryOp_words h ?_
  by_cases hs : 256 ≤ a.toNat
  · rw [if_pos ((equalOrOverflowsUint256_ofWord a).mpr hs), ofWord, BitVec.toNat_shiftLeft,
      Nat.shiftLeft_eq, Nat.mod_eq_zero_of_dvd (Dvd.dvd.mul_left (Nat.pow_dvd_pow 2 hs) _)]
    rfl
  · rw [if_neg (mt (equalOrOverflowsUint256_ofWord a).mp hs), uint64_ofWord (by omega)]
    refine toU256_eq_ofWord ?_
    have hshl : (ofWord b).shiftLeft a.toNat = ofWord b * 2 ^ a.toNat := Int.shiftLeft_eq _ _
    rw [hshl, BitVec.toNat_shiftLeft, Nat.shiftLeft_eq, ofWord]
    push_cast
    rfl

theorem State.opShr_words (hc : c.config.constantinople)
    (h : c.stack = ofWord a :: ofWord b :: rest) :
    c.opShr = { c with stack := ofWord (b >>> a.toNat) :: rest } := by
  rw [State.opShr, State.shiftOp_of_constantinople hc]
  refine State.binaryOp_words h ?_
  by_cases hs : 256 ≤ a.toNat
  · have hlt : b.toNat < 2 ^ a.toNat :=
      b.isLt.trans_le (Nat.pow_le_pow_right (by decide) hs)
    rw [if_pos ((equalOrOverflowsUint256_ofWord a).mpr hs), ofWord, BitVec.toNat_ushiftRight,
      Nat.shiftRight_eq_div_pow, Nat.div_eq_of_lt hlt]
    rfl
  · rw [if_neg (mt (equalOrOverflowsUint256_ofWord a).mp hs), uint64_ofWord (by omega),
      shiftRight_ofWord, toU256_of_lt (Int.natCast_nonneg _), ofWord, BitVec.toNat_ushiftRight]
    exact_mod_cast (Nat.shiftRight_le _ _).trans_lt b.isLt

theorem State.opSar_words (hc : c.config.constantinople)
    (h : c.stack = ofWord a :: ofWord b :: rest) :
    c.opSar = { c with stack := ofWord (b.sshiftRight a.toNat) :: rest } := by
  rw [State.opSar, State.shiftOp_of_constantinople hc]
  refine State.binaryOp_words h ?_
  simp only [to256_ofWord]
  have hspec : ofWord (b.sshiftRight a.toNat) = (b.toInt >>> a.toNat) % 2 ^ 256 := by
    rw [ofWord, TwosComplement.natCast_toNat_eq_toInt_emod, BitVec.toInt_sshiftRight]
  rw [hspec]
  by_cases hs : 256 ≤ a.toNat
  · rw [if_pos ((equalOrOverflowsUint256_ofWord a).mpr hs), Int.shiftRight_eq_div_pow]
    have hlo := BitVec.le_toInt b
    have hhi := BitVec.toInt_lt (x := b)
    have hpow : (2 : ℤ) ^ 256 ≤ ((2 ^ a.toNat : ℕ) : ℤ) := by
      exact_mod_cast Nat.pow_le_pow_right (by decide) hs
    norm_num at hlo hhi
    split_ifs with hsign
    · rw [ge_iff_le, Int.sign_nonneg_iff] at hsign
      rw [Int.ediv_eq_zero_of_lt hsign (by omega)]
      rfl
    · rw [ge_iff_le, Int.sign_nonneg_iff, not_le] at hsign
      have hq : b.toInt / ((2 ^ a.toNat : ℕ) : ℤ) = -1 :=
        ((Int.ediv_emod_unique (r := b.toInt + ((2 ^ a.toNat : ℕ) : ℤ)) (by omega)).mpr
          ⟨by omega, by omega, by omega⟩).1
      rw [hq]
      norm_num [tt256m1, tt256]
  · rw [if_neg (mt (equalOrOverflowsUint256_ofWord a).mp hs), uint64_ofWord (by omega),
      toU256_eq_emod]
    rfl

theorem signExtension_value (x : Word) (t : ℕ) :
    toU256 (if (ofWord x).testBit t then Int.lor (ofWord x) (Int.lnot (2 ^ t - 1))
      else Int.land (ofWord x) (2 ^ t - 1)) =
    (((x.toNat % 2 ^ t : ℕ) : ℤ) - ((if x.toNat.testBit t then 2 ^ t else 0 : ℕ) : ℤ)) % 2 ^ 256 := by
  rw [toU256_eq_emod, show (ofWord x).testBit t = x.toNat.testBit t from rfl]
  split_ifs
  · rw [ofWord, TwosComplement.lor_lnot_two_pow_sub_one]
    push_cast
    rfl
  · rw [ofWord, TwosComplement.land_two_pow_sub_one]
    push_cast
    rw [sub_zero]

theorem toNat_signExtend_setWidth (x : Word) {t : ℕ} (ht : t + 1 ≤ 256) :
    ((x.setWidth (t + 1)).signExtend 256).toNat =
      x.toNat % 2 ^ (t + 1) + if x.toNat.testBit t then 2 ^ 256 - 2 ^ (t + 1) else 0 := by
  have hlt : x.toNat % 2 ^ (t + 1) < 2 ^ 256 :=
    (Nat.mod_lt _ (Nat.two_pow_pos _)).trans_le (Nat.pow_le_pow_right (by decide) ht)
  rw [BitVec.toNat_signExtend, BitVec.toNat_setWidth, BitVec.toNat_setWidth,
    Nat.mod_eq_of_lt hlt, BitVec.msb_setWidth]
  simp [BitVec.getLsbD]

theorem signExtension_residue {x t : ℕ} (ht : t + 1 ≤ 256) :
    (((x % 2 ^ t : ℕ) : ℤ) - ((if x.testBit t then 2 ^ t else 0 : ℕ) : ℤ)) % 2 ^ 256 =
      ((x % 2 ^ (t + 1) + if x.testBit t then 2 ^ 256 - 2 ^ (t + 1) else 0 : ℕ) : ℤ) := by
  have hP : 2 ^ t * 2 ≤ 2 ^ 256 := by
    rw [← pow_succ]
    exact Nat.pow_le_pow_right (by decide) ht
  have hm := Nat.mod_lt x (Nat.two_pow_pos t)
  rw [TwosComplement.mod_two_pow_succ x t, pow_succ 2 t]
  generalize x % 2 ^ t = m at hm ⊢
  generalize 2 ^ t = P at hm hP ⊢
  split_ifs
  · rw [Nat.cast_add, Nat.cast_add, Nat.cast_sub hP]
    push_cast
    omega
  · simp only [Nat.add_zero, Nat.cast_zero, sub_zero]
    omega

theorem signExtension_residue_of_le {x t : ℕ} (hx : x < 2 ^ 256) (ht : 255 ≤ t) :
    (((x % 2 ^ t : ℕ) : ℤ) - ((if x.testBit t then 2 ^ t else 0 : ℕ) : ℤ)) % 2 ^ 256 = x := by
  have hsplit := TwosComplement.mod_two_pow_succ x t
  rw [Nat.mod_eq_of_lt (hx.trans_le (Nat.pow_le_pow_right (by decide) (by omega)))] at hsplit
  obtain ⟨k, hk⟩ : 2 ^ 256 ∣ 2 ^ t * 2 := by
    rw [← pow_succ]
    exact Nat.pow_dvd_pow 2 (by omega)
  generalize x % 2 ^ t = m at hsplit ⊢
  generalize 2 ^ t = P at hsplit hk ⊢
  split_ifs at hsplit ⊢ <;> push_cast <;> omega

theorem State.opSignExtension_words (h : c.stack = ofWord a :: ofWord b :: rest) :
    c.opSignExtension = { c with stack := ofWord (signExtend a b) :: rest } := by
  rw [State.opSignExtension]
  refine State.binaryOp_words h ?_
  unfold signExtend
  by_cases hbig : ofWord a > wordSize
  · have : ¬ a.toNat < 31 := by unfold ofWord wordSize at hbig; omega
    rw [if_pos hbig, if_neg this]
  rw [if_neg hbig]
  have ha : a.toNat ≤ 32 := by unfold ofWord wordSize at hbig; omega
  have hbit : (UInt64.ofNat (uint64 (ofWord a)) * 8 + 7).toNat = 8 * a.toNat + 7 := by
    rw [uint64_ofWord (by omega), UInt64.toNat_add, UInt64.toNat_mul, UInt64.toNat_ofNat']
    simp only [UInt64.reduceToNat]
    omega
  have hmask : Int.shiftLeft 1 (8 * a.toNat + 7) - 1 = 2 ^ (8 * a.toNat + 7) - 1 := by
    rw [show Int.shiftLeft 1 (8 * a.toNat + 7) = 1 * 2 ^ (8 * a.toNat + 7) from
        Int.shiftLeft_eq _ _,
      one_mul]
  simp only [hbit, hmask]
  rw [signExtension_value]
  by_cases hlow : a.toNat < 31
  · rw [if_pos hlow, show 8 * (a.toNat + 1) = 8 * a.toNat + 7 + 1 by omega, ofWord,
      toNat_signExtend_setWidth b (by omega), signExtension_residue (by omega)]
  · rw [if_neg hlow]
    exact signExtension_residue_of_le b.isLt (by omega)

end Handlers

end EvmState
