import Mathlib

/-! # Two's complement integers

The bitwise operations on `ℤ` act on infinite two's complement expansions, and a word of `w`
bits is an integer modulo `2^w`, read signed from `[-2^(w-1), 2^(w-1))`. What word operations
built on unbounded integers come down to: masks with `2^k - 1`, truncated division written
through absolute values, and the signed reading of a word. -/
namespace TwosComplement

theorem ldiff_two_pow_sub_one (k n : ℕ) : Nat.ldiff (2 ^ k - 1) n = 2 ^ k - (n % 2 ^ k + 1) := by
  apply Nat.eq_of_testBit_eq
  intro i
  rw [Nat.testBit_ldiff, Nat.testBit_two_pow_sub_one,
    Nat.testBit_two_pow_sub_succ (Nat.mod_lt _ (Nat.two_pow_pos k)), Nat.testBit_mod_two_pow]
  by_cases hi : i < k <;> simp [hi]

theorem mod_two_pow_succ (x t : ℕ) :
    x % 2 ^ (t + 1) = x % 2 ^ t + if x.testBit t then 2 ^ t else 0 := by
  rw [Nat.mod_pow_succ, Nat.testBit_eq_decide_div_mod_eq]
  rcases Nat.mod_two_eq_zero_or_one (x / 2 ^ t) with h | h <;> simp [h]

theorem natCast_two_pow_sub_one (k : ℕ) : ((2 ^ k - 1 : ℕ) : ℤ) = 2 ^ k - 1 := by
  have := Nat.one_le_two_pow (n := k)
  push_cast [this]
  rfl

theorem land_two_pow_sub_one (x : ℤ) (k : ℕ) : Int.land x (2 ^ k - 1) = x % 2 ^ k := by
  rw [← natCast_two_pow_sub_one]
  have hpos : (0 : ℤ) < 2 ^ k := by exact_mod_cast Nat.two_pow_pos k
  cases x with
  | ofNat n =>
    show ((n &&& (2 ^ k - 1) : ℕ) : ℤ) = _
    rw [Nat.and_two_pow_sub_one_eq_mod]
    push_cast
    rfl
  | negSucc n =>
    show ((Nat.ldiff (2 ^ k - 1) n : ℕ) : ℤ) = _
    have hlt := Nat.mod_lt n (Nat.two_pow_pos k)
    rw [ldiff_two_pow_sub_one, Int.negSucc_emod n hpos]
    push_cast [Nat.succ_le_of_lt hlt]
    omega

theorem lor_lnot_two_pow_sub_one (n k : ℕ) :
    Int.lor n (Int.lnot (2 ^ k - 1)) = (n % 2 ^ k : ℕ) - 2 ^ k := by
  rw [← natCast_two_pow_sub_one]
  show Int.negSucc (Nat.ldiff (2 ^ k - 1) n) = _
  have hlt := Nat.mod_lt n (Nat.two_pow_pos k)
  rw [ldiff_two_pow_sub_one, Int.negSucc_eq]
  push_cast [Nat.succ_le_of_lt hlt]
  omega

theorem tdiv_eq_abs_div (a b : ℤ) :
    a.tdiv b = if a.sign ≠ b.sign then -(|a| / |b|) else |a| / |b| := by
  rcases lt_trichotomy b 0 with hb | rfl | hb
  · rcases lt_or_ge a 0 with ha | ha
    · rw [if_neg (by rw [Int.sign_eq_neg_one_of_neg ha, Int.sign_eq_neg_one_of_neg hb]; simp),
        abs_of_neg ha, abs_of_neg hb, ← Int.tdiv_eq_ediv_of_nonneg (by omega), Int.neg_tdiv,
        Int.tdiv_neg, neg_neg]
    · have hsign : a.sign ≠ b.sign := by
        rw [Int.sign_eq_neg_one_of_neg hb]
        rcases ha.lt_or_eq with ha | rfl
        · rw [Int.sign_eq_one_of_pos ha]; decide
        · decide
      rw [if_pos hsign, abs_of_nonneg ha, abs_of_neg hb, ← Int.tdiv_eq_ediv_of_nonneg ha,
        Int.tdiv_neg, neg_neg]
  · simp
  · rcases lt_or_ge a 0 with ha | ha
    · rw [if_pos (by rw [Int.sign_eq_neg_one_of_neg ha, Int.sign_eq_one_of_pos hb]; decide),
        abs_of_neg ha, abs_of_pos hb, ← Int.tdiv_eq_ediv_of_nonneg (by omega), Int.neg_tdiv,
        neg_neg]
    · rw [abs_of_nonneg ha, abs_of_pos hb, ← Int.tdiv_eq_ediv_of_nonneg ha]
      split_ifs
      · rcases ha.lt_or_eq with ha | rfl
        · simp_all [Int.sign_eq_one_of_pos]
        · simp
      · rfl

theorem tmod_eq_abs_emod (a b : ℤ) : a.tmod b = if a < 0 then -(|a| % |b|) else |a| % |b| := by
  have hb : a.tmod b = a.tmod |b| := by
    rcases abs_choice b with h | h
    · rw [h]
    · rw [h, Int.tmod_neg]
  rw [hb]
  split_ifs with ha
  · rw [abs_of_neg ha, ← Int.tmod_eq_emod_of_nonneg (by omega), Int.neg_tmod, neg_neg]
  · rw [abs_of_nonneg (not_lt.mp ha), Int.tmod_eq_emod_of_nonneg (not_lt.mp ha)]

/-! ## Words -/

theorem natCast_toNat_eq_toInt_emod {w : ℕ} (x : BitVec w) :
    (x.toNat : ℤ) = x.toInt % 2 ^ w := by
  rw [BitVec.toInt_eq_toNat_cond]
  have hlt : (x.toNat : ℤ) < 2 ^ w := by exact_mod_cast x.isLt
  split_ifs
  · rw [Int.emod_eq_of_lt (by omega) hlt]
  · push_cast
    rw [Int.sub_emod_right, Int.emod_eq_of_lt (by omega) hlt]

theorem natCast_toNat_eq_of_toInt_emod {w : ℕ} {x : BitVec w} {v : ℤ}
    (h : x.toInt = v.bmod (2 ^ w)) :
    (x.toNat : ℤ) = v % 2 ^ w := by
  rw [natCast_toNat_eq_toInt_emod, h]
  exact_mod_cast Int.bmod_emod

theorem toNat_pow {w : ℕ} (x : BitVec w) (n : ℕ) : (x ^ n).toNat = x.toNat ^ n % 2 ^ w := by
  induction n with
  | zero => simp
  | succ n ih => rw [BitVec.pow_succ, BitVec.toNat_mul, ih, Nat.mod_mul_mod, pow_succ]

end TwosComplement
