import Mathlib
import MindPos.EvmArithmetic

/-! # Jump destinations

`state/runtime/evm/bitmap.go`, `validJumpdest` of `state.go`, and `opJump` and `opJumpi`. Before
a frame runs, `setCode` marks in a bitmap every `JUMPDEST` the left-to-right decoding of the code
reaches, stepping over the immediates of each `PUSHn`. The bitmap belongs to a pooled state:
`reset` cuts it to no bytes, and `ExtendByteSlice` appends zeros up to the size of the code. A
destination is read through `Uint64` and `BitLen` of the popped value. -/
namespace EvmState

def errInvalidJump : String := "invalid jump destination"

def bitmapSize : ℕ := 8

/-- `JUMPDEST`. -/
def jumpdest : UInt8 := 0x5b

structure Bitmap where
  buf : List UInt8

/-- `isSet`; `none` is the panic of an index past the buffer. -/
def Bitmap.isSet (b : Bitmap) (i : ℕ) : Option Bool :=
  b.buf[i / bitmapSize]?.map fun byte => byte &&& 1 <<< UInt8.ofNat (i % bitmapSize) != 0

/-- `set`. `setCode` sets bits below the size of the code only, inside the buffer, so the panic
of an index past it is never reached. -/
def Bitmap.set (b : Bitmap) (i : ℕ) : Bitmap :=
  ⟨b.buf.modify (i / bitmapSize) (· ||| 1 <<< UInt8.ofNat (i % bitmapSize))⟩

/-- `reset`: the bytes are zeroed and the slice is cut to none. -/
def Bitmap.reset (b : Bitmap) : Bitmap := ⟨(b.buf.map fun _ => 0).take 0⟩

def isPushOp (i : UInt8) : Bool := i >>> 5 == 3

def setCodeLoop (code : List UInt8) (i : ℕ) (b : Bitmap) : Bitmap :=
  if h : i < code.length then
    let c := code[i]
    if isPushOp c then setCodeLoop code (i + (c.toNat - 0x60 + 2)) b
    else if c = jumpdest then setCodeLoop code (i + 1) (b.set i)
    else setCodeLoop code (i + 1) b
  else b
termination_by code.length - i
decreasing_by all_goals omega

def Bitmap.setCode (b : Bitmap) (code : List UInt8) : Bitmap :=
  setCodeLoop code 0 ⟨extendByteSlice b.buf (code.length / bitmapSize + 1)⟩

def validJumpdest (code : List UInt8) (bitmap : Bitmap) (dest : ℤ) : Option Bool :=
  let udest := uint64 dest
  if bitLen dest ≥ 63 ∨ udest ≥ code.length then some false else bitmap.isSet udest

/-- `int(dest.Uint64() - 1)`: the subtraction wraps in `uint64` and the conversion reads the
word as signed. -/
def jumpTarget (dest : ℤ) : ℤ := (((uint64 dest + (2 ^ 64 - 1)) % 2 ^ 64 : ℕ) : ℤ).bmod (2 ^ 64)

/-- `opJump`, on the instruction pointer the frame carries beside its state. `Run` steps past the
instruction the pointer is left on. -/
def State.opJump (c : State) (code : List UInt8) (bitmap : Bitmap) (ip : ℤ) :
    Option (ℤ × State) :=
  let (dest, c) := c.pop
  (validJumpdest code bitmap dest).map fun valid =>
    if valid then (jumpTarget dest, c) else (ip, c.exit errInvalidJump)

def State.opJumpi (c : State) (code : List UInt8) (bitmap : Bitmap) (ip : ℤ) :
    Option (ℤ × State) :=
  let (dest, c) := c.pop
  let (cond, c) := c.pop
  if cond.sign ≠ 0 then
    (validJumpdest code bitmap dest).map fun valid =>
      if valid then (jumpTarget dest, c) else (ip, c.exit errInvalidJump)
  else some (ip, c)

/-! ## The decoding -/

def opLength (c : UInt8) : ℕ := if 0x60 ≤ c.toNat ∧ c.toNat ≤ 0x7f then 1 + (c.toNat - 0x5f) else 1

/-- The decoding started at `i` starts an instruction at `j`. It stops at the end of the code,
also inside the immediates of a `PUSH`. -/
inductive ReachedFrom (code : List UInt8) (i : ℕ) : ℕ → Prop
  | refl : ReachedFrom code i i
  | step {j : ℕ} (hj : ReachedFrom code i j) (hlt : j < code.length) :
      ReachedFrom code i (j + opLength code[j])

/-- An instruction boundary of the decoding from the first byte. -/
def IsBoundary (code : List UInt8) (j : ℕ) : Prop := ReachedFrom code 0 j

theorem opLength_pos (c : UInt8) : 0 < opLength c := by
  unfold opLength
  split_ifs <;> omega

theorem ReachedFrom.le {code : List UInt8} {i j : ℕ} (h : ReachedFrom code i j) : i ≤ j := by
  induction h with
  | refl => exact le_rfl
  | step _ _ ih => exact ih.trans (Nat.le_add_right _ _)

theorem ReachedFrom.head {code : List UInt8} {i j : ℕ} (hi : i < code.length)
    (h : ReachedFrom code (i + opLength code[i]) j) : ReachedFrom code i j := by
  induction h with
  | refl => exact .step .refl hi
  | step _ hlt ih => exact .step ih hlt

theorem reachedFrom_iff {code : List UInt8} {i j : ℕ} (hi : i < code.length) :
    ReachedFrom code i j ↔ j = i ∨ ReachedFrom code (i + opLength code[i]) j := by
  constructor
  · intro h
    induction h with
    | refl => exact .inl rfl
    | @step j _ hlt ih =>
      rcases ih with rfl | ih
      · exact .inr .refl
      · exact .inr (.step ih hlt)
  · rintro (rfl | h)
    · exact .refl
    · exact ReachedFrom.head hi h

theorem reachedFrom_of_le {code : List UInt8} {i j : ℕ} (hi : code.length ≤ i)
    (h : ReachedFrom code i j) : j = i := by
  cases h with
  | refl => rfl
  | step hj hlt => exact absurd (hj.le.trans_lt hlt) (not_lt.mpr hi)

/-! ## The bitmap -/

def Bitmap.bit (b : Bitmap) (i : ℕ) : Bool := (b.buf.getD (i / bitmapSize) 0).toNat.testBit (i % bitmapSize)

theorem toNat_one_shiftLeft {k : ℕ} (hk : k < 8) : ((1 : UInt8) <<< UInt8.ofNat k).toNat = 2 ^ k := by
  have hlt : 2 ^ k < 2 ^ 8 := Nat.pow_lt_pow_right (by omega) hk
  rw [UInt8.toNat_shiftLeft, UInt8.toNat_ofNat']
  simp only [UInt8.toNat_one, Nat.one_shiftLeft, Nat.mod_eq_of_lt (hk.trans (by omega : 8 < 2 ^ 8)),
    Nat.mod_eq_of_lt hk]
  exact Nat.mod_eq_of_lt hlt

theorem Bitmap.isSet_eq {b : Bitmap} {i : ℕ} (hi : i / bitmapSize < b.buf.length) :
    b.isSet i = some (b.bit i) := by
  have hk : i % bitmapSize < 8 := Nat.mod_lt _ (by decide)
  rw [Bitmap.isSet, List.getElem?_eq_getElem hi, Option.map_some, Bitmap.bit,
    List.getD_eq_getElem _ _ hi, Option.some.injEq, Bool.eq_iff_iff, bne_iff_ne, ne_eq,
    ← UInt8.toNat_inj, UInt8.toNat_and, toNat_one_shiftLeft hk, Nat.and_two_pow]
  cases b.buf[i / bitmapSize].toNat.testBit (i % bitmapSize) <;> simp

@[simp] theorem Bitmap.length_set (b : Bitmap) (i : ℕ) : (b.set i).buf.length = b.buf.length :=
  List.length_modify ..

theorem Bitmap.bit_set {b : Bitmap} {i : ℕ} (hi : i / bitmapSize < b.buf.length) (j : ℕ) :
    (b.set i).bit j = (j == i || b.bit j) := by
  unfold Bitmap.bit Bitmap.set
  simp only [List.getD_eq_getElem?_getD, List.getElem?_modify]
  by_cases hq : j / bitmapSize = i / bitmapSize
  · have hk : i % bitmapSize < 8 := Nat.mod_lt _ (by decide)
    simp only [hq, List.getElem?_eq_getElem hi, Option.map_eq_map, Option.map_some, if_true,
      Option.getD_some]
    rw [UInt8.toNat_or, toNat_one_shiftLeft hk, Nat.testBit_or, Nat.testBit_two_pow]
    have hbit : decide (i % bitmapSize = j % bitmapSize) = (j == i) := by
      rw [Bool.eq_iff_iff, decide_eq_true_iff, beq_iff_eq]
      unfold bitmapSize at hq ⊢
      omega
    rw [hbit, Bool.or_comm]
  · have hne : j ≠ i := fun h => hq (h ▸ rfl)
    simp [Ne.symm hq, hne]

theorem Bitmap.bit_replicate_zero (n i : ℕ) : (⟨List.replicate n 0⟩ : Bitmap).bit i = false := by
  unfold Bitmap.bit
  rw [List.getD_eq_getElem?_getD, List.getElem?_replicate]
  split_ifs <;> simp

theorem extendByteSlice_nil {n : ℕ} (hn : 0 < n) : extendByteSlice [] n = List.replicate n 0 := by
  simp [extendByteSlice, hn]

/-! ## The loop of `setCode` -/

theorem isPushOp_iff (c : UInt8) : isPushOp c = true ↔ 0x60 ≤ c.toNat ∧ c.toNat ≤ 0x7f := by
  rw [isPushOp, beq_iff_eq, ← UInt8.toNat_inj, UInt8.toNat_shiftRight]
  have hc := c.toNat_lt
  simp only [Nat.shiftRight_eq_div_pow]
  simp
  omega

theorem opLength_of_isPushOp {c : UInt8} (h : isPushOp c = true) :
    opLength c = c.toNat - 0x60 + 2 := by
  have h' := (isPushOp_iff c).mp h
  rw [opLength, if_pos h']
  omega

theorem opLength_of_not_isPushOp {c : UInt8} (h : isPushOp c = false) : opLength c = 1 := by
  have h' : ¬(0x60 ≤ c.toNat ∧ c.toNat ≤ 0x7f) := fun h' => by
    rw [← isPushOp_iff] at h'
    rw [h'] at h
    cases h
  rw [opLength, if_neg h']

@[simp] theorem Bitmap.length_setCodeLoop (code : List UInt8) (i : ℕ) (b : Bitmap) :
    (setCodeLoop code i b).buf.length = b.buf.length := by
  fun_induction setCodeLoop code i b <;> simp [*]

theorem bit_setCodeLoop (code : List UInt8) (i : ℕ) (b : Bitmap)
    (hbuf : code.length / bitmapSize < b.buf.length) (j : ℕ) :
    (setCodeLoop code i b).bit j = true ↔
      b.bit j = true ∨ (code[j]? = some jumpdest ∧ j < code.length ∧ ReachedFrom code i j) := by
  fun_induction setCodeLoop code i b with
  | case1 i b hi c hpush ih =>
    rw [ih hbuf, reachedFrom_iff hi, opLength_of_isPushOp hpush]
    refine or_congr_right ⟨fun ⟨hc, hj, hr⟩ => ⟨hc, hj, .inr hr⟩, ?_⟩
    rintro ⟨hc, hj, rfl | hr⟩
    · rw [List.getElem?_eq_getElem hi, Option.some.injEq] at hc
      have hpush' : isPushOp code[j] = true := hpush
      rw [hc] at hpush'
      cases hpush'
    · exact ⟨hc, hj, hr⟩
  | case2 i b hi c hpush hdest ih =>
    have hi8 : i / bitmapSize < b.buf.length :=
      (Nat.div_le_div_right hi.le).trans_lt hbuf
    rw [ih (by rw [Bitmap.length_set]; exact hbuf), Bitmap.bit_set hi8, Bool.or_eq_true,
      beq_iff_eq, reachedFrom_iff hi, opLength_of_not_isPushOp (by simpa using hpush)]
    constructor
    · rintro ((rfl | hb) | ⟨hc, hj, hr⟩)
      · exact .inr ⟨by rw [List.getElem?_eq_getElem hi]; exact congrArg some hdest, hi, .inl rfl⟩
      · exact .inl hb
      · exact .inr ⟨hc, hj, .inr hr⟩
    · rintro (hb | ⟨hc, hj, rfl | hr⟩)
      · exact .inl (.inr hb)
      · exact .inl (.inl rfl)
      · exact .inr ⟨hc, hj, hr⟩
  | case3 i b hi c hpush hdest ih =>
    rw [ih hbuf, reachedFrom_iff hi, opLength_of_not_isPushOp (by simpa using hpush)]
    refine or_congr_right ⟨fun ⟨hc, hj, hr⟩ => ⟨hc, hj, .inr hr⟩, ?_⟩
    rintro ⟨hc, hj, rfl | hr⟩
    · rw [List.getElem?_eq_getElem hi, Option.some.injEq] at hc
      exact absurd hc hdest
    · exact ⟨hc, hj, hr⟩
  | case4 i b hi =>
    refine ⟨.inl, ?_⟩
    rintro (hb | ⟨-, hj, hr⟩)
    · exact hb
    · rw [reachedFrom_of_le (not_lt.mp hi) hr] at hj
      exact absurd hj hi

/-! ## Valid destinations -/

theorem validJumpdest_natCast (code : List UInt8) (bitmap : Bitmap) (dest : ℕ) :
    validJumpdest code bitmap dest =
      if 2 ^ 62 ≤ dest ∨ code.length ≤ dest then some false else bitmap.isSet dest := by
  have hsize : 63 ≤ bitLen (dest : ℤ) ↔ 2 ^ 62 ≤ dest := by
    rw [bitLen, Int.natAbs_natCast]
    exact Nat.lt_size
  unfold validJumpdest
  by_cases hbig : 2 ^ 62 ≤ dest
  · rw [if_pos (.inl (hsize.mpr hbig)), if_pos (.inl hbig)]
  · have huint : uint64 (dest : ℤ) = dest := by
      rw [uint64, Int.natAbs_natCast, Nat.mod_eq_of_lt (by omega)]
    simp only [huint, ge_iff_le, hsize, hbig, false_or]

theorem bit_setCode_reset (b : Bitmap) (code : List UInt8) (j : ℕ) :
    (b.reset.setCode code).bit j = true ↔
      code[j]? = some jumpdest ∧ j < code.length ∧ IsBoundary code j := by
  have hinit : extendByteSlice b.reset.buf (code.length / bitmapSize + 1) =
      List.replicate (code.length / bitmapSize + 1) 0 :=
    extendByteSlice_nil (Nat.succ_pos _)
  rw [Bitmap.setCode, hinit, bit_setCodeLoop _ _ _ (by simp), Bitmap.bit_replicate_zero]
  simp [IsBoundary]

theorem length_setCode_reset (b : Bitmap) (code : List UInt8) :
    (b.reset.setCode code).buf.length = code.length / bitmapSize + 1 := by
  rw [Bitmap.setCode, Bitmap.length_setCodeLoop, length_extendByteSlice]

theorem validJumpdest_reset_setCode (b : Bitmap) (code : List UInt8) (dest : ℕ) :
    validJumpdest code (b.reset.setCode code) dest =
      some (decide (dest < 2 ^ 62 ∧ dest < code.length) && (b.reset.setCode code).bit dest) := by
  rw [validJumpdest_natCast]
  by_cases hout : 2 ^ 62 ≤ dest ∨ code.length ≤ dest
  · rw [if_pos hout, decide_eq_false (by omega), Bool.false_and]
  · rw [if_neg hout, decide_eq_true (by omega), Bool.true_and]
    have hbyte : dest / bitmapSize < (b.reset.setCode code).buf.length := by
      rw [length_setCode_reset]
      exact Nat.lt_succ_of_le (Nat.div_le_div_right (by omega))
    exact Bitmap.isSet_eq hbyte

theorem validJumpdest_reset_setCode_eq_true {b : Bitmap} {code : List UInt8} {dest : ℕ} :
    validJumpdest code (b.reset.setCode code) dest = some true ↔
      dest < 2 ^ 62 ∧ dest < code.length ∧ code[dest]? = some jumpdest ∧ IsBoundary code dest := by
  rw [validJumpdest_reset_setCode, Option.some.injEq, Bool.and_eq_true, decide_eq_true_iff,
    bit_setCode_reset]
  constructor
  · rintro ⟨⟨hsmall, hlen⟩, hc, -, hb⟩
    exact ⟨hsmall, hlen, hc, hb⟩
  · rintro ⟨hsmall, hlen, hc, hb⟩
    exact ⟨⟨hsmall, hlen⟩, hc, hlen, hb⟩

theorem jumpdest_analysis_marks_boundaries (b : Bitmap) (code : List UInt8) (dest : ℕ) :
    validJumpdest code (b.reset.setCode code) dest ≠ none ∧
      (validJumpdest code (b.reset.setCode code) dest = some true ↔
        dest < 2 ^ 62 ∧ dest < code.length ∧ code[dest]? = some jumpdest ∧ IsBoundary code dest) := by
  refine ⟨?_, validJumpdest_reset_setCode_eq_true⟩
  rw [validJumpdest_reset_setCode]
  exact Option.some_ne_none _

/-- Go allocates at most `2^48` bytes on a 64-bit platform, so every code it can hold is below
`2^62` bytes, and there the bound of the code implies the bound that `BitLen` puts. -/
theorem jumpdest_analysis_of_allocatable_code (b : Bitmap) {code : List UInt8}
    (hcode : code.length ≤ 2 ^ 62) (dest : ℕ) :
    validJumpdest code (b.reset.setCode code) dest ≠ none ∧
      (validJumpdest code (b.reset.setCode code) dest = some true ↔
        dest < code.length ∧ code[dest]? = some jumpdest ∧ IsBoundary code dest) := by
  obtain ⟨hpanic, hiff⟩ := jumpdest_analysis_marks_boundaries b code dest
  refine ⟨hpanic, hiff.trans ⟨fun h => h.2, fun h => ⟨?_, h⟩⟩⟩
  exact lt_of_lt_of_le h.1 hcode

theorem jumpdest_analysis_of_push_data :
    ([0x60, 0x5b, 0x5b] : List UInt8).length ≤ 2 ^ 62 ∧
      validJumpdest [0x60, 0x5b, 0x5b] ((Bitmap.mk []).reset.setCode [0x60, 0x5b, 0x5b])
        ((2 : ℕ) : ℤ) = some true ∧
      validJumpdest [0x60, 0x5b, 0x5b] ((Bitmap.mk []).reset.setCode [0x60, 0x5b, 0x5b])
        ((1 : ℕ) : ℤ) ≠ some true := by
  have hcode : ([0x60, 0x5b, 0x5b] : List UInt8).length ≤ 2 ^ 62 := by decide
  have hb : IsBoundary [0x60, 0x5b, 0x5b] 2 := ReachedFrom.step .refl (by decide)
  have hnb : ¬ IsBoundary [0x60, 0x5b, 0x5b] 1 := by
    intro h
    rcases (reachedFrom_iff (by decide)).mp h with h1 | h2
    · exact absurd h1 (by decide)
    · exact absurd h2.le (by decide)
  refine ⟨hcode, ((jumpdest_analysis_of_allocatable_code _ hcode 2).2).mpr ⟨by decide, by decide, hb⟩,
    fun h => hnb (((jumpdest_analysis_of_allocatable_code _ hcode 1).2).mp h).2.2⟩

/-! ## Jumps -/

theorem jumpTarget_of_lt {dest : ℕ} (h : dest < 2 ^ 62) : jumpTarget dest = dest - 1 := by
  unfold jumpTarget uint64
  rw [Int.natAbs_natCast, Nat.mod_eq_of_lt (by omega : dest < 2 ^ 64)]
  rcases Nat.eq_zero_or_pos dest with rfl | hpos
  · decide
  · rw [show (dest + (2 ^ 64 - 1)) % 2 ^ 64 = dest - 1 by omega, Nat.cast_sub hpos, Nat.cast_one]
    exact Int.bmod_eq_of_le (by omega) (by omega)

section Jump

variable (b : Bitmap) (code : List UInt8) (c : State) (ip : ℤ) {dest : ℕ} {rest : List ℤ}
  (hstack : c.stack = (dest : ℤ) :: rest)
include hstack

theorem State.opJump_of_boundary (hdest : dest < 2 ^ 62 ∧ dest < code.length ∧
      code[dest]? = some jumpdest ∧ IsBoundary code dest) :
    c.opJump code (b.reset.setCode code) ip = some ((dest : ℤ) - 1, { c with stack := rest }) := by
  have hvalid := (validJumpdest_reset_setCode_eq_true (b := b)).mpr hdest
  simp only [State.opJump, State.pop, hstack, hvalid, Option.map_some, if_true,
    jumpTarget_of_lt hdest.1]

theorem State.opJump_of_not_boundary (hdest : ¬(dest < 2 ^ 62 ∧ dest < code.length ∧
      code[dest]? = some jumpdest ∧ IsBoundary code dest)) :
    c.opJump code (b.reset.setCode code) ip =
      some (ip, { c with stack := rest }.exit errInvalidJump) := by
  have hvalid : validJumpdest code (b.reset.setCode code) dest = some false := by
    rw [← validJumpdest_reset_setCode_eq_true (b := b), validJumpdest_reset_setCode,
      Option.some.injEq, Bool.not_eq_true] at hdest
    rw [validJumpdest_reset_setCode, hdest]
  simp only [State.opJump, State.pop, hstack, hvalid, Option.map_some, Bool.false_eq_true,
    if_false]

end Jump

end EvmState
