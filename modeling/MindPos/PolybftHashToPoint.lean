import Mathlib
import MindPos.RlpEncoding
import MindPos.Sha256

/-! # Hashing to the BN254 curve

`consensus/polybft/signer/hash2point.go`: `expandMsgSHA256XMD` and `hashToFpXMDSHA256` turn a
message into field elements, and `mapToPoint` maps an element to a point of `y² = x³ + 3` by
Fouque and Tibouchi's three candidates. The arithmetic is `big.Int` modulo `pPrime`, and SHA-256 is
`Sha256.sum256`. The group operations of `bn256.G1` that `hashToPoint` ends with are not modelled. -/
namespace PolybftBls

open RlpEncoding (ofBE)

/-- `sqrt(-3)`. -/
def z0 : ℤ := 0x0000000000000000b3c4d79d41a91759a9e4c7e359b6b89eaec68e62effffffd

/-- `(sqrt(-3) - 1) / 2`. -/
def z1 : ℤ := 0x000000000000000059e26bcea0d48bacd4f263f1acdb5c4f5763473177fffffe

def pPrime : ℤ :=
  21888242871839275222246405745257275088696311157297823662689037894645226208583

def modulus : ℤ := 0x30644e72e131a029b85045b68181585d97816a916871ca8d3c208c16d87cfd47

def errInvalidDomainLength : String := "invalid domain length"

def errBadMapping : String := "bad ft mapping implementation"

def errNilPointer : String := "invalid memory address or nil pointer dereference"

def errSliceBounds : String := "slice bounds out of range"

def mulmod (x y N : ℤ) : ℤ := x * y % N

def addmod (x y N : ℤ) : ℤ := (x + y) % N

/-- `new(big.Int).ModInverse(x, N)`: nil where `x` and `N` share a factor. -/
def inversemod (x N : ℤ) : Option ℤ :=
  if Int.gcd x N = 1 then some (Int.gcdA x N % N) else none

/-- `new(big.Int).Exp(b, e, m)` for `m > 0`: square and multiply over the bits of `e`, the
lowest first. The exponent bounds the recursion. -/
def expModAux (m : ℤ) : ℕ → ℤ → ℕ → ℤ
  | 0, _, _ => 1 % m
  | fuel + 1, b, e =>
    if e = 0 then 1 % m
    else
      let r := expModAux m fuel (b * b % m) (e / 2)
      if e % 2 = 1 then r * b % m else r

def expMod (b : ℤ) (e : ℕ) (m : ℤ) : ℤ := expModAux m e (b % m) e

/-- `new(big.Int).ModSqrt(x, pPrime)`. For the prime `pPrime` the symbol `Jacobi(x, pPrime)` is
Euler's `x^((p-1)/2)`: `p - 1` for a non-residue, whose root is nil, and zero for a multiple of
`p`, whose root is zero. Otherwise, as `pPrime ≡ 3 (mod 4)`, the root is `modSqrt3Mod4Prime`'s
`x^((p+1)/4)`. -/
def modSqrt (x : ℤ) : Option ℤ :=
  let l := expMod x ((pPrime.toNat - 1) / 2) pPrime
  if l = pPrime - 1 then none
  else if l = 0 then some 0
  else some (expMod x ((pPrime.toNat + 1) / 4) pPrime)

/-- `sqrt`: the root `ModSqrt` gives, and whether it squares back to the input. -/
def sqrt (xx : ℤ) : Option ℤ × Bool :=
  let x := modSqrt xx
  (x, match x with
    | some x => mulmod x x pPrime == xx
    | none => false)

def curveRhs (x : ℤ) : ℤ := addmod (mulmod (mulmod x x pPrime) x pPrime) 3 pPrime

def chooseSign (decision : Bool) (a1 : ℤ) : ℤ := if !decision then pPrime - a1 else a1

def tryCandidate (decision : Bool) (x : ℤ) : Option (ℤ × ℤ) :=
  match sqrt (curveRhs x) with
  | (some a1, true) => some (x, chooseSign decision a1)
  | _ => none

/-- `mapToPoint`: the candidates `x1`, `x2` and `x3` in turn. `ModInverse` of zero is nil, which
the `mulmod` after it dereferences. -/
def mapToPoint (x : ℤ) : Except String (ℤ × ℤ) :=
  let decision := (sqrt x).2
  let a0 := addmod (mulmod x x pPrime) 4 pPrime
  let a1 := mulmod x z0 pPrime
  match inversemod (mulmod a1 a0 pPrime) pPrime with
  | none => .error errNilPointer
  | some a2 =>
    let x1 := addmod z1 (pPrime - mulmod x (mulmod (mulmod a1 a1 pPrime) a2 pPrime) pPrime) pPrime
    let x2 := pPrime - addmod x1 1 pPrime
    let x3 := addmod (mulmod (mulmod (mulmod (mulmod a0 a0 pPrime) (mulmod a0 a0 pPrime) pPrime)
      a2 pPrime) a2 pPrime) 1 pPrime
    match tryCandidate decision x1, tryCandidate decision x2, tryCandidate decision x3 with
    | some p, _, _ => .ok p
    | none, some p, _ => .ok p
    | none, none, some p => .ok p
    | none, none, none => .error errBadMapping

theorem two_mul_z1_add_one : 2 * z1 + 1 = z0 := by
  decide +kernel

theorem mulmod_z0_z0 : mulmod z0 z0 pPrime = pPrime - 3 := by
  decide +kernel

theorem modulus_eq_pPrime : modulus = pPrime := by
  decide +kernel

theorem sqrt_found {xx r : ℤ} (h : sqrt xx = (some r, true)) : mulmod r r pPrime = xx := by
  simp only [sqrt, Prod.mk.injEq] at h
  obtain ⟨hr, hfound⟩ := h
  rw [hr] at hfound
  simpa using hfound

theorem mulmod_chooseSign (decision : Bool) (a1 : ℤ) :
    mulmod (chooseSign decision a1) (chooseSign decision a1) pPrime = mulmod a1 a1 pPrime := by
  cases decision
  · simp only [chooseSign, Bool.not_false, if_true, mulmod]
    have : (pPrime - a1) * (pPrime - a1) = a1 * a1 + pPrime * (pPrime - 2 * a1) := by ring
    rw [this, Int.add_mul_emod_self_left]
  · rfl

theorem tryCandidate_eq_some {decision : Bool} {x' x y : ℤ}
    (h : tryCandidate decision x' = some (x, y)) :
    ∃ a1, sqrt (curveRhs x) = (some a1, true) ∧ y = chooseSign decision a1 := by
  unfold tryCandidate at h
  generalize hs : sqrt (curveRhs x') = s at h
  obtain ⟨_ | a1, _ | _⟩ := s <;> simp only [reduceCtorEq, Option.some.injEq, Prod.mk.injEq] at h
  obtain ⟨rfl, rfl⟩ := h
  exact ⟨a1, hs, rfl⟩

theorem mapToPoint_eq_ok {t x y : ℤ} (h : mapToPoint t = .ok (x, y)) :
    ∃ a1, sqrt (curveRhs x) = (some a1, true) ∧ y = chooseSign (sqrt t).2 a1 := by
  dsimp only [mapToPoint] at h
  split at h
  · cases h
  · split at h <;> cases h
    all_goals exact tryCandidate_eq_some ‹_›

theorem mapToPoint_on_curve {t x y : ℤ} (h : mapToPoint t = .ok (x, y)) :
    mulmod y y pPrime = curveRhs x := by
  obtain ⟨a1, hroot, hy⟩ := mapToPoint_eq_ok h
  rw [hy, mulmod_chooseSign, sqrt_found hroot]

-- `5` is mapped by the second candidate
example : mapToPoint 5 =
    .ok (9057203946967975955628966866593029703936083189203961599749252385249208041182,
      1485562979097396893924666373184402433418132820039322023113638353126680575187) := by
  decide +kernel

theorem map_to_point_panics_at_zero : 0 < pPrime ∧ mapToPoint 0 = .error errNilPointer := by
  constructor
  · decide +kernel
  · decide +kernel

section Expand

open Sha256 (sum256 length_sum256)

def xmdBlocks (b0 domain : List UInt8) (domainLen : UInt8) :
    ℕ → ℕ → List UInt8 → List (List UInt8)
  | 0, _, _ => []
  | n + 1, i, bi => bi :: xmdBlocks b0 domain domainLen n (i + 1)
      (sum256 (List.zipWith (· ^^^ ·) b0 bi ++ [1 + UInt8.ofNat i] ++ domain ++ [domainLen]))

/-- `expandMsgSHA256XMD`: `b_1 ‖ … ‖ b_ell`, cut to `outLen` bytes. For `outLen = 0` the last
copy slices at `-32`. -/
def expandMsgSHA256XMD (msg domain : List UInt8) (outLen : ℕ) : Except String (List UInt8) :=
  if domain.length > 255 then .error errInvalidDomainLength
  else
    let domainLen := UInt8.ofNat domain.length
    let b0 := sum256 (List.replicate 64 0 ++ msg ++
      [UInt8.ofNat (outLen / 256), UInt8.ofNat outLen, 0] ++ domain ++ [domainLen])
    let b1 := sum256 (b0 ++ [1] ++ domain ++ [domainLen])
    let ell := (outLen + 32 - 1) / 32
    if ell = 0 then .error errSliceBounds
    else .ok ((xmdBlocks b0 domain domainLen ell 1 b1).flatten.take outLen)

def fieldElement (num : ℤ) : ℤ :=
  if num = modulus then num
  else if num < modulus ∧ 0 ≤ num then num
  else num % modulus

/-- `hashToFpXMDSHA256`. -/
def hashToFpXMDSHA256 (msg domain : List UInt8) (count : ℕ) : Except String (List ℤ) := do
  let randBytes ← expandMsgSHA256XMD msg domain (count * 48)
  return (List.range count).map fun i => fieldElement (ofBE ((randBytes.drop (i * 48)).take 48))

theorem length_flatten_xmdBlocks (b0 domain : List UInt8) (domainLen : UInt8) (n i : ℕ)
    (bi : List UInt8) (hbi : bi.length = 32) :
    (xmdBlocks b0 domain domainLen n i bi).flatten.length = 32 * n := by
  induction n generalizing i bi with
  | zero => rfl
  | succ n ih =>
    rw [xmdBlocks, List.flatten_cons, List.length_append, hbi, ih _ _ (length_sum256 _)]
    ring

theorem expandMsgSHA256XMD_eq_ok {msg domain : List UInt8} {outLen : ℕ}
    (hd : domain.length ≤ 255) (hout : 0 < outLen) :
    ∃ out, expandMsgSHA256XMD msg domain outLen = .ok out ∧ out.length = outLen := by
  have hell : (outLen + 32 - 1) / 32 ≠ 0 := by omega
  refine ⟨_, by rw [expandMsgSHA256XMD, if_neg (by omega), if_neg hell], ?_⟩
  rw [List.length_take, length_flatten_xmdBlocks _ _ _ _ _ _ (length_sum256 _)]
  omega

theorem fieldElement_eq (num : ℤ) :
    fieldElement num = if num = modulus then modulus else num % modulus := by
  unfold fieldElement
  split_ifs with heq hlt
  · exact heq
  · exact (Int.emod_eq_of_lt hlt.2 hlt.1).symm
  · rfl

theorem fieldElement_mem (num : ℤ) : 0 ≤ fieldElement num ∧ fieldElement num ≤ modulus := by
  have hpos : 0 < modulus := by decide +kernel
  rw [fieldElement_eq]
  split_ifs
  · exact ⟨hpos.le, le_rfl⟩
  · exact ⟨Int.emod_nonneg _ hpos.ne', (Int.emod_lt_of_pos _ hpos).le⟩

theorem hashToFpXMDSHA256_eq_ok {msg domain : List UInt8} {count : ℕ}
    (hd : domain.length ≤ 255) (hc : 0 < count) :
    ∃ out, expandMsgSHA256XMD msg domain (count * 48) = .ok out ∧
      out.length = count * 48 ∧
      hashToFpXMDSHA256 msg domain count =
        .ok ((List.range count).map fun i => fieldElement (ofBE ((out.drop (i * 48)).take 48))) ∧
      ∀ i < count, ((out.drop (i * 48)).take 48).length = 48 := by
  obtain ⟨out, hout, hlen⟩ := expandMsgSHA256XMD_eq_ok hd (by omega : 0 < count * 48)
  refine ⟨out, hout, hlen, by rw [hashToFpXMDSHA256, hout]; rfl, ?_⟩
  intro i hi
  have : (i + 1) * 48 ≤ count * 48 := Nat.mul_le_mul_right _ hi
  rw [List.length_take, List.length_drop, hlen]
  omega

theorem hashToFpXMDSHA256_mem {msg domain : List UInt8} {count : ℕ} {els : List ℤ}
    (h : hashToFpXMDSHA256 msg domain count = .ok els) :
    els.length = count ∧ ∀ x ∈ els, 0 ≤ x ∧ x ≤ modulus := by
  unfold hashToFpXMDSHA256 at h
  cases hexp : expandMsgSHA256XMD msg domain (count * 48) with
  | error e => simp [hexp] at h
  | ok out =>
    simp only [hexp, bind, Except.bind, pure, Except.pure, Except.ok.injEq] at h
    subst h
    refine ⟨List.length_map .. |>.trans List.length_range, ?_⟩
    intro x hx
    obtain ⟨i, -, rfl⟩ := List.mem_map.mp hx
    exact fieldElement_mem _

end Expand

end PolybftBls
