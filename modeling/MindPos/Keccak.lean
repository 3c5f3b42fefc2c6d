import Mathlib

/-! # Keccak-256

The legacy Keccak-256 that Ethereum hashes with: the sponge over Keccak-f[1600] with a rate of
136 bytes and the padding `0x01 … 0x80`, before FIPS 202 changed the domain byte. Lanes are
64-bit words held as naturals below `2 ^ 64`, in little-endian byte order; the round is unrolled
over the 25 lanes, so that the kernel can evaluate a digest in a fraction of a second. -/
namespace Keccak

def roundConstants : List ℕ :=
  [0x0000000000000001, 0x0000000000008082, 0x800000000000808A, 0x8000000080008000,
   0x000000000000808B, 0x0000000080000001, 0x8000000080008081, 0x8000000000008009,
   0x000000000000008A, 0x0000000000000088, 0x0000000080008009, 0x000000008000000A,
   0x000000008000808B, 0x800000000000008B, 0x8000000000008089, 0x8000000000008003,
   0x8000000000008002, 0x8000000000000080, 0x000000000000800A, 0x800000008000000A,
   0x8000000080008081, 0x8000000000008080, 0x0000000080000001, 0x8000000080008008]

def rotl (x n : ℕ) : ℕ := ((x <<< n) ||| (x >>> (64 - n))) % 2 ^ 64

def chi (a b c : ℕ) : ℕ := a ^^^ ((2 ^ 64 - 1 - b) &&& c)

def round (rc : ℕ) : List ℕ → List ℕ
  | [a0, a1, a2, a3, a4, a5, a6, a7, a8, a9, a10, a11, a12, a13, a14, a15, a16, a17, a18, a19, a20, a21, a22, a23, a24] =>
    -- θ: the parity of each column, mixed into the columns either side
    let c0 := a0 ^^^ a5 ^^^ a10 ^^^ a15 ^^^ a20
    let c1 := a1 ^^^ a6 ^^^ a11 ^^^ a16 ^^^ a21
    let c2 := a2 ^^^ a7 ^^^ a12 ^^^ a17 ^^^ a22
    let c3 := a3 ^^^ a8 ^^^ a13 ^^^ a18 ^^^ a23
    let c4 := a4 ^^^ a9 ^^^ a14 ^^^ a19 ^^^ a24
    let d0 := c4 ^^^ rotl c1 1
    let d1 := c0 ^^^ rotl c2 1
    let d2 := c1 ^^^ rotl c3 1
    let d3 := c2 ^^^ rotl c4 1
    let d4 := c3 ^^^ rotl c0 1
    -- ρ and π: lane (x, y) is rotated by its offset and moves to (y, 2x + 3y)
    let b0 := rotl (a0 ^^^ d0) 0
    let b1 := rotl (a6 ^^^ d1) 44
    let b2 := rotl (a12 ^^^ d2) 43
    let b3 := rotl (a18 ^^^ d3) 21
    let b4 := rotl (a24 ^^^ d4) 14
    let b5 := rotl (a3 ^^^ d3) 28
    let b6 := rotl (a9 ^^^ d4) 20
    let b7 := rotl (a10 ^^^ d0) 3
    let b8 := rotl (a16 ^^^ d1) 45
    let b9 := rotl (a22 ^^^ d2) 61
    let b10 := rotl (a1 ^^^ d1) 1
    let b11 := rotl (a7 ^^^ d2) 6
    let b12 := rotl (a13 ^^^ d3) 25
    let b13 := rotl (a19 ^^^ d4) 8
    let b14 := rotl (a20 ^^^ d0) 18
    let b15 := rotl (a4 ^^^ d4) 27
    let b16 := rotl (a5 ^^^ d0) 36
    let b17 := rotl (a11 ^^^ d1) 10
    let b18 := rotl (a17 ^^^ d2) 15
    let b19 := rotl (a23 ^^^ d3) 56
    let b20 := rotl (a2 ^^^ d2) 62
    let b21 := rotl (a8 ^^^ d3) 55
    let b22 := rotl (a14 ^^^ d4) 39
    let b23 := rotl (a15 ^^^ d0) 41
    let b24 := rotl (a21 ^^^ d1) 2
    -- χ along each row, and ι on the first lane
    [chi b0 b1 b2 ^^^ rc, chi b1 b2 b3, chi b2 b3 b4, chi b3 b4 b0, chi b4 b0 b1,
      chi b5 b6 b7, chi b6 b7 b8, chi b7 b8 b9, chi b8 b9 b5, chi b9 b5 b6,
      chi b10 b11 b12, chi b11 b12 b13, chi b12 b13 b14, chi b13 b14 b10, chi b14 b10 b11,
      chi b15 b16 b17, chi b16 b17 b18, chi b17 b18 b19, chi b18 b19 b15, chi b19 b15 b16,
      chi b20 b21 b22, chi b21 b22 b23, chi b22 b23 b24, chi b23 b24 b20, chi b24 b20 b21]
  | a => a

def permute (a : List ℕ) : List ℕ := roundConstants.foldl (fun a rc => round rc a) a

def toLane (bs : List UInt8) : ℕ := bs.foldr (fun b acc => acc * 256 + b.toNat) 0

def ofLane (w : ℕ) : List UInt8 := (List.range 8).map fun i => UInt8.ofNat (w >>> (8 * i))

def pad (msg : List UInt8) : List UInt8 :=
  let k := 136 - msg.length % 136
  if k = 1 then msg ++ [0x81] else msg ++ [0x01] ++ List.replicate (k - 2) 0 ++ [0x80]

def absorb (a : List ℕ) : List UInt8 → ℕ → List ℕ
  | _, 0 => a
  | bs, n + 1 =>
    let a := (List.range 25).map fun i =>
      a.getD i 0 ^^^ (if i < 17 then toLane ((bs.drop (8 * i)).take 8) else 0)
    absorb (permute a) (bs.drop 136) n

def keccak256 (msg : List UInt8) : List UInt8 :=
  let p := pad msg
  let a := absorb (List.replicate 25 0) p (p.length / 136)
  (a.take 4).flatMap ofLane

theorem length_round (rc : ℕ) (a : List ℕ) : (round rc a).length = a.length := by
  unfold round
  split <;> rfl

theorem length_permute (a : List ℕ) : (permute a).length = a.length := by
  unfold permute
  induction roundConstants generalizing a with
  | nil => rfl
  | cons rc rcs ih => rw [List.foldl_cons, ih, length_round]

theorem length_absorb {a : List ℕ} (ha : a.length = 25) (bs : List UInt8) (n : ℕ) :
    (absorb a bs n).length = 25 := by
  induction n generalizing a bs with
  | zero => exact ha
  | succ n ih => exact ih (by rw [length_permute]; simp) _

theorem length_ofLane (w : ℕ) : (ofLane w).length = 8 := by simp [ofLane]

theorem length_keccak256 (msg : List UInt8) : (keccak256 msg).length = 32 := by
  have ha := length_absorb (List.length_replicate (n := 25) (a := 0)) (pad msg) ((pad msg).length / 136)
  simp only [keccak256, List.length_flatMap, length_ofLane]
  rw [List.map_const', List.length_take, ha]
  rfl

example : keccak256 [] =
    [0xc5, 0xd2, 0x46, 0x01, 0x86, 0xf7, 0x23, 0x3c, 0x92, 0x7e, 0x7d, 0xb2, 0xdc, 0xc7, 0x03, 0xc0,
     0xe5, 0x00, 0xb6, 0x53, 0xca, 0x82, 0x27, 0x3b, 0x7b, 0xfa, 0xd8, 0x04, 0x5d, 0x85, 0xa4, 0x70] := by
  decide +kernel

end Keccak
