import Mathlib

/-! # SHA-256

SHA-256 of FIPS 180-4: the message padded with `0x80`, zeros and its length in bits to whole
64-byte blocks, each compressed into the eight words of the hash value by 64 rounds. Words are
naturals below `2 ^ 32` in big-endian byte order, so that the kernel can evaluate a digest. -/
namespace Sha256

def roundConstants : List ℕ :=
  [0x428a2f98, 0x71374491, 0xb5c0fbcf, 0xe9b5dba5, 0x3956c25b, 0x59f111f1, 0x923f82a4, 0xab1c5ed5,
   0xd807aa98, 0x12835b01, 0x243185be, 0x550c7dc3, 0x72be5d74, 0x80deb1fe, 0x9bdc06a7, 0xc19bf174,
   0xe49b69c1, 0xefbe4786, 0x0fc19dc6, 0x240ca1cc, 0x2de92c6f, 0x4a7484aa, 0x5cb0a9dc, 0x76f988da,
   0x983e5152, 0xa831c66d, 0xb00327c8, 0xbf597fc7, 0xc6e00bf3, 0xd5a79147, 0x06ca6351, 0x14292967,
   0x27b70a85, 0x2e1b2138, 0x4d2c6dfc, 0x53380d13, 0x650a7354, 0x766a0abb, 0x81c2c92e, 0x92722c85,
   0xa2bfe8a1, 0xa81a664b, 0xc24b8b70, 0xc76c51a3, 0xd192e819, 0xd6990624, 0xf40e3585, 0x106aa070,
   0x19a4c116, 0x1e376c08, 0x2748774c, 0x34b0bcb5, 0x391c0cb3, 0x4ed8aa4a, 0x5b9cca4f, 0x682e6ff3,
   0x748f82ee, 0x78a5636f, 0x84c87814, 0x8cc70208, 0x90befffa, 0xa4506ceb, 0xbef9a3f7, 0xc67178f2]

def initialHash : List ℕ :=
  [0x6a09e667, 0xbb67ae85, 0x3c6ef372, 0xa54ff53a, 0x510e527f, 0x9b05688c, 0x1f83d9ab, 0x5be0cd19]

def rotr (x n : ℕ) : ℕ := ((x >>> n) ||| (x <<< (32 - n))) % 2 ^ 32

def bigSigma0 (x : ℕ) : ℕ := rotr x 2 ^^^ rotr x 13 ^^^ rotr x 22

def bigSigma1 (x : ℕ) : ℕ := rotr x 6 ^^^ rotr x 11 ^^^ rotr x 25

def smallSigma0 (x : ℕ) : ℕ := rotr x 7 ^^^ rotr x 18 ^^^ (x >>> 3)

def smallSigma1 (x : ℕ) : ℕ := rotr x 17 ^^^ rotr x 19 ^^^ (x >>> 10)

def ch (x y z : ℕ) : ℕ := (x &&& y) ^^^ ((2 ^ 32 - 1 - x) &&& z)

def maj (x y z : ℕ) : ℕ := (x &&& y) ^^^ (x &&& z) ^^^ (y &&& z)

def toWord (bs : List UInt8) : ℕ := bs.foldl (fun acc b => acc * 256 + b.toNat) 0

def ofWord (w : ℕ) : List UInt8 :=
  [UInt8.ofNat (w >>> 24), UInt8.ofNat (w >>> 16), UInt8.ofNat (w >>> 8), UInt8.ofNat w]

def schedule (block : List UInt8) : List ℕ :=
  (List.range 48).foldl (fun w _ =>
      let n := w.length
      w ++ [(smallSigma1 (w.getD (n - 2) 0) + w.getD (n - 7) 0 + smallSigma0 (w.getD (n - 15) 0) +
        w.getD (n - 16) 0) % 2 ^ 32])
    ((List.range 16).map fun i => toWord ((block.drop (4 * i)).take 4))

def round : List ℕ → ℕ × ℕ → List ℕ
  | [a, b, c, d, e, f, g, h], (kt, wt) =>
    let t1 := (h + bigSigma1 e + ch e f g + kt + wt) % 2 ^ 32
    let t2 := (bigSigma0 a + maj a b c) % 2 ^ 32
    [(t1 + t2) % 2 ^ 32, a, b, c, (d + t1) % 2 ^ 32, e, f, g]
  | s, _ => s

def compress (hv : List ℕ) (block : List UInt8) : List ℕ :=
  List.zipWith (fun x y => (x + y) % 2 ^ 32) hv
    ((roundConstants.zip (schedule block)).foldl round hv)

def pad (msg : List UInt8) : List UInt8 :=
  msg ++ [0x80] ++ List.replicate ((119 - msg.length % 64) % 64) 0 ++
    (List.range 8).reverse.map fun i : ℕ => (UInt8.ofNat ((8 * msg.length) >>> (8 * i)) : UInt8)

def hashBlocks (hv : List ℕ) : List UInt8 → ℕ → List ℕ
  | _, 0 => hv
  | bs, n + 1 => hashBlocks (compress hv (bs.take 64)) (bs.drop 64) n

/-- `sha256.Sum256`: the hash value after the padded message, as 32 bytes. -/
def sum256 (msg : List UInt8) : List UInt8 :=
  let p := pad msg
  (hashBlocks initialHash p (p.length / 64)).flatMap ofWord

theorem length_round (s : List ℕ) (kw : ℕ × ℕ) : (round s kw).length = s.length := by
  unfold round
  split <;> rfl

theorem length_foldl_round (s : List ℕ) (kws : List (ℕ × ℕ)) :
    (kws.foldl round s).length = s.length := by
  induction kws generalizing s with
  | nil => rfl
  | cons kw kws ih => rw [List.foldl_cons, ih, length_round]

theorem length_compress (hv : List ℕ) (block : List UInt8) :
    (compress hv block).length = hv.length := by
  rw [compress, List.length_zipWith, length_foldl_round, min_self]

theorem length_hashBlocks {hv : List ℕ} (hv8 : hv.length = 8) (bs : List UInt8) (n : ℕ) :
    (hashBlocks hv bs n).length = 8 := by
  induction n generalizing hv bs with
  | zero => exact hv8
  | succ n ih => exact ih (by rw [length_compress, hv8]) _

theorem length_sum256 (msg : List UInt8) : (sum256 msg).length = 32 := by
  have h8 : (hashBlocks initialHash (pad msg) ((pad msg).length / 64)).length = 8 :=
    length_hashBlocks rfl _ _
  simp only [sum256, List.length_flatMap, ofWord, List.length_cons, List.length_nil]
  rw [List.map_const', List.sum_replicate, h8, smul_eq_mul]

example : sum256 [] =
    [0xe3, 0xb0, 0xc4, 0x42, 0x98, 0xfc, 0x1c, 0x14, 0x9a, 0xfb, 0xf4, 0xc8, 0x99, 0x6f, 0xb9, 0x24,
     0x27, 0xae, 0x41, 0xe4, 0x64, 0x9b, 0x93, 0x4c, 0xa4, 0x95, 0x99, 0x1b, 0x78, 0x52, 0xb8, 0x55] := by
  decide +kernel

example : sum256 [0x61, 0x62, 0x63] =
    [0xba, 0x78, 0x16, 0xbf, 0x8f, 0x01, 0xcf, 0xea, 0x41, 0x41, 0x40, 0xde, 0x5d, 0xae, 0x22, 0x23,
     0xb0, 0x03, 0x61, 0xa3, 0x96, 0x17, 0x7a, 0x9c, 0xb4, 0x10, 0xff, 0x61, 0xf2, 0x00, 0x15, 0xad] := by
  decide +kernel

end Sha256
