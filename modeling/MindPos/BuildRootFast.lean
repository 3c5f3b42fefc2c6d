import Mathlib
import MindPos.ImmutableTrieSpells

/-! # The fast root of an ordered list

`CalculateRoot` hashes `num` values, keyed by the RLP of their index, into a trie. Up to 128
values, `FastHasher` writes the trie's nodes without building it: the keys `0x01..0x7f` fall
into groups of sixteen under the root nibbles `0..7`, and the key `0x80` of the value `0` under
nibble `8`. This module models the hasher, shows that its length prefixes are the RLP ones, and
computes the bytes it writes as the items of the trees they stand for. -/
namespace BuildRoot

open RlpEncoding Keccak ImmutableTrie

/-! ## Length prefixes -/

/-- `intsize`: the bytes of `val` without its leading zeros. -/
def intsize (val : UInt64) : UInt64 :=
  if val < (1 : UInt64) <<< 8 then 1
  else if val < (1 : UInt64) <<< 16 then 2
  else if val < (1 : UInt64) <<< 24 then 3
  else if val < (1 : UInt64) <<< 32 then 4
  else if val < (1 : UInt64) <<< 40 then 5
  else if val < (1 : UInt64) <<< 48 then 6
  else if val < (1 : UInt64) <<< 56 then 7
  else 8

def getRlpSize (size : UInt64) : ℕ :=
  if size < 56 then 1 else (intsize size).toNat + 1

/-- `binary.BigEndian.PutUint64`. -/
def putUint64 (v : UInt64) : List UInt8 :=
  ([56, 48, 40, 32, 24, 16, 8, 0] : List UInt64).map fun s => (v >>> s).toUInt8

def leafVal : List UInt8 := [0x20]

def rlpEmptyValue : List UInt8 := [0x80]

def rlpHashPrefix : List UInt8 := [0xa0]

def zeroKey : List UInt8 := [0x30]

def oneKey : List UInt8 := [0x31]

def singleKey : List UInt8 := [0x82, 0x20, 0x80]

/-! ## The hasher -/

/-- The hasher of one call: the number of values and the callback. Its buffers are locals of
the functions below; a hasher comes from the pool reset, so they start empty. -/
structure FastHasher where
  num : ℕ
  cb : ℕ → List UInt8

namespace FastHasher

def marshalRlpSize (dst : List UInt8) (size : UInt64) (short long : UInt8) : List UInt8 :=
  if size < 56 then dst ++ [short + size.toUInt8]
  else
    let intSize := intsize size
    dst ++ [long + intSize.toUInt8] ++ (putUint64 size).drop (8 - intSize).toNat

def marshalItemRlpSize (dst : List UInt8) (size : ℕ) : List UInt8 :=
  marshalRlpSize dst (UInt64.ofNat size) 0x80 0xB7

def marshalListRlpSize (dst : List UInt8) (size : ℕ) : List UInt8 :=
  marshalRlpSize dst (UInt64.ofNat size) 0xC0 0xF7

def hashAppend (dst b : List UInt8) : List UInt8 := dst ++ keccak256 b

variable (f : FastHasher)

def getCb (i : ℕ) : Option (List UInt8) :=
  if i > f.num then none
  else
    let val := f.cb i
    if val.length < 32 then none else some val

def encodeOneItem : Option (List UInt8) := do
  let val ← f.getCb 0
  let n := getRlpSize (UInt64.ofNat val.length)
  let buf2 := marshalListRlpSize [] (n + val.length + singleKey.length) ++ singleKey
  let buf2 := marshalItemRlpSize buf2 val.length ++ val
  pure (hashAppend [] buf2)

def encodeSingle (dst v : List UInt8) (b : Bool) : List UInt8 :=
  let num := v.length
  let n := getRlpSize (UInt64.ofNat num)
  -- the key is too short to have an RLP prefix
  let buf2 := marshalListRlpSize [] (n + num + 1) ++ (if b then oneKey else zeroKey)
  let buf2 := marshalItemRlpSize buf2 num ++ v
  hashAppend dst buf2

def deriveLeaves (stop i : ℕ) (buf : List UInt8) : Option (List UInt8) :=
  if i < stop then do
    let val ← f.getCb i
    let n := getRlpSize (UInt64.ofNat val.length)
    let buf2 := marshalListRlpSize [] (n + 1 + val.length) ++ leafVal
    let buf2 := marshalItemRlpSize buf2 val.length ++ val
    deriveLeaves stop (i + 1) (hashAppend (buf ++ rlpHashPrefix) buf2)
  else pure buf
termination_by stop - i

/-- `deriveGroup`, with `from` and `to` renamed `start` and `stop`. -/
def deriveGroup (dst : List UInt8) (start stop : ℕ) : Option (List UInt8) :=
  let num := stop - start
  if num = 1 then do
    let val ← f.getCb start
    pure (encodeSingle dst val (start == 1))
  else do
    -- the first group starts at position 1, so position 0 is empty
    let buf := if start = 1 then rlpEmptyValue else []
    let buf ← f.deriveLeaves stop start buf
    let buf := if num < 16 then
      buf ++ (List.replicate ((if start ≠ 1 then 16 else 15) - num) rlpEmptyValue).flatten
      else buf
    -- the empty value of the node
    let buf := buf ++ rlpEmptyValue
    pure (hashAppend dst (marshalListRlpSize [] buf.length ++ buf))

def deriveGroups (step1 i : ℕ) (dst : List UInt8) : Option (List UInt8) :=
  if i < step1 then do
    let ini := if i = 0 then 1 else i
    let dst ← f.deriveGroup (dst ++ rlpHashPrefix) ini (min step1 (i + 16))
    deriveGroups step1 (i + 16) dst
  else pure dst
termination_by step1 - i

/-- `FastHasher.Hash`. -/
def hash (num : ℕ) (cb : ℕ → List UInt8) : Option (List UInt8) :=
  let f : FastHasher := ⟨num, cb⟩
  if num = 1 then f.encodeOneItem
  else do
    let step1 := min num 128
    let dst ← f.deriveGroups step1 0 []
    -- the groups up to nibble 7 that hold no value
    let dst := dst ++ (List.replicate ((128 - step1) / 16) rlpEmptyValue).flatten
    -- the value 0 under nibble 8
    let val ← f.getCb 0
    let dst := encodeSingle (dst ++ rlpHashPrefix) val false
    -- the nibbles 9 to 15 and the root's value are empty
    let dst := dst ++ (List.replicate 8 rlpEmptyValue).flatten
    pure (hashAppend [] (marshalListRlpSize [] dst.length ++ dst))

end FastHasher

/-! ## The prefixes are RLP's -/

theorem toBE_length_of_bounds {n k : ℕ} (hk : 0 < k) (hlo : 256 ^ (k - 1) ≤ n)
    (hhi : n < 256 ^ k) : (toBE n).length = k := by
  refine le_antisymm (toBE_length_le hhi) ?_
  by_contra hle
  have hlt : n < 256 ^ (toBE n).length := by
    simpa only [ofBE_toBE] using ofBE_lt (toBE n)
  have hpow : 256 ^ (toBE n).length ≤ 256 ^ (k - 1) := Nat.pow_le_pow_right (by norm_num) (by omega)
  omega

theorem intsize_bounds {v : UInt64} (hv : 0 < v.toNat) : 0 < (intsize v).toNat ∧
    256 ^ ((intsize v).toNat - 1) ≤ v.toNat ∧ v.toNat < 256 ^ (intsize v).toNat := by
  have hlt := v.toNat_lt
  simp only [intsize, UInt64.lt_iff_toNat_lt, UInt64.toNat_shiftLeft, UInt64.reduceToNat,
    Nat.reduceMod, Nat.reduceShiftLeft, Nat.reducePow]
  split_ifs <;> simp only [UInt64.reduceToNat, Nat.reducePow, Nat.reduceSub] <;> omega

theorem intsize_toNat {v : UInt64} (hv : 0 < v.toNat) : (intsize v).toNat = (toBE v.toNat).length :=
  have hb := intsize_bounds hv
  (toBE_length_of_bounds hb.1 hb.2.1 hb.2.2).symm

theorem ofBE_lowBytes (n k : ℕ) :
    ofBE ((List.range k).reverse.map fun i => UInt8.ofNat (n / 256 ^ i)) = n % 256 ^ k := by
  induction k with
  | zero => rw [List.range_zero, List.reverse_nil, List.map_nil, ofBE_nil, pow_zero, Nat.mod_one]
  | succ k ih =>
    rw [List.range_succ, List.reverse_append, List.reverse_singleton, List.singleton_append,
      List.map_cons, ofBE_cons, List.length_map, List.length_reverse, List.length_range, ih,
      Nat.mod_pow_succ, UInt8.toNat_ofNat']
    ring

theorem toUInt8_shiftRight (v : UInt64) {s : UInt64} {i : ℕ} (hs : s.toNat = 8 * i) (hi : i < 8) :
    (v >>> s).toUInt8 = UInt8.ofNat (v.toNat / 256 ^ i) := by
  apply UInt8.toNat_inj.mp
  rw [UInt64.toNat_toUInt8, UInt64.toNat_shiftRight, Nat.shiftRight_eq_div_pow, UInt8.toNat_ofNat',
    hs, Nat.mod_eq_of_lt (show 8 * i < 64 by omega), pow_mul]
  rfl

theorem putUint64_eq (v : UInt64) :
    putUint64 v = (List.range 8).reverse.map fun i => UInt8.ofNat (v.toNat / 256 ^ i) := by
  rw [putUint64, show (List.range 8).reverse = [7, 6, 5, 4, 3, 2, 1, 0] from rfl]
  simp only [List.map_cons, List.map_nil, List.cons.injEq, and_true]
  exact ⟨toUInt8_shiftRight v (i := 7) rfl (by decide), toUInt8_shiftRight v (i := 6) rfl (by decide),
    toUInt8_shiftRight v (i := 5) rfl (by decide), toUInt8_shiftRight v (i := 4) rfl (by decide),
    toUInt8_shiftRight v (i := 3) rfl (by decide), toUInt8_shiftRight v (i := 2) rfl (by decide),
    toUInt8_shiftRight v (i := 1) rfl (by decide), toUInt8_shiftRight v (i := 0) rfl (by decide)⟩

theorem ofBE_putUint64 (v : UInt64) : ofBE (putUint64 v) = v.toNat := by
  rw [putUint64_eq, ofBE_lowBytes]
  exact Nat.mod_eq_of_lt v.toNat_lt

theorem ofBE_drop (l : List UInt8) (j : ℕ) : ofBE (l.drop j) = ofBE l % 256 ^ (l.length - j) := by
  have happ := ofBE_append (l.take j) (l.drop j)
  rw [List.take_append_drop] at happ
  rw [happ, List.length_drop, Nat.mul_add_mod_of_lt]
  simpa only [List.length_drop] using ofBE_lt (l.drop j)

theorem drop_putUint64 {v : UInt64} (hv : 0 < v.toNat) :
    (putUint64 v).drop (8 - intsize v).toNat = toBE v.toNat := by
  have hlen : (putUint64 v).length = 8 := rfl
  have hk := intsize_toNat hv
  have hk8 : (toBE v.toNat).length ≤ 8 := toBE_length_le v.toNat_lt
  have h8 : (8 : UInt64).toNat = 8 := rfl
  have hsub : (8 - intsize v).toNat = 8 - (toBE v.toNat).length := by
    rw [UInt64.toNat_sub_of_le _ _ (by rw [UInt64.le_iff_toNat_le, h8]; omega), hk, h8]
  have hdrop : ((putUint64 v).drop (8 - intsize v).toNat).length = (toBE v.toNat).length := by
    rw [List.length_drop, hlen, hsub]
    omega
  refine ofBE_inj hdrop ?_
  rw [ofBE_drop, ofBE_putUint64, hlen, hsub, ofBE_toBE,
    show 8 - (8 - (toBE v.toNat).length) = (toBE v.toNat).length by omega]
  exact Nat.mod_eq_of_lt (by simpa only [ofBE_toBE] using ofBE_lt (toBE v.toNat))

namespace FastHasher

theorem marshalRlpSize_eq (dst : List UInt8) {size off : ℕ} (hsize : size < 2 ^ 64)
    (hoff : off + 63 < 256) :
    marshalRlpSize dst (UInt64.ofNat size) (UInt8.ofNat off) (UInt8.ofNat (off + 55)) =
      dst ++ encodeLength off size := by
  have hval : (UInt64.ofNat size).toNat = size := UInt64.toNat_ofNat_of_lt' hsize
  unfold marshalRlpSize encodeLength
  by_cases hsmall : size < 56
  · rw [if_pos (by rw [UInt64.lt_iff_toNat_lt, hval]; exact hsmall), if_pos hsmall]
    congr 2
    apply UInt8.toNat_inj.mp
    rw [UInt8.toNat_add, UInt64.toNat_toUInt8, hval, toNat_ofNat_byte (by omega),
      toNat_ofNat_byte (by omega)]
    omega
  · have hpos : 0 < (UInt64.ofNat size).toNat := by omega
    have hk := intsize_toNat hpos
    have hk8 : (toBE size).length ≤ 8 := toBE_length_le hsize
    rw [if_neg (by rw [UInt64.lt_iff_toNat_lt, hval]; exact hsmall), if_neg hsmall, if_pos hk8]
    dsimp only
    rw [drop_putUint64 hpos, hval, List.append_assoc, List.singleton_append]
    congr 2
    apply UInt8.toNat_inj.mp
    rw [UInt8.toNat_add, UInt64.toNat_toUInt8, hk, hval, toNat_ofNat_byte (by omega),
      toNat_ofNat_byte (by omega)]
    omega

theorem marshalItemRlpSize_eq (dst : List UInt8) {size : ℕ} (hsize : size < 2 ^ 64) :
    marshalItemRlpSize dst size = dst ++ encodeLength 128 size :=
  marshalRlpSize_eq dst hsize (by norm_num)

theorem marshalListRlpSize_eq (dst : List UInt8) {size : ℕ} (hsize : size < 2 ^ 64) :
    marshalListRlpSize dst size = dst ++ encodeLength 192 size :=
  marshalRlpSize_eq dst hsize (by norm_num)

end FastHasher

theorem getRlpSize_eq {size : ℕ} (hsize : size < 2 ^ 64) :
    getRlpSize (UInt64.ofNat size) = (encodeLength 128 size).length := by
  have hval : (UInt64.ofNat size).toNat = size := UInt64.toNat_ofNat_of_lt' hsize
  unfold getRlpSize encodeLength
  by_cases hsmall : size < 56
  · rw [if_pos (by rw [UInt64.lt_iff_toNat_lt, hval]; exact hsmall), if_pos hsmall]
    rfl
  · rw [if_neg (by rw [UInt64.lt_iff_toNat_lt, hval]; exact hsmall), if_neg hsmall,
      if_pos (toBE_length_le hsize), intsize_toNat (by omega), hval, List.length_cons]

/-! ## The trees the hasher writes -/

def groupLeaf (v : List UInt8) : Tree := .short [16] (.value v)

def groupTree (h : ℕ → List UInt8) (k a : ℕ) : Tree :=
  let lo := max 1 (16 * a)
  let hi := min k (16 * a + 16)
  if hi ≤ lo then .nil
  else if hi = lo + 1 then .short [UInt8.ofNat (lo % 16), 16] (.value (h lo))
  else .full ((List.range 16).map fun b =>
    if lo ≤ 16 * a + b ∧ 16 * a + b < hi then groupLeaf (h (16 * a + b)) else .nil) .nil

def rootTree (h : ℕ → List UInt8) (k : ℕ) : Tree :=
  if k = 0 then .nil
  else if k = 1 then .short [8, 0, 16] (.value (h 0))
  else .full ((List.range 16).map fun a =>
    if a = 8 then .short [0, 16] (.value (h 0)) else groupTree h k a) .nil

/-- A value the hasher gives a leaf of its own: the leaf is hashed, and the value is no longer
than a Go slice. -/
def Fits (v : List UInt8) : Prop := 32 ≤ v.length ∧ v.length < 2 ^ 63

/-! ## Items -/

theorem encodeList_eq_flatMap (vs : List Value) : encodeList vs = vs.flatMap encode := by
  induction vs with
  | nil => rfl
  | cons v vs ih => rw [encodeList, ih, List.flatMap_cons]

theorem encode_bytes_of_length_ne_one {b : List UInt8} (hb : b.length ≠ 1) :
    encode (.bytes b) = encodeLength 128 b.length ++ b := by
  rw [encode, if_neg]
  intro h
  obtain ⟨x, rfl, -⟩ := (isSingleSmall_iff b).mp h
  exact hb rfl

theorem encode_single_small {x : UInt8} (hx : x.toNat < 128) : encode (.bytes [x]) = [x] := by
  rw [encode, if_pos ((isSingleSmall_iff _).mpr ⟨x, rfl, hx⟩)]

theorem encode_keccak256 (x : List UInt8) :
    encode (.bytes (keccak256 x)) = rlpHashPrefix ++ keccak256 x := by
  rw [encode_bytes_of_length_ne_one (by rw [length_keccak256]; decide), length_keccak256]
  rfl

theorem length_encode_keccak256 (x : List UInt8) : (encode (.bytes (keccak256 x))).length = 33 := by
  rw [encode_keccak256, List.length_append, length_keccak256]
  rfl

theorem encodeLength_length_le (off : ℕ) {n : ℕ} (hn : n < 2 ^ 64) :
    (encodeLength off n).length ≤ 9 := by
  have h8 : (toBE n).length ≤ 8 := toBE_length_le hn
  unfold encodeLength
  split_ifs <;> simp only [List.length_cons, List.length_nil] <;> omega

theorem stored_array_of_le {vs : List Value} (hlen : 32 ≤ (encodeList vs).length) :
    Tree.stored (.array vs) =
      .bytes (keccak256 (encodeLength 192 (encodeList vs).length ++ encodeList vs)) := by
  rw [Tree.stored, Value.len, if_neg (by omega), encode]

theorem item_short_value (key v : List UInt8) (hv : 32 ≤ v.length) :
    (Tree.short key (.value v)).item = .bytes (keccak256 (encodeLength 192
      ((encode (.bytes (encodeCompact key))).length + ((encodeLength 128 v.length).length + v.length)) ++
        encode (.bytes (encodeCompact key)) ++ encodeLength 128 v.length ++ v)) := by
  have hlist : encodeList [.bytes (encodeCompact key), .bytes v] =
      encode (.bytes (encodeCompact key)) ++ (encodeLength 128 v.length ++ v) := by
    rw [encodeList_eq_flatMap, List.flatMap_cons, List.flatMap_cons, List.flatMap_nil,
      List.append_nil, encode_bytes_of_length_ne_one (b := v) (by omega)]
  rw [Tree.item, Tree.item, stored_array_of_le (by simp only [hlist, List.length_append]; omega),
    hlist]
  simp only [List.length_append, List.append_assoc]

theorem item_full_nil {ts : List Tree} (hlen : 32 ≤ (ts.flatMap fun t => encode t.item).length) :
    (Tree.full ts .nil).item = .bytes (keccak256 (encodeLength 192
      ((ts.flatMap fun t => encode t.item).length + 1) ++
        (ts.flatMap fun t => encode t.item) ++ rlpEmptyValue)) := by
  have hlist : encodeList (ts.map Tree.item ++ [Tree.item .nil]) =
      (ts.flatMap fun t => encode t.item) ++ rlpEmptyValue := by
    rw [encodeList_eq_flatMap, List.flatMap_append, List.flatMap_map, Tree.item_nil]
    rfl
  rw [Tree.item, stored_array_of_le (by rw [hlist, List.length_append]; omega), hlist]
  simp only [List.length_append, List.append_assoc]
  rfl

/-! ## Runs of the hasher -/

namespace FastHasher

theorem keyValue_eq {v : List UInt8} (hv : v.length < 2 ^ 63) (key : List UInt8) {s : ℕ}
    (hs : s = getRlpSize (UInt64.ofNat v.length) + key.length + v.length) (hkey : key.length ≤ 3) :
    marshalItemRlpSize (marshalListRlpSize [] s ++ key) v.length ++ v =
      encodeLength 192 (key.length + ((encodeLength 128 v.length).length + v.length)) ++ key ++
        encodeLength 128 v.length ++ v := by
  have hH := encodeLength_length_le 128 (show v.length < 2 ^ 64 by omega)
  rw [getRlpSize_eq (by omega)] at hs
  rw [marshalItemRlpSize_eq _ (by omega), marshalListRlpSize_eq _ (by omega), hs, List.nil_append,
    show (encodeLength 128 v.length).length + key.length + v.length =
      key.length + ((encodeLength 128 v.length).length + v.length) by omega]

theorem leaf_eq (buf : List UInt8) {v : List UInt8} (hv : Fits v) :
    hashAppend (buf ++ rlpHashPrefix) (marshalItemRlpSize
      (marshalListRlpSize [] (getRlpSize (UInt64.ofNat v.length) + 1 + v.length) ++ leafVal)
      v.length ++ v) = buf ++ encode (groupLeaf v).item := by
  have hkey : encode (.bytes (encodeCompact [16])) = leafVal := by decide
  rw [keyValue_eq hv.2 leafVal (by rw [show leafVal.length = 1 from rfl]) (by decide), groupLeaf, item_short_value _ _ hv.1, hkey,
    encode_keccak256, hashAppend, List.append_assoc]

theorem encodeSingle_eq (dst : List UInt8) {v : List UInt8} (hv : Fits v) (b : Bool) :
    encodeSingle (dst ++ rlpHashPrefix) v b =
      dst ++ encode (Tree.short [if b then 1 else 0, 16] (.value v)).item := by
  have hkey : encode (.bytes (encodeCompact [if b then 1 else 0, 16])) =
      if b then oneKey else zeroKey := by
    cases b <;> decide
  have hlen : (if b then oneKey else zeroKey).length = 1 := by cases b <;> rfl
  unfold encodeSingle
  dsimp only
  rw [keyValue_eq hv.2 _ (by rw [hlen]; omega) (by rw [hlen]; omega), item_short_value _ _ hv.1,
    hkey, encode_keccak256, hashAppend, List.append_assoc]

variable (f : FastHasher)

theorem getCb_of_fits {j : ℕ} (hj : j ≤ f.num) (hv : 32 ≤ (f.cb j).length) :
    f.getCb j = some (f.cb j) := by
  rw [getCb, if_neg (by omega)]
  dsimp only
  rw [if_neg (by omega)]

theorem encodeOneItem_eq (hnum : 0 ≤ f.num) (hv : Fits (f.cb 0)) :
    f.encodeOneItem.map Value.bytes = some (Tree.short [8, 0, 16] (.value (f.cb 0))).item := by
  have hkey : encode (.bytes (encodeCompact [8, 0, 16])) = singleKey := by decide
  rw [encodeOneItem, getCb_of_fits f hnum hv.1]
  simp only [Option.bind_eq_bind, Option.bind_some]
  rw [keyValue_eq hv.2 singleKey (by omega) (by decide), item_short_value _ _ hv.1, hkey, hashAppend,
    List.nil_append]
  rfl

theorem deriveLeaves_eq (n : ℕ) : ∀ (i : ℕ) (buf : List UInt8),
    (∀ j, i ≤ j → j < i + n → f.getCb j = some (f.cb j) ∧ Fits (f.cb j)) →
    f.deriveLeaves (i + n) i buf =
      some (buf ++ (List.range' i n).flatMap fun j => encode (groupLeaf (f.cb j)).item) := by
  induction n with
  | zero =>
    intro i buf _
    rw [deriveLeaves, if_neg (by omega), List.range'_zero, List.flatMap_nil, List.append_nil]
    rfl
  | succ n ih =>
    intro i buf hread
    obtain ⟨hcb, hfit⟩ := hread i le_rfl (by omega)
    rw [deriveLeaves, if_pos (by omega), hcb]
    simp only [Option.bind_eq_bind, Option.bind_some]
    rw [leaf_eq buf hfit, show i + (n + 1) = i + 1 + n by omega,
      ih (i + 1) _ fun j hj hjn => hread j (by omega) (by omega), List.range'_succ,
      List.flatMap_cons, List.append_assoc]

end FastHasher

/-! ## Groups -/

theorem flatMap_range'_const {β : Type} (c : List β) (s n : ℕ) :
    ((List.range' s n).flatMap fun _ => c) = (List.replicate n c).flatten := by
  induction n generalizing s with
  | zero => rfl
  | succ n ih => rw [List.range'_succ, List.flatMap_cons, ih, List.replicate_succ, List.flatten_cons]

theorem encode_item_nil : encode (Tree.item .nil) = rlpEmptyValue := by
  rw [Tree.item_nil]
  rfl

theorem flatMap_empty_slots {g : ℕ → Tree} {s n : ℕ} (hg : ∀ b, s ≤ b → b < s + n → g b = .nil) :
    ((List.range' s n).flatMap fun b => encode (g b).item) =
      (List.replicate n rlpEmptyValue).flatten := by
  rw [List.flatMap_congr (g := fun _ => rlpEmptyValue) fun b hb => ?_, flatMap_range'_const]
  rw [List.mem_range'_1] at hb
  rw [hg b hb.1 hb.2, encode_item_nil]

theorem range_eq_three {x y n : ℕ} (hxy : x ≤ y) (hyn : y ≤ n) :
    List.range n = List.range' 0 x ++ List.range' x (y - x) ++ List.range' y (n - y) := by
  have h₁ := List.range'_append_1 (s := 0) (m := x) (n := y - x)
  have h₂ := List.range'_append_1 (s := 0) (m := y) (n := n - y)
  rw [Nat.zero_add, show x + (y - x) = y by omega] at h₁
  rw [Nat.zero_add, show y + (n - y) = n by omega] at h₂
  rw [List.range_eq_range', h₁, h₂]

theorem length_empties (m : ℕ) : (List.replicate m rlpEmptyValue).flatten.length = m := by
  rw [rlpEmptyValue, List.flatten_replicate_singleton, List.length_replicate]

theorem encode_groupLeaf_length {v : List UInt8} (hv : 32 ≤ v.length) :
    (encode (groupLeaf v).item).length = 33 := by
  rw [groupLeaf, item_short_value _ _ hv, length_encode_keccak256]

theorem length_flatMap_range' {β : Type} (g : ℕ → List β) (c n : ℕ) : ∀ s : ℕ,
    (∀ j, s ≤ j → j < s + n → (g j).length = c) → ((List.range' s n).flatMap g).length = c * n := by
  induction n with
  | zero => intro s _; rfl
  | succ n ih =>
    intro s hlen
    rw [List.range'_succ, List.flatMap_cons, List.length_append, hlen s le_rfl (by omega),
      ih (s + 1) fun j hj hjn => hlen j (by omega) (by omega)]
    ring

section Group

variable (h : ℕ → List UInt8) {k a : ℕ}

theorem flatMap_group_children (hlt : max 1 (16 * a) < min k (16 * a + 16)) :
    (((List.range 16).map fun b =>
        if max 1 (16 * a) ≤ 16 * a + b ∧ 16 * a + b < min k (16 * a + 16)
        then groupLeaf (h (16 * a + b)) else .nil).flatMap fun t => encode t.item) =
      (if max 1 (16 * a) = 1 then rlpEmptyValue else []) ++
        ((List.range' (max 1 (16 * a)) (min k (16 * a + 16) - max 1 (16 * a))).flatMap
          fun j => encode (groupLeaf (h j)).item) ++
        (List.replicate (16 * a + 16 - min k (16 * a + 16)) rlpEmptyValue).flatten := by
  have hlo : 16 * a ≤ max 1 (16 * a) := le_max_right _ _
  have hhi : min k (16 * a + 16) ≤ 16 * a + 16 := min_le_right _ _
  rw [List.flatMap_map, range_eq_three (x := max 1 (16 * a) - 16 * a)
    (y := min k (16 * a + 16) - 16 * a) (by omega) (by omega), List.flatMap_append,
    List.flatMap_append]
  congr 2
  · rw [flatMap_empty_slots fun b _ hb => if_neg (by omega)]
    by_cases hone : max 1 (16 * a) = 1
    · rw [if_pos hone, show max 1 (16 * a) - 16 * a = 1 by omega]
      rfl
    · rw [if_neg hone, show max 1 (16 * a) - 16 * a = 0 by omega]
      rfl
  · have hshift : List.range' (max 1 (16 * a)) (min k (16 * a + 16) - max 1 (16 * a)) =
        (List.range' (max 1 (16 * a) - 16 * a) (min k (16 * a + 16) - max 1 (16 * a))).map
          fun x => 16 * a + x := by
      rw [List.map_add_range', show 16 * a + (max 1 (16 * a) - 16 * a) = max 1 (16 * a) by omega]
    rw [hshift, List.flatMap_map, show min k (16 * a + 16) - 16 * a - (max 1 (16 * a) - 16 * a) =
      min k (16 * a + 16) - max 1 (16 * a) by omega]
    apply List.flatMap_congr
    intro b hb
    rw [List.mem_range'_1] at hb
    rw [if_pos (by omega)]
  · rw [flatMap_empty_slots fun b hb _ => if_neg (by omega),
      show 16 - (min k (16 * a + 16) - 16 * a) = 16 * a + 16 - min k (16 * a + 16) by omega]

theorem groupKey_eq (a : ℕ) :
    (if (max 1 (16 * a) == 1) = true then (1 : UInt8) else 0) = UInt8.ofNat (max 1 (16 * a) % 16) := by
  rcases Nat.eq_zero_or_pos a with rfl | ha
  · rfl
  · rw [show max 1 (16 * a) = 16 * a by omega, Nat.mul_mod_right]
    have hne : (16 * a == 1) = false := beq_false_of_ne (by omega)
    rw [hne]
    rfl

theorem groupTree_of_le (hle : min k (16 * a + 16) ≤ max 1 (16 * a)) : groupTree h k a = .nil := by
  unfold groupTree
  dsimp only
  rw [if_pos hle]

theorem length_group_children (hlt : max 1 (16 * a) < min k (16 * a + 16))
    (hfit : ∀ j, max 1 (16 * a) ≤ j → j < min k (16 * a + 16) → 32 ≤ (h j).length) :
    (((List.range 16).map fun b =>
        if max 1 (16 * a) ≤ 16 * a + b ∧ 16 * a + b < min k (16 * a + 16)
        then groupLeaf (h (16 * a + b)) else .nil).flatMap fun t => encode t.item).length =
      (if max 1 (16 * a) = 1 then 1 else 0) + 33 * (min k (16 * a + 16) - max 1 (16 * a)) +
        (16 * a + 16 - min k (16 * a + 16)) := by
  rw [flatMap_group_children h hlt, List.length_append, List.length_append,
    length_flatMap_range' _ 33 _ _ fun j hj hjn => encode_groupLeaf_length (hfit j hj (by omega)),
    length_empties]
  split_ifs <;> rfl

theorem encode_groupTree_length (hlt : max 1 (16 * a) < min k (16 * a + 16))
    (hfit : ∀ j, max 1 (16 * a) ≤ j → j < min k (16 * a + 16) → 32 ≤ (h j).length) :
    (encode (groupTree h k a).item).length = 33 := by
  have hlen := length_group_children h hlt hfit
  unfold groupTree
  dsimp only
  rw [if_neg (by omega)]
  split_ifs with hone
  · rw [item_short_value _ _ (hfit _ le_rfl hlt), length_encode_keccak256]
  · rw [item_full_nil (by split_ifs at hlen <;> omega), length_encode_keccak256]

end Group

namespace FastHasher

variable (f : FastHasher)

theorem pad_eq {a k : ℕ} (buf : List UInt8) (hlt : max 1 (16 * a) < min k (16 * a + 16)) :
    (if min k (16 * a + 16) - max 1 (16 * a) < 16 then
      buf ++ (List.replicate ((if max 1 (16 * a) ≠ 1 then 16 else 15) -
        (min k (16 * a + 16) - max 1 (16 * a))) rlpEmptyValue).flatten
      else buf) =
    buf ++ (List.replicate (16 * a + 16 - min k (16 * a + 16)) rlpEmptyValue).flatten := by
  split_ifs with hlt16 hone
  · rw [show 16 - (min k (16 * a + 16) - max 1 (16 * a)) = 16 * a + 16 - min k (16 * a + 16) by
      omega]
  · rw [show 15 - (min k (16 * a + 16) - max 1 (16 * a)) = 16 * a + 16 - min k (16 * a + 16) by
      omega]
  · rw [show 16 * a + 16 - min k (16 * a + 16) = 0 by omega, List.replicate_zero,
      List.flatten_nil, List.append_nil]

theorem deriveGroup_eq {k a : ℕ} (dst : List UInt8) (hlt : max 1 (16 * a) < min k (16 * a + 16))
    (hread : ∀ j, max 1 (16 * a) ≤ j → j < min k (16 * a + 16) →
      f.getCb j = some (f.cb j) ∧ Fits (f.cb j)) :
    f.deriveGroup (dst ++ rlpHashPrefix) (max 1 (16 * a)) (min k (16 * a + 16)) =
      some (dst ++ encode (groupTree f.cb k a).item) := by
  unfold deriveGroup groupTree
  dsimp only
  rw [if_neg (show ¬ min k (16 * a + 16) ≤ max 1 (16 * a) by omega)]
  by_cases hone : min k (16 * a + 16) - max 1 (16 * a) = 1
  · obtain ⟨hcb, hfit⟩ := hread (max 1 (16 * a)) le_rfl hlt
    rw [if_pos hone, if_pos (show min k (16 * a + 16) = max 1 (16 * a) + 1 by omega), hcb]
    simp only [Option.bind_eq_bind, Option.bind_some]
    rw [encodeSingle_eq dst hfit, groupKey_eq]
    rfl
  · have hleaves := f.deriveLeaves_eq (min k (16 * a + 16) - max 1 (16 * a)) (max 1 (16 * a))
      (if max 1 (16 * a) = 1 then rlpEmptyValue else []) fun j hj hjn => hread j hj (by omega)
    rw [show max 1 (16 * a) + (min k (16 * a + 16) - max 1 (16 * a)) = min k (16 * a + 16) by
      omega] at hleaves
    have hF := length_group_children f.cb hlt fun j hj hjn => (hread j hj hjn).2.1
    have hpre : (if max 1 (16 * a) = 1 then 1 else 0) ≤ 1 := by split_ifs <;> omega
    rw [if_neg hone, if_neg (show ¬ min k (16 * a + 16) = max 1 (16 * a) + 1 by omega), hleaves]
    simp only [Option.bind_eq_bind, Option.bind_some]
    rw [pad_eq _ hlt, ← flatMap_group_children f.cb hlt, item_full_nil (by omega),
      encode_keccak256, marshalListRlpSize_eq _
        (by rw [List.length_append, show rlpEmptyValue.length = 1 from rfl]; omega),
      hashAppend, List.length_append, List.nil_append]
    simp only [List.append_assoc]
    rfl

theorem ini_eq (a : ℕ) : (if 16 * a = 0 then 1 else 16 * a) = max 1 (16 * a) := by
  split_ifs <;> omega

theorem deriveGroups_eq {k : ℕ} (hk : 2 ≤ k)
    (hread : ∀ j, 1 ≤ j → j < k → f.getCb j = some (f.cb j) ∧ Fits (f.cb j)) (n : ℕ) :
    ∀ a dst, (k + 15) / 16 = a + n →
      f.deriveGroups k (16 * a) dst =
        some (dst ++ (List.range' a n).flatMap fun b => encode (groupTree f.cb k b).item) := by
  induction n with
  | zero =>
    intro a dst hG
    rw [deriveGroups, if_neg (by omega), List.range'_zero, List.flatMap_nil, List.append_nil]
    rfl
  | succ n ih =>
    intro a dst hG
    have hlt : max 1 (16 * a) < min k (16 * a + 16) := by omega
    rw [deriveGroups, if_pos (by omega)]
    dsimp only
    rw [ini_eq, deriveGroup_eq f dst hlt fun j hj hjk => hread j (by omega) (by omega)]
    simp only [Option.bind_eq_bind, Option.bind_some]
    rw [show 16 * a + 16 = 16 * (a + 1) by ring, ih (a + 1) _ (by omega), List.range'_succ,
      List.flatMap_cons, List.append_assoc]

end FastHasher

theorem flatMap_root_children (h : ℕ → List UInt8) {k : ℕ} (hk : 2 ≤ k) (hk128 : k ≤ 128) :
    (((List.range 16).map fun a =>
        if a = 8 then Tree.short [0, 16] (.value (h 0)) else groupTree h k a).flatMap
          fun t => encode t.item) ++ rlpEmptyValue =
      (List.range' 0 ((k + 15) / 16)).flatMap (fun b => encode (groupTree h k b).item) ++
        (List.replicate ((128 - k) / 16) rlpEmptyValue).flatten ++
        encode (Tree.short [0, 16] (.value (h 0))).item ++
        (List.replicate 8 rlpEmptyValue).flatten := by
  rw [List.flatMap_map, range_eq_three (x := (k + 15) / 16) (y := 8) (by omega) (by omega),
    List.flatMap_append, List.flatMap_append, show 16 - 8 = 7 + 1 from rfl, List.range'_succ,
    List.flatMap_cons, if_pos rfl]
  have hgroups : ((List.range' 0 ((k + 15) / 16)).flatMap fun a => encode (if a = 8 then
      Tree.short [0, 16] (.value (h 0)) else groupTree h k a).item) =
      (List.range' 0 ((k + 15) / 16)).flatMap fun b => encode (groupTree h k b).item := by
    apply List.flatMap_congr
    intro a ha
    rw [List.mem_range'_1] at ha
    rw [if_neg (by omega)]
  have hmid : ((List.range' ((k + 15) / 16) (8 - (k + 15) / 16)).flatMap fun a => encode (if a = 8
      then Tree.short [0, 16] (.value (h 0)) else groupTree h k a).item) =
      (List.replicate ((128 - k) / 16) rlpEmptyValue).flatten := by
    rw [flatMap_empty_slots fun a ha _ => ?_, show 8 - (k + 15) / 16 = (128 - k) / 16 by omega]
    rw [if_neg (by omega), groupTree_of_le h (by omega)]
  have htail : ((List.range' (8 + 1) 7).flatMap fun a => encode (if a = 8
      then Tree.short [0, 16] (.value (h 0)) else groupTree h k a).item) =
      (List.replicate 7 rlpEmptyValue).flatten := by
    rw [flatMap_empty_slots fun a ha _ => ?_]
    rw [if_neg (by omega), groupTree_of_le h (by omega)]
  have hlast : (List.replicate 7 rlpEmptyValue).flatten ++ rlpEmptyValue =
      (List.replicate 8 rlpEmptyValue).flatten := rfl
  rw [hgroups, hmid, htail, ← hlast]
  simp only [List.append_assoc]

namespace FastHasher

theorem hash_eq {num : ℕ} {h : ℕ → List UInt8} (h1 : 1 ≤ num) (h128 : num ≤ 128)
    (hfit : ∀ i < num, Fits (h i)) :
    (hash num h).map Value.bytes = some (rootTree h num).item := by
  have hread : ∀ j, j < num → FastHasher.getCb ⟨num, h⟩ j = some (h j) ∧ Fits (h j) :=
    fun j hj => ⟨getCb_of_fits ⟨num, h⟩ (Nat.le_of_lt hj) (hfit j hj).1, hfit j hj⟩
  unfold hash rootTree
  rw [if_neg (show ¬ num = 0 by omega)]
  by_cases hone : num = 1
  · subst hone
    rw [if_pos rfl, if_pos rfl]
    exact encodeOneItem_eq ⟨1, h⟩ (Nat.zero_le _) (hfit 0 Nat.one_pos)
  rw [if_neg hone, if_neg hone]
  dsimp only
  have hgroups := deriveGroups_eq ⟨num, h⟩ (show 2 ≤ num by omega)
    (fun j _ hj => hread j hj) ((num + 15) / 16) 0 [] (by omega)
  rw [Nat.mul_zero] at hgroups
  rw [min_eq_left h128, hgroups]
  simp only [Option.bind_eq_bind, Option.bind_some]
  rw [(hread 0 (by omega)).1]
  simp only [Option.bind_some]
  rw [encodeSingle_eq _ (hfit 0 (by omega)) false, show (if false = true then (1 : UInt8) else 0) = 0
    from rfl, List.nil_append, ← flatMap_root_children h (by omega) h128]
  have hgroups : ((List.range' 0 ((num + 15) / 16)).flatMap fun b =>
      encode (groupTree h num b).item).length = 33 * ((num + 15) / 16) :=
    length_flatMap_range' _ 33 _ _ fun b _ hb =>
      encode_groupTree_length h (by omega) fun j hj hjk => (hfit j (by omega)).1
  have hzero : (encode (Tree.short [0, 16] (.value (h 0))).item).length = 33 := by
    rw [item_short_value _ _ (hfit 0 (by omega)).1, length_encode_keccak256]
  have hempty : rlpEmptyValue.length = 1 := rfl
  have hlen := congrArg List.length (flatMap_root_children h (show 2 ≤ num by omega) h128)
  simp only [List.length_append, hgroups, hzero, length_empties, hempty] at hlen
  rw [item_full_nil (by omega), marshalListRlpSize_eq _ (by rw [List.length_append]; omega),
    hashAppend, List.nil_append, List.length_append, hempty]
  simp only [List.append_assoc]
  rfl

theorem hash_length {num : ℕ} {h : ℕ → List UInt8} {r : List UInt8} (hr : hash num h = some r) :
    r.length = 32 := by
  unfold hash encodeOneItem at hr
  split_ifs at hr <;>
  · simp only [Option.bind_eq_bind, Option.bind_eq_some_iff, Option.pure_def,
      Option.some.injEq] at hr
    obtain ⟨_, _, hr⟩ := hr
    first
    | (rw [← hr, hashAppend, List.nil_append, length_keccak256])
    | (obtain ⟨_, _, rfl⟩ := hr
       rw [hashAppend, List.nil_append, length_keccak256])

/-! ### A value without a leaf of its own makes the hasher fail -/

variable {f : FastHasher} {j : ℕ}

theorem deriveLeaves_eq_none (hj : f.getCb j = none) (n : ℕ) : ∀ (i : ℕ) (buf : List UInt8),
    i ≤ j → j < i + n → f.deriveLeaves (i + n) i buf = none := by
  induction n with
  | zero => intro i buf hij hjn; omega
  | succ n ih =>
    intro i buf hij hjn
    rw [deriveLeaves, if_pos (by omega)]
    rcases Nat.eq_or_lt_of_le hij with rfl | hlt
    · rw [hj]
      rfl
    · cases hcb : f.getCb i with
      | none => rfl
      | some v =>
        simp only [Option.bind_eq_bind, Option.bind_some]
        rw [show i + (n + 1) = i + 1 + n by omega]
        exact ih (i + 1) _ (by omega) (by omega)

theorem deriveGroup_eq_none (hj : f.getCb j = none) {start stop : ℕ} (dst : List UInt8)
    (hlo : start ≤ j) (hhi : j < stop) : f.deriveGroup dst start stop = none := by
  unfold deriveGroup
  dsimp only
  by_cases hone : stop - start = 1
  · rw [if_pos hone, show start = j by omega, hj]
    rfl
  · rw [if_neg hone]
    have hnone := deriveLeaves_eq_none hj (stop - start) start
      (if start = 1 then rlpEmptyValue else []) hlo (by omega)
    rw [show start + (stop - start) = stop by omega] at hnone
    rw [hnone]
    rfl

theorem deriveGroups_eq_none (hj : f.getCb j = none) {k : ℕ} (hj1 : 1 ≤ j) (hjk : j < k)
    (n : ℕ) : ∀ a dst, (k + 15) / 16 = a + n → 16 * a ≤ j → f.deriveGroups k (16 * a) dst = none := by
  induction n with
  | zero => intro a dst hG haj; omega
  | succ n ih =>
    intro a dst hG haj
    rw [deriveGroups, if_pos (by omega)]
    dsimp only
    rw [ini_eq]
    by_cases hin : j < 16 * a + 16
    · rw [deriveGroup_eq_none hj _ (by omega) (by omega)]
      rfl
    · cases hg : f.deriveGroup (dst ++ rlpHashPrefix) (max 1 (16 * a)) (min k (16 * a + 16)) with
      | none => rfl
      | some d =>
        simp only [Option.bind_eq_bind, Option.bind_some]
        rw [show 16 * a + 16 = 16 * (a + 1) by ring]
        exact ih (a + 1) d (by omega) (by omega)

theorem hash_eq_none {num : ℕ} {h : ℕ → List UInt8} (h128 : num ≤ 128) (hj : j < num)
    (hshort : (h j).length < 32) : hash num h = none := by
  have hcb : FastHasher.getCb ⟨num, h⟩ j = none := by
    rw [getCb, if_neg (show ¬ j > num by omega)]
    dsimp only
    rw [if_pos hshort]
  unfold hash
  dsimp only
  split_ifs with hone
  · obtain rfl : j = 0 := by omega
    rw [encodeOneItem, hcb]
    rfl
  rw [min_eq_left h128]
  rcases Nat.eq_zero_or_pos j with rfl | hj1
  · cases hg : FastHasher.deriveGroups ⟨num, h⟩ num 0 [] with
    | none => rfl
    | some d =>
      simp only [Option.bind_eq_bind, Option.bind_some]
      rw [hcb]
      rfl
  · have hnone := deriveGroups_eq_none hcb hj1 hj ((num + 15) / 16) 0 [] (by omega) (by omega)
    rw [Nat.mul_zero] at hnone
    rw [hnone]
    rfl

end FastHasher

end BuildRoot
