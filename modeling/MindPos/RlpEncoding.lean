import Mathlib

/-! # Recursive length prefix encoding

Items are byte strings or lists of items. Lengths below 56 sit in the prefix byte, longer
ones follow it in big-endian form, as `umbracle/fastrlp` writes them. A length of `2 ^ 64` or
more, beyond any Go slice and beyond fastrlp, is written here after eight zero length bytes as a
varint, an escape of this model alone, so that the decoder inverts the encoder on every item;
on eight zero length bytes the decoder reads that escape. -/
/-! ## Binding in `Except` -/

@[simp] theorem Except.ok_bind_eq {ε α β : Type} (a : α) (f : α → Except ε β) :
    (Except.ok a >>= f) = f a := rfl

@[simp] theorem Except.error_bind_eq {ε α β : Type} (e : ε) (f : α → Except ε β) :
    (Except.error e >>= f) = Except.error e := rfl

@[simp] theorem Except.pure_eq_ok {ε α : Type} (a : α) : (pure a : Except ε α) = .ok a := rfl

@[simp] theorem Except.throw_eq_error {ε α : Type} (e : ε) : (throw e : Except ε α) = .error e := rfl

@[simp] theorem Except.mapError_ok {ε ε' α : Type} (f : ε → ε') (a : α) :
    (Except.ok a : Except ε α).mapError f = .ok a := rfl

@[simp] theorem Except.mapError_error {ε ε' α : Type} (f : ε → ε') (e : ε) :
    (Except.error e : Except ε α).mapError f = .error (f e) := rfl

theorem Except.mapError_eq_ok {ε ε' α : Type} {f : ε → ε'} {x : Except ε α} {a : α} :
    x.mapError f = .ok a ↔ x = .ok a := by
  cases x <;> simp

theorem Except.bind_eq_ok_iff {ε α β : Type} {x : Except ε α} {f : α → Except ε β} {b : β} :
    (x >>= f) = .ok b ↔ ∃ a, x = .ok a ∧ f a = .ok b := by
  cases x <;> simp

namespace RlpEncoding

inductive Value where
  | bytes (b : List UInt8)
  | array (elems : List Value)
  deriving Repr

mutual
def Value.decEq : (a b : Value) → Decidable (a = b)
  | .bytes x, .bytes y =>
    if h : x = y then isTrue (h ▸ rfl) else isFalse fun e => h (Value.bytes.inj e)
  | .array xs, .array ys =>
    match Value.decEqList xs ys with
    | isTrue h => isTrue (h ▸ rfl)
    | isFalse h => isFalse fun e => h (Value.array.inj e)
  | .bytes _, .array _ => isFalse Value.noConfusion
  | .array _, .bytes _ => isFalse Value.noConfusion
def Value.decEqList : (a b : List Value) → Decidable (a = b)
  | [], [] => isTrue rfl
  | x :: xs, y :: ys =>
    match Value.decEq x y, Value.decEqList xs ys with
    | isTrue h, isTrue k => isTrue (h ▸ k ▸ rfl)
    | isFalse h, _ => isFalse fun e => h (List.cons.inj e).1
    | _, isFalse k => isFalse fun e => k (List.cons.inj e).2
  | [], _ :: _ => isFalse (by simp)
  | _ :: _, [] => isFalse (by simp)
end

instance : DecidableEq Value := Value.decEq

/-! ## Big-endian numbers -/

def toBEAux : Nat → Nat → List UInt8 → List UInt8
  | 0, _, acc => acc
  | fuel + 1, n, acc =>
    if n = 0 then acc else toBEAux fuel (n / 256) (UInt8.ofNat (n % 256) :: acc)

def toBE (n : Nat) : List UInt8 := toBEAux n n []

def ofBE (bs : List UInt8) : Nat := bs.foldl (fun acc b => acc * 256 + b.toNat) 0

@[simp] theorem ofBE_nil : ofBE [] = 0 := rfl

theorem foldl_be (bs : List UInt8) (a : Nat) :
    bs.foldl (fun acc b => acc * 256 + b.toNat) a = a * 256 ^ bs.length + ofBE bs := by
  induction bs generalizing a with
  | nil => simp [ofBE]
  | cons b bs ih =>
    simp only [List.foldl_cons, ofBE, List.length_cons]
    rw [ih, ih (0 * 256 + b.toNat)]
    ring

theorem ofBE_cons (b : UInt8) (bs : List UInt8) :
    ofBE (b :: bs) = b.toNat * 256 ^ bs.length + ofBE bs := by
  show List.foldl _ 0 (b :: bs) = _
  rw [List.foldl_cons, foldl_be]
  simp

theorem toNat_ofNat_byte {n : Nat} (h : n < 256) : (UInt8.ofNat n).toNat = n :=
  UInt8.toNat_ofNat_of_lt' h

theorem ofBE_toBEAux (fuel n : Nat) (acc : List UInt8) (h : n ≤ fuel) :
    ofBE (toBEAux fuel n acc) = n * 256 ^ acc.length + ofBE acc := by
  induction fuel generalizing n acc with
  | zero => simp [toBEAux, show n = 0 by omega]
  | succ fuel ih =>
    simp only [toBEAux]
    split
    · simp [*]
    · rw [ih _ _ (by omega), ofBE_cons, List.length_cons,
        toNat_ofNat_byte (Nat.mod_lt _ (by decide))]
      calc n / 256 * 256 ^ (acc.length + 1) + (n % 256 * 256 ^ acc.length + ofBE acc)
          = (256 * (n / 256) + n % 256) * 256 ^ acc.length + ofBE acc := by ring
        _ = n * 256 ^ acc.length + ofBE acc := by rw [Nat.div_add_mod]

@[simp] theorem ofBE_toBE (n : Nat) : ofBE (toBE n) = n := by
  have h := ofBE_toBEAux n n [] le_rfl
  rw [List.length_nil, pow_zero, mul_one, show ofBE [] = 0 from rfl, Nat.add_zero] at h
  exact h

theorem toBEAux_length (fuel n k : Nat) (acc : List UInt8) (hn : n < 256 ^ k) :
    (toBEAux fuel n acc).length ≤ k + acc.length := by
  induction fuel generalizing n k acc with
  | zero => simp [toBEAux]
  | succ fuel ih =>
    simp only [toBEAux]
    split
    · omega
    · cases k with
      | zero => simp at hn; omega
      | succ k =>
        have hk : n / 256 < 256 ^ k := by
          rw [Nat.div_lt_iff_lt_mul (by decide), ← pow_succ]; exact hn
        have := ih (n / 256) k (UInt8.ofNat (n % 256) :: acc) hk
        simp only [List.length_cons] at this
        omega

theorem toBE_length_le {n k : Nat} (hn : n < 256 ^ k) : (toBE n).length ≤ k :=
  toBEAux_length n n k [] hn

theorem toBE_ne_nil {n : Nat} (hn : 0 < n) : toBE n ≠ [] := by
  intro h
  have := ofBE_toBE n
  rw [h] at this
  simp [ofBE] at this
  omega

/-! ## Varints, for lengths with more than eight big-endian bytes -/

def encodeVarintAux : Nat → Nat → List UInt8
  | 0, _ => []
  | fuel + 1, n =>
    if n < 128 then [UInt8.ofNat n] else UInt8.ofNat (n % 128 + 128) :: encodeVarintAux fuel (n / 128)

def encodeVarint (n : Nat) : List UInt8 := encodeVarintAux (n + 1) n

def decodeVarint : List UInt8 → Option (Nat × List UInt8)
  | [] => none
  | b :: rest =>
    if b.toNat < 128 then some (b.toNat, rest)
    else (decodeVarint rest).map fun (m, r) => (b.toNat - 128 + 128 * m, r)

theorem decodeVarint_encodeVarintAux (fuel n : Nat) (rest : List UInt8) (h : n < fuel) :
    decodeVarint (encodeVarintAux fuel n ++ rest) = some (n, rest) := by
  induction fuel generalizing n with
  | zero => omega
  | succ fuel ih =>
    simp only [encodeVarintAux]
    split
    · rename_i hn
      simp [decodeVarint, toNat_ofNat_byte (show n < 256 by omega), hn]
    · have hb := toNat_ofNat_byte (show n % 128 + 128 < 256 by omega)
      rw [List.cons_append]
      simp only [decodeVarint, hb, ih (n / 128) (by omega), Option.map_some,
        if_neg (show ¬ n % 128 + 128 < 128 by omega), Option.some.injEq, Prod.mk.injEq, and_true]
      omega

theorem decodeVarint_encodeVarint (n : Nat) (rest : List UInt8) :
    decodeVarint (encodeVarint n ++ rest) = some (n, rest) :=
  decodeVarint_encodeVarintAux (n + 1) n rest (by omega)

/-! ## Length prefixes -/

def encodeLength (offset len : Nat) : List UInt8 :=
  if len < 56 then [UInt8.ofNat (offset + len)]
  else if (toBE len).length ≤ 8 then UInt8.ofNat (offset + 55 + (toBE len).length) :: toBE len
  else UInt8.ofNat (offset + 63) :: (List.replicate 8 0 ++ encodeVarint len)

def decodeLength (offset : Nat) (first : UInt8) (rest : List UInt8) : Option (Nat × List UInt8) :=
  let small := first.toNat - offset
  if small < 56 then some (small, rest)
  else
    let k := small - 55
    if rest.length < k then none
    else
      let len := ofBE (rest.take k)
      if k = 8 ∧ len = 0 then decodeVarint (rest.drop 8) else some (len, rest.drop k)

theorem ofBE_replicate_zero (k : Nat) : ofBE (List.replicate k 0) = 0 := by
  induction k with
  | zero => rfl
  | succ k ih => rw [List.replicate_succ, ofBE_cons, ih]; simp

theorem ofBE_append (a b : List UInt8) : ofBE (a ++ b) = ofBE a * 256 ^ b.length + ofBE b := by
  show List.foldl _ 0 (a ++ b) = _
  rw [List.foldl_append, foldl_be]
  rfl

theorem ofBE_lt (bs : List UInt8) : ofBE bs < 256 ^ bs.length := by
  induction bs with
  | nil => simp [ofBE]
  | cons b bs ih =>
    rw [ofBE_cons, List.length_cons, pow_succ]
    have hb : b.toNat < 256 := b.toNat_lt
    calc b.toNat * 256 ^ bs.length + ofBE bs < (b.toNat + 1) * 256 ^ bs.length := by
          rw [add_mul, one_mul]; omega
      _ ≤ 256 * 256 ^ bs.length := Nat.mul_le_mul_right _ hb
      _ = 256 ^ bs.length * 256 := mul_comm _ _

theorem ofBE_inj : ∀ {a b : List UInt8}, a.length = b.length → ofBE a = ofBE b → a = b
  | [], [], _, _ => rfl
  | [], _ :: _, hlen, _ => by simp at hlen
  | _ :: _, [], hlen, _ => by simp at hlen
  | x :: as, y :: bs, hlen, h => by
    have hlen' : as.length = bs.length := by simpa using hlen
    rw [ofBE_cons, ofBE_cons, hlen'] at h
    have has : ofBE as < 256 ^ bs.length := hlen' ▸ ofBE_lt as
    have hbs := ofBE_lt bs
    have hdivmod : ∀ q r, r < 256 ^ bs.length →
        (q * 256 ^ bs.length + r) / 256 ^ bs.length = q ∧
          (q * 256 ^ bs.length + r) % 256 ^ bs.length = r := by
      intro q r hr
      rw [Nat.add_comm]
      exact ⟨by rw [Nat.add_mul_div_right _ _ (pow_pos (by decide) _), Nat.div_eq_of_lt hr,
        Nat.zero_add], by rw [Nat.add_mul_mod_self_right, Nat.mod_eq_of_lt hr]⟩
    have hxy : x = y := UInt8.toNat_inj.mp
      (by rw [← (hdivmod x.toNat _ has).1, h, (hdivmod _ _ hbs).1])
    have hrest : as = bs := ofBE_inj hlen'
      (by rw [← (hdivmod x.toNat _ has).2, h, (hdivmod _ _ hbs).2])
    rw [hxy, hrest]

theorem encodeLength_spec (offset len : Nat) (hoff : offset = 128 ∨ offset = 192) :
    ∃ hd tl, encodeLength offset len = hd :: tl ∧ offset ≤ hd.toNat ∧ hd.toNat < offset + 64 ∧
      ∀ rest, decodeLength offset hd (tl ++ rest) = some (len, rest) := by
  unfold encodeLength
  by_cases hsmall : len < 56
  · have hhd := toNat_ofNat_byte (show offset + len < 256 by omega)
    refine ⟨_, _, if_pos hsmall, by omega, by omega, fun rest => ?_⟩
    simp only [decodeLength, hhd, Nat.add_sub_cancel_left, hsmall, if_true, List.nil_append]
  by_cases hshort : (toBE len).length ≤ 8
  · have hpos : 0 < (toBE len).length := List.length_pos_iff.mpr (toBE_ne_nil (by omega))
    have hhd := toNat_ofNat_byte (show offset + 55 + (toBE len).length < 256 by omega)
    refine ⟨_, _, by rw [if_neg hsmall, if_pos hshort], by omega, by omega, fun rest => ?_⟩
    have hk : offset + 55 + (toBE len).length - offset - 55 = (toBE len).length := by omega
    simp only [decodeLength, hhd, hk, if_neg (show ¬ offset + 55 + (toBE len).length - offset < 56
      by omega), List.length_append, if_neg (show ¬ (toBE len).length + rest.length <
      (toBE len).length by omega), List.take_left', List.drop_left', ofBE_toBE,
      if_neg (show ¬ ((toBE len).length = 8 ∧ len = 0) by omega)]
  · have hhd := toNat_ofNat_byte (show offset + 63 < 256 by omega)
    refine ⟨_, _, by rw [if_neg hsmall, if_neg hshort], by omega, by omega, fun rest => ?_⟩
    have hk : offset + 63 - offset - 55 = 8 := by omega
    simp only [decodeLength, hhd, hk, if_neg (show ¬ offset + 63 - offset < 56 by omega),
      List.append_assoc, List.length_append, List.length_replicate,
      if_neg (show ¬ 8 + ((encodeVarint len).length + rest.length) < 8 by omega),
      List.take_left' List.length_replicate, List.drop_left' List.length_replicate,
      ofBE_replicate_zero, and_self, if_true, decodeVarint_encodeVarint]

/-! ## Items -/

def isSingleSmall : List UInt8 → Bool
  | [x] => x.toNat < 128
  | _ => false

mutual
def encode : Value → List UInt8
  | .bytes b => if isSingleSmall b then b else encodeLength 128 b.length ++ b
  | .array vs => encodeLength 192 (encodeList vs).length ++ encodeList vs
def encodeList : List Value → List UInt8
  | [] => []
  | v :: vs => encode v ++ encodeList vs
end

def decodePayload (offset : Nat) (first : UInt8) (rest : List UInt8) :
    Option (List UInt8 × List UInt8) :=
  (decodeLength offset first rest).bind fun (len, r) =>
    if r.length < len then none else some (r.take len, r.drop len)

mutual
def decodeAux : Nat → List UInt8 → Option (Value × List UInt8)
  | 0, _ => none
  | _ + 1, [] => none
  | fuel + 1, b :: rest =>
    if b.toNat < 128 then some (.bytes [b], rest)
    else if b.toNat < 192 then (decodePayload 128 b rest).map fun (p, r) => (.bytes p, r)
    else (decodePayload 192 b rest).bind fun (p, r) =>
      (decodeItems fuel p).map fun items => (.array items, r)
def decodeItems : Nat → List UInt8 → Option (List Value)
  | 0, _ => none
  | _ + 1, [] => some []
  | fuel + 1, b :: bs =>
    (decodeAux fuel (b :: bs)).bind fun (v, r) => (decodeItems fuel r).map fun vs => v :: vs
end

theorem decodePayload_spec {offset len : Nat} {first : UInt8} {tl : List UInt8}
    (hdec : ∀ rest, decodeLength offset first (tl ++ rest) = some (len, rest))
    (p rest : List UInt8) (hp : p.length = len) :
    decodePayload offset first (tl ++ p ++ rest) = some (p, rest) := by
  rw [decodePayload, List.append_assoc, hdec, Option.bind_some]
  simp [hp]

theorem encode_length_pos (v : Value) : 0 < (encode v).length := by
  cases v with
  | bytes b =>
    obtain ⟨hd, tl, he, -⟩ := encodeLength_spec 128 b.length (.inl rfl)
    simp only [encode]
    split
    · rename_i h
      match b, h with
      | [_], _ => simp
    · simp [he]
  | array vs =>
    obtain ⟨hd, tl, he, -⟩ := encodeLength_spec 192 (encodeList vs).length (.inr rfl)
    simp [encode, he]

theorem encode_array_head (vs : List Value) :
    ∃ hd tl, encode (.array vs) = hd :: tl ∧ 192 ≤ hd.toNat := by
  obtain ⟨hd, tl, he, hhd, -⟩ := encodeLength_spec 192 (encodeList vs).length (.inr rfl)
  exact ⟨hd, tl ++ encodeList vs, by simp [encode, he], hhd⟩

theorem isSingleSmall_iff (b : List UInt8) :
    isSingleSmall b = true ↔ ∃ x, b = [x] ∧ x.toNat < 128 := by
  match b with
  | [] => simp [isSingleSmall]
  | [x] => simp [isSingleSmall]
  | _ :: _ :: _ => simp [isSingleSmall]

theorem decodeAux_encode_bytes (b : List UInt8) (fuel : Nat) (rest : List UInt8) :
    decodeAux (fuel + 1) (encode (.bytes b) ++ rest) = some (.bytes b, rest) := by
  rw [encode]
  by_cases hs : isSingleSmall b
  · obtain ⟨x, rfl, hx⟩ := (isSingleSmall_iff b).mp hs
    rw [if_pos hs, List.singleton_append, decodeAux, if_pos hx]
  · obtain ⟨hd, tl, he, hlo, hhi, hdec⟩ := encodeLength_spec 128 b.length (.inl rfl)
    rw [if_neg hs, he, List.cons_append, List.cons_append, decodeAux,
      if_neg (show ¬ hd.toNat < 128 by omega), if_pos (show hd.toNat < 192 by omega),
      decodePayload_spec hdec b rest rfl, Option.map_some]

-- The fuel bound is twice the encoding's length: every item and every list of items
-- spends one unit per level, and each level has at least one byte of its own.
mutual
theorem decodeAux_encode : ∀ (v : Value) (fuel : Nat) (rest : List UInt8),
    2 * (encode v).length ≤ fuel → decodeAux fuel (encode v ++ rest) = some (v, rest)
  | .bytes b, fuel, rest, h => by
    obtain ⟨fuel, rfl⟩ : ∃ f, fuel = f + 1 := ⟨fuel - 1, by
      have := encode_length_pos (.bytes b); omega⟩
    exact decodeAux_encode_bytes b fuel rest
  | .array vs, fuel, rest, h => by
    obtain ⟨hd, tl, he, hlo, hhi, hdec⟩ := encodeLength_spec 192 (encodeList vs).length (.inr rfl)
    rw [encode, he] at h ⊢
    simp only [List.length_append, List.length_cons] at h
    obtain ⟨fuel, rfl⟩ : ∃ f, fuel = f + 1 := ⟨fuel - 1, by omega⟩
    have hitems := decodeItems_encodeList vs fuel (by omega)
    rw [List.cons_append, List.cons_append, decodeAux,
      if_neg (show ¬ hd.toNat < 128 by omega), if_neg (show ¬ hd.toNat < 192 by omega),
      decodePayload_spec hdec _ rest rfl, Option.bind_some]
    dsimp only
    rw [hitems, Option.map_some]
theorem decodeItems_encodeList : ∀ (vs : List Value) (fuel : Nat),
    2 * (encodeList vs).length + 1 ≤ fuel → decodeItems fuel (encodeList vs) = some vs
  | [], fuel, h => by
    obtain ⟨fuel, rfl⟩ : ∃ f, fuel = f + 1 := ⟨fuel - 1, by omega⟩
    rfl
  | v :: vs, fuel, h => by
    simp only [encodeList, List.length_append] at h ⊢
    have hpos := encode_length_pos v
    obtain ⟨fuel, rfl⟩ : ∃ f, fuel = f + 1 := ⟨fuel - 1, by omega⟩
    obtain ⟨b, bs, hbs⟩ : ∃ b bs, encode v ++ encodeList vs = b :: bs :=
      List.exists_cons_of_ne_nil (List.ne_nil_of_length_pos (by rw [List.length_append]; omega))
    have hhead := decodeAux_encode v fuel (encodeList vs) (by omega)
    have htail := decodeItems_encodeList vs fuel (by omega)
    rw [hbs] at hhead ⊢
    rw [decodeItems, hhead, Option.bind_some]
    dsimp only
    rw [htail, Option.map_some]
end

/-! ## The codec -/

def parse (bs : List UInt8) : Except String Value :=
  match decodeAux (2 * bs.length + 1) bs with
  | some (v, []) => .ok v
  | some (_, _ :: _) => .error "rlp: trailing bytes after the item"
  | none => .error "rlp: malformed item"

theorem parse_encode (v : Value) : parse (encode v) = .ok v := by
  have h := decodeAux_encode v (2 * (encode v).length + 1) [] (by omega)
  simp only [List.append_nil] at h
  simp [parse, h]

example : encode (.array [.bytes [0x7f], .bytes [0x80]]) = [0xc3, 0x7f, 0x81, 0x80] := by decide

/-! ## The value interface

The accessors and constructors a consumer of the format works with. A null value is the
empty string and a null array the empty list, which is how both are written and read back. -/

def Value.getElems : Value → Except String (List Value)
  | .array vs => .ok vs
  | .bytes _ => .error "value is not of type array"

def Value.elems : Value → Nat
  | .array vs => vs.length
  | .bytes _ => 0

/-- `Len()`: the byte count of a string and the payload length of a list. -/
def Value.len : Value → Nat
  | .bytes b => b.length
  | .array vs => (encodeList vs).length

def Value.getBytes : Value → Except String (List UInt8)
  | .bytes b => .ok b
  | .array _ => .error "value is not of type bytes"

def Value.getUint64 (v : Value) : Except String UInt64 := do
  let b ← v.getBytes
  if 8 < b.length then .error "bytes too long for uint64" else .ok (UInt64.ofNat (ofBE b))

def Value.getBigInt (v : Value) : Except String Nat := do
  let b ← v.getBytes
  .ok (ofBE b)

def Value.getBool (v : Value) : Except String Bool := do
  let b ← v.getBytes
  if b = [] then .ok false else if b = [1] then .ok true else .error "not a valid bool"

def newBytes (b : List UInt8) : Value := .bytes b

def newNull : Value := .bytes []

def newNullArray : Value := .array []

def newUint (n : UInt64) : Value := .bytes (toBE n.toNat)

def newBigInt (n : Int) : Value := .bytes (toBE n.natAbs)

def newBool (b : Bool) : Value := if b then .bytes [1] else .bytes []

@[simp] theorem getElems_array (vs : List Value) : (Value.array vs).getElems = .ok vs := rfl

@[simp] theorem elems_array (vs : List Value) : (Value.array vs).elems = vs.length := rfl

@[simp] theorem getBytes_bytes (b : List UInt8) : (Value.bytes b).getBytes = .ok b := rfl

@[simp] theorem getBytes_newBytes (b : List UInt8) : (newBytes b).getBytes = .ok b := rfl

@[simp] theorem getBytes_newNull : newNull.getBytes = .ok [] := rfl

@[simp] theorem getBytes_nullOrBytes (b : List UInt8) :
    (if b = [] then newNull else newBytes b).getBytes = .ok b := by
  cases b <;> simp [newNull, newBytes]

@[simp] theorem getUint64_newUint (n : UInt64) : (newUint n).getUint64 = .ok n := by
  have hlen : (toBE n.toNat).length ≤ 8 := toBE_length_le (by simpa using n.toNat_lt)
  simp [newUint, Value.getUint64, Value.getBytes, show ¬ 8 < (toBE n.toNat).length by omega]

@[simp] theorem getBigInt_newBigInt (n : Int) : (newBigInt n).getBigInt = .ok n.natAbs := by
  simp [newBigInt, Value.getBigInt, Value.getBytes]

@[simp] theorem getBool_newBool (b : Bool) : (newBool b).getBool = .ok b := by
  cases b <;> simp [newBool, Value.getBool, Value.getBytes]

/-! ## Codecs -/

/-- An encoder and a parser of values, as the library's users see them. -/
structure Codec where
  marshalTo : Value → List UInt8
  parse : List UInt8 → Except String Value

/-- The parser gives back every value the encoder writes. -/
def Codec.ParsesWhatItEncodes (c : Codec) : Prop := ∀ v, c.parse (c.marshalTo v) = .ok v

def rlp : Codec := ⟨encode, parse⟩

theorem rlp_parsesWhatItEncodes : rlp.ParsesWhatItEncodes := parse_encode

end RlpEncoding
