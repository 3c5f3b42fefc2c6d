import Mathlib
import MindPos.EdgeTypes
import MindPos.Keccak

/-! # RLP of headers, transactions, receipts and blocks

`types/rlp_marshal.go` and `types/rlp_unmarshal.go`. In a list of transactions or receipts a
typed entry is its type byte followed by its body. The decoding loop steps over the marker and
reads the body at the next index with no bound check, so a list that ends in a marker reads past
its end: that read is a panic, `none` below. Amounts are written by magnitude and a receipt
status is read back only from a string of at most one byte, so the round trips hold for
non-negative amounts and statuses below 256. -/
namespace EdgeTypes

open RlpEncoding Keccak

/-! ## Marshalling -/

def Header.marshalRLPWith (h : Header) : Value :=
  .array [newBytes h.parentHash.bytes, newBytes h.sha3Uncles.bytes, newBytes h.miner,
    newBytes h.stateRoot.bytes, newBytes h.txRoot.bytes, newBytes h.receiptsRoot.bytes,
    newBytes h.logsBloom, newUint h.difficulty, newUint h.number, newUint h.gasLimit,
    newUint h.gasUsed, newUint h.timestamp, newBytes h.extraData, newBytes h.mixHash.bytes,
    newBytes h.nonce, newUint h.baseFee]

/-- `defHeaderHash`, the default `HeaderHash`: keccak of the header's RLP. -/
def defHeaderHash (h : Header) : Hash := bytesToHash (keccak256 (encode h.marshalRLPWith))

def Transaction.marshalRLPWith (t : Transaction) : Value :=
  .array <|
    -- a zero chain ID and an empty access list keep the format of other EVM chains
    (if t.type = .dynamicFeeTx then [newBigInt 0] else []) ++ [newUint t.nonce] ++
    (if t.type = .dynamicFeeTx then [newBigInt t.gasTipCap, newBigInt t.gasFeeCap]
      else [newBigInt t.gasPrice]) ++
    [newUint t.gas, (match t.toAddr with
      | some a => newBytes a.bytes
      | none => newNull), newBigInt t.value, newBytes t.input] ++
    (if t.type = .dynamicFeeTx then [.array []] else []) ++
    [newBigInt t.v, newBigInt t.r, newBigInt t.s] ++
    (if t.type = .stateTx then [newBytes t.fromAddr.bytes] else [])

def typedEntry (type : TxType) (body : Value) : List Value :=
  (if type ≠ .legacyTx then [newBytes [type.toByte]] else []) ++ [body]

def Block.marshalRLPWith (b : Block) : Value :=
  .array [b.header.marshalRLPWith,
    if b.transactions = [] then newNullArray
    else .array (b.transactions.flatMap fun tx => typedEntry tx.type tx.marshalRLPWith),
    if b.uncles = [] then newNullArray else .array (b.uncles.map Header.marshalRLPWith)]

def Block.marshalRLP (b : Block) : List UInt8 := encode b.marshalRLPWith

def Transaction.marshalRLP (t : Transaction) : List UInt8 :=
  (if t.type ≠ .legacyTx then [t.type.toByte] else []) ++ encode t.marshalRLPWith

def Log.marshalRLPWith (l : Log) : Value :=
  .array [newBytes l.address.bytes, .array (l.topics.map fun t => newBytes t.bytes),
    newBytes l.data]

def Receipt.marshalLogsWith (r : Receipt) : Value :=
  if r.logs = [] then newNullArray else .array (r.logs.map Log.marshalRLPWith)

def Receipt.marshalRLPWith (r : Receipt) : Value :=
  .array [(match r.status with
      | some s => newUint s.toUInt64
      | none => newBytes r.root.bytes),
    newUint r.cumulativeGasUsed, newBytes r.logsBloom, r.marshalLogsWith]

def Receipt.marshalRLP (r : Receipt) : List UInt8 :=
  (if r.transactionType ≠ .legacyTx then [r.transactionType.toByte] else []) ++
    encode r.marshalRLPWith

def Receipts.marshalRLPWith (rs : List Receipt) : Value :=
  .array (rs.flatMap fun r => typedEntry r.transactionType r.marshalRLPWith)

/-! ## Unmarshalling -/

def TxType.unmarshalRLPFrom (v : Value) : Except String TxType := do
  let bytes ← v.getBytes
  match bytes with
  | [b] => txTypeFromByte b
  | _ => throw ("expected 1 byte transaction type, but size is " ++ toString bytes.length)

def indexOutOfRange {α : Type} : ExceptT String Option α := ExceptT.mk none

def unmarshalTypedList {α : Type} (cb : TxType → Value → Except String α) :
    List Value → ExceptT String Option (List α)
  | [] => pure []
  | .bytes b :: rest => do
    let txType ← TxType.unmarshalRLPFrom (.bytes b)
    match rest with
    -- `elems[i]` after `i++`, with `i = len(elems)`
    | [] => indexOutOfRange
    | body :: rest' => do
      let x ← cb txType body
      let xs ← unmarshalTypedList cb rest'
      pure (x :: xs)
  | .array vs :: rest => do
    let x ← cb .legacyTx (.array vs)
    let xs ← unmarshalTypedList cb rest
    pure (x :: xs)

/-- `binary.BigEndian.PutUint64`, as `Header.SetNonce` writes the nonce. -/
def putUint64 (n : UInt64) : List UInt8 := rightAlign 8 (toBE n.toNat)

/-- `Header.ComputeHash`, with `HeaderHash` as a parameter. -/
def Header.computeHash (headerHash : Header → Hash) (h : Header) : Header :=
  { h with hash := headerHash h }

def Header.unmarshalRLPFrom (headerHash : Header → Hash) (v : Value) : Except String Header := do
  let elems ← v.getElems
  match elems with
  | e0 :: e1 :: e2 :: e3 :: e4 :: e5 :: e6 :: e7 :: e8 :: e9 :: e10 :: e11 :: e12 :: e13 :: e14 ::
      rest =>
    let parentHash ← e0.getHash
    let sha3Uncles ← e1.getHash
    let miner ← e2.getBytes
    let stateRoot ← e3.getHash
    let txRoot ← e4.getHash
    let receiptsRoot ← e5.getHash
    let logsBloom ← e6.getBytesOfLength 256
    let difficulty ← e7.getUint64
    let number ← e8.getUint64
    let gasLimit ← e9.getUint64
    let gasUsed ← e10.getUint64
    let timestamp ← e11.getUint64
    let extraData ← e12.getBytes
    let mixHash ← e13.getHash
    let nonce ← e14.getUint64
    -- a header written before the base fee has fifteen elements
    let baseFee ← match rest with
      | [] => pure 0
      | e15 :: _ => e15.getUint64
    let h : Header := ⟨parentHash, sha3Uncles, miner, stateRoot, txRoot, receiptsRoot, logsBloom,
      difficulty, number, gasLimit, gasUsed, timestamp, extraData, mixHash, putUint64 nonce,
      zeroHash, baseFee⟩
    pure (h.computeHash headerHash)
  | _ => throw ("incorrect number of elements to decode header, expected 15 but found " ++
      toString elems.length)

def getElem : StateT (List Value) (Except String) Value := fun elems =>
  match elems with
  | v :: rest => .ok (v, rest)
  -- not reached: the number of elements is checked before the first read
  | [] => .error "index out of range"

/-- `Bytes()` with its error dropped: a list reads as no bytes. -/
def bytesOrNil (v : Value) : List UInt8 := (v.getBytes.toOption).getD []

def Transaction.readFields (type : TxType) (hash : Hash) :
    StateT (List Value) (Except String) Transaction := do
  -- the chain ID is skipped
  if type = .dynamicFeeTx then discard getElem
  let nonce ← (← getElem).getUint64
  let (gasPrice, gasTipCap, gasFeeCap) ← if type = .dynamicFeeTx then do
      let gasTipCap ← (← getElem).getBigInt
      let gasFeeCap ← (← getElem).getBigInt
      pure ((0 : Int), (gasTipCap : Int), (gasFeeCap : Int))
    else do
      let gasPrice ← (← getElem).getBigInt
      pure ((gasPrice : Int), 0, 0)
  let gas ← (← getElem).getUint64
  let toBytes := bytesOrNil (← getElem)
  let toAddr := if toBytes.length = 20 then some (bytesToAddress toBytes) else none
  let value ← (← getElem).getBigInt
  let input ← (← getElem).getBytes
  -- the access list is skipped
  if type = .dynamicFeeTx then discard getElem
  let sigV ← (← getElem).getBigInt
  let sigR ← (← getElem).getBigInt
  let sigS ← (← getElem).getBigInt
  let fromAddr ← if type = .stateTx then do
      let fromBytes := bytesOrNil (← getElem)
      pure (if fromBytes.length = 20 then bytesToAddress fromBytes else zeroAddress)
    else pure zeroAddress
  pure ⟨nonce, gasPrice, gasTipCap, gasFeeCap, gas, toAddr, value, input, sigV, sigR, sigS, hash,
    fromAddr, type⟩

def Transaction.unmarshalRLPFrom (type : TxType) (v : Value) : Except String Transaction := do
  let elems ← v.getElems
  let num := match type with
    | .legacyTx => 9
    | .stateTx => 10
    | .dynamicFeeTx => 12
  if elems.length ≠ num then
    throw ("incorrect number of transaction elements, expected " ++ toString num ++
      " but found " ++ toString elems.length)
  else
    -- `p.Hash(t.Hash[:0], v)`: the hash of the body as it was read
    let hash := bytesToHash (keccak256 (encode v))
    (Transaction.readFields type hash).run' elems

/-- `Transaction.ComputeHash`: the hash of the body as it is written. -/
def Transaction.computeHash (t : Transaction) : Transaction :=
  { t with hash := bytesToHash (keccak256 (encode t.marshalRLPWith)) }

def Log.unmarshalRLPFrom (v : Value) : Except String Log := do
  let elems ← v.getElems
  match elems with
  | addressV :: topicsV :: dataV :: _ =>
    let address ← addressV.getAddr
    let topicElems ← topicsV.getElems
    let topics ← topicElems.mapM Value.getHash
    let data ← dataV.getBytes
    pure ⟨address, topics, data⟩
  | _ => throw ("incorrect number of elements to decode log, expected 3 but found " ++
      toString elems.length)

def rootOrStatus (buf : List UInt8) : Hash × Option ReceiptStatus :=
  if h : buf.length = 32 then (⟨buf, h⟩, none)
  else match buf with
    | [b] => (zeroHash, some ⟨b.toUInt64⟩)
    | _ => (zeroHash, some ⟨0⟩)

def Receipt.unmarshalRLPFrom (txType : TxType) (v : Value) : Except String Receipt := do
  let elems ← v.getElems
  match elems with
  | rootOrStatusV :: cumulativeGasUsedV :: logsBloomV :: logsV :: _ =>
    let buf ← rootOrStatusV.getBytes
    let (root, status) := rootOrStatus buf
    let cumulativeGasUsed ← cumulativeGasUsedV.getUint64
    let logsBloom ← logsBloomV.getBytesOfLength 256
    let logsElems ← logsV.getElems
    let logs ← logsElems.mapM Log.unmarshalRLPFrom
    pure ⟨root, cumulativeGasUsed, logsBloom, logs, status, 0, zeroHash, txType⟩
  | _ => throw ("incorrect number of elements to decode receipt, expected 4 but found " ++
      toString elems.length)

/-- `RLPSingleByteUpperLimit`: a first byte up to it is a type byte, not the start of a list. -/
def rlpSingleByteUpperLimit : UInt8 := 0x7f

def splitTypeByte (input : List UInt8) : Except String (TxType × List UInt8) :=
  match input with
  | b :: rest =>
    if b ≤ rlpSingleByteUpperLimit then do
      let type ← txTypeFromByte b
      pure (type, rest)
    else pure (.legacyTx, input)
  | [] => pure (.legacyTx, [])

def Transaction.unmarshalRLP (input : List UInt8) : Except String Transaction := do
  let (type, body) ← splitTypeByte input
  let v ← parse body
  Transaction.unmarshalRLPFrom type v

def Receipt.unmarshalRLP (input : List UInt8) : Except String Receipt := do
  let (type, body) ← splitTypeByte input
  let v ← parse body
  Receipt.unmarshalRLPFrom type v

def Block.unmarshalRLPFrom (headerHash : Header → Hash) (v : Value) :
    ExceptT String Option Block := do
  let elems ← v.getElems
  match elems with
  | headerV :: transactionsV :: unclesV :: _ =>
    let header ← Header.unmarshalRLPFrom headerHash headerV
    let txElems ← transactionsV.getElems
    let transactions ← unmarshalTypedList (fun txType v => do
      let t ← Transaction.unmarshalRLPFrom txType v
      pure t.computeHash) txElems
    let uncleElems ← unclesV.getElems
    let uncles ← (uncleElems.mapM (Header.unmarshalRLPFrom headerHash) : Except String _)
    pure ⟨header, transactions, uncles⟩
  | _ => throw ("incorrect number of elements to decode block, expected 3 but found " ++
      toString elems.length)

def Block.unmarshalRLP (headerHash : Header → Hash) (input : List UInt8) :
    ExceptT String Option Block := do
  let v ← parse input
  Block.unmarshalRLPFrom headerHash v

def Receipts.unmarshalRLP (input : List UInt8) : ExceptT String Option (List Receipt) := do
  let v ← parse input
  let elems ← v.getElems
  unmarshalTypedList Receipt.unmarshalRLPFrom elems

/-! ## The decoding monad

A decoding that may panic is an `ExceptT String Option`; a step of it that cannot panic is an
`Except String` lifted into it. -/

section Lift

variable {α β : Type}

@[simp] theorem lift_ok_bind (a : α) (f : α → ExceptT String Option β) :
    (monadLift (Except.ok a : Except String α) : ExceptT String Option α) >>= f = f a := rfl

@[simp] theorem lift_error_bind (e : String) (f : α → ExceptT String Option β) :
    (monadLift (Except.error e : Except String α) : ExceptT String Option α) >>= f = throw e := rfl

@[simp] theorem map_lift_ok (f : α → β) (a : α) :
    f <$> (monadLift (Except.ok a : Except String α) : ExceptT String Option α) = pure (f a) := rfl

@[simp] theorem map_lift_error (f : α → β) (e : String) :
    f <$> (monadLift (Except.error e : Except String α) : ExceptT String Option α) = throw e := rfl

theorem bind_eq_pure_iff {x : ExceptT String Option α} {f : α → ExceptT String Option β} {b : β} :
    x >>= f = pure b ↔ ∃ a, x = pure a ∧ f a = pure b := by
  rcases x with _ | _ | a
  · exact ⟨fun h => (nomatch h), fun ⟨_, h, _⟩ => (nomatch h)⟩
  · exact ⟨fun h => (nomatch h), fun ⟨_, h, _⟩ => (nomatch h)⟩
  · exact ⟨fun h => ⟨a, rfl, h⟩, fun ⟨_, h, h'⟩ => by cases h; exact h'⟩

theorem lift_bind_eq_pure_iff {x : Except String α} {f : α → ExceptT String Option β} {b : β} :
    (monadLift x : ExceptT String Option α) >>= f = pure b ↔ ∃ a, x = .ok a ∧ f a = pure b := by
  cases x with
  | error e => exact ⟨fun h => (nomatch h), fun ⟨_, h, _⟩ => (nomatch h)⟩
  | ok a => exact ⟨fun h => ⟨a, rfl, h⟩, fun ⟨_, h, h'⟩ => by cases h; exact h'⟩

theorem decode_pure_inj {a b : α} (h : (pure a : ExceptT String Option α) = pure b) : a = b := by
  simpa using congrArg ExceptT.run h

theorem map_eq_pure_exists {f : α → β} {x : ExceptT String Option α} {b : β}
    (h : f <$> x = pure b) : ∃ a, x = pure a ∧ f a = b := by
  rw [map_eq_pure_bind] at h
  obtain ⟨a, hx, h⟩ := bind_eq_pure_iff.mp h
  exact ⟨a, hx, decode_pure_inj h⟩

@[simp] theorem map_indexOutOfRange (f : α → β) : f <$> (indexOutOfRange : ExceptT String Option α) =
    indexOutOfRange := rfl

end Lift

theorem mapM_map_ok {ε α β γ : Type} {f : α → Except ε β} {g : γ → α} {h : γ → β} (xs : List γ)
    (hx : ∀ x ∈ xs, f (g x) = .ok (h x)) : (xs.map g).mapM f = .ok (xs.map h) := by
  induction xs with
  | nil => rfl
  | cons x xs ih =>
    simp [List.mapM_cons, hx x List.mem_cons_self,
      ih fun y hy => hx y (List.mem_cons_of_mem x hy)]

theorem forall_of_mapM_ok {ε α β : Type} {f : α → Except ε β} {P : β → Prop}
    (hf : ∀ x y, f x = .ok y → P y) :
    ∀ {xs : List α} {ys : List β}, xs.mapM f = .ok ys → ∀ y ∈ ys, P y
  | [], ys, h => by
    obtain rfl : ys = [] := (Except.ok.inj h).symm
    exact fun _ hy => nomatch hy
  | x :: xs, ys, h => by
    rw [List.mapM_cons] at h
    obtain ⟨y, hy, h⟩ := Except.bind_eq_ok_iff.mp h
    obtain ⟨ys', hys', h⟩ := Except.bind_eq_ok_iff.mp h
    obtain rfl : ys = y :: ys' := (Except.ok.inj h).symm
    intro z hz
    rcases List.mem_cons.mp hz with rfl | hz
    · exact hf x z hy
    · exact forall_of_mapM_ok hf hys' z hz

theorem mapM_ok_forall₂ {α β ε : Type} {f : α → Except ε β} :
    ∀ {xs : List α} {ys : List β}, xs.mapM f = .ok ys → List.Forall₂ (fun a b => f a = .ok b) xs ys
  | [], ys, h => by
    rw [List.mapM_nil, Except.pure_eq_ok, Except.ok.injEq] at h
    subst h
    exact .nil
  | x :: xs, ys, h => by
    rw [List.mapM_cons] at h
    obtain ⟨y, hy, h₁⟩ := Except.bind_eq_ok_iff.mp h
    obtain ⟨rest, hrest, h₂⟩ := Except.bind_eq_ok_iff.mp h₁
    rw [Except.pure_eq_ok, Except.ok.injEq] at h₂
    subst h₂
    exact .cons hy (mapM_ok_forall₂ hrest)

theorem mapM_ok_of_forall {α β ε : Type} {f : α → Except ε β} :
    ∀ {xs : List α}, (∀ x ∈ xs, ∃ y, f x = .ok y) → ∃ ys, xs.mapM f = .ok ys
  | [], _ => ⟨[], rfl⟩
  | x :: xs, h => by
    obtain ⟨y, hy⟩ := h x List.mem_cons_self
    obtain ⟨ys, hys⟩ := mapM_ok_of_forall fun x hx => h x (List.mem_cons_of_mem _ hx)
    exact ⟨y :: ys, by rw [List.mapM_cons, hy, Except.ok_bind_eq, hys, Except.ok_bind_eq]; rfl⟩

/-! ## The loop over typed entries -/

theorem unmarshalTypedList_typedEntry_append {α : Type} (cb : TxType → Value → Except String α)
    (type : TxType) (vs rest : List Value) :
    unmarshalTypedList cb (typedEntry type (.array vs) ++ rest) = (do
      let x ← cb type (.array vs)
      let xs ← unmarshalTypedList cb rest
      pure (x :: xs)) := by
  by_cases hleg : type = .legacyTx
  · subst hleg
    simp [typedEntry, unmarshalTypedList]
  · simp [typedEntry, hleg, unmarshalTypedList, TxType.unmarshalRLPFrom, newBytes]

theorem unmarshalTypedList_flatMap {α β : Type} {cb : TxType → Value → Except String α}
    {ty : β → TxType} {enc : β → Value} {dec : β → α} (xs : List β)
    (harray : ∀ x ∈ xs, ∃ vs, enc x = .array vs) (hcb : ∀ x ∈ xs, cb (ty x) (enc x) = .ok (dec x)) :
    unmarshalTypedList cb (xs.flatMap fun x => typedEntry (ty x) (enc x)) = pure (xs.map dec) := by
  induction xs with
  | nil => rfl
  | cons x xs ih =>
    obtain ⟨vs, hvs⟩ := harray x List.mem_cons_self
    have hx := hcb x List.mem_cons_self
    have hrest := ih (fun y hy => harray y (List.mem_cons_of_mem x hy))
      (fun y hy => hcb y (List.mem_cons_of_mem x hy))
    rw [hvs] at hx
    rw [List.flatMap_cons, hvs, unmarshalTypedList_typedEntry_append, hx, lift_ok_bind, hrest]
    rfl

theorem unmarshalTypedList_append_typeByte {α : Type} {cb : TxType → Value → Except String α}
    {l : List Value} {ys : List α} (hl : unmarshalTypedList cb l = pure ys) (type : TxType) :
    unmarshalTypedList cb (l ++ [newBytes [type.toByte]]) = indexOutOfRange := by
  induction l using unmarshalTypedList.induct generalizing ys with
  | case1 => simp [unmarshalTypedList, TxType.unmarshalRLPFrom, newBytes]
  | case2 b rest ih =>
    rw [unmarshalTypedList, lift_bind_eq_pure_iff] at hl
    obtain ⟨txType, htype, hl⟩ := hl
    cases rest with
    | nil => cases hl
    | cons body rest' =>
      obtain ⟨x, hx, hl⟩ := lift_bind_eq_pure_iff.mp hl
      obtain ⟨xs, hxs, -⟩ := bind_eq_pure_iff.mp hl
      simp [unmarshalTypedList, htype, hx, ih hxs]
  | case3 vs rest ih =>
    rw [unmarshalTypedList, lift_bind_eq_pure_iff] at hl
    obtain ⟨x, hx, hl⟩ := hl
    obtain ⟨xs, hxs, -⟩ := bind_eq_pure_iff.mp hl
    simp [unmarshalTypedList, hx, ih hxs]

/-! ## Headers -/

/-- The lengths of Go's arrays: an eight-byte nonce and a 256-byte bloom. -/
structure Header.Encodable (h : Header) : Prop where
  nonce : h.nonce.length = 8
  logsBloom : h.logsBloom.length = 256

theorem getUint64_of_length {b : List UInt8} (hb : b.length = 8) :
    (Value.bytes b).getUint64 = .ok (UInt64.ofNat (ofBE b)) := by
  simp [Value.getUint64, hb]

theorem putUint64_ofBE {b : List UInt8} (hb : b.length = 8) :
    putUint64 (UInt64.ofNat (ofBE b)) = b := by
  have hlt : ofBE b < UInt64.size := by
    have := ofBE_lt b
    rw [hb] at this
    exact this
  rw [putUint64, UInt64.toNat_ofNat_of_lt' hlt, ← hb, rightAlign_toBE_ofBE]

theorem Header.unmarshalRLPFrom_marshalRLPWith (headerHash : Header → Hash) {h : Header}
    (hh : h.Encodable) :
    Header.unmarshalRLPFrom headerHash h.marshalRLPWith =
      .ok ({ h with hash := zeroHash }.computeHash headerHash) := by
  simp only [Header.unmarshalRLPFrom, Header.marshalRLPWith, newBytes, getElems_array,
    Except.pure_eq_ok, Except.ok_bind_eq, getHash_bytes, getBytes_bytes, hh.logsBloom,
    getBytesOfLength_bytes, getUint64_newUint, getUint64_of_length hh.nonce, putUint64_ofBE hh.nonce]

/-! ## Transactions -/

@[simp] theorem bytesOrNil_bytes (b : List UInt8) : bytesOrNil (.bytes b) = b := rfl

@[simp] theorem getElem_run_cons (v : Value) (rest : List Value) :
    getElem.run (v :: rest) = .ok (v, rest) := rfl

@[simp] theorem discard_getElem_run_cons (v : Value) (rest : List Value) :
    (discard getElem).run (v :: rest) = .ok ((), rest) := rfl

def Transaction.decodedFrom (t : Transaction) : Transaction :=
  ⟨t.nonce,
    if t.type = .dynamicFeeTx then 0 else (t.gasPrice.natAbs : Int),
    if t.type = .dynamicFeeTx then (t.gasTipCap.natAbs : Int) else 0,
    if t.type = .dynamicFeeTx then (t.gasFeeCap.natAbs : Int) else 0,
    t.gas, t.toAddr, t.value.natAbs, t.input, t.v.natAbs, t.r.natAbs, t.s.natAbs,
    bytesToHash (keccak256 (encode t.marshalRLPWith)),
    if t.type = .stateTx then t.fromAddr else zeroAddress, t.type⟩

theorem Transaction.unmarshalRLPFrom_marshalRLPWith (t : Transaction) :
    Transaction.unmarshalRLPFrom t.type t.marshalRLPWith = .ok t.decodedFrom := by
  rcases t with ⟨nonce, gasPrice, gasTipCap, gasFeeCap, gas, toAddr, value, input, v, r, s, hash,
    fromAddr, type⟩
  cases type <;>
  simp only [Transaction.unmarshalRLPFrom, Transaction.marshalRLPWith, Transaction.readFields,
    Transaction.decodedFrom, reduceCtorEq, ↓reduceIte, not_true_eq_false, ne_eq, List.nil_append,
    List.cons_append, List.append_nil, List.length_cons, List.length_nil, zero_add, Nat.reduceAdd,
    newBytes, getElems_array, StateT.run'_eq, StateT.run_bind, StateT.run_monadLift, monadLift_self,
    StateT.run_pure, Except.pure_eq_ok, Except.map_ok, Except.ok_bind_eq, getElem_run_cons,
    discard_getElem_run_cons, getUint64_newUint, getBigInt_newBigInt, getBytes_bytes,
    bytesOrNil_bytes, Address.length_eq, bytesToAddress_bytes] <;>
  cases toAddr <;>
  simp only [newNull, bytesOrNil_bytes, List.length_nil, OfNat.zero_ne_ofNat, Address.length_eq,
    bytesToAddress_bytes, if_true, if_false]

/-- The amounts a transaction's type writes are not negative. -/
structure Transaction.Encodable (t : Transaction) : Prop where
  prices : if t.type = .dynamicFeeTx then 0 ≤ t.gasTipCap ∧ 0 ≤ t.gasFeeCap else 0 ≤ t.gasPrice
  value : 0 ≤ t.value
  v : 0 ≤ t.v
  r : 0 ≤ t.r
  s : 0 ≤ t.s

/-- `t'` has the type of `t` and the values of the fields that type writes. -/
structure Transaction.EncodedFieldsAgree (t t' : Transaction) : Prop where
  type : t'.type = t.type
  nonce : t'.nonce = t.nonce
  prices : if t.type = .dynamicFeeTx then t'.gasTipCap = t.gasTipCap ∧ t'.gasFeeCap = t.gasFeeCap
    else t'.gasPrice = t.gasPrice
  gas : t'.gas = t.gas
  toAddr : t'.toAddr = t.toAddr
  value : t'.value = t.value
  input : t'.input = t.input
  v : t'.v = t.v
  r : t'.r = t.r
  s : t'.s = t.s
  fromAddr : t.type = .stateTx → t'.fromAddr = t.fromAddr

theorem Transaction.encodedFieldsAgree_decodedFrom {t : Transaction} (ht : t.Encodable) :
    t.EncodedFieldsAgree t.decodedFrom := by
  have hprices := ht.prices
  refine ⟨rfl, rfl, ?_, rfl, rfl, Int.natAbs_of_nonneg ht.value, rfl, Int.natAbs_of_nonneg ht.v,
    Int.natAbs_of_nonneg ht.r, Int.natAbs_of_nonneg ht.s, fun hs => by simp [decodedFrom, hs]⟩
  by_cases hdyn : t.type = .dynamicFeeTx
  · rw [if_pos hdyn] at hprices ⊢
    simp [decodedFrom, hdyn, Int.natAbs_of_nonneg hprices.1, Int.natAbs_of_nonneg hprices.2]
  · rw [if_neg hdyn] at hprices ⊢
    simp [decodedFrom, hdyn, Int.natAbs_of_nonneg hprices]

theorem Transaction.EncodedFieldsAgree.computeHash {t t' : Transaction}
    (h : t.EncodedFieldsAgree t') : t.EncodedFieldsAgree t'.computeHash :=
  ⟨h.type, h.nonce, h.prices, h.gas, h.toAddr, h.value, h.input, h.v, h.r, h.s, h.fromAddr⟩

theorem splitTypeByte_typed (type : TxType) {v : Value} (hv : ∃ vs, v = .array vs) :
    splitTypeByte ((if type ≠ .legacyTx then [type.toByte] else []) ++ encode v) =
      .ok (type, encode v) := by
  obtain ⟨vs, rfl⟩ := hv
  by_cases hleg : type = .legacyTx
  · obtain ⟨hd, tl, henc, hhd⟩ := encode_array_head vs
    have hlimit : rlpSingleByteUpperLimit.toNat = 127 := rfl
    have hbig : ¬ hd ≤ rlpSingleByteUpperLimit := by
      rw [UInt8.le_iff_toNat_le]
      omega
    simp [hleg, henc, splitTypeByte, hbig]
  · simp [hleg, splitTypeByte, TxType.toByte_le, rlpSingleByteUpperLimit]

theorem Transaction.unmarshalRLP_marshalRLP (t : Transaction) :
    Transaction.unmarshalRLP t.marshalRLP = .ok t.decodedFrom := by
  rw [Transaction.unmarshalRLP, Transaction.marshalRLP, splitTypeByte_typed t.type (v := t.marshalRLPWith) ⟨_, rfl⟩]
  simp [parse_encode, Transaction.unmarshalRLPFrom_marshalRLPWith]

/-! ## Receipts -/

theorem Log.unmarshalRLPFrom_marshalRLPWith (l : Log) :
    Log.unmarshalRLPFrom l.marshalRLPWith = .ok l := by
  have htopics : (l.topics.map fun t => Value.bytes t.bytes).mapM Value.getHash = .ok l.topics := by
    rw [mapM_map_ok (h := id) l.topics fun t _ => getHash_bytes t, List.map_id]
  simp only [Log.unmarshalRLPFrom, Log.marshalRLPWith, getElems_array, Except.ok_bind_eq, newBytes,
    getAddr_bytes, getBytes_bytes, htopics, Except.pure_eq_ok]

theorem Receipt.marshalLogsWith_eq (r : Receipt) :
    r.marshalLogsWith = .array (r.logs.map Log.marshalRLPWith) := by
  by_cases h : r.logs = [] <;> simp [marshalLogsWith, h, newNullArray]

theorem rootOrStatus_newUint {n : UInt64} (hn : n.toNat < 256) :
    rootOrStatus (toBE n.toNat) = (zeroHash, some ⟨n⟩) := by
  have hlen : (toBE n.toNat).length ≤ 1 := toBE_length_le (by simpa using hn)
  have hval := ofBE_toBE n.toNat
  rcases hbytes : toBE n.toNat with _ | ⟨b, _ | ⟨c, tl⟩⟩
  · rw [hbytes] at hval
    have hzero : n = 0 := UInt64.toNat_inj.mp (by simpa [ofBE] using hval.symm)
    simp [rootOrStatus, hzero]
  · rw [hbytes] at hval
    have hb : b.toUInt64 = n := UInt64.toNat_inj.mp (by simpa [ofBE] using hval)
    simp [rootOrStatus, hb]
  · rw [hbytes] at hlen
    simp at hlen

/-- A status below 256 and the 256-byte bloom of Go's array. -/
structure Receipt.Encodable (r : Receipt) : Prop where
  status : ∀ s, r.status = some s → s.toUInt64.toNat < 256
  logsBloom : r.logsBloom.length = 256

/-- `r'` has the transaction type of `r` and the values of the fields it writes. -/
structure Receipt.EncodedFieldsAgree (r r' : Receipt) : Prop where
  root : r.status = none → r'.root = r.root
  status : r'.status = r.status
  cumulativeGasUsed : r'.cumulativeGasUsed = r.cumulativeGasUsed
  logsBloom : r'.logsBloom = r.logsBloom
  logs : r'.logs = r.logs
  transactionType : r'.transactionType = r.transactionType

theorem Receipt.unmarshalRLPFrom_marshalRLPWith {r : Receipt} (hr : r.Encodable) :
    ∃ r', Receipt.unmarshalRLPFrom r.transactionType r.marshalRLPWith = .ok r' ∧
      r.EncodedFieldsAgree r' := by
  have hlogs : (r.logs.map Log.marshalRLPWith).mapM Log.unmarshalRLPFrom = .ok r.logs := by
    rw [mapM_map_ok (h := id) r.logs fun l _ => Log.unmarshalRLPFrom_marshalRLPWith l, List.map_id]
  have hfirst : ∃ first, r.marshalRLPWith =
      .array [.bytes first, newUint r.cumulativeGasUsed, newBytes r.logsBloom, r.marshalLogsWith] ∧
      rootOrStatus first = ((if r.status = none then r.root else zeroHash), r.status) := by
    rcases hs : r.status with _ | s
    · exact ⟨r.root.bytes, by rw [marshalRLPWith, hs]; rfl,
        by simp [rootOrStatus, r.root.length_eq]⟩
    · exact ⟨_, by rw [marshalRLPWith, hs]; rfl,
        by rw [rootOrStatus_newUint (hr.status s hs)]; simp⟩
  obtain ⟨first, hfirst, hroot⟩ := hfirst
  refine ⟨⟨(if r.status = none then r.root else zeroHash), r.cumulativeGasUsed, r.logsBloom, r.logs,
    r.status, 0, zeroHash, r.transactionType⟩, ?_, fun h => by simp [h], rfl, rfl, rfl, rfl, rfl⟩
  rw [hfirst]
  simp only [Receipt.unmarshalRLPFrom, marshalLogsWith_eq, getElems_array, Except.ok_bind_eq,
    getBytes_bytes, hroot, getUint64_newUint, newBytes, getBytesOfLength_bytes hr.logsBloom, hlogs,
    Except.pure_eq_ok]

theorem Receipt.unmarshalRLP_marshalRLP {r : Receipt} (hr : r.Encodable) :
    ∃ r', Receipt.unmarshalRLP r.marshalRLP = .ok r' ∧ r.EncodedFieldsAgree r' := by
  obtain ⟨r', hdecode, hagree⟩ := Receipt.unmarshalRLPFrom_marshalRLPWith hr
  refine ⟨r', ?_, hagree⟩
  rw [Receipt.unmarshalRLP, Receipt.marshalRLP,
    splitTypeByte_typed r.transactionType (v := r.marshalRLPWith) ⟨_, rfl⟩]
  simp [parse_encode, hdecode]

/-! ## Blocks -/

theorem Block.marshalRLPWith_eq (b : Block) :
    b.marshalRLPWith = .array [b.header.marshalRLPWith,
      .array (b.transactions.flatMap fun tx => typedEntry tx.type tx.marshalRLPWith),
      .array (b.uncles.map Header.marshalRLPWith)] := by
  by_cases ht : b.transactions = [] <;> by_cases hu : b.uncles = [] <;>
    simp [marshalRLPWith, ht, hu, newNullArray]

theorem Block.unmarshalRLP_marshalRLP (headerHash : Header → Hash) {b : Block}
    (hh : b.header.Encodable) (hu : ∀ u ∈ b.uncles, u.Encodable) :
    Block.unmarshalRLP headerHash b.marshalRLP =
      pure ⟨{ b.header with hash := zeroHash }.computeHash headerHash,
        b.transactions.map fun t => t.decodedFrom.computeHash,
        b.uncles.map fun u => { u with hash := zeroHash }.computeHash headerHash⟩ := by
  have htxs : unmarshalTypedList (fun txType v => do
      let t ← Transaction.unmarshalRLPFrom txType v
      pure t.computeHash) (b.transactions.flatMap fun tx => typedEntry tx.type tx.marshalRLPWith) =
      pure (b.transactions.map fun t => t.decodedFrom.computeHash) :=
    unmarshalTypedList_flatMap _ (fun t _ => ⟨_, rfl⟩)
      (fun t _ => by simp [Transaction.unmarshalRLPFrom_marshalRLPWith])
  have huncles : (b.uncles.map Header.marshalRLPWith).mapM (Header.unmarshalRLPFrom headerHash) =
      .ok (b.uncles.map fun u => { u with hash := zeroHash }.computeHash headerHash) :=
    mapM_map_ok _ fun u hu' => Header.unmarshalRLPFrom_marshalRLPWith headerHash (hu u hu')
  rw [Block.unmarshalRLP, Block.marshalRLP, Block.marshalRLPWith_eq, parse_encode, lift_ok_bind,
    Block.unmarshalRLPFrom]
  simp only [getElems_array, lift_ok_bind, Header.unmarshalRLPFrom_marshalRLPWith headerHash hh,
    htxs, huncles]
  rfl

theorem Block.unmarshalRLP_trailing_typeByte (headerHash : Header → Hash) {h : Header}
    (hh : h.Encodable) (txs : List Transaction) (type : TxType) (uncles : Value) :
    Block.unmarshalRLP headerHash (encode (.array [h.marshalRLPWith,
      .array ((txs.flatMap fun tx => typedEntry tx.type tx.marshalRLPWith) ++
        [newBytes [type.toByte]]), uncles])) = indexOutOfRange := by
  have htxs : unmarshalTypedList (fun txType v => do
      let t ← Transaction.unmarshalRLPFrom txType v
      pure t.computeHash) (txs.flatMap fun tx => typedEntry tx.type tx.marshalRLPWith) =
      pure (txs.map fun t => t.decodedFrom.computeHash) :=
    unmarshalTypedList_flatMap _ (fun t _ => ⟨_, rfl⟩)
      (fun t _ => by simp [Transaction.unmarshalRLPFrom_marshalRLPWith])
  rw [Block.unmarshalRLP, parse_encode, lift_ok_bind, Block.unmarshalRLPFrom]
  simp only [getElems_array, lift_ok_bind, Header.unmarshalRLPFrom_marshalRLPWith headerHash hh,
    unmarshalTypedList_append_typeByte htxs type]
  rfl

/-! ## The round trips -/

def sampleHeader : Header :=
  ⟨zeroHash, zeroHash, [], zeroHash, zeroHash, zeroHash, List.replicate 256 0, 0, 1, 30000000, 0,
    0, [], zeroHash, List.replicate 8 0, zeroHash, 0⟩

def sampleTx : Transaction :=
  ⟨0, 1, 0, 0, 21000, some zeroAddress, 1, [], 27, 1, 1, zeroHash, zeroAddress, .legacyTx⟩

def sampleReceipt : Receipt :=
  ⟨zeroHash, 21000, List.replicate 256 0, [], some .success, 21000, zeroHash, .legacyTx⟩

theorem sampleHeader_encodable : sampleHeader.Encodable :=
  ⟨List.length_replicate .., List.length_replicate ..⟩

theorem types_rlp_round_trip (headerHash : Header → Hash) :
    (∀ b : Block, b.header.Encodable → (∀ u ∈ b.uncles, u.Encodable) →
      (∀ t ∈ b.transactions, t.Encodable) →
      ∃ b', Block.unmarshalRLP headerHash b.marshalRLP = pure b' ∧
        b'.header = { b.header with hash := zeroHash }.computeHash headerHash ∧
        b'.uncles = b.uncles.map (fun u => { u with hash := zeroHash }.computeHash headerHash) ∧
        List.Forall₂ Transaction.EncodedFieldsAgree b.transactions b'.transactions) ∧
    (∀ t : Transaction, t.Encodable →
      ∃ t', Transaction.unmarshalRLP t.marshalRLP = .ok t' ∧ t.EncodedFieldsAgree t') ∧
    (∀ r : Receipt, r.Encodable →
      ∃ r', Receipt.unmarshalRLP r.marshalRLP = .ok r' ∧ r.EncodedFieldsAgree r') := by
  refine ⟨fun b hh hu ht => ⟨_, Block.unmarshalRLP_marshalRLP headerHash hh hu, rfl, rfl, ?_⟩,
    fun t ht => ⟨_, t.unmarshalRLP_marshalRLP, Transaction.encodedFieldsAgree_decodedFrom ht⟩,
    fun r hr => Receipt.unmarshalRLP_marshalRLP hr⟩
  rw [List.forall₂_map_right_iff, List.forall₂_same]
  exact fun t htx => (Transaction.encodedFieldsAgree_decodedFrom (ht t htx)).computeHash

theorem types_rlp_round_trip_of_samples :
    (∃ b', Block.unmarshalRLP (fun _ => zeroHash) (Block.marshalRLP ⟨sampleHeader, [sampleTx], []⟩) =
        pure b' ∧
      b'.header = { sampleHeader with hash := zeroHash }.computeHash (fun _ => zeroHash) ∧
      b'.uncles = [] ∧ List.Forall₂ Transaction.EncodedFieldsAgree [sampleTx] b'.transactions) ∧
    (∃ t', Transaction.unmarshalRLP sampleTx.marshalRLP = .ok t' ∧ sampleTx.EncodedFieldsAgree t') ∧
    (∃ r', Receipt.unmarshalRLP sampleReceipt.marshalRLP = .ok r' ∧
      sampleReceipt.EncodedFieldsAgree r') :=
  ⟨(types_rlp_round_trip _).1 ⟨sampleHeader, [sampleTx], []⟩ sampleHeader_encodable
      (fun _ hu => nomatch hu) (fun t ht => by
        rw [List.mem_singleton.mp ht]
        exact ⟨by decide, by decide, by decide, by decide, by decide⟩),
    (types_rlp_round_trip fun _ => zeroHash).2.1 sampleTx ⟨by decide, by decide, by decide, by decide, by decide⟩,
    (types_rlp_round_trip fun _ => zeroHash).2.2 sampleReceipt
      ⟨fun s hs => by cases hs; decide, List.length_replicate ..⟩⟩

/-- A negative amount is read back as its magnitude. -/
theorem negative_value_read_back_positive :
    ∃ t : Transaction, ∀ t', Transaction.unmarshalRLP t.marshalRLP = .ok t' → t'.value ≠ t.value :=
  ⟨{ sampleTx with value := -1 }, fun t' h => by
    rw [Transaction.unmarshalRLP_marshalRLP] at h
    cases h
    decide⟩

theorem block_decoding_reads_past_type_byte :
    Block.unmarshalRLP (fun _ => zeroHash)
        (encode (.array [sampleHeader.marshalRLPWith, .array [newBytes [2]], newNullArray])) =
      indexOutOfRange ∧
    Receipts.unmarshalRLP (encode (.array [newBytes [2]])) = indexOutOfRange :=
  ⟨Block.unmarshalRLP_trailing_typeByte _ sampleHeader_encodable [] .dynamicFeeTx newNullArray,
    rfl⟩

end EdgeTypes
