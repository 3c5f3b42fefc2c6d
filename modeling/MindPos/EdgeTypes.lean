import MindPos.RlpEncoding

/-! # Hashes, addresses, headers and transactions

The fixed-size byte arrays of the `types` package carry their length as a field, so that a
hash of the wrong size cannot be built. Headers, blocks, transactions and receipts keep the
fields the modelled functions read. -/
namespace EdgeTypes

open RlpEncoding

/-- `types.Hash`. -/
structure Hash where
  bytes : List UInt8
  length_eq : bytes.length = 32
  deriving DecidableEq

/-- `types.Address`. -/
structure Address where
  bytes : List UInt8
  length_eq : bytes.length = 20
  deriving DecidableEq

def rightAlign (n : Nat) (b : List UInt8) : List UInt8 :=
  List.replicate (n - b.length) 0 ++ b.drop (b.length - n)

theorem rightAlign_length (n : Nat) (b : List UInt8) : (rightAlign n b).length = n := by
  simp only [rightAlign, List.length_append, List.length_replicate, List.length_drop]
  omega

theorem rightAlign_of_length {n : Nat} {b : List UInt8} (h : b.length = n) : rightAlign n b = b := by
  simp [rightAlign, h]

theorem ofBE_rightAlign_toBE {n k : Nat} (h : n < 256 ^ k) : ofBE (rightAlign k (toBE n)) = n := by
  have hlen := toBE_length_le h
  rw [rightAlign, Nat.sub_eq_zero_of_le hlen, List.drop_zero, ofBE_append,
    ofBE_replicate_zero, zero_mul, zero_add, ofBE_toBE]

theorem rightAlign_toBE_ofBE (b : List UInt8) : rightAlign b.length (toBE (ofBE b)) = b :=
  ofBE_inj (rightAlign_length _ _) (ofBE_rightAlign_toBE (ofBE_lt b))

def bytesToHash (b : List UInt8) : Hash := ⟨rightAlign 32 b, rightAlign_length 32 b⟩

def bytesToAddress (b : List UInt8) : Address := ⟨rightAlign 20 b, rightAlign_length 20 b⟩

@[simp] theorem bytesToHash_bytes (h : Hash) : bytesToHash h.bytes = h := by
  cases h; simp [bytesToHash, rightAlign_of_length, *]

@[simp] theorem bytesToAddress_bytes (a : Address) : bytesToAddress a.bytes = a := by
  cases a; simp [bytesToAddress, rightAlign_of_length, *]

def zeroHash : Hash := bytesToHash []

def zeroAddress : Address := bytesToAddress []

/-- `hex.EncodeToHex`, as `types.Hash.String` prints a hash: `0x` and two lower-case digits a
byte. -/
def encodeToHex (b : List UInt8) : String :=
  "0x" ++ String.ofList (b.flatMap fun x => [Nat.digitChar (x.toNat / 16), Nat.digitChar (x.toNat % 16)])

def hashOfNat (n : Nat) : Hash := bytesToHash (toBE n)

def emptyRootHash : Hash :=
  hashOfNat 0x56e81f171bcc55a6ff8345e692c0f86e5b48e01b996cadc001622fb5e363b421

def emptyUncleHash : Hash :=
  hashOfNat 0x1dcc4de8dec75d7aab85b567b6ccd41ad312451b948a7413f0a142fd40d49347

/-- `bytes.Compare`. -/
def bytesCompare : List UInt8 → List UInt8 → Ordering
  | [], [] => .eq
  | [], _ :: _ => .lt
  | _ :: _, [] => .gt
  | a :: as, b :: bs =>
    match compare a b with
    | .eq => bytesCompare as bs
    | o => o

/-- `types.Header`. -/
structure Header where
  parentHash : Hash
  sha3Uncles : Hash
  miner : List UInt8
  stateRoot : Hash
  txRoot : Hash
  receiptsRoot : Hash
  logsBloom : List UInt8
  difficulty : UInt64
  number : UInt64
  gasLimit : UInt64
  gasUsed : UInt64
  timestamp : UInt64
  extraData : List UInt8
  mixHash : Hash
  nonce : List UInt8
  hash : Hash
  baseFee : UInt64
  deriving DecidableEq

inductive TxType where
  | legacyTx
  | stateTx
  | dynamicFeeTx
  deriving DecidableEq, Repr

def TxType.toByte : TxType → UInt8
  | .legacyTx => 0x0
  | .stateTx => 0x7f
  | .dynamicFeeTx => 0x02

def txTypeFromByte (b : UInt8) : Except String TxType :=
  if b = TxType.legacyTx.toByte then .ok .legacyTx
  else if b = TxType.stateTx.toByte then .ok .stateTx
  else if b = TxType.dynamicFeeTx.toByte then .ok .dynamicFeeTx
  else .error ("unknown transaction type: " ++ toString b)

@[simp] theorem txTypeFromByte_toByte (t : TxType) : txTypeFromByte t.toByte = .ok t := by
  cases t <;> rfl

theorem TxType.toByte_le (t : TxType) : t.toByte ≤ 0x7f := by
  cases t <;> decide

/-- `types.Transaction`. An absent amount is zero: `Transaction.Copy` replaces it by zero before
a transaction is applied. -/
structure Transaction where
  nonce : UInt64
  gasPrice : Int
  gasTipCap : Int
  gasFeeCap : Int
  gas : UInt64
  toAddr : Option Address
  value : Int
  input : List UInt8
  v : Int
  r : Int
  s : Int
  hash : Hash
  fromAddr : Address
  type : TxType
  deriving DecidableEq

/-- `types.Log`. -/
structure Log where
  address : Address
  topics : List Hash
  data : List UInt8
  deriving DecidableEq

/-- `types.ReceiptStatus`, a `uint64`. -/
structure ReceiptStatus where
  toUInt64 : UInt64
  deriving DecidableEq, Repr

def ReceiptStatus.failed : ReceiptStatus := ⟨0⟩

def ReceiptStatus.success : ReceiptStatus := ⟨1⟩

/-- `types.Receipt`; the contract address is left out. -/
structure Receipt where
  root : Hash
  cumulativeGasUsed : UInt64
  logsBloom : List UInt8
  logs : List Log
  status : Option ReceiptStatus
  gasUsed : UInt64
  txHash : Hash
  transactionType : TxType
  deriving DecidableEq

/-- `types.Block`. -/
structure Block where
  header : Header
  transactions : List Transaction
  uncles : List Header
  deriving DecidableEq

end EdgeTypes

namespace RlpEncoding

open EdgeTypes

/-! ## Fixed-size byte strings

fastrlp's accessors that also check the length of the string. -/

def Value.getBytesOfLength (n : Nat) (v : Value) : Except String (List UInt8) := do
  let b ← v.getBytes
  if b.length = n then .ok b
  else .error ("bad length, expected " ++ toString n ++ " but found " ++ toString b.length)

def Value.getAddr (v : Value) : Except String Address := do
  let b ← v.getBytes
  if h : b.length = 20 then .ok ⟨b, h⟩
  else .error ("bad length, expected 20 but found " ++ toString b.length)

def Value.getHash (v : Value) : Except String Hash := do
  let b ← v.getBytes
  if h : b.length = 32 then .ok ⟨b, h⟩
  else .error ("bad length, expected 32 but found " ++ toString b.length)

@[simp] theorem getBytesOfLength_bytes {n : Nat} {b : List UInt8} (h : b.length = n) :
    (Value.bytes b).getBytesOfLength n = .ok b := by
  simp [Value.getBytesOfLength, h]

@[simp] theorem getAddr_bytes (a : Address) : (Value.bytes a.bytes).getAddr = .ok a := by
  simp [Value.getAddr, a.length_eq]

@[simp] theorem getHash_bytes (h : Hash) : (Value.bytes h.bytes).getHash = .ok h := by
  simp [Value.getHash, h.length_eq]

end RlpEncoding
