import MindPos.EdgeTypes

/-! # Executing blocks, and the checks of a block import

`blockchain/blockchain.go` (`verifyBlock` and its parts, `CalculateBaseFee`),
`consensus.BuildBlock` and `state.Executor.ProcessBlock`. The state transition of a
transaction and the tries behind the roots are outside this model: the executor and the hash
functions are parameters. -/
namespace BlockchainVerify

open EdgeTypes

/-- `state.Executor` and its `Transition`: a transition of type `T` opened on a parent state
root, to which transactions are written in order. -/
structure Executor (T : Type) where
  beginTxn : Hash → Header → Address → Except String T
  write : T → Transaction → Except String T
  commit : T → Hash
  receipts : T → List Receipt
  totalGas : T → UInt64

/-- The roots of `buildroot` and `types.HeaderHash`: keccak over RLP encodings. -/
structure Hashing where
  calculateTransactionsRoot : List Transaction → Hash
  calculateReceiptsRoot : List Receipt → Hash
  calculateUncleRoot : List Header → Hash
  headerHash : Header → Hash

/-- `types.FullBlock`. -/
structure FullBlock where
  block : Block
  receipts : List Receipt
  deriving DecidableEq

def errParentNotFound : String := "parent block not found"
def errInvalidParentHash : String := "parent block hash is invalid"
def errParentHashMismatch : String := "invalid parent block hash"
def errInvalidBlockSequence : String := "invalid block sequence"
def errInvalidSha3Uncles : String := "invalid block sha3 uncles root"
def errInvalidTxRoot : String := "invalid block transactions root"
def errInvalidReceiptsSize : String := "invalid number of receipts"
def errInvalidStateRoot : String := "invalid block state root"
def errInvalidGasUsed : String := "invalid block gas used"
def errInvalidReceiptsRoot : String := "invalid block receipts root"

def blockGasTargetDivisor : UInt64 := 1024

/-- `consensus.BuildBlock`: the header takes the roots of the transactions and receipts and the
empty uncle hash, and its hash is computed again. -/
def buildBlock (hashing : Hashing) (header : Header) (txns : List Transaction)
    (receipts : List Receipt) : Block :=
  let header := { header with
    txRoot := if txns = [] then emptyRootHash else hashing.calculateTransactionsRoot txns
    receiptsRoot := if receipts = [] then emptyRootHash else hashing.calculateReceiptsRoot receipts
    sha3Uncles := emptyUncleHash }
  ⟨{ header with hash := hashing.headerHash header }, txns, []⟩

/-- `Executor.ProcessBlock`: a transaction asking for more gas than the block's limit is
skipped. -/
def Executor.processBlock {T : Type} (ex : Executor T) (parentRoot : Hash) (block : Block)
    (blockCreator : Address) : Except String T := do
  let txn ← ex.beginTxn parentRoot block.header blockCreator
  block.transactions.foldlM
    (fun txn t => if t.gas > block.header.gasLimit then pure txn else ex.write txn t) txn

/-! ## The import checks -/

/-- `verifyGasLimit`: the gas used within the limit, and the limit within a 1/1024 step of the
parent's, computed in `int64`. -/
def verifyGasLimit (header parentHeader : Header) : Except String Unit :=
  if header.gasUsed > header.gasLimit then
    .error ("block gas used exceeds gas limit, limit = " ++ toString header.gasLimit ++
      ", used=" ++ toString header.gasUsed)
  else if header.number = 0 then .ok ()
  else
    let diff := parentHeader.gasLimit.toInt64 - header.gasLimit.toInt64
    let diff := if diff < 0 then diff * -1 else diff
    let limit := parentHeader.gasLimit / blockGasTargetDivisor
    if diff.toUInt64 > limit then
      .error ("invalid gas limit, limit = " ++ toString header.gasLimit ++ ", want " ++
        toString parentHeader.gasLimit ++ " +- " ++ toString (limit - 1))
    else .ok ()

/-- `verifyBlockParent`, with the chain's headers by hash. -/
def verifyBlockParent (readHeader : Hash → Option Header) (childBlock : Block) :
    Except String Unit :=
  let parentHash := childBlock.header.parentHash
  match readHeader parentHash with
  | none => .error errParentNotFound
  | some parent =>
    if parent.hash = zeroHash then .error errInvalidParentHash
    else if parentHash ≠ parent.hash then .error errParentHashMismatch
    else if childBlock.header.number - 1 ≠ parent.number then .error errInvalidBlockSequence
    else (verifyGasLimit childBlock.header parent).mapError ("invalid gas limit, " ++ ·)

/-- `BlockResult`. -/
structure BlockResult where
  root : Hash
  receipts : List Receipt
  totalGas : UInt64

/-- `BlockResult.verifyBlockResult`. -/
def BlockResult.verifyBlockResult (hashing : Hashing) (br : BlockResult) (referenceBlock : Block) :
    Except String Unit :=
  if br.receipts.length ≠ referenceBlock.transactions.length then .error errInvalidReceiptsSize
  else if br.root ≠ referenceBlock.header.stateRoot then .error errInvalidStateRoot
  else if br.totalGas ≠ referenceBlock.header.gasUsed then .error errInvalidGasUsed
  else if hashing.calculateReceiptsRoot br.receipts ≠ referenceBlock.header.receiptsRoot then
    .error errInvalidReceiptsRoot
  else .ok ()

/-- `executeBlockTransactions` under PolyBFT, whose block creator is the miner and whose
`PreCommitState` does nothing. -/
def executeBlockTransactions {T : Type} (readHeader : Hash → Option Header) (ex : Executor T)
    (block : Block) : Except String BlockResult := do
  let parent ← match readHeader block.header.parentHash with
    | some parent => pure parent
    | none => throw errParentNotFound
  let txn ← ex.processBlock parent.stateRoot block (bytesToAddress block.header.miner)
  pure ⟨ex.commit txn, ex.receipts txn, ex.totalGas txn⟩

/-- `verifyBlockBody`. -/
def verifyBlockBody {T : Type} (hashing : Hashing) (readHeader : Hash → Option Header)
    (ex : Executor T) (block : Block) : Except String (List Receipt) := do
  if hashing.calculateUncleRoot block.uncles ≠ block.header.sha3Uncles then
    throw errInvalidSha3Uncles
  if hashing.calculateTransactionsRoot block.transactions ≠ block.header.txRoot then
    throw errInvalidTxRoot
  let blockResult ← (executeBlockTransactions readHeader ex block).mapError
    ("unable to execute block transactions, " ++ ·)
  (blockResult.verifyBlockResult hashing block).mapError
    ("unable to verify block execution result, " ++ ·)
  pure blockResult.receipts

/-- `verifyBlock`. -/
def verifyBlock {T : Type} (hashing : Hashing) (readHeader : Hash → Option Header)
    (ex : Executor T) (block : Block) : Except String (List Receipt) := do
  verifyBlockParent readHeader block
  verifyBlockBody hashing readHeader ex block

/-! ## The base fee -/

def defaultBaseFeeChangeDenom : UInt64 := 8

def calcBaseFeeDelta (gasUsedDelta parentGasTarget baseFee : UInt64) : UInt64 :=
  baseFee * gasUsedDelta / parentGasTarget / defaultBaseFeeChangeDenom

/-- `Blockchain.CalculateBaseFee`, for a chain whose London fork is `isLondon`, with the
genesis elasticity multiplier `baseFeeEM` and base fee `genesisBaseFee`. -/
def calculateBaseFee (isLondon : UInt64 → Bool) (baseFeeEM genesisBaseFee : UInt64)
    (parent : Header) : UInt64 :=
  if !isLondon parent.number then genesisBaseFee
  else
    let parentGasTarget := parent.gasLimit / baseFeeEM
    if parent.gasUsed = parentGasTarget then parent.baseFee
    else if parent.gasUsed > parentGasTarget then
      let baseFeeDelta := calcBaseFeeDelta (parent.gasUsed - parentGasTarget) parentGasTarget
        parent.baseFee
      parent.baseFee + max baseFeeDelta 1
    else
      let baseFeeDelta := calcBaseFeeDelta (parentGasTarget - parent.gasUsed) parentGasTarget
        parent.baseFee
      max (parent.baseFee - baseFeeDelta) 0

end BlockchainVerify
