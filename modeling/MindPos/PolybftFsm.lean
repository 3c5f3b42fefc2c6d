import MindPos.PolybftExtra
import MindPos.BlockchainVerify
import MindPos.TypesRlp

/-! # The consensus state machine of a block height

`consensus/polybft/fsm.go`: a proposer builds a proposal with `BuildProposal`, every validator
checks it with `Validate`, which runs the block through `blockchainWrapper.ProcessBlock` and
keeps the result as the block to insert. Proposals are decoded by `types.Block.UnmarshalRLP`.
What the fsm calls outside this model (the BLS checks of the parent's seals, the checks of the
state transactions, the executor and the hashes) is a parameter. -/
namespace PolybftFsm

open EdgeTypes RlpEncoding PolybftValidator PolybftExtra BlockchainVerify

variable {K T : Type}

/-- What the fsm calls outside this model. -/
structure Backend (K T : Type) where
  codec : Codec
  keyCodec : KeyCodec K
  hashing : Hashing
  executor : Executor T
  /-- `AccountSet.Hash`: keccak of the ABI encoding. -/
  accountSetHash : AccountSet K → Except String Hash
  /-- `Extra.ValidateParentSignatures`, of the block number, the parent, its extra, and the
  parent's seals the block carries. -/
  validateParentSignatures : UInt64 → Header → Extra K → Option Signature → Except String Unit
  /-- `fsm.VerifyStateTransactions`. -/
  verifyStateTransactions : List Transaction → Except String Unit

/-- The fsm of a height, with what `consensusRuntime.FSM` gives it. -/
structure Fsm (K : Type) where
  parent : Header
  epochNumber : UInt64
  exitEventRootHash : Hash
  validators : AccountSet K
  isEndOfEpoch : Bool
  newValidatorsDelta : Option (ValidatorSetDelta K)

def polyBFTMixDigest : Hash :=
  hashOfNat 0xadce6e5230abe012342a44e4e9b6d05997d6f015387ae0e59be924afc7ec70c1

def errValidatorSetDeltaMismatch : String := "validator set delta mismatch"

def errValidatorsUpdateInNonEpochEnding : String :=
  "trying to update validator set in a non epoch ending block"

def errProposalDontMatch : String :=
  "failed to insert proposal, because the validated proposal " ++
    "is either nil or it does not match the received one"

/-- `types.Block.UnmarshalRLP` of a proposal, the header hashed by `headerHash`. A panic of the
decoder stops the node; here it is an error, so that it gives no block. -/
def unmarshalBlock (headerHash : Header → Hash) (proposal : List UInt8) : Except String Block :=
  (Block.unmarshalRLP headerHash proposal).run.getD (.error "runtime error: index out of range")

/-! ## Processing a proposal -/

/-- `validateHeaderFields`. -/
def validateHeaderFields (headerHash : Header → Hash) (parent header : Header) :
    Except String Unit :=
  if parent.hash ≠ header.parentHash then
    .error ("incorrect header parent hash (parent=" ++ encodeToHex parent.hash.bytes ++
      ", header parent=" ++ encodeToHex header.parentHash.bytes ++ ")")
  else if header.number ≠ parent.number + 1 then .error "invalid number"
  else if header.timestamp ≤ parent.timestamp then .error "timestamp older than parent"
  else if header.mixHash ≠ polyBFTMixDigest then .error "mix digest is not correct"
  else if header.difficulty ≤ 0 then .error "difficulty should be greater than zero"
  else if header.hash ≠ headerHash header then .error "invalid header hash"
  else .ok ()

def writeTransactions (ex : Executor T) : T → List Transaction → Except String T
  | transition, [] => .ok transition
  | transition, tx :: txs => do
    let transition ← (ex.write transition tx).mapError fun e =>
      "process block tx error, tx = " ++ encodeToHex tx.hash.bytes ++ ", err = " ++ e
    writeTransactions ex transition txs

/-- `blockchainWrapper.ProcessBlock`: the transactions are written, the callback runs, the
state root is compared, and the block is built again on a copy of the header. -/
def processBlock (b : Backend K T) (parent : Header) (block : Block)
    (callback : Except String Unit) : Except String FullBlock := do
  let header := block.header
  let transition ← b.executor.beginTxn parent.stateRoot header (bytesToAddress header.miner)
  let transition ← writeTransactions b.executor transition block.transactions
  callback
  let root := b.executor.commit transition
  if root ≠ block.header.stateRoot then
    throw ("incorrect state root: (" ++ encodeToHex root.bytes ++ ", " ++
      encodeToHex block.header.stateRoot.bytes ++ ")")
  let receipts := b.executor.receipts transition
  pure ⟨buildBlock b.hashing header block.transactions receipts, receipts⟩

theorem processBlock_ok {b : Backend K T} {parent : Header} {block : Block}
    {callback : Except String Unit} {fb : FullBlock} (h : processBlock b parent block callback = .ok fb) :
    callback = .ok () ∧
      ∃ receipts, fb = ⟨buildBlock b.hashing block.header block.transactions receipts, receipts⟩ := by
  unfold processBlock at h
  obtain ⟨_, -, h₁⟩ := Except.bind_eq_ok_iff.mp h
  obtain ⟨transition, -, h₂⟩ := Except.bind_eq_ok_iff.mp h₁
  obtain ⟨⟨⟩, hcb, h₃⟩ := Except.bind_eq_ok_iff.mp h₂
  refine ⟨hcb, b.executor.receipts transition, ?_⟩
  dsimp only at h₃
  split_ifs at h₃
  · simp at h₃
  · simp only [Except.pure_eq_ok, Except.ok.injEq] at h₃
    exact h₃.symm

section Validate

variable [DecidableEq K]

def Fsm.validateExtraData (f : Fsm K) (b : Backend K T) (extra : Extra K)
    (checkpoint parentCheckpoint : CheckpointData) : Except String Unit := do
  -- `GetIbftExtra` leaves no nil delta
  let delta := extra.validators.getD .empty
  if f.isEndOfEpoch then
    if !delta.equals f.newValidatorsDelta then throw errValidatorSetDeltaMismatch
  else if !delta.isEmpty then throw errValidatorsUpdateInNonEpochEnding
  let nextValidators ← f.validators.applyDelta (some delta)
  checkpoint.validate b.accountSetHash parentCheckpoint f.validators nextValidators

theorem Fsm.validateExtraData_ok {f : Fsm K} {b : Backend K T} {extra : Extra K}
    {checkpoint parentCheckpoint : CheckpointData}
    (h : f.validateExtraData b extra checkpoint parentCheckpoint = .ok ()) :
    (f.isEndOfEpoch = true → f.newValidatorsDelta = some (extra.validators.getD .empty)) ∧
      (f.isEndOfEpoch = false → extra.validators.getD .empty = .empty) ∧
      ∃ next, f.validators.applyDelta (some (extra.validators.getD .empty)) = .ok next ∧
        checkpoint.validate b.accountSetHash parentCheckpoint f.validators next = .ok () := by
  unfold Fsm.validateExtraData at h
  dsimp only at h
  split_ifs at h with hend hdelta hdelta
  · simp at h
  · refine ⟨fun _ => ?_, fun hf => absurd hend (by simp [hf]), Except.bind_eq_ok_iff.mp h⟩
    rw [Bool.not_eq_true', Bool.not_eq_false] at hdelta
    exact (ValidatorSetDelta.equals_iff _ _).mp hdelta
  · simp at h
  · refine ⟨fun ht => absurd ht hend, fun _ => ?_, Except.bind_eq_ok_iff.mp h⟩
    rw [Bool.not_eq_true', Bool.not_eq_false] at hdelta
    exact (ValidatorSetDelta.isEmpty_iff _).mp hdelta

/-- `Validate` once the proposal is decoded; the result is the block `Insert` commits. -/
def Fsm.validateBlock (f : Fsm K) (b : Backend K T) (block : Block) : Except String FullBlock := do
  (validateHeaderFields b.hashing.headerHash f.parent block.header).mapError fun e =>
    "failed to validate header (parent header# " ++ toString f.parent.number ++
      ", current header#" ++ toString block.header.number ++ "): " ++ e
  let extra ← (getIbftExtra b.codec b.keyCodec block.header.extraData).mapError
    ("cannot get extra data:" ++ ·)
  let parentExtra ← getIbftExtra b.codec b.keyCodec f.parent.extraData
  let checkpoint ← match extra.checkpoint with
    | some c => pure c
    | none => throw ("checkpoint data for block " ++ toString block.header.number ++ " is missing")
  let parentCheckpoint ← match parentExtra.checkpoint with
    | some c => pure c
    | none => throw ("checkpoint data for parent block " ++ toString f.parent.number ++
        " is missing")
  b.validateParentSignatures block.header.number f.parent parentExtra extra.parent
  b.verifyStateTransactions block.transactions
  processBlock b f.parent block (f.validateExtraData b extra checkpoint parentCheckpoint)

/-- `fsm.Validate`. -/
def Fsm.validate (f : Fsm K) (b : Backend K T) (proposal : List UInt8) : Except String FullBlock := do
  let block ← (unmarshalBlock b.hashing.headerHash proposal).mapError
    ("failed to validate, cannot decode block data. Error: " ++ ·)
  f.validateBlock b block

theorem Fsm.validateBlock_ok {f : Fsm K} {b : Backend K T} {block : Block} {fb : FullBlock}
    (h : f.validateBlock b block = .ok fb) :
    ∃ extra parentExtra checkpoint parentCheckpoint,
      getIbftExtra b.codec b.keyCodec block.header.extraData = .ok extra ∧
      getIbftExtra b.codec b.keyCodec f.parent.extraData = .ok parentExtra ∧
      extra.checkpoint = some checkpoint ∧ parentExtra.checkpoint = some parentCheckpoint ∧
      f.validateExtraData b extra checkpoint parentCheckpoint = .ok () ∧
      ∃ receipts, fb = ⟨buildBlock b.hashing block.header block.transactions receipts, receipts⟩ := by
  unfold Fsm.validateBlock at h
  obtain ⟨_, -, h₁⟩ := Except.bind_eq_ok_iff.mp h
  obtain ⟨extra, hextra, h₂⟩ := Except.bind_eq_ok_iff.mp h₁
  obtain ⟨parentExtra, hparent, h₃⟩ := Except.bind_eq_ok_iff.mp h₂
  dsimp only at h₃
  cases hcp : extra.checkpoint with
  | none => simp [hcp] at h₃
  | some checkpoint =>
    cases hpcp : parentExtra.checkpoint with
    | none => simp [hcp, hpcp] at h₃
    | some parentCheckpoint =>
      simp only [hcp, hpcp, Except.pure_eq_ok, Except.ok_bind_eq] at h₃
      obtain ⟨_, -, h₄⟩ := Except.bind_eq_ok_iff.mp h₃
      obtain ⟨_, -, h₅⟩ := Except.bind_eq_ok_iff.mp h₄
      obtain ⟨hcb, hfb⟩ := processBlock_ok h₅
      exact ⟨extra, parentExtra, checkpoint, parentCheckpoint, Except.mapError_eq_ok.mp hextra,
        hparent, hcp, hpcp, hcb, hfb⟩

theorem Fsm.validate_ok {f : Fsm K} {b : Backend K T} {proposal : List UInt8} {fb : FullBlock}
    (h : f.validate b proposal = .ok fb) :
    ∃ block, unmarshalBlock b.hashing.headerHash proposal = .ok block ∧
      f.validateBlock b block = .ok fb := by
  obtain ⟨block, hblock, hv⟩ := Except.bind_eq_ok_iff.mp h
  exact ⟨block, Except.mapError_eq_ok.mp hblock, hv⟩

end Validate

def Fsm.buildProposalExtra (f : Fsm K) (b : Backend K T) (currentRound : UInt64) :
    Except String (Extra K) := do
  let extraParent ← getIbftExtra b.codec b.keyCodec f.parent.extraData
  let nextValidators ← if f.isEndOfEpoch then f.validators.applyDelta f.newValidatorsDelta
    else pure f.validators
  let currentValidatorsHash ← b.accountSetHash f.validators
  let nextValidatorsHash ← b.accountSetHash nextValidators
  pure
    { parent := extraParent.committed
      validators := if f.isEndOfEpoch then f.newValidatorsDelta else none
      committed := none
      checkpoint := some ⟨currentRound, f.epochNumber, currentValidatorsHash, nextValidatorsHash,
        f.exitEventRootHash⟩ }

theorem Fsm.buildProposalExtra_ok {f : Fsm K} {b : Backend K T} {currentRound : UInt64}
    {built : Extra K} (h : f.buildProposalExtra b currentRound = .ok built) :
    ∃ next currentHash nextHash,
      (if f.isEndOfEpoch then f.validators.applyDelta f.newValidatorsDelta else .ok f.validators) =
        .ok next ∧
      b.accountSetHash f.validators = .ok currentHash ∧ b.accountSetHash next = .ok nextHash ∧
      built.validators = (if f.isEndOfEpoch then f.newValidatorsDelta else none) ∧
      built.checkpoint =
        some ⟨currentRound, f.epochNumber, currentHash, nextHash, f.exitEventRootHash⟩ := by
  unfold Fsm.buildProposalExtra at h
  obtain ⟨_, -, h₁⟩ := Except.bind_eq_ok_iff.mp h
  dsimp only at h₁
  split_ifs at h₁ with hend
  all_goals
    obtain ⟨next, hnext, h₂⟩ := Except.bind_eq_ok_iff.mp h₁
    obtain ⟨currentHash, hcur, h₃⟩ := Except.bind_eq_ok_iff.mp h₂
    obtain ⟨nextHash, hnh, h₄⟩ := Except.bind_eq_ok_iff.mp h₃
    rw [Except.pure_eq_ok, Except.ok.injEq] at h₄
    subst h₄
    exact ⟨next, currentHash, nextHash, by simpa [hend] using hnext, hcur, hnh, by simp [hend], rfl⟩

theorem nextValidators_of_validateExtraData [DecidableEq K] {f : Fsm K} {b : Backend K T}
    {extra : Extra K} {checkpoint parentCheckpoint : CheckpointData} {next : AccountSet K}
    (h : f.validateExtraData b extra checkpoint parentCheckpoint = .ok ())
    (hnext : f.validators.applyDelta (some (extra.validators.getD .empty)) = .ok next) :
    (if f.isEndOfEpoch then f.validators.applyDelta f.newValidatorsDelta else .ok f.validators) =
      .ok next := by
  obtain ⟨hend, hinside, -⟩ := Fsm.validateExtraData_ok h
  cases hf : f.isEndOfEpoch
  · rw [hinside hf, AccountSet.applyDelta_of_isEmpty _ rfl] at hnext
    simpa using hnext
  · simpa [hend hf] using hnext

/-- A proposal that passes `Validate` carries the validator hashes and the delta that
`BuildProposal` of the same fsm writes; its epoch is only bound to the parent checkpoint's, and
its exit event root is not compared at all. -/
theorem validate_checkpoint_agrees_with_buildProposal [DecidableEq K] {f : Fsm K}
    {b : Backend K T} {proposal : List UInt8} {fb : FullBlock} {currentRound : UInt64}
    {built : Extra K} (h : f.validate b proposal = .ok fb)
    (hbuilt : f.buildProposalExtra b currentRound = .ok built) :
    ∃ block extra checkpoint parentExtra parentCheckpoint builtCheckpoint,
      unmarshalBlock b.hashing.headerHash proposal = .ok block ∧
      getIbftExtra b.codec b.keyCodec block.header.extraData = .ok extra ∧
      extra.checkpoint = some checkpoint ∧
      getIbftExtra b.codec b.keyCodec f.parent.extraData = .ok parentExtra ∧
      parentExtra.checkpoint = some parentCheckpoint ∧
      built.checkpoint = some builtCheckpoint ∧
      checkpoint.currentValidatorsHash = builtCheckpoint.currentValidatorsHash ∧
      checkpoint.nextValidatorsHash = builtCheckpoint.nextValidatorsHash ∧
      (f.isEndOfEpoch = true → extra.validators = f.newValidatorsDelta) ∧
      (f.isEndOfEpoch = false → extra.validators = some .empty) ∧
      (checkpoint.epochNumber = parentCheckpoint.epochNumber ∨
        checkpoint.epochNumber = parentCheckpoint.epochNumber + 1) := by
  obtain ⟨block, hblock, hv⟩ := Fsm.validate_ok h
  obtain ⟨extra, parentExtra, checkpoint, parentCheckpoint, hextra, hparent, hcp, hpcp, hed, -⟩ :=
    Fsm.validateBlock_ok hv
  have hvals := getIbftExtra_validators hextra
  obtain ⟨hend, hinside, next, happly, hvalid⟩ := Fsm.validateExtraData_ok hed
  obtain ⟨hepoch, hcur, hnext, -⟩ := CheckpointData.validate_ok hvalid
  obtain ⟨next', currentHash, nextHash, hnext', hcur', hnh', -, hbcp⟩ := Fsm.buildProposalExtra_ok hbuilt
  have hsame : next' = next := by
    rw [nextValidators_of_validateExtraData hed happly, Except.ok.injEq] at hnext'
    exact hnext'.symm
  subst hsame
  refine ⟨block, extra, checkpoint, parentExtra, parentCheckpoint, _, hblock, hextra, hcp, hparent,
    hpcp, hbcp, ?_, ?_, fun hf => ?_, fun hf => ?_, hepoch⟩
  · rw [hcur, Except.ok.injEq] at hcur'
    exact hcur'
  · rw [hnext, Except.ok.injEq] at hnh'
    exact hnh'
  · rw [hvals, hend hf]
  · rw [hvals, hinside hf]

/-! ## A proposal on an empty validator set

The parent of height 1 carries the checkpoint of epoch 1; the fsm of height 2 is inside that
epoch, has exit event root zero and no validators. The proposal is the RLP of an empty block. The
backend runs no transactions, hashes a header by its number, and hashes every validator set to
`hashOfNat 1`; the parent's seals and the state transactions pass. -/

def unitKeyCodec : KeyCodec Unit := ⟨fun _ => [], fun _ => .ok ()⟩

def sampleParentExtra : Extra Unit :=
  ⟨some .empty, none, none, some ⟨0, 1, hashOfNat 1, hashOfNat 1, zeroHash⟩⟩

def sampleHeaderHash (h : Header) : Hash := hashOfNat (h.number.toNat + 1)

def sampleParent : Header :=
  { parentHash := zeroHash, sha3Uncles := emptyUncleHash, miner := [], stateRoot := zeroHash,
    txRoot := emptyRootHash, receiptsRoot := emptyRootHash, logsBloom := List.replicate 256 0,
    difficulty := 1, number := 1, gasLimit := 10, gasUsed := 0, timestamp := 1,
    extraData := sampleParentExtra.marshalRLPTo rlp unitKeyCodec, mixHash := polyBFTMixDigest,
    nonce := List.replicate 8 0, hash := hashOfNat 2, baseFee := 0 }

def sampleProposalExtra : Extra Unit :=
  ⟨some .empty, none, none, some ⟨0, 2, hashOfNat 1, hashOfNat 1, hashOfNat 9⟩⟩

def sampleProposal (gasUsed : UInt64) : Block :=
  ⟨{ sampleParent with
      parentHash := hashOfNat 2, number := 2, timestamp := 2, gasUsed := gasUsed,
      extraData := sampleProposalExtra.marshalRLPTo rlp unitKeyCodec, hash := hashOfNat 3 }, [], []⟩

def sampleBackend : Backend Unit Unit :=
  { codec := rlp
    keyCodec := unitKeyCodec
    hashing := ⟨fun _ => emptyRootHash, fun _ => emptyRootHash, fun _ => emptyUncleHash,
      sampleHeaderHash⟩
    executor := ⟨fun _ _ _ => .ok (), fun t _ => .ok t, fun _ => zeroHash, fun _ => [], fun _ => 0⟩
    accountSetHash := fun _ => .ok (hashOfNat 1)
    validateParentSignatures := fun _ _ _ _ => .ok ()
    verifyStateTransactions := fun _ => .ok () }

def sampleFsm : Fsm Unit := ⟨sampleParent, 1, zeroHash, [], false, none⟩

def sampleBuiltExtra : Extra Unit :=
  ⟨none, none, none, some ⟨0, 1, hashOfNat 1, hashOfNat 1, zeroHash⟩⟩

def sampleTarget (gasUsed : UInt64) : FullBlock :=
  ⟨buildBlock sampleBackend.hashing (sampleProposal gasUsed).header [] [], []⟩

theorem validate_checkpoint_agrees_with_buildProposal_of_sample :
    ∃ block extra checkpoint parentExtra parentCheckpoint, ∃ builtCheckpoint : CheckpointData,
      unmarshalBlock sampleBackend.hashing.headerHash (sampleProposal 0).marshalRLP = .ok block ∧
      getIbftExtra rlp unitKeyCodec block.header.extraData = .ok extra ∧
      extra.checkpoint = some checkpoint ∧
      getIbftExtra rlp unitKeyCodec sampleFsm.parent.extraData = .ok parentExtra ∧
      parentExtra.checkpoint = some parentCheckpoint ∧
      sampleBuiltExtra.checkpoint = some builtCheckpoint ∧
      checkpoint.currentValidatorsHash = builtCheckpoint.currentValidatorsHash ∧
      checkpoint.nextValidatorsHash = builtCheckpoint.nextValidatorsHash ∧
      (sampleFsm.isEndOfEpoch = true → extra.validators = sampleFsm.newValidatorsDelta) ∧
      (sampleFsm.isEndOfEpoch = false → extra.validators = some .empty) ∧
      (checkpoint.epochNumber = parentCheckpoint.epochNumber ∨
        checkpoint.epochNumber = parentCheckpoint.epochNumber + 1) :=
  validate_checkpoint_agrees_with_buildProposal
    (show sampleFsm.validate sampleBackend (sampleProposal 0).marshalRLP = .ok (sampleTarget 0) by
      decide +kernel)
    (show sampleFsm.buildProposalExtra sampleBackend 0 = .ok sampleBuiltExtra by
      decide +kernel)

/-- `Validate` accepts a checkpoint of epoch 2 with exit event root 9 from the fsm of epoch 1
whose exit event root is zero, while `BuildProposal` of that fsm writes epoch 1 and root zero. -/
theorem validate_accepts_checkpoint_of_other_epoch_and_eventRoot :
    sampleFsm.validate sampleBackend (sampleProposal 0).marshalRLP = .ok (sampleTarget 0) ∧
      sampleFsm.buildProposalExtra sampleBackend 0 = .ok sampleBuiltExtra ∧
      getIbftExtra rlp unitKeyCodec (sampleProposal 0).header.extraData = .ok sampleProposalExtra ∧
      sampleBuiltExtra.checkpoint = some ⟨0, 1, hashOfNat 1, hashOfNat 1, zeroHash⟩ ∧
      sampleProposalExtra.checkpoint = some ⟨0, 2, hashOfNat 1, hashOfNat 1, hashOfNat 9⟩ :=
  ⟨by decide +kernel, by decide +kernel, by decide +kernel, rfl, rfl⟩


def insertMatches (b : Backend K T) (target : Option FullBlock) (proposal : List UInt8) :
    Except String FullBlock := do
  let proposedBlock ← (unmarshalBlock b.hashing.headerHash proposal).mapError
    ("failed to insert proposal, block unmarshaling failed: " ++ ·)
  match target with
  | some newBlock =>
    if newBlock.block.header.hash = proposedBlock.header.hash then pure newBlock
    else throw errProposalDontMatch
  | none => throw errProposalDontMatch

/-! ## Consensus and import check different fields -/

def sampleReadHeader (hash : Hash) : Option Header :=
  if hash = sampleParent.hash then some sampleParent else none

/-- An empty proposal whose header claims 5 gas passes `Validate` and the hash check of
`Insert`, and `verifyBlock` of a node holding the same parent rejects the committed block. -/
theorem validate_accepts_block_that_verifyBlock_rejects :
    sampleFsm.validate sampleBackend (sampleProposal 5).marshalRLP = .ok (sampleTarget 5) ∧
      insertMatches sampleBackend (some (sampleTarget 5)) (sampleProposal 5).marshalRLP =
        .ok (sampleTarget 5) ∧
      verifyBlock sampleBackend.hashing sampleReadHeader
          sampleBackend.executor (sampleTarget 5).block =
        .error ("unable to verify block execution result, " ++ errInvalidGasUsed) :=
  ⟨by decide +kernel, by decide +kernel, by decide +kernel⟩

end PolybftFsm
