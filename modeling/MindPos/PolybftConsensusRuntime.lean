import MindPos.PolybftCheckpointManager
import MindPos.PolybftExtra
import MindPos.TypesRlp

/-! # Checking the hash of a proposal

`consensusRuntime.IsValidProposalHash` of `consensus/polybft/consensus_runtime.go`: the proposal
is decoded as a block, its extra is read, and the hash of the extra's checkpoint is compared with
the given one. A decoded extra leaves its checkpoint nil when the checkpoint element is an empty
list, and `Hash` then reads the fields of nil. A result of `none` is a panic. -/
namespace PolybftExtra

open EdgeTypes Keccak PolybftCheckpointManager

/-- `CheckpointData.Hash`: keccak of the ABI encoding of `(uint256 chainId, uint256 blockNumber,
bytes32 blockHash, uint256 blockRound, uint256 epochNumber, bytes32 eventRoot,
bytes32 currentValidatorsHash, bytes32 nextValidatorsHash)`, a static tuple whose words follow
one another. -/
def CheckpointData.hash (c : CheckpointData) (chainID blockNumber : UInt64) (blockHash : Hash) :
    Except String Hash :=
  .ok (bytesToHash (keccak256 (abiWord chainID.toNat ++ abiWord blockNumber.toNat ++
    blockHash.bytes ++ abiWord c.blockRound.toNat ++ abiWord c.epochNumber.toNat ++
    c.eventRoot.bytes ++ c.currentValidatorsHash.bytes ++ c.nextValidatorsHash.bytes)))

end PolybftExtra

namespace PolybftConsensusRuntime

open EdgeTypes RlpEncoding PolybftValidator PolybftExtra

variable {K : Type}

/-- What `IsValidProposalHash` reads of the runtime: the codecs of the extra, `HeaderHash` for
the decoded header, and the chain ID. -/
structure Runtime (K : Type) where
  codec : Codec
  keyCodec : KeyCodec K
  headerHash : Header → Hash
  chainID : UInt64

/-- `consensusRuntime.IsValidProposalHash`. -/
def isValidProposalHash (r : Runtime K) (rawProposal hash : List UInt8) : Option Bool :=
  if rawProposal.length = 0 then some false
  else match (Block.unmarshalRLP r.headerHash rawProposal).run with
    -- the decoder itself reads past the end of a list
    | none => none
    | some (.error _) => some false
    | some (.ok block) =>
      match getIbftExtra r.codec r.keyCodec block.header.extraData with
      | .error _ => some false
      | .ok extra =>
        match extra.checkpoint with
        -- `extra.Checkpoint.Hash` on a nil checkpoint
        | none => none
        | some checkpoint =>
          match checkpoint.hash r.chainID block.header.number block.header.hash with
          | .error _ => some false
          | .ok proposalHash => some (proposalHash.bytes == hash)

section Proposal

variable (r : Runtime K) {b : Block} (hh : b.header.Encodable) (hu : ∀ u ∈ b.uncles, u.Encodable)
  {e : Extra K} (hextra : getIbftExtra r.codec r.keyCodec b.header.extraData = .ok e)
include hh hu hextra

theorem isValidProposalHash_of_checkpoint {cp : CheckpointData} (hcp : e.checkpoint = some cp)
    (hash : List UInt8) :
    ∃ proposalHash, cp.hash r.chainID b.header.number
        (r.headerHash { b.header with hash := zeroHash }) = .ok proposalHash ∧
      isValidProposalHash r b.marshalRLP hash = some (proposalHash.bytes == hash) := by
  have hne : b.marshalRLP.length ≠ 0 := (encode_length_pos _).ne'
  refine ⟨_, rfl, ?_⟩
  rw [isValidProposalHash, if_neg hne, Block.unmarshalRLP_marshalRLP r.headerHash hh hu]
  simp only [ExceptT.run_pure, Option.pure_def, Header.computeHash, hextra, hcp]
  rfl

theorem isValidProposalHash_of_nil_checkpoint (hcp : e.checkpoint = none) (hash : List UInt8) :
    isValidProposalHash r b.marshalRLP hash = none := by
  have hne : b.marshalRLP.length ≠ 0 := (encode_length_pos _).ne'
  rw [isValidProposalHash, if_neg hne, Block.unmarshalRLP_marshalRLP r.headerHash hh hu]
  simp only [ExceptT.run_pure, Option.pure_def, Header.computeHash, hextra, hcp]

end Proposal

def nilCheckpointBlock : Block := ⟨{ sampleHeader with extraData := emptyExtraRaw }, [], []⟩

def sampleRuntime : Runtime (List UInt8) := ⟨rlp, rawKeyCodec, fun _ => zeroHash, 100⟩

theorem proposal_hash_check_reads_nil_checkpoint :
    (∃ block, Block.unmarshalRLP sampleRuntime.headerHash nilCheckpointBlock.marshalRLP =
      pure block) ∧
    isValidProposalHash sampleRuntime nilCheckpointBlock.marshalRLP [] = none := by
  have hh : nilCheckpointBlock.header.Encodable :=
    ⟨List.length_replicate .., List.length_replicate ..⟩
  have hu : ∀ u ∈ nilCheckpointBlock.uncles, u.Encodable := fun _ hu => nomatch hu
  have hextra : getIbftExtra rlp rawKeyCodec emptyExtraRaw = .ok ⟨some .empty, none, none, none⟩ := by
    decide
  exact ⟨⟨_, Block.unmarshalRLP_marshalRLP _ hh hu⟩,
    isValidProposalHash_of_nil_checkpoint sampleRuntime hh hu hextra rfl []⟩

end PolybftConsensusRuntime
