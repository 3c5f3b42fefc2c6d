import MindPos.RlpEncoding
import MindPos.EdgeTypes
import MindPos.KeyedLists
import MindPos.PolybftValidator
import MindPos.PolybftExtra
import MindPos.WeightedRoundRobin
import MindPos.PointerCells
import MindPos.PolybftProposerCalculator
import MindPos.PolybftProposerRuns
import MindPos.PolybftStakeManager
import MindPos.PolybftValidatorsSnapshot
import MindPos.BlockchainVerify
import MindPos.PolybftFsm
import MindPos.MerkleTree
import MindPos.PolybftCheckpointManager
import MindPos.StateTxn
import MindPos.StateExecutor
import MindPos.PolybftStateSync
import MindPos.ContainerHeap
import MindPos.TxPool
import MindPos.BlockchainHeaders
import MindPos.GoSlices
import MindPos.StateTxnSnapshots
import MindPos.StateCallFrames
import MindPos.Keccak
import MindPos.Sha256
import MindPos.StateExcept
import MindPos.ImmutableTrie
import MindPos.ImmutableTrieCache
import MindPos.GoSort
import MindPos.IbftSnapshot
import MindPos.IbftSnapshotStore
import MindPos.TypesRlp
import MindPos.PolybftConsensusRuntime
import MindPos.IbftSigner
import MindPos.IbftSealing
import MindPos.TxPoolState
import MindPos.TxPoolAccounting
import MindPos.TxPoolValidate
import MindPos.MerkleProofs
import MindPos.BoltBucket
import MindPos.PolybftCommitmentStore
import MindPos.EvmState
import MindPos.EvmCall
import MindPos.TwosComplement
import MindPos.EvmWords
import MindPos.EvmArithmetic
import MindPos.EvmArithmeticSpec
import MindPos.EvmArithmeticRun
import MindPos.BlockchainGas
import MindPos.PrecompiledModExp
import MindPos.JsonrpcLogs
import MindPos.PolybftHashToPoint
import MindPos.ArchiveStream
import MindPos.PolybftCommitEpoch
import MindPos.PolybftSignerBitmap
import MindPos.IbftCommittedSeals
import MindPos.EvmJumpdest
import MindPos.ImmutableTrieSpells
import MindPos.ImmutableTrieLookup
import MindPos.ImmutableTrieRuns
import MindPos.ImmutableTrieMap
import MindPos.ImmutableTrieDelete
import MindPos.ImmutableTrieHashing
import MindPos.ImmutableTrieStorage
import MindPos.ImmutableTriePersist
import MindPos.ImmutableTrieLoad
import MindPos.BuildRoot
