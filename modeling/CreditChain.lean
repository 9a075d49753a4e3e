import CreditChain.Lib.Except
import CreditChain.Aggregator.BoundedMath
import CreditChain.Aggregator.Types
import CreditChain.Aggregator.DeltaMath
import CreditChain.Aggregator.DeltaChangeSet
import CreditChain.Aggregator.DelayedFieldExtension
import CreditChain.BlockExecutor.DelayedFieldView
import CreditChain.MvHashMap.SequentialRead
import CreditChain.MvHashMap.VersionedData
import CreditChain.MvHashMap.PushValidation
import CreditChain.Lib.MerklePath
import CreditChain.Proof.Definition
import CreditChain.Proof.Binding
import CreditChain.Lib.Bits
import CreditChain.Lib.InorderTree
import CreditChain.Lib.Word
import CreditChain.Proof.Position
import CreditChain.Proof.Postorder
import CreditChain.Proof.RangeProof
import CreditChain.Lib.Bytes
import CreditChain.Lib.Iter
import CreditChain.Jellyfish.NodeKey
import CreditChain.Jellyfish.Varint
import CreditChain.Jellyfish.Node
import CreditChain.Mempool.TransactionStore
import CreditChain.BlockExecutor.Scheduler
import CreditChain.BlockExecutor.SchedulerStatus
import CreditChain.BlockExecutor.SchedulerWorkers
import CreditChain.BlockExecutor.SchedulerCommit
import CreditChain.Lib.Quorum
import CreditChain.Types.ValidatorVerifier
import CreditChain.Types.LedgerInfo
import CreditChain.Consensus.Types
import CreditChain.Consensus.PendingVotes
import CreditChain.Consensus.QuorumCertUniqueness
import CreditChain.Consensus.TimeoutCertificate
import CreditChain.Aggregator.AggregatorV1
import CreditChain.StateRestore.SnapshotRestore
import CreditChain.Bitvec.Buckets
import CreditChain.Jellyfish.NibbleRange
import CreditChain.Proof.FrozenSubtrees
import CreditChain.Types.TrustedState
import CreditChain.Proof.Accumulator
import CreditChain.Consensus.SafetyRules
import CreditChain.Consensus.SafetyRulesCalls
import CreditChain.Consensus.VoteSafety
import CreditChain.MvHashMap.DelayedFieldsCommit
import CreditChain.MvHashMap.DelayedFieldsReads
