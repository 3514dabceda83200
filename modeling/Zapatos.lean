import Zapatos.Lib.Basic
import Zapatos.Lib.Quorum
import Zapatos.Lib.SparseMerkle
import Zapatos.Lib.SortedList
import Zapatos.Move.Vector
import Zapatos.Move.Integer
import Zapatos.Move.Table
import Zapatos.Lib.AListSum
import Zapatos.Lib.FloorDiv
import Zapatos.Types.Ledger
import Zapatos.Types.Error
import Zapatos.Types.Quorum
import Zapatos.Types.EpochChange
import Zapatos.Types.Encoding
import Zapatos.Types.TrustedState
import Zapatos.Types.SparseMerkleProof
import Zapatos.JellyfishMerkle.NodeType
import Zapatos.JellyfishMerkle.Restore
import Zapatos.JellyfishMerkle.RestoreSpec
import Zapatos.Storage.StateRestore
import Zapatos.Consensus.Types
import Zapatos.Consensus.SafetyRules
import Zapatos.Consensus.SafetyRulesSpec
import Zapatos.Consensus.NonEquivocation
import Zapatos.Consensus.Locks
import Zapatos.Consensus.TwoChainSafety
import Zapatos.Consensus.TimeoutCertificate
import Zapatos.Framework.Stake
import Zapatos.Framework.StakeSpec
import Zapatos.Framework.NextValidatorSet
import Zapatos.Aggregator.BoundedMath
import Zapatos.Aggregator.DeltaMath
import Zapatos.Aggregator.DeltaChangeSet
import Zapatos.Aggregator.TryAdd
import Zapatos.Aggregator.TryAddSpec
import Zapatos.Aggregator.AggregatorV1
import Zapatos.Aggregator.AggregatorV1Spec
import Zapatos.MVHashMap.VersionedData
import Zapatos.MVHashMap.ReadSpec
import Zapatos.Datastructures.OrderedMap
import Zapatos.Datastructures.OrderedMapSpec
import Zapatos.Stdlib.PoolU64Unbound
import Zapatos.Stdlib.PoolU64UnboundSpec
import Zapatos.Lib.Buckets
import Zapatos.Stdlib.SmartTable
import Zapatos.Stdlib.SmartTableSpec
import Zapatos.Stdlib.SmartTableMap
import Zapatos.Lib.Bytes
import Zapatos.JellyfishMerkle.NibblePath
import Zapatos.JellyfishMerkle.NodeKeyCodec
import Zapatos.Lib.Bits
import Zapatos.JellyfishMerkle.NodeCodec
import Zapatos.Lib.InOrder
import Zapatos.Lib.Iterator
import Zapatos.Types.Position
import Zapatos.Types.FrozenSubtrees
import Zapatos.Lib.MerkleTree
import Zapatos.Types.Accumulator
import Zapatos.Types.AccumulatorSpec
import Zapatos.Types.AccumulatorProof
import Zapatos.Storage.Accumulator
import Zapatos.Storage.AccumulatorSpec
import Zapatos.Storage.AppendSpec
import Zapatos.Storage.RangeProofSpec
