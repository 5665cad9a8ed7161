import Mkmq.ByteCodec
import Mkmq.Transition
import Mkmq.ChainWalk
import Mkmq.OrderedStore
import Mkmq.LowerBound
import Mkmq.Tiling
import Mkmq.ListRules
import Mkmq.FailureRules
import Mkmq.ReadProgram
import Mkmq.WriteProgram
import Mkmq.BitPolynomial
import Mkmq.Grouping
import Mkmq.Accounts
import Mkmq.Recency
import Mkmq.Framing
import Mkmq.Config
import Mkmq.ConfigLoader
import Mkmq.PartitionTable
import Mkmq.Crc32c
import Mkmq.CrcPolynomial
import Mkmq.RecordBatch
import Mkmq.BatchWalks
import Mkmq.RewriteInPlace
import Mkmq.LogFrame
import Mkmq.LogHead
import Mkmq.OffsetRange
import Mkmq.ProduceGuard
import Mkmq.PartitionLog
import Mkmq.ReadPath
import Mkmq.MergedRead
import Mkmq.LogReading
import Mkmq.SegmentHandles
import Mkmq.SequentialLog
import Mkmq.Broker
import Mkmq.ProduceFetch
import Mkmq.PartitionReactor
import Mkmq.SegmentPlacement
import Mkmq.IndexOrder
import Mkmq.GroupCommit
import Mkmq.Recovery
import Mkmq.FrameScan
import Mkmq.SegmentPacks
import Mkmq.SegmentLayout
import Mkmq.RestartAcceptance
import Mkmq.FrameLayout
import Mkmq.CrashRecovery
import Mkmq.Replication
import Mkmq.ReplicaTracking
import Mkmq.CommitSafety
import Mkmq.AcksAll
import Mkmq.AdmissionAgreement
import Mkmq.FollowerLog
import Mkmq.Extents
import Mkmq.ResumedLog
import Mkmq.CrashedFiles
import Mkmq.CleanRestart
import Mkmq.FailedAppend
import Mkmq.AppendTermination
import Mkmq.UndisturbedAppends
import Mkmq.SegmentNames
import Mkmq.RecoverySafety
import Mkmq.Watermark
import Mkmq.Reload
import Mkmq.ReloadTopology
import Mkmq.Routing
import Mkmq.CatchUpRound
import Mkmq.CatchUpOffsets
import Mkmq.CatchUpConvergence
import Mkmq.SplitLeadership
import Mkmq.FollowerWatermark
import Mkmq.Wire
import Mkmq.WireFields
import Mkmq.KafkaCodec
import Mkmq.ReplicaMessages
import Mkmq.RequestBounds
import Mkmq.BenchClient
import Mkmq.ClientAgreement
import Mkmq.ShardCalls
import Mkmq.BrokerProcess
import Mkmq.RequestAnswers
import Mkmq.Connection
import Mkmq.HandleFrame
import Mkmq.Metadata
import Mkmq.Conversation
import Mkmq.Exchange
import Mkmq.MercuryShard
import Mkmq.RpcOwnership
import Mkmq.LookupCallbacks
import Mkmq.LookupFanOut
import Mkmq.MercuryProc
import Mkmq.MercuryServer
import Mkmq.ServerOwnership
import Mkmq.RemoteCall
