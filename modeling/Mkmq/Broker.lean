import Mkmq.LogReading

/-!
# The broker's side of a produce and a fetch

`BrokerShard::append` renumbers the request's batches from the log end, starts the
replication to the ISR, hands the records to the partition log, and settles the high
watermark when the replication is over; `BrokerShard::fetch` checks that this broker may
answer and reads the log (`src/broker_shard.cpp`).  The definitions here are those of the
shard that owns the partition.  `brokerAppend` and `brokerFetch` run one call to its end
before the next starts.
-/

namespace Mkmq

open ByteCodec

/-- A Kafka frame longer than this is not read, so no request carries more bytes. -/
def kMaxKafkaFrameBytes : Nat := 100 * 1024 * 1024

/-! ### Replication -/

/-- The ISR members `replicate_to_isr` sends to. -/
def isrFollowers (nodeId : Int) (partition : PartitionConfig) : List Int :=
  partition.isr.filter fun brokerId => decide (brokerId ≠ nodeId)

/-- The result of `replicate_to_isr`: every follower has a configured endpoint and what
    answered there answered with error 0. -/
def replicateToIsr (config : BrokerConfig) (partition : PartitionConfig)
    (answers : String → Bool) : Bool :=
  (isrFollowers config.nodeId partition).all fun brokerId =>
    match findBroker config brokerId with
    | none => false
    | some broker => answers broker.mercuryAddress

/-- The continuations on `replicate_fut`, which read the log end anew. -/
def LogHead.afterReplication (head : LogHead) (replicated : Bool) : LogHead :=
  if replicated then head.markReplicatedThrough head.offsets.latest else head.markDegraded

/-! ### Produce -/

/-- The end of an `acks = -1` produce whose local append returned `result`. -/
def settleAll (s : PartitionLogShard) (replicated : Bool)
    (result : ProducePartitionResult) : PartitionLogShard × ProducePartitionResult :=
  if result.errorCode ≠ .none then (s, result)
  else
    ({ s with toLogHead := s.toLogHead.afterReplication replicated },
      if replicated then result else { result with errorCode := .notEnoughReplicas })

/-- `BrokerShard::append`; `answers` says at which addresses a `replica_append` is answered
    with error 0.  `none` is a renumbering without a defined result. -/
def brokerAppend (config : BrokerConfig) (answers : String → Bool) (s : PartitionLogShard)
    (records : Bytes) (acks : Int) :
    Option (PartitionLogShard × Except String ProducePartitionResult) :=
  if s.config.leader ≠ config.nodeId then
    some (s, .ok
      { topic := s.config.topic
        partition := s.config.partition
        errorCode := .notLeaderOrFollower })
  else
    (rewriteRecordBatchOffsets records s.offsets.latest).map fun records =>
      let replicated :=
        if s.config.isr.length > 1 then replicateToIsr config s.config answers else true
      let (s, result) := s.append records acks
      if acks = -1 then
        match result with
        | .error e => (s, .error e)
        | .ok result =>
          let (s, result) := settleAll s replicated result
          (s, .ok result)
      else ({ s with toLogHead := s.toLogHead.afterReplication replicated }, result)

/-! ### Fetch -/

structure FetchPartitionRequest where
  topic : String := ""
  partition : Int := 0
  offset : Int := 0
  maxWaitMs : Int := 0
  minBytes : Int := 0
  maxBytes : Int := 0
deriving DecidableEq, Repr

/-- `BrokerShard::fetch`: an empty answer at the log end is asked for once more after the
    wait. -/
def brokerFetch (config : BrokerConfig) (s : PartitionLogShard)
    (request : FetchPartitionRequest) :
    PartitionLogShard × Except String FetchPartitionResult :=
  if config.nodeId ∉ s.config.replicas ∨
      (s.config.leader ≠ config.nodeId ∧ s.config.allowFollowerFetch = false) then
    (s, .ok { errorCode := .notLeaderOrFollower })
  else
    match s.fetch request.offset request.maxBytes with
    | (s, .error e) => (s, .error e)
    | (s, .ok result) =>
      let waitMs := min (max 0 request.maxWaitMs) (signed 32 config.fetchMaxWaitMsCap)
      if result.errorCode ≠ .none ∨ result.records ≠ [] ∨ waitMs ≤ 0 ∨
          request.minBytes ≤ 0 ∨ request.offset < result.logEndOffset then
        (s, .ok result)
      else s.fetch request.offset request.maxBytes

end Mkmq
