import Mkmq.Broker
import Mkmq.ProduceGuard
import Mkmq.Routing

/-!
# The client calls of a shard

`BrokerShard::append`, `fetch` and `list_offsets` with every way they end in a result
(`src/broker_shard.cpp`).  A result is made at a dozen places: some take the names of topic
and partition from the request, some from the configuration of the log that was found.  That
these are the same rests on how logs get into `partitions_`: under the key of the
configuration they are given, by a start and by every reload.

What a call depends on beside the table of the shard (the offsets and the queue of the log,
how the write and the replication end, whether the wait runs out first) is an outcome it is
given.
-/

namespace Mkmq

open ByteCodec

/-! ### The shards a call can meet -/

namespace ReloadingShard

variable {s : ReloadingShard}

/-- What happens to the table and the configuration of a shard: one turn of the loop of
    `start` or `apply_config`, and the assignment to `config_`, which requests may come
    between. -/
inductive TableAct where
  | host (partition : PartitionConfig) (fails : TopicPartition → Option String)
  | configure (config : BrokerConfig)

def tableStep (s : ReloadingShard) : TableAct → Option ReloadingShard
  | .host partition fails =>
    some { s with partitions := (applyPartition fails (s.partitions, []) partition).1 }
  | .configure config => some { s with config := config }

/-- A shard that has begun with no log. -/
def Served (s : ReloadingShard) : Prop :=
  Transition.Reachable (fun s => s.partitions = []) tableStep (fun _ _ => True) s

/-- Every log is in the table under the names of its configuration. -/
def Filed (partitions : List (TopicPartition × HostedLog)) : Prop :=
  ∀ key log, OrderedStore.find key partitions = some log → log.config.key = key

theorem Filed.put {partitions : List (TopicPartition × HostedLog)} (h : Filed partitions)
    (log : HostedLog) : Filed (OrderedStore.put log.config.key log partitions) := by
  intro key other hfind
  rw [OrderedStore.find_put] at hfind
  split at hfind
  · next hkey =>
      obtain rfl := Option.some.inj hfind
      exact hkey.symm
  · exact h key other hfind

theorem Filed.applyPartition {acc : List (TopicPartition × HostedLog) × List String}
    (h : Filed acc.1) (fails : TopicPartition → Option String) (partition : PartitionConfig) :
    Filed (applyPartition fails acc partition).1 := by
  unfold ReloadingShard.applyPartition
  split
  · next existing hfound => exact h.put { existing with config := partition }
  · exact h.put { config := partition, started := (fails partition.key).isNone }

theorem Served.filed (h : Served s) : Filed s.partitions := by
  unfold Served at h
  induction h with
  | start hempty =>
    intro key log hfind
    rw [hempty] at hfind
    cases hfind
  | next a _ _ hstep ih =>
    cases a with
    | host partition fails =>
      obtain rfl := Option.some.inj hstep
      exact Filed.applyPartition ih fails partition
    | configure config =>
      obtain rfl := Option.some.inj hstep
      exact ih

/-- The table after the turns of a loop is one of `Served`, whichever starts fail. -/
theorem Served.foldl (h : Served s) (fails : TopicPartition → Option String)
    (partitions : List PartitionConfig) (errors : List String) :
    Served { s with
      partitions := (partitions.foldl (applyPartition fails) (s.partitions, errors)).1 } := by
  induction partitions generalizing s errors with
  | nil => exact h
  | cons partition partitions ih =>
    have hturn := ih (.next (.host partition fails) h trivial rfl)
      (ReloadingShard.applyPartition fails (s.partitions, errors) partition).2
    rw [List.foldl_cons]
    -- the errors collected so far play no part in what a turn does to the table
    have htable : (ReloadingShard.applyPartition fails (s.partitions, errors) partition).1 =
        (ReloadingShard.applyPartition fails (s.partitions, []) partition).1 := by
      unfold ReloadingShard.applyPartition
      cases OrderedStore.find partition.key s.partitions with
      | none => rfl
      | some existing => rfl
    simp only [← htable] at hturn
    exact hturn

/-- **A reload leads from such shards to such shards.** -/
theorem Served.applyConfig (h : Served s) (config : BrokerConfig)
    (fails : TopicPartition → Option String) : Served (s.applyConfig config fails).1 := by
  have hloop := h.foldl fails (s.hosted config) []
  unfold ReloadingShard.applyConfig
  split
  · exact h
  · split
    · next partitions hfold =>
        rw [hfold] at hloop
        exact .next (.configure config) hloop trivial rfl
    · next partitions message rest hfold =>
        rw [hfold] at hloop
        exact hloop

/-- The log of a topic and partition, as `find_partition_log` returns it. -/
def findPartitionLog (s : ReloadingShard) (topic : String) (partition : Int) : Option HostedLog :=
  OrderedStore.find (toLex (topic, partition)) s.partitions

theorem Served.config_of_found (h : Served s) {topic : String} {partition : Int} {log : HostedLog}
    (hfound : s.findPartitionLog topic partition = some log) :
    log.config.topic = topic ∧ log.config.partition = partition := by
  have hkey : toLex (log.config.topic, log.config.partition) = toLex (topic, partition) :=
    h.filed _ _ hfound
  exact Prod.mk.inj (toLex.injective hkey)

end ReloadingShard

/-! ### Results -/

structure ListOffsetPartitionRequest where
  topic : String := ""
  partition : Int := 0
  timestamp : Int := -1
deriving DecidableEq, Repr

structure ListOffsetPartitionResult where
  topic : String := ""
  partition : Int := 0
  errorCode : ErrorCode := .none
  earliest : Int := 0
  latest : Int := 0
  selected : Int := 0
deriving DecidableEq, Repr

/-- `PartitionLogShard::list_offsets`. -/
def LogHead.listOffsets (head : LogHead) (timestamp : Int) : ListOffsetPartitionResult :=
  { topic := head.config.topic
    partition := head.config.partition
    earliest := head.offsets.earliest
    latest := head.offsets.latest
    selected := if timestamp = -2 then head.offsets.earliest else head.offsets.latest }

/-- What a shard does with a call: it has a result, or `invoke_on` hands the call on. -/
inductive Reply (α : Type) where
  | answered (result : α)
  | forwarded (owner : Nat)
deriving DecidableEq, Repr

/-! ### The calls -/

/-- How an `append` goes on once its log is found: the log's offsets and queue, whether its
    future fails, whether the ISR has taken the records, and whether the wait runs out. -/
structure AppendOutcome where
  head : LogHead
  fails : Bool := false
  replicated : Bool := true
  late : Bool := false

/-- How long a produce is waited for, in milliseconds; not at all unless it is positive. -/
def produceWaitMs (produceWaitMsCap : Nat) (timeoutMs : Int) : Int :=
  let capMs := signed 32 produceWaitMsCap
  if timeoutMs ≤ 0 then capMs else min timeoutMs capMs

/-- The part of `append` behind the checks.  `none` is a call that does not resolve: the
    renumbering has no defined result, or the write or the gate fails. -/
def appendToLog (produceWaitMsCap : Nat) (partitionConfig : PartitionConfig) (records : Bytes)
    (acks timeoutMs : Int) (outcome : AppendOutcome) : Option ProducePartitionResult :=
  let head := { outcome.head with config := partitionConfig }
  (rewriteRecordBatchOffsets records head.offsets.latest).bind fun records =>
    let result := (head.append records acks).response
    if 0 < produceWaitMs produceWaitMsCap timeoutMs ∧ outcome.late then
      some { topic := partitionConfig.topic
             partition := partitionConfig.partition
             errorCode := .requestTimedOut }
    else if outcome.fails then none
    else if acks = -1 ∧ result.errorCode = .none ∧ 1 < partitionConfig.isr.length ∧
        outcome.replicated = false then
      some { result with errorCode := .notEnoughReplicas }
    else some result

namespace ReloadingShard

def append (s : ReloadingShard) (request : ProducePartitionRequest) (acks timeoutMs : Int)
    (outcome : AppendOutcome) : Option (Reply ProducePartitionResult) :=
  let missing : ProducePartitionResult :=
    { topic := request.topic
      partition := request.partition
      errorCode := .unknownTopicOrPartition }
  match route s.config s.shardId ⟨.append, request.topic, request.partition⟩ with
  | .missing => some (.answered missing)
  | .forward owner => some (.forwarded owner)
  | .here =>
    match s.findPartitionLog request.topic request.partition with
    | none => some (.answered missing)
    | some log =>
      if log.config.leader ≠ s.config.nodeId then
        some (.answered
          { topic := request.topic
            partition := request.partition
            errorCode := .notLeaderOrFollower })
      else
        (appendToLog s.config.produceWaitMsCap log.config request.records acks timeoutMs
          outcome).map .answered

/-- The reads of a `fetch`: at once, and after the wait.  `none` is one that fails. -/
structure FetchOutcome where
  first : Option FetchPartitionResult
  second : Option FetchPartitionResult := none

def fetch (s : ReloadingShard) (request : FetchPartitionRequest) (outcome : FetchOutcome) :
    Option (Reply FetchPartitionResult) :=
  match route s.config s.shardId ⟨.fetch, request.topic, request.partition⟩ with
  | .missing => some (.answered { errorCode := .unknownTopicOrPartition })
  | .forward owner => some (.forwarded owner)
  | .here =>
    match s.findPartitionLog request.topic request.partition with
    | none => some (.answered { errorCode := .unknownTopicOrPartition })
    | some log =>
      if s.config.nodeId ∉ log.config.replicas ∨
          (log.config.leader ≠ s.config.nodeId ∧ log.config.allowFollowerFetch = false) then
        some (.answered { errorCode := .notLeaderOrFollower })
      else
        outcome.first.bind fun result =>
          let waitMs := min (max 0 request.maxWaitMs) (signed 32 s.config.fetchMaxWaitMsCap)
          if result.errorCode ≠ .none ∨ result.records ≠ [] ∨ waitMs ≤ 0 ∨
              request.minBytes ≤ 0 ∨ request.offset < result.logEndOffset then
            some (.answered result)
          else outcome.second.map .answered

def listOffsets (s : ReloadingShard) (request : ListOffsetPartitionRequest) (head : LogHead) :
    Reply ListOffsetPartitionResult :=
  let missing : ListOffsetPartitionResult :=
    { topic := request.topic
      partition := request.partition
      errorCode := .unknownTopicOrPartition }
  match route s.config s.shardId ⟨.listOffsets, request.topic, request.partition⟩ with
  | .missing => .answered missing
  | .forward owner => .forwarded owner
  | .here =>
    match s.findPartitionLog request.topic request.partition with
    | none => .answered missing
    | some log => .answered ({ head with config := log.config }.listOffsets request.timestamp)

end ReloadingShard

/-! ### Every result names its request -/

/-- All three refusals of the log, and its acceptance, take the names from its configuration. -/
theorem LogHead.append_names (head : LogHead) (records : Bytes) (acks : Int) :
    (head.append records acks).response.topic = head.config.topic ∧
      (head.append records acks).response.partition = head.config.partition := by
  unfold LogHead.append
  split
  · exact ⟨rfl, rfl⟩
  split
  · exact ⟨rfl, rfl⟩
  split
  · exact ⟨rfl, rfl⟩
  · exact ⟨rfl, rfl⟩

theorem appendToLog_names {produceWaitMsCap : Nat} {partitionConfig : PartitionConfig}
    {records : Bytes} {acks timeoutMs : Int} {outcome : AppendOutcome}
    {result : ProducePartitionResult}
    (h : appendToLog produceWaitMsCap partitionConfig records acks timeoutMs outcome =
      some result) :
    result.topic = partitionConfig.topic ∧ result.partition = partitionConfig.partition := by
  obtain ⟨renumbered, -, hend⟩ := Option.bind_eq_some_iff.mp h
  have hnames :=
    LogHead.append_names { outcome.head with config := partitionConfig } renumbered acks
  simp only at hend
  split at hend
  · obtain rfl := Option.some.inj hend
    exact ⟨rfl, rfl⟩
  split at hend
  · cases hend
  split at hend
  · obtain rfl := Option.some.inj hend
    exact hnames
  · obtain rfl := Option.some.inj hend
    exact hnames

namespace ReloadingShard

variable {s : ReloadingShard}

theorem Served.append_names (h : Served s) {request : ProducePartitionRequest}
    {acks timeoutMs : Int} {outcome : AppendOutcome} {result : ProducePartitionResult}
    (hresult : s.append request acks timeoutMs outcome = some (.answered result)) :
    result.topic = request.topic ∧ result.partition = request.partition := by
  unfold append at hresult
  simp only at hresult
  split at hresult
  · cases hresult
    exact ⟨rfl, rfl⟩
  · cases hresult
  split at hresult
  · cases hresult
    exact ⟨rfl, rfl⟩
  next log hfound =>
    obtain ⟨htopic, hpartition⟩ := h.config_of_found hfound
    split at hresult
    · cases hresult
      exact ⟨rfl, rfl⟩
    · obtain ⟨logged, hlogged, hsame⟩ := Option.map_eq_some_iff.mp hresult
      cases hsame
      have hnames := appendToLog_names hlogged
      exact ⟨hnames.1.trans htopic, hnames.2.trans hpartition⟩

theorem Served.listOffsets_names (h : Served s) {request : ListOffsetPartitionRequest}
    {head : LogHead} {result : ListOffsetPartitionResult}
    (hresult : s.listOffsets request head = .answered result) :
    result.topic = request.topic ∧ result.partition = request.partition := by
  unfold listOffsets at hresult
  simp only at hresult
  split at hresult
  · cases hresult
    exact ⟨rfl, rfl⟩
  · cases hresult
  split at hresult
  · cases hresult
    exact ⟨rfl, rfl⟩
  next log hfound =>
    cases hresult
    exact h.config_of_found hfound

end ReloadingShard

end Mkmq
