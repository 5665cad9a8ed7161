import Mathlib.Data.List.Basic

/-!
# Static configuration (`include/mkmq/config.hpp`, `src/config.cpp`)

The records the YAML loader fills in, the topology checks it runs on them before
the broker starts (`validateConfig`, with the texts of its errors), and the two
lookups the broker uses.  Identifiers and limits are unbounded integers here: no
arithmetic is done on them, only comparisons.
-/

namespace Mkmq

variable {brokerIds : List Int} {seen : List (String × Int)} {config : BrokerConfig}
  {found : PartitionConfig}

inductive Durability where
  | write
  | fsync
deriving DecidableEq, Repr

inductive FetchVisibility where
  | highWatermark
  | leaderLocalEnd
deriving DecidableEq, Repr

structure BrokerEndpoint where
  id : Int := 0
  kafkaHost : String := "127.0.0.1"
  kafkaPort : Nat := 9092
  mercuryAddress : String := "ofi+tcp;ofi_rxm://127.0.0.1:3344"
deriving DecidableEq, Repr

structure PartitionConfig where
  topic : String := ""
  partition : Int := 0
  shard : Nat := 0
  replicas : List Int := []
  isr : List Int := []
  durability : Durability := .write
  queueLimit : Nat := 8192
  maxFrameBytes : Nat := 1024 * 1024
  fetchVisibility : FetchVisibility := .highWatermark
  allowFollowerFetch : Bool := false
  leader : Int := 0
  migrationGeneration : Nat := 0
  migrationTargetShard : Nat := 0
  migrationTargetLeader : Int := -1
deriving DecidableEq, Repr

/-- A partition with one replica and the default limits. -/
def defaultPartition : PartitionConfig := { replicas := [0], isr := [0] }

/-- A partition that answers only what is on disk. -/
def syncedPartition : PartitionConfig := { defaultPartition with durability := .fsync }

structure TopicConfig where
  name : String
  partitions : List PartitionConfig
deriving DecidableEq, Repr

structure BrokerConfig where
  nodeId : Int := 0
  clusterGeneration : Nat := 0
  dataDir : String := "mkmq-data"
  metricsPort : Nat := 9642
  fetchMaxWaitMsCap : Nat := 100
  produceWaitMsCap : Nat := 100
  segmentBytes : Nat := 1024 * 1024 * 1024
  brokers : List BrokerEndpoint := []
  topics : List TopicConfig := []
deriving DecidableEq, Repr

/-! ### Validation -/

/-- The broker loop of `validate_config`; `brokerIds` is the set filled so far. -/
def validateBrokers : List Int → List BrokerEndpoint → Except String (List Int)
  | brokerIds, [] => .ok brokerIds
  | brokerIds, broker :: rest =>
    if broker.id ∈ brokerIds then
      .error ("duplicate broker id: " ++ toString broker.id)
    else if broker.kafkaHost = "" ∨ broker.kafkaPort = 0 ∨ broker.mercuryAddress = "" then
      .error ("broker " ++ toString broker.id ++ " requires kafka and Mercury endpoints")
    else validateBrokers (broker.id :: brokerIds) rest

/-- The checks on one partition, past the duplicate check. -/
def validatePartition (brokerIds : List Int) (partition : PartitionConfig) :
    Except String Unit :=
  let name := "partition " ++ partition.topic ++ "/" ++ toString partition.partition
  if partition.replicas = [] then .error (name ++ " requires at least one replica")
  else if partition.isr = [] then .error (name ++ " requires at least one ISR")
  else if partition.leader ∉ partition.replicas then .error (name ++ " leader must be in replicas")
  else if ∃ replica ∈ partition.replicas, replica ∉ brokerIds then
    .error (name ++ " references unknown replica broker")
  else if ∃ isr ∈ partition.isr, isr ∉ partition.replicas then
    .error (name ++ " ISR must be a subset of replicas")
  else if partition.queueLimit = 0 ∨ partition.maxFrameBytes = 0 then
    .error (name ++ " queue_limit and max_frame_bytes must be positive")
  else if partition.migrationGeneration ≠ 0 ∧
      (partition.migrationTargetLeader < 0 ∨ partition.migrationTargetLeader ∉ brokerIds) then
    .error (name ++ " migration target_leader must reference a broker")
  else .ok ()

/-- The partition loop inside one topic; `seen` is the set of keys of all topics so far. -/
def validatePartitions (brokerIds : List Int) :
    List (String × Int) → List PartitionConfig → Except String (List (String × Int))
  | seen, [] => .ok seen
  | seen, partition :: rest =>
    if (partition.topic, partition.partition) ∈ seen then
      .error ("duplicate partition " ++ partition.topic ++ "/" ++ toString partition.partition)
    else
      match validatePartition brokerIds partition with
      | .error message => .error message
      | .ok () =>
        validatePartitions brokerIds ((partition.topic, partition.partition) :: seen) rest

def validateTopics (brokerIds : List Int) :
    List (String × Int) → List TopicConfig → Except String Unit
  | _, [] => .ok ()
  | seen, topic :: rest =>
    if topic.name = "" then .error "topic name must not be empty"
    else
      match validatePartitions brokerIds seen topic.partitions with
      | .error message => .error message
      | .ok seen' => validateTopics brokerIds seen' rest

def validateConfig (config : BrokerConfig) : Except String Unit :=
  match validateBrokers [] config.brokers with
  | .error message => .error message
  | .ok brokerIds =>
    if config.nodeId ∉ brokerIds then .error "node_id does not match any configured broker"
    else if config.segmentBytes = 0 then .error "segment_bytes must be positive"
    else validateTopics brokerIds [] config.topics

/-! ### Lookups -/

def findPartition (config : BrokerConfig) (topic : String) (partition : Int) :
    Option PartitionConfig :=
  config.topics.findSome? fun topicConfig =>
    if topicConfig.name ≠ topic then none
    else topicConfig.partitions.find? fun candidate => candidate.partition = partition

def findBroker (config : BrokerConfig) (nodeId : Int) : Option BrokerEndpoint :=
  config.brokers.find? fun broker => broker.id = nodeId

/-! ### What an accepted configuration guarantees -/

/-- What `validate_config` has checked of one partition once it returns. -/
structure PartitionConfig.Valid (brokerIds : List Int) (partition : PartitionConfig) : Prop where
  isr_ne_nil : partition.isr ≠ []
  leader_mem : partition.leader ∈ partition.replicas
  replicas_known : ∀ replica ∈ partition.replicas, replica ∈ brokerIds
  isr_subset : ∀ id ∈ partition.isr, id ∈ partition.replicas
  queueLimit_pos : 0 < partition.queueLimit
  maxFrameBytes_pos : 0 < partition.maxFrameBytes

theorem validatePartition_ok {partition : PartitionConfig}
    (h : validatePartition brokerIds partition = .ok ()) : partition.Valid brokerIds := by
  unfold validatePartition at h
  simp only at h
  split at h
  · cases h
  split at h
  · cases h
  split at h
  · cases h
  split at h
  · cases h
  split at h
  · cases h
  split at h
  · cases h
  next hreplicas hisr hleader hknown hsubset hlimits =>
    push Not at hknown hsubset hlimits hleader
    exact ⟨hisr, hleader, hknown, hsubset, Nat.pos_of_ne_zero hlimits.1,
      Nat.pos_of_ne_zero hlimits.2⟩

theorem validatePartitions_ok {seen' : List (String × Int)} {partitions : List PartitionConfig}
    (h : validatePartitions brokerIds seen partitions = .ok seen') :
    ∀ partition ∈ partitions, partition.Valid brokerIds := by
  induction partitions generalizing seen with
  | nil => simp
  | cons partition rest ih =>
    unfold validatePartitions at h
    split at h
    · cases h
    split at h
    · cases h
    next hvalid =>
      intro p hp
      rcases List.mem_cons.mp hp with rfl | hrest
      · exact validatePartition_ok hvalid
      · exact ih h p hrest

theorem validateTopics_ok {topics : List TopicConfig}
    (h : validateTopics brokerIds seen topics = .ok ()) :
    ∀ topic ∈ topics, ∀ partition ∈ topic.partitions, partition.Valid brokerIds := by
  induction topics generalizing seen with
  | nil => simp
  | cons topic rest ih =>
    unfold validateTopics at h
    split at h
    · cases h
    split at h
    · cases h
    next seen' hpartitions =>
      intro t ht
      rcases List.mem_cons.mp ht with rfl | hrest
      · exact validatePartitions_ok hpartitions
      · exact ih h t hrest

/-- The ids `validate_config` collects are those of the brokers, and each broker id
    occurs once. -/
theorem validateBrokers_ok {ids ids' : List Int} {brokers : List BrokerEndpoint}
    (h : validateBrokers ids brokers = .ok ids') :
    (∀ id, id ∈ ids' ↔ id ∈ ids ∨ ∃ broker ∈ brokers, broker.id = id) ∧
      (∀ broker ∈ brokers, broker.id ∉ ids) ∧ (brokers.map (·.id)).Nodup := by
  induction brokers generalizing ids with
  | nil =>
    simp only [validateBrokers, Except.ok.injEq] at h
    simp [h]
  | cons broker rest ih =>
    unfold validateBrokers at h
    split at h
    · cases h
    next hnew =>
    split at h
    · cases h
    obtain ⟨hids, hfresh, hnodup⟩ := ih h
    refine ⟨?_, ?_, ?_⟩
    · intro id
      rw [hids id]
      simp only [List.mem_cons]
      grind
    · intro b hb
      rcases List.mem_cons.mp hb with rfl | hrest
      · exact hnew
      · exact fun hmem => hfresh b hrest (List.mem_cons_of_mem _ hmem)
    · rw [List.map_cons, List.nodup_cons]
      refine ⟨?_, hnodup⟩
      intro hmem
      obtain ⟨b, hb, hid⟩ := List.mem_map.mp hmem
      exact hfresh b hb (by simp [hid])

theorem findBroker_some {id : Int} {broker : BrokerEndpoint}
    (h : findBroker config id = some broker) : broker ∈ config.brokers ∧ broker.id = id := by
  refine ⟨List.mem_of_find?_eq_some h, ?_⟩
  have := List.find?_some h
  simpa using this

theorem mem_of_findPartition {topic : String} {partition : Int}
    (h : findPartition config topic partition = some found) :
    ∃ topicConfig ∈ config.topics, found ∈ topicConfig.partitions := by
  unfold findPartition at h
  obtain ⟨topicConfig, hmem, hfound⟩ := List.exists_of_findSome?_eq_some h
  refine ⟨topicConfig, hmem, ?_⟩
  split at hfound
  · cases hfound
  · exact List.mem_of_find?_eq_some hfound

/-- Every partition an accepted configuration serves has passed the partition checks,
    against ids that all have an endpoint. -/
theorem validateConfig_ok (h : validateConfig config = .ok ()) {topic : String} {partition : Int}
    (hfound : findPartition config topic partition = some found) :
    found.Valid (config.brokers.map (·.id)) := by
  unfold validateConfig at h
  split at h
  · cases h
  next brokerIds hbrokers =>
  split at h
  · cases h
  split at h
  · cases h
  obtain ⟨topicConfig, htopic, hmem⟩ := mem_of_findPartition hfound
  have hvalid := validateTopics_ok h topicConfig htopic found hmem
  refine { hvalid with replicas_known := ?_ }
  intro replica hreplica
  have hid := ((validateBrokers_ok hbrokers).1 replica).mp (hvalid.replicas_known replica hreplica)
  simpa using hid

end Mkmq
