import Mkmq.Config
import Mkmq.FailureRules

/-!
# Loading the configuration (`parse_config_node`)

The loader reads a YAML document field by field, says which field is missing, and has
`validate_config` check the result.  A document is modelled by the fields the loader asks
for, each there or not, with the scalars already converted; what is there in place of a
sequence is `SequenceNode.other`.

A partition takes its topic from the entry it stands in.  `validate_config` does not look
at that, and all that is proved about looked-up partitions rests on it.
-/

namespace Mkmq

open FailureRules

variable {parsed : PartitionConfig}

/-! ### Documents -/

inductive SequenceNode (α : Type) where
  | missing
  | other
  | items (values : List α)

structure BrokerNode where
  id : Option Int := none
  kafkaHost : Option String := none
  kafkaPort : Option Nat := none
  mercuryAddress : Option String := none

structure MigrationNode where
  generation : Option Nat := none
  targetShard : Option Nat := none
  targetLeader : Option Int := none

structure PartitionNode where
  id : Option Int := none
  shard : Option Nat := none
  leader : Option Int := none
  replicas : SequenceNode Int := .missing
  isr : SequenceNode Int := .missing
  durability : Option String := none
  queueLimit : Option Nat := none
  maxFrameBytes : Option Nat := none
  fetchVisibility : Option String := none
  allowFollowerFetch : Option Bool := none
  migration : Option MigrationNode := none

structure TopicNode where
  name : String
  partitions : SequenceNode PartitionNode := .missing

structure ConfigNode where
  nodeId : Option Int := none
  clusterGeneration : Option Nat := none
  dataDir : Option String := none
  metricsPort : Option Nat := none
  fetchMaxWaitMsCap : Option Nat := none
  produceWaitMsCap : Option Nat := none
  segmentBytes : Option Nat := none
  brokers : SequenceNode BrokerNode := .missing
  topics : SequenceNode TopicNode := .missing

/-! ### Parsing -/

def requireNode {α : Type} (field : String) : Option α → Except String α
  | none => .error ("config requires " ++ field)
  | some value => .ok value

def requirePartitionField {α : Type} (topic : String) (partition : Int) (field : String) :
    Option α → Except String α
  | none => .error ("partition " ++ topic ++ "/" ++ toString partition ++ " requires " ++ field)
  | some value => .ok value

def parseDurability (value : String) : Except String Durability :=
  if value = "write" then .ok .write
  else if value = "fsync" then .ok .fsync
  else .error "durability must be 'write' or 'fsync'"

def parseVisibility (value : String) : Except String FetchVisibility :=
  if value = "high_watermark" then .ok .highWatermark
  else if value = "leader_local_end" then .ok .leaderLocalEnd
  else .error "fetch_visibility must be 'high_watermark' or 'leader_local_end'"

/-- The sequence a field must be. -/
def SequenceNode.require {α : Type} (message : String) : SequenceNode α → Except String (List α)
  | .items values => .ok values
  | .missing | .other => .error message

/-- A field that is there, whatever it is. -/
def SequenceNode.present {α : Type} : SequenceNode α → Option (SequenceNode α)
  | .missing => none
  | node => some node

def parseVector (field : String) (node : SequenceNode Int) : Except String (List Int) :=
  node.require (field ++ " must be a YAML sequence")

def parseBroker (node : BrokerNode) : Except String BrokerEndpoint := do
  let id ← requireNode "id" node.id
  let kafkaHost ← requireNode "kafka_host" node.kafkaHost
  let kafkaPort ← requireNode "kafka_port" node.kafkaPort
  let mercuryAddress ← requireNode "mercury_address" node.mercuryAddress
  return { id, kafkaHost, kafkaPort, mercuryAddress }

/-- The migration of a partition, on top of the defaults. -/
def parseMigration (partition : PartitionConfig) :
    Option MigrationNode → Except String PartitionConfig
  | none => .ok partition
  | some node => do
      let generation ← requireNode "generation" node.generation
      let targetShard ← requireNode "target_shard" node.targetShard
      let targetLeader ← requireNode "target_leader" node.targetLeader
      return { partition with
        migrationGeneration := generation
        migrationTargetShard := targetShard
        migrationTargetLeader := targetLeader }

def parsePartition (topic : String) (node : PartitionNode) : Except String PartitionConfig := do
  let partition ← requireNode "id" node.id
  let shard ← requirePartitionField topic partition "shard" node.shard
  let leader ← requirePartitionField topic partition "leader" node.leader
  let replicas ← requirePartitionField topic partition "replicas" node.replicas.present
  let isr ← requirePartitionField topic partition "isr" node.isr.present
  let durability ← requirePartitionField topic partition "durability" node.durability
  let queueLimit ← requirePartitionField topic partition "queue_limit" node.queueLimit
  let maxFrameBytes ← requirePartitionField topic partition "max_frame_bytes" node.maxFrameBytes
  let fetchVisibility ←
    requirePartitionField topic partition "fetch_visibility" node.fetchVisibility
  let allowFollowerFetch ←
    requirePartitionField topic partition "allow_follower_fetch" node.allowFollowerFetch
  let replicas ← parseVector "replicas" replicas
  let isr ← parseVector "isr" isr
  let durability ← parseDurability durability
  let fetchVisibility ← parseVisibility fetchVisibility
  parseMigration
    { topic, partition, shard, leader, replicas, isr, durability, queueLimit, maxFrameBytes,
      fetchVisibility, allowFollowerFetch }
    node.migration

def parseTopic (node : TopicNode) : Except String TopicConfig := do
  let partitions ←
    node.partitions.require ("topic " ++ node.name ++ " requires partitions sequence")
  return { name := node.name, partitions := ← partitions.mapM (parsePartition node.name) }

def parseConfigNode (root : ConfigNode) : Except String BrokerConfig := do
  let nodeId ← requireNode "node_id" root.nodeId
  let clusterGeneration ← requireNode "cluster_generation" root.clusterGeneration
  let dataDir ← requireNode "data_dir" root.dataDir
  let brokers ← (← root.brokers.require "config requires brokers sequence").mapM parseBroker
  let topics ← (← root.topics.require "config requires topics sequence").mapM parseTopic
  let config : BrokerConfig :=
    { nodeId, clusterGeneration, dataDir, brokers, topics
      metricsPort := root.metricsPort.getD 9642
      fetchMaxWaitMsCap := root.fetchMaxWaitMsCap.getD 100
      produceWaitMsCap := root.produceWaitMsCap.getD 100
      segmentBytes := root.segmentBytes.getD (1024 * 1024 * 1024) }
  validateConfig config
  return config

/-! ### What a loaded configuration is -/

/-- The configurations the broker is started with and reloads. -/
def Loaded (config : BrokerConfig) : Prop := ∃ root, parseConfigNode root = .ok config

/-- Every partition carries the name of the topic it is listed under. -/
def BrokerConfig.Labelled (config : BrokerConfig) : Prop :=
  ∀ topic ∈ config.topics, ∀ partition ∈ topic.partitions, partition.topic = topic.name

theorem topic_parseMigration {partition : PartitionConfig} {node : Option MigrationNode}
    (h : parseMigration partition node = .ok parsed) : parsed.topic = partition.topic := by
  cases node with
  | none =>
    obtain rfl := Except.ok.inj h
    rfl
  | some node =>
    simp only [parseMigration, bind_eq_ok] at h
    obtain ⟨_, -, _, -, _, -, hparsed⟩ := h
    obtain rfl := Except.ok.inj hparsed
    rfl

theorem topic_parsePartition {topic : String} {node : PartitionNode}
    (h : parsePartition topic node = .ok parsed) : parsed.topic = topic := by
  simp only [parsePartition, bind_eq_ok] at h
  obtain
    ⟨_, -, _, -, _, -, _, -, _, -, _, -, _, -, _, -, _, -, _, -, _, -, _, -, _, -, _, -, h⟩ := h
  exact topic_parseMigration h

theorem topic_parseTopic {node : TopicNode} {parsed : TopicConfig}
    (h : parseTopic node = .ok parsed) :
    ∀ partition ∈ parsed.partitions, partition.topic = parsed.name := by
  simp only [parseTopic, bind_eq_ok] at h
  obtain ⟨_, -, partitions, hpartitions, hparsed⟩ := h
  obtain rfl := Except.ok.inj hparsed
  intro partition hpartition
  obtain ⟨_, -, hnode⟩ := exists_of_mapM_eq_ok hpartitions partition hpartition
  exact topic_parsePartition hnode

/-- **A loaded configuration has passed `validate_config`, and its partitions are labelled
    by their topics.** -/
theorem Loaded.spec {config : BrokerConfig} (h : Loaded config) :
    validateConfig config = .ok () ∧ config.Labelled := by
  obtain ⟨root, hroot⟩ := h
  simp only [parseConfigNode, bind_eq_ok] at hroot
  obtain ⟨_, -, _, -, _, -, _, -, _, -, _, -, topics, htopics, ⟨⟩, hvalid, hconfig⟩ := hroot
  obtain rfl := Except.ok.inj hconfig
  refine ⟨hvalid, ?_⟩
  intro topic htopic
  obtain ⟨_, -, hnode⟩ := exists_of_mapM_eq_ok htopics topic htopic
  exact topic_parseTopic hnode

/-! ### A document -/

/-- One broker, and for each name and shard a topic with one partition. -/
def exampleNode (topics : List (String × Nat)) : ConfigNode where
  nodeId := some 0
  clusterGeneration := some 1
  dataDir := some "data"
  brokers := .items [{ id := some 0, kafkaHost := some "localhost", kafkaPort := some 9092,
                       mercuryAddress := some "ofi+tcp" }]
  topics := .items <| topics.map fun (name, shard) =>
    { name
      partitions := .items [{ id := some 0, shard := some shard, leader := some 0
                              replicas := .items [0], isr := .items [0]
                              durability := some "write", queueLimit := some 1
                              maxFrameBytes := some 1, fetchVisibility := some "high_watermark"
                              allowFollowerFetch := some false }] }

def exampleConfig (topics : List (String × Nat)) : BrokerConfig where
  clusterGeneration := 1
  dataDir := "data"
  brokers := [{ kafkaHost := "localhost", mercuryAddress := "ofi+tcp" }]
  topics := topics.map fun (name, shard) =>
    ⟨name, [{ defaultPartition with topic := name, shard, queueLimit := 1, maxFrameBytes := 1 }]⟩

example : parseConfigNode (exampleNode [("t", 1)]) = .ok (exampleConfig [("t", 1)]) := by
  decide +kernel

example : parseConfigNode { exampleNode [] with topics := .other } =
    .error "config requires topics sequence" := by
  decide +kernel

end Mkmq
