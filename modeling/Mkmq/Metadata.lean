import Mkmq.BrokerProcess
import Mkmq.HandleFrame

/-!
# What a metadata response promises

A client learns from `metadata_response` which broker leads which partition
(`src/kafka_protocol.cpp`), and sends its appends there.  The response is made from the
configuration of the shard that has the connection; whether an append is taken is decided by
another shard, maybe of another broker, from its own copy and from the configuration in its
log.  Both are read with the same scan for the first topic of the name.
-/

namespace Mkmq

open ByteCodec ReloadingShard

variable {config : BrokerConfig} {partition : PartitionConfig}

/-! ### The partitions of a topic -/

theorem bytesOf_textOf (bytes : Bytes) : bytesOf (textOf bytes) = bytes := by
  have hbyte : ∀ byte : UInt8, UInt8.ofNat (Char.ofNat byte.toNat).toNat = byte := by
    intro byte
    have hvalid : byte.toNat.isValidChar := Or.inl (by have := byte.toNat_lt; omega)
    rw [Char.ofNat, dif_pos hvalid]
    exact UInt8.ofNat_toNat
  rw [bytesOf, textOf, String.toList_ofList, List.map_map]
  exact (List.map_congr_left fun byte _ => hbyte byte).trans (List.map_id bytes)

theorem name_topicFor (config : BrokerConfig) (name : String) :
    (topicFor config name).name = name := by
  unfold topicFor
  cases hfind : config.topics.find? fun configured => decide (configured.name = name) with
  | none => rfl
  | some topic =>
    have hname := List.find?_some hfind
    exact of_decide_eq_true hname

theorem mem_topics_of_topicFor {name : String} (h : partition ∈ (topicFor config name).partitions) :
    topicFor config name ∈ config.topics := by
  unfold topicFor at h ⊢
  cases hfind : config.topics.find? fun configured => decide (configured.name = name) with
  | none =>
    rw [hfind] at h
    cases h
  | some topic => exact List.mem_of_find?_eq_some hfind

/-- The scan of `owner_shard` goes through the partitions that metadata lists. -/
theorem ownerShard_eq_topicFor (config : BrokerConfig) (name : String) (number : Int) :
    ownerShard config name number =
      ((topicFor config name).partitions.find? fun p => p.partition = number).map
        PartitionConfig.shard := by
  unfold ownerShard topicFor
  cases config.topics.find? fun configured => decide (configured.name = name) with
  | none => rfl
  | some topic => rfl

theorem find_of_listed (h : Loaded config) {name : String}
    (hlisted : partition ∈ (topicFor config name).partitions) :
    (topicFor config name).partitions.find? (fun p => p.partition = partition.partition) =
        some partition ∧
      partition ∈ allPartitions config ∧ partition.topic = name := by
  have htopic := mem_topics_of_topicFor hlisted
  have hlabel : ∀ p ∈ (topicFor config name).partitions, p.topic = name :=
    fun p hp => (h.spec.2 _ htopic p hp).trans (name_topicFor config name)
  have hmem : ∀ p ∈ (topicFor config name).partitions, p ∈ allPartitions config :=
    fun p hp => mem_allPartitions.mpr ⟨_, htopic, hp⟩
  refine ⟨?_, hmem partition hlisted, hlabel partition hlisted⟩
  cases hfind : (topicFor config name).partitions.find?
      fun p => decide (p.partition = partition.partition) with
  | none => exact absurd (decide_eq_true rfl) (List.find?_eq_none.mp hfind partition hlisted)
  | some found =>
    have hfound := List.mem_of_find?_eq_some hfind
    have hnumber := List.find?_some hfind
    rw [decide_eq_true_eq] at hnumber
    refine congrArg some (h.eq_of_key (hmem found hfound) (hmem partition hlisted) ?_)
    rw [PartitionConfig.key, PartitionConfig.key, hlabel found hfound, hlabel partition hlisted,
      hnumber]

theorem metadataTopic_partitions (topic : TopicConfig) :
    (metadataTopic topic).partitions = topic.partitions.map (metadataPartition false) ∧
      (metadataTopic topic).errorCode =
        if topic.partitions = [] then errorId .unknownTopicOrPartition else 0 := by
  cases hpartitions : topic.partitions with
  | nil => simp [metadataTopic, hpartitions]
  | cons partition rest => simp [metadataTopic, hpartitions]

/-! ### What the shards of a waiting broker do with an append -/

namespace BrokerProcess

variable {n : Nat} {q : BrokerProcess n}

theorem append_of_unrouted (hsound : Sound q) (hwaiting : q.phase = .waiting) {topic : String}
    {number : Int} (hnone : ownerShard q.config topic number = none) (j : Fin (n + 1))
    (records : Bytes) (acks timeoutMs : Int) (outcome : AppendOutcome) :
    (q.shards j).append ⟨topic, number, records⟩ acks timeoutMs outcome =
      some (.answered
        { topic := topic, partition := number, errorCode := .unknownTopicOrPartition }) := by
  have hphased := hsound.phased
  rw [hwaiting] at hphased
  simp only [ReloadingShard.append, route, (hphased.1 j).config, hnone]

/-- An append for a configured partition is forwarded to its shard, which refuses it exactly
    if the broker is not the leader. -/
theorem append_of_routed (hsound : Sound q) (hwaiting : q.phase = .waiting)
    {partition : PartitionConfig} (hmem : partition ∈ allPartitions q.config)
    (howner : ownerShard q.config partition.topic partition.partition = some partition.shard)
    (j : Fin (n + 1)) {records : Bytes} {acks timeoutMs : Int} {outcome : AppendOutcome}
    {reply : Reply ProducePartitionResult}
    (hreply : (q.shards j).append ⟨partition.topic, partition.partition, records⟩ acks timeoutMs
      outcome = some reply) :
    (partition.shard ≠ j ∧ reply = .forwarded partition.shard) ∨
      partition.shard = j ∧ ∃ result, reply = .answered result ∧
        result.errorCode ≠ .unknownTopicOrPartition ∧
        (result.errorCode = .notLeaderOrFollower ↔ partition.leader ≠ q.config.nodeId) := by
  have hphased := hsound.phased
  rw [hwaiting] at hphased
  have hhosts := hphased.1 j
  simp only [ReloadingShard.append, route, hhosts.config, howner, hsound.shardId j] at hreply
  by_cases hshard : partition.shard = j
  · rw [if_neg (not_not.mpr hshard)] at hreply
    have hlog : (q.shards j).findPartitionLog partition.topic partition.partition =
        some { config := partition, started := true } :=
      hhosts.find_iff.mpr ⟨rfl, hmem, rfl, rfl, hshard.trans (hsound.shardId j).symm⟩
    simp only [hlog] at hreply
    refine Or.inr ⟨hshard, ?_⟩
    split at hreply
    · next hleader =>
        obtain rfl := Option.some.inj hreply
        exact ⟨_, rfl, by simp, iff_of_true rfl hleader⟩
    · next hleader =>
        obtain ⟨result, hresult, rfl⟩ := Option.map_eq_some_iff.mp hreply
        obtain ⟨hknown, hled⟩ := appendToLog_errorCode hresult
        exact ⟨result, rfl, hknown, iff_of_false hled hleader⟩
  · rw [if_pos hshard] at hreply
    exact Or.inl ⟨hshard, (Option.some.inj hreply).symm⟩

end BrokerProcess

/-! ### The response and the appends -/

/-- What a response says of a topic is what the broker `q` does with appends: of a partition
    that is not listed it knows nothing, and one that is listed it takes to the partition's
    shard, where it is refused exactly if `q` is not the leader that the response names. -/
structure Describes {n : Nat} (q : BrokerProcess n) (asked : Bytes)
    (topic : Codec.MetadataResponseTopic) (entries : List PartitionConfig) : Prop where
  name : topic.name = asked
  partitions : topic.partitions = entries.map (metadataPartition false)
  errorCode : topic.errorCode = if entries = [] then errorId .unknownTopicOrPartition else 0
  unlisted : ∀ number, (∀ partition ∈ entries, partition.partition ≠ number) →
    ∀ j records acks timeoutMs outcome,
      (q.shards j).append ⟨textOf asked, number, records⟩ acks timeoutMs outcome =
        some (.answered
          { topic := textOf asked, partition := number, errorCode := .unknownTopicOrPartition })
  listed : ∀ partition ∈ entries, ∀ (j : Fin (n + 1)) records acks timeoutMs outcome reply,
    (q.shards j).append ⟨textOf asked, partition.partition, records⟩ acks timeoutMs outcome =
        some reply →
      (partition.shard ≠ j ∧ reply = .forwarded partition.shard) ∨
        partition.shard = j ∧ ∃ result, reply = .answered result ∧
          result.errorCode ≠ .unknownTopicOrPartition ∧
          (result.errorCode = .notLeaderOrFollower ↔ partition.leader ≠ q.config.nodeId)

theorem describes_topicFor {n : Nat} {q : BrokerProcess n} (hsound : q.Sound)
    (hwaiting : q.phase = .waiting) (name : Bytes) :
    Describes q name (metadataTopic (topicFor q.config (textOf name)))
      (topicFor q.config (textOf name)).partitions where
  name := by
    rw [metadataTopic, name_topicFor, bytesOf_textOf]
  partitions := (metadataTopic_partitions _).1
  errorCode := (metadataTopic_partitions _).2
  unlisted := by
    intro number hnumber j records acks timeoutMs outcome
    refine BrokerProcess.append_of_unrouted hsound hwaiting ?_ j records acks timeoutMs outcome
    rw [ownerShard_eq_topicFor, Option.map_eq_none_iff, List.find?_eq_none]
    intro partition hpartition
    rw [decide_eq_true_eq]
    exact hnumber partition hpartition
  listed := by
    intro partition hpartition j records acks timeoutMs outcome reply hreply
    obtain ⟨hfind, hmem, htopic⟩ := find_of_listed hsound.loaded hpartition
    rw [← htopic] at hreply
    refine BrokerProcess.append_of_routed hsound hwaiting hmem ?_ j hreply
    rw [ownerShard_eq_topicFor, htopic, hfind, Option.map_some]

/-- **The metadata a broker gives agrees with what every broker of the same topics does.**
    Whatever starts and reloads came before, when both wait for signals again: the response
    of any shard of `p` has one topic for each name that is asked for, in this order, and it
    describes the appends of all shards of `q`. -/
theorem metadata_agrees_with_appends {n m : Nat} {p : BrokerProcess n} {q : BrokerProcess m}
    (hp : p.Reached) (hpwaiting : p.phase = .waiting) (hq : q.Reached)
    (hqwaiting : q.phase = .waiting) (hsame : p.config.topics = q.config.topics)
    (i : Fin (n + 1)) (request : Codec.MetadataRequest) (hnames : request.allTopics = false) :
    List.Forall₂ (fun requested topic => ∃ entries, Describes q requested.name topic entries)
      request.topics (metadataResponse (p.shards i).config request).topics := by
  have hphased := hp.sound.phased
  rw [hpwaiting] at hphased
  have htopics : ∀ name, topicFor p.config name = topicFor q.config name := by
    intro name
    rw [topicFor, topicFor, hsame]
  simp only [metadataResponse, (hphased.1 i).config, hnames, Bool.false_eq_true, if_false,
    List.map_map]
  rw [List.forall₂_map_right_iff, List.forall₂_same]
  intro requested _
  rw [Function.comp_apply, htopics]
  exact ⟨_, describes_topicFor hq.sound hqwaiting requested.name⟩

/-- A request for the topics of these names. -/
def metadataRequest (names : List Bytes) : Codec.MetadataRequest where
  allTopics := false
  topics := names.map fun name => ⟨name⟩
  allowAutoTopicCreation := false
  includeClusterAuthorizedOperations := false
  includeTopicAuthorizedOperations := false

/-- One broker that answers for a topic it has and one it does not have. -/
theorem metadata_agrees_with_appends_started :
    ∃ p : BrokerProcess 1,
      Transition.run BrokerProcess.step (.launched (exampleConfig [("t", 0)]))
        BrokerProcess.startRun = some p ∧
      ∃ first second, (metadataResponse (p.shards 1).config
          (metadataRequest [[116], [120]])).topics = [first, second] ∧
        (∃ entries, Describes p [116] first entries) ∧
        ∃ entries, Describes p [120] second entries := by
  have hruns : (Transition.run BrokerProcess.step (.launched (exampleConfig [("t", 0)]))
      BrokerProcess.startRun).map BrokerProcess.phase = some .waiting := by decide +kernel
  obtain ⟨p, hp, hwaiting⟩ := Option.map_eq_some_iff.mp hruns
  have hreached : p.Reached :=
    Transition.Reachable.of_run (.start BrokerProcess.launched_example) BrokerProcess.startRun
      (fun _ _ _ => trivial) hp
  have hboth := metadata_agrees_with_appends hreached hwaiting hreached hwaiting rfl 1
    (metadataRequest [[116], [120]]) rfl
  cases hboth with
  | cons hfirst hrest =>
    cases hrest with
    | cons hsecond hnone =>
      cases hnone
      exact ⟨p, hp, _, _, rfl, hfirst, hsecond⟩

end Mkmq
