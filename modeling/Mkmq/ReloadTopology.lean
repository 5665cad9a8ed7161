import Mathlib.Data.List.Nodup
import Mathlib.Data.List.Perm.Subperm
import Mathlib.Logic.Relation
import Mkmq.ConfigLoader
import Mkmq.Reload

/-!
# What reloads cannot change

`validate_reload` compares every broker and every partition of the old configuration with
what the new one has under the same name, and the numbers of brokers.  That no broker is
added follows by counting, since `validate_config` admits no broker id twice.  Partitions
may be added, and a later reload then holds the new ones fixed as well.
-/

namespace Mkmq

open FailureRules

variable {config newConfig new old : BrokerConfig}

/-! ### What the checks say -/

theorem findPartition_some {topic : String} {partition : Int} {found : PartitionConfig}
    (h : findPartition config topic partition = some found) :
    ∃ topicConfig ∈ config.topics, topicConfig.name = topic ∧ found ∈ topicConfig.partitions ∧
      found.partition = partition := by
  unfold findPartition at h
  obtain ⟨topicConfig, htopic, hfound⟩ := List.exists_of_findSome?_eq_some h
  split at hfound
  · cases hfound
  · next hname =>
      have hnumber := List.find?_some hfound
      exact ⟨topicConfig, htopic, not_not.mp hname, List.mem_of_find?_eq_some hfound,
        of_decide_eq_true hnumber⟩

theorem mem_allPartitions {partition : PartitionConfig} :
    partition ∈ allPartitions config ↔ ∃ topic ∈ config.topics, partition ∈ topic.partitions :=
  List.mem_flatMap

/-- A partition that is found in a labelled configuration is listed there under the name
    and the number it was looked up by. -/
theorem BrokerConfig.Labelled.found (h : config.Labelled) {topic : String} {partition : Int}
    {found : PartitionConfig} (hfound : findPartition config topic partition = some found) :
    found ∈ allPartitions config ∧ found.topic = topic ∧ found.partition = partition := by
  obtain ⟨topicConfig, htopic, rfl, hmem, hnumber⟩ := findPartition_some hfound
  exact ⟨mem_allPartitions.mpr ⟨topicConfig, htopic, hmem⟩, h topicConfig htopic found hmem,
    hnumber⟩

theorem validateReloadBroker_ok {broker : BrokerEndpoint}
    (h : validateReloadBroker newConfig broker = .ok ()) : broker ∈ newConfig.brokers := by
  unfold validateReloadBroker at h
  split at h
  · cases h
  · next updated hfound =>
      split at h
      · cases h
      · next hsame =>
          push Not at hsame
          obtain ⟨hhost, hport, haddress⟩ := hsame
          obtain ⟨hmem, hid⟩ := findBroker_some hfound
          have heq : updated = broker := by
            cases updated
            cases broker
            simp_all only
          exact heq ▸ hmem

/-- The fields of a partition that a reload may not change. -/
structure SamePlacement (partition updated : PartitionConfig) : Prop where
  shard : updated.shard = partition.shard
  replicas : updated.replicas = partition.replicas
  isr : updated.isr = partition.isr
  migrationGeneration : updated.migrationGeneration = partition.migrationGeneration
  migrationTargetShard : updated.migrationTargetShard = partition.migrationTargetShard
  migrationTargetLeader : updated.migrationTargetLeader = partition.migrationTargetLeader

theorem SamePlacement.trans {a b c : PartitionConfig} (hab : SamePlacement a b)
    (hbc : SamePlacement b c) : SamePlacement a c where
  shard := hbc.shard.trans hab.shard
  replicas := hbc.replicas.trans hab.replicas
  isr := hbc.isr.trans hab.isr
  migrationGeneration := hbc.migrationGeneration.trans hab.migrationGeneration
  migrationTargetShard := hbc.migrationTargetShard.trans hab.migrationTargetShard
  migrationTargetLeader := hbc.migrationTargetLeader.trans hab.migrationTargetLeader

theorem validateReloadPartition_ok {partition : PartitionConfig}
    (h : validateReloadPartition newConfig partition = .ok ()) :
    ∃ updated, findPartition newConfig partition.topic partition.partition = some updated ∧
      SamePlacement partition updated := by
  unfold validateReloadPartition at h
  split at h
  · cases h
  · next updated hfound =>
      split at h
      · cases h
      split at h
      · cases h
      split at h
      · cases h
      next hshard hreplicas hmigration =>
      push Not at hshard hreplicas hmigration
      exact ⟨updated, hfound, hshard, hreplicas.1, hreplicas.2, hmigration.1, hmigration.2.1,
        hmigration.2.2⟩

/-! ### The topology -/

/-- `new` has the node, the directory, the segment size and the brokers of `old`, and every
    partition of `old` where it was. -/
structure SameTopology (old new : BrokerConfig) : Prop where
  nodeId : new.nodeId = old.nodeId
  dataDir : new.dataDir = old.dataDir
  segmentBytes : new.segmentBytes = old.segmentBytes
  brokers : ∀ broker, broker ∈ new.brokers ↔ broker ∈ old.brokers
  partitions : ∀ partition ∈ allPartitions old, ∃ updated,
    findPartition new partition.topic partition.partition = some updated ∧
      SamePlacement partition updated

/-- What `validate_reload` has compared once it returns. -/
theorem validateReload_ok (h : validateReload old new = .ok ()) :
    new.nodeId = old.nodeId ∧ new.dataDir = old.dataDir ∧ new.segmentBytes = old.segmentBytes ∧
      new.brokers.length = old.brokers.length ∧ (∀ broker ∈ old.brokers, broker ∈ new.brokers) ∧
      ∀ partition ∈ allPartitions old, ∃ updated,
        findPartition new partition.topic partition.partition = some updated ∧
          SamePlacement partition updated := by
  unfold validateReload at h
  simp only at h
  split at h
  · cases h
  split at h
  · cases h
  split at h
  · cases h
  split at h
  · cases h
  next hnode hdir hsegment hcount =>
  push Not at hnode hdir hsegment hcount
  obtain ⟨⟨⟩, hbrokers, hpartitions⟩ := bind_eq_ok.mp h
  refine ⟨hnode.symm, hdir.symm, hsegment.symm, hcount.symm, ?_, ?_⟩
  · intro broker hbroker
    exact validateReloadBroker_ok (forM_eq_ok.mp hbrokers broker hbroker)
  · intro partition hpartition
    exact validateReloadPartition_ok (forM_eq_ok.mp hpartitions partition hpartition)

/-- No broker id is listed twice. -/
theorem nodup_brokers (h : validateConfig config = .ok ()) : config.brokers.Nodup := by
  unfold validateConfig at h
  split at h
  · cases h
  · next hbrokers => exact List.Nodup.of_map _ (validateBrokers_ok hbrokers).2.2

/-- **An accepted reload keeps the topology.**  Every broker of the old configuration is one
    of the new, they are all different, and there are not more new ones. -/
theorem sameTopology_of_validateReload (hold : validateConfig old = .ok ())
    (h : validateReload old new = .ok ()) : SameTopology old new := by
  obtain ⟨hnode, hdir, hsegment, hcount, hbrokers, hpartitions⟩ := validateReload_ok h
  have hperm : old.brokers.Perm new.brokers :=
    ((nodup_brokers hold).subperm hbrokers).perm_of_length_le (le_of_eq hcount)
  exact ⟨hnode, hdir, hsegment, fun broker => hperm.mem_iff.symm, hpartitions⟩

theorem SameTopology.trans {a b c : BrokerConfig} (hab : SameTopology a b)
    (hbc : SameTopology b c) (hlabelled : b.Labelled) : SameTopology a c where
  nodeId := hbc.nodeId.trans hab.nodeId
  dataDir := hbc.dataDir.trans hab.dataDir
  segmentBytes := hbc.segmentBytes.trans hab.segmentBytes
  brokers := fun broker => (hbc.brokers broker).trans (hab.brokers broker)
  partitions := by
    intro partition hpartition
    obtain ⟨between, hbetween, hsame⟩ := hab.partitions partition hpartition
    -- the second reload compares it under the same name
    obtain ⟨hmem, htopic, hnumber⟩ := hlabelled.found hbetween
    obtain ⟨updated, hupdated, hsame'⟩ := hbc.partitions between hmem
    rw [htopic, hnumber] at hupdated
    exact ⟨updated, hupdated, hsame.trans hsame'⟩

/-! ### Chains of reloads -/

/-- A reload from one loaded configuration to another that is not refused. -/
structure AcceptedReload (old new : BrokerConfig) : Prop where
  old_loaded : Loaded old
  new_loaded : Loaded new
  accepted : validateReload old new = .ok ()

/-- **Accepted reloads keep the topology, one by one and along every chain.** -/
theorem accepted_reloads_keep_topology :
    (∀ old new : BrokerConfig, validateConfig old = .ok () → validateConfig new = .ok () →
        validateReload old new = .ok () → SameTopology old new) ∧
      ∀ first last : BrokerConfig, Relation.TransGen AcceptedReload first last →
        SameTopology first last := by
  refine ⟨fun old new hold _ h => sameTopology_of_validateReload hold h, ?_⟩
  intro first last hchain
  induction hchain with
  | single hreload =>
    exact sameTopology_of_validateReload hreload.old_loaded.spec.1 hreload.accepted
  | tail _ hreload ih =>
    refine ih.trans ?_ hreload.old_loaded.spec.2
    exact sameTopology_of_validateReload hreload.old_loaded.spec.1 hreload.accepted

/-- A topic added by one reload and kept by the next. -/
theorem accepted_reloads_keep_topology_added :
    Relation.TransGen AcceptedReload (exampleConfig [("t", 0)])
        (exampleConfig [("u", 1), ("t", 0), ("v", 0)]) ∧
      SameTopology (exampleConfig [("t", 0)]) (exampleConfig [("u", 1), ("t", 0), ("v", 0)]) := by
  have hfirst : AcceptedReload (exampleConfig [("t", 0)]) (exampleConfig [("t", 0), ("u", 1)]) :=
    ⟨⟨exampleNode [("t", 0)], by decide +kernel⟩, ⟨exampleNode [("t", 0), ("u", 1)],
      by decide +kernel⟩, by decide +kernel⟩
  have hsecond : AcceptedReload (exampleConfig [("t", 0), ("u", 1)])
      (exampleConfig [("u", 1), ("t", 0), ("v", 0)]) :=
    ⟨hfirst.new_loaded, ⟨exampleNode [("u", 1), ("t", 0), ("v", 0)], by decide +kernel⟩,
      by decide +kernel⟩
  have hchain := Relation.TransGen.tail (.single hfirst) hsecond
  exact ⟨hchain, accepted_reloads_keep_topology.2 _ _ hchain⟩

end Mkmq
