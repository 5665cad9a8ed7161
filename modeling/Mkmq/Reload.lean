import Mathlib.Data.List.Induction
import Mathlib.Data.Prod.Lex
import Mathlib.Data.String.Basic
import Mkmq.Config
import Mkmq.OrderedStore

/-!
# Reloading the configuration (`BrokerShard::apply_config`)

`validate_reload` looks at the two configurations before anything is changed.  After it
has passed, the partitions of the new one are gone through in order: a log that is there
gets its new configuration at once, and for one that is not an entry is made and its start
begun.  Only `config_` waits for the starts to succeed.

Of a log this keeps what a reload reads and changes: its configuration, and whether its
start has run to its end, with recovery done and both files open.
-/

namespace Mkmq

/-! ### Validation -/

def allPartitions (config : BrokerConfig) : List PartitionConfig :=
  config.topics.flatMap TopicConfig.partitions

/-- The check of one broker of the old configuration. -/
def validateReloadBroker (newConfig : BrokerConfig) (broker : BrokerEndpoint) :
    Except String Unit :=
  match findBroker newConfig broker.id with
  | none => .error "SIGHUP reload cannot change broker endpoints yet"
  | some updated =>
    if updated.kafkaHost ≠ broker.kafkaHost ∨ updated.kafkaPort ≠ broker.kafkaPort ∨
        updated.mercuryAddress ≠ broker.mercuryAddress then
      .error "SIGHUP reload cannot change broker endpoints yet"
    else .ok ()

/-- The checks of one partition of the old configuration. -/
def validateReloadPartition (newConfig : BrokerConfig) (partition : PartitionConfig) :
    Except String Unit :=
  match findPartition newConfig partition.topic partition.partition with
  | none => .error "SIGHUP reload cannot delete topic partitions"
  | some updated =>
    if updated.shard ≠ partition.shard then
      .error "SIGHUP reload cannot migrate partitions across shards"
    else if updated.replicas ≠ partition.replicas ∨ updated.isr ≠ partition.isr then
      .error "SIGHUP reload cannot change replicas or ISR yet"
    else if updated.migrationGeneration ≠ partition.migrationGeneration ∨
        updated.migrationTargetShard ≠ partition.migrationTargetShard ∨
        updated.migrationTargetLeader ≠ partition.migrationTargetLeader then
      .error "SIGHUP reload accepts migration schema but does not execute migrations yet"
    else .ok ()

def validateReload (oldConfig newConfig : BrokerConfig) : Except String Unit := do
  if oldConfig.nodeId ≠ newConfig.nodeId then
    .error "SIGHUP reload cannot change node_id"
  if oldConfig.dataDir ≠ newConfig.dataDir then
    .error "SIGHUP reload cannot change data_dir"
  if oldConfig.segmentBytes ≠ newConfig.segmentBytes then
    .error "SIGHUP reload cannot change segment_bytes"
  if oldConfig.brokers.length ≠ newConfig.brokers.length then
    .error "SIGHUP reload cannot add or remove brokers yet"
  oldConfig.brokers.forM (validateReloadBroker newConfig)
  (allPartitions oldConfig).forM (validateReloadPartition newConfig)

/-! ### The shard -/

/-- The order of `partitions_`: by topic, then by number. -/
abbrev TopicPartition := String ×ₗ Int

def PartitionConfig.key (config : PartitionConfig) : TopicPartition :=
  toLex (config.topic, config.partition)

structure HostedLog where
  config : PartitionConfig
  started : Bool
deriving DecidableEq, Repr

/-- What a reload reads and changes of a `BrokerShard`. -/
structure ReloadingShard where
  shardId : Nat := 0
  config : BrokerConfig
  partitions : List (TopicPartition × HostedLog) := []

namespace ReloadingShard

/-- The body of the loop.  `fails` tells of which logs the start fails, and how; the
    errors collected are those of the starts begun so far. -/
def applyPartition (fails : TopicPartition → Option String)
    (acc : List (TopicPartition × HostedLog) × List String) (partition : PartitionConfig) :
    List (TopicPartition × HostedLog) × List String :=
  match OrderedStore.find partition.key acc.1 with
  | some existing =>
    (OrderedStore.put partition.key { existing with config := partition } acc.1, acc.2)
  | none =>
    (OrderedStore.put partition.key
        { config := partition, started := (fails partition.key).isNone } acc.1,
      acc.2 ++ (fails partition.key).toList)

/-- The partitions of a configuration that the shard hosts. -/
def hosted (s : ReloadingShard) (config : BrokerConfig) : List PartitionConfig :=
  (allPartitions config).filter fun partition => partition.shard = s.shardId

/-- The shard once the future of `apply_config` is available, and how it ended. -/
def applyConfig (s : ReloadingShard) (config : BrokerConfig)
    (fails : TopicPartition → Option String) : ReloadingShard × Except String Unit :=
  match validateReload s.config config with
  | .error message => (s, .error message)
  | .ok () =>
    match (s.hosted config).foldl (applyPartition fails) (s.partitions, []) with
    | (partitions, []) => ({ s with partitions := partitions, config := config }, .ok ())
    | (partitions, message :: _) => ({ s with partitions := partitions }, .error message)

/-! ### One partition, and all of them -/

/-- What the loop has done after the partitions `done`, from the entries `before`. -/
structure Applied (before : List (TopicPartition × HostedLog))
    (fails : TopicPartition → Option String) (done : List PartitionConfig)
    (acc : List (TopicPartition × HostedLog) × List String) : Prop where
  kept : ∀ key log, OrderedStore.find key before = some log →
    (OrderedStore.find key acc.1).map HostedLog.started = some log.started
  added : ∀ key, OrderedStore.find key before = none →
    ∀ log, OrderedStore.find key acc.1 = some log →
      log.started = (fails key).isNone ∧ ∃ partition ∈ done, partition.key = key
  present : ∀ partition ∈ done, OrderedStore.find partition.key acc.1 ≠ none
  errors : acc.2 = [] ↔ ∀ partition ∈ done,
    OrderedStore.find partition.key before = none → fails partition.key = none

section Loop

variable {before : List (TopicPartition × HostedLog)} {fails : TopicPartition → Option String}
  {done : List PartitionConfig} {acc : List (TopicPartition × HostedLog) × List String}
  {partition : PartitionConfig}

theorem applied_nil (before : List (TopicPartition × HostedLog))
    (fails : TopicPartition → Option String) : Applied before fails [] (before, []) where
  kept := fun key log h => by rw [h, Option.map_some]
  added := fun key hnone log h => by
    rw [hnone] at h
    cases h
  present := fun _ h => absurd h List.not_mem_nil
  errors := iff_of_true rfl fun _ h => absurd h List.not_mem_nil

theorem Applied.present_put (h : Applied before fails done acc) (partition : PartitionConfig)
    (log : HostedLog) : ∀ other ∈ done ++ [partition],
      OrderedStore.find other.key (OrderedStore.put partition.key log acc.1) ≠ none := by
  intro other hother
  rw [OrderedStore.find_put]
  split
  · exact Option.some_ne_none _
  · next hne =>
      rcases List.mem_append.mp hother with hold | hlast
      · exact h.present other hold
      · rw [List.mem_singleton.mp hlast] at hne
        exact absurd rfl hne

/-- A log that is there gets the configuration and nothing else. -/
theorem Applied.existing (h : Applied before fails done acc) {log : HostedLog}
    (hfind : OrderedStore.find partition.key acc.1 = some log) :
    Applied before fails (done ++ [partition])
      (OrderedStore.put partition.key { log with config := partition } acc.1, acc.2) where
  kept := by
    intro key old hold
    have hkept := h.kept key old hold
    rw [OrderedStore.find_put]
    split
    · next heq =>
        rw [heq, hfind, Option.map_some] at hkept
        exact hkept
    · exact hkept
  added := by
    intro key hnone new hnew
    rw [OrderedStore.find_put] at hnew
    split at hnew
    · next heq =>
        obtain rfl := Option.some.inj hnew
        rw [heq] at hnone ⊢
        refine ⟨(h.added partition.key hnone log hfind).1, partition, ?_, rfl⟩
        exact List.mem_append_right _ List.mem_cons_self
    · obtain ⟨hstarted, other, hother, hkey⟩ := h.added key hnone new hnew
      exact ⟨hstarted, other, List.mem_append_left _ hother, hkey⟩
  present := h.present_put partition _
  errors := by
    rw [h.errors, List.forall_mem_append, List.forall_mem_singleton]
    refine (and_iff_left_of_imp ?_).symm
    intro hall hnone
    -- the entry was made for an earlier partition of the same name
    obtain ⟨-, earlier, hearlier, hkey⟩ := h.added partition.key hnone log hfind
    rw [← hkey] at hnone ⊢
    exact hall earlier hearlier hnone

/-- For one that is not there an entry is made, whether its start succeeds or not. -/
theorem Applied.new (h : Applied before fails done acc)
    (hfind : OrderedStore.find partition.key acc.1 = none) :
    Applied before fails (done ++ [partition])
      (OrderedStore.put partition.key
          { config := partition, started := (fails partition.key).isNone } acc.1,
        acc.2 ++ (fails partition.key).toList) where
  kept := by
    intro key old hold
    have hkept := h.kept key old hold
    rw [OrderedStore.find_put]
    split
    · next heq =>
        rw [heq, hfind] at hkept
        cases hkept
    · exact hkept
  added := by
    intro key hnone new hnew
    rw [OrderedStore.find_put] at hnew
    split at hnew
    · next heq =>
        obtain rfl := Option.some.inj hnew
        exact ⟨by rw [heq], partition, List.mem_append_right _ List.mem_cons_self, heq.symm⟩
    · obtain ⟨hstarted, other, hother, hkey⟩ := h.added key hnone new hnew
      exact ⟨hstarted, other, List.mem_append_left _ hother, hkey⟩
  present := h.present_put partition _
  errors := by
    have hbefore : OrderedStore.find partition.key before = none := by
      cases hold : OrderedStore.find partition.key before with
      | none => rfl
      | some log =>
        have hkept := h.kept partition.key log hold
        rw [hfind] at hkept
        cases hkept
    rw [List.append_eq_nil_iff, h.errors, List.forall_mem_append, List.forall_mem_singleton,
      Option.toList_eq_nil_iff]
    refine and_congr_right fun _ => ?_
    exact ⟨fun hnone _ => hnone, fun himp => himp hbefore⟩

theorem Applied.step (h : Applied before fails done acc) (partition : PartitionConfig) :
    Applied before fails (done ++ [partition]) (applyPartition fails acc partition) := by
  unfold applyPartition
  cases hfind : OrderedStore.find partition.key acc.1 with
  | none => exact h.new hfind
  | some log => exact h.existing hfind

/-- **What the whole loop does.** -/
theorem applied_foldl (before : List (TopicPartition × HostedLog))
    (fails : TopicPartition → Option String) (partitions : List PartitionConfig) :
    Applied before fails partitions (partitions.foldl (applyPartition fails) (before, [])) := by
  induction partitions using List.reverseRecOn with
  | nil => exact applied_nil before fails
  | append_singleton front partition ih =>
    rw [List.foldl_append]
    exact ih.step partition

end Loop

/-! ### Failed reloads -/

/-- The shard has the configurations and the entries it had. -/
structure Unchanged (s s' : ReloadingShard) : Prop where
  config : s'.config = s.config
  logs : ∀ key log, OrderedStore.find key s.partitions = some log →
    (OrderedStore.find key s'.partitions).map HostedLog.config = some log.config
  entries : ∀ key, OrderedStore.find key s'.partitions = none ↔
    OrderedStore.find key s.partitions = none

/-- After `s'`, every reload that succeeds leaves the log of every partition that `s` did
    not host started. -/
def LaterReloadsStart (s s' : ReloadingShard) : Prop :=
  ∀ (config : BrokerConfig) (fails : TopicPartition → Option String) (s'' : ReloadingShard),
    s'.applyConfig config fails = (s'', .ok ()) →
    ∀ partition ∈ s'.hosted config, OrderedStore.find partition.key s.partitions = none →
      (OrderedStore.find partition.key s''.partitions).map HostedLog.started = some true

/-- A reload that succeeds starts what it adds. -/
theorem laterReloadsStart_self (s : ReloadingShard) : LaterReloadsStart s s := by
  intro config fails s'' hreload partition hpartition hnone
  have happlied := applied_foldl s.partitions fails (s.hosted config)
  unfold applyConfig at hreload
  split at hreload
  · cases hreload
  · split at hreload
    · next partitions hfold =>
        obtain rfl := (Prod.mk.inj hreload).1
        rw [hfold] at happlied
        have hstarts := happlied.errors.mp rfl partition hpartition hnone
        cases hfind : OrderedStore.find partition.key partitions with
        | none => exact absurd hfind (happlied.present partition hpartition)
        | some log =>
          rw [Option.map_some, (happlied.added partition.key hnone log hfind).1, hstarts]
          rfl
    · cases hreload

/-- **A failed reload changes nothing, and leaves nothing unstarted to a later one, exactly
    when it is the validation that failed.** -/
theorem failed_reload_unchanged_iff (s s' : ReloadingShard) (config : BrokerConfig)
    (fails : TopicPartition → Option String) (message : String)
    (hfailed : s.applyConfig config fails = (s', .error message)) :
    (Unchanged s s' ∧ LaterReloadsStart s s') ↔
      ∃ text, validateReload s.config config = .error text := by
  unfold applyConfig at hfailed
  split at hfailed
  · next text hvalidate =>
      obtain rfl := (Prod.mk.inj hfailed).1
      refine iff_of_true ⟨⟨rfl, ?_, fun _ => Iff.rfl⟩, laterReloadsStart_self s⟩ ⟨text, hvalidate⟩
      intro key log hlog
      rw [hlog, Option.map_some]
  · next hvalidate =>
      refine iff_of_false ?_ ?_
      · rintro ⟨hunchanged, -⟩
        have happlied := applied_foldl s.partitions fails (s.hosted config)
        split at hfailed
        · cases hfailed
        · next partitions _ _ hfold =>
            obtain rfl := (Prod.mk.inj hfailed).1
            rw [hfold] at happlied
            -- the entry of a log whose start failed stays
            have herrors := mt happlied.errors.mpr (List.cons_ne_nil _ _)
            push Not at herrors
            obtain ⟨partition, hpartition, hnone, -⟩ := herrors
            exact happlied.present partition hpartition
              ((hunchanged.entries partition.key).mpr hnone)
      · rintro ⟨text, htext⟩
        rw [hvalidate] at htext
        cases htext

/-- One broker without topics, and the same with one. -/
def noTopic : BrokerConfig := { brokers := [{}] }

def oneTopic : BrokerConfig :=
  { noTopic with topics := [⟨"t", [{ defaultPartition with topic := "t" }]⟩] }

/-- A shard that has the log of the topic open. -/
def hostingShard : ReloadingShard :=
  { config := oneTopic
    partitions := [(toLex ("t", 0), ⟨{ defaultPartition with topic := "t" }, true⟩)] }

/-- A reload that would change the node id. -/
theorem failed_reload_unchanged_nodeId :
    ∃ s' message, hostingShard.applyConfig { oneTopic with nodeId := 1 } (fun _ => none) =
        (s', .error message) ∧
      s'.partitions.length = 1 ∧ Unchanged hostingShard s' ∧ LaterReloadsStart hostingShard s' := by
  refine ⟨_, _, rfl, rfl, ?_⟩
  exact (failed_reload_unchanged_iff hostingShard _ { oneTopic with nodeId := 1 } (fun _ => none) _
    rfl).mpr ⟨_, rfl⟩

/-- The log of the added topic cannot be started: its entry stays. -/
theorem failed_reload_not_always_unchanged :
    ¬ ∀ (s s' : ReloadingShard) (config : BrokerConfig) (fails : TopicPartition → Option String)
        (message : String), s.applyConfig config fails = (s', .error message) →
        Unchanged s s' ∧ LaterReloadsStart s s' := by
  intro hall
  have hfailed : ReloadingShard.applyConfig { config := noTopic } oneTopic
      (fun _ => some "open failed") =
      ({ config := noTopic,
         partitions := [(toLex ("t", 0), ⟨{ defaultPartition with topic := "t" }, false⟩)] },
        .error "open failed") := by
    rfl
  have hentries := (hall _ _ _ _ _ hfailed).1.entries (toLex ("t", 0))
  exact absurd (hentries.mpr rfl) (by simp [OrderedStore.find])

end ReloadingShard

end Mkmq
