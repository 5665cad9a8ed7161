import Mkmq.ShardCalls

/-!
# The process of a broker (`src/main.cpp`)

The main loop starts the shards, gives each of them the list of its peers, and then waits for
signals.  A hang-up loads the file again and hands the configuration to every shard; the loop
waits for all of them, and an exception of one of them ends the process like every other
exception here.  `StopSignal` has place for one signal, and a new one takes the place of one
that has not been taken up.

What `start` and `apply_config` do on a shard before their first wait is one step, and what
they do when the logs have started is another; requests see the shards between the two.
-/

namespace Mkmq

variable {brokerIds : List Int} {seen : List (String × Int)} {config : BrokerConfig}

/-- `StopSignal::Event`. -/
inductive SignalEvent where
  | stop
  | reload
deriving DecidableEq, Repr

/-- The call that `invoke_on_all` makes on a shard: not made yet, waiting for logs to start, of
    which some fail, or over. -/
inductive ShardCall where
  | pending
  | running (errors : List String)
  | done (result : Except String Unit)
deriving DecidableEq, Repr

def ShardCall.isDone : ShardCall → Bool
  | .done _ => true
  | _ => false

def ShardCall.isOk : ShardCall → Bool
  | .done (.ok ()) => true
  | _ => false

/-- Where the main loop is. -/
inductive MainPhase where
  | starting
  | settingPeers
  | waiting
  | reloading (updated : BrokerConfig)
  | stopped
  | failed
deriving DecidableEq, Repr

/-! ### The calls of the shards -/

namespace ReloadingShard

/-- The body of the loop of `start`; `fails` tells of which logs the start fails, and how. -/
def startPartition (fails : TopicPartition → Option String)
    (acc : List (TopicPartition × HostedLog) × List String) (partition : PartitionConfig) :
    List (TopicPartition × HostedLog) × List String :=
  (OrderedStore.put partition.key
      { config := partition, started := (fails partition.key).isNone } acc.1,
    acc.2 ++ (fails partition.key).toList)

/-- `start` up to its first wait. -/
def beginStart (s : ReloadingShard) (config : BrokerConfig)
    (fails : TopicPartition → Option String) : ReloadingShard × ShardCall :=
  let loop := (s.hosted config).foldl (startPartition fails) (s.partitions, [])
  ({ s with config := config, partitions := loop.1 }, .running loop.2)

/-- The rest of `start`.  Once the logs are there, Mercury is started and the port opened, and
    `later` is an exception of these. -/
def finishStart (errors : List String) (later : Option String) : Except String Unit :=
  match errors, later with
  | [], none => .ok ()
  | [], some message => .error message
  | message :: _, _ => .error message

/-- `apply_config` up to its first wait. -/
def beginReload (s : ReloadingShard) (config : BrokerConfig)
    (fails : TopicPartition → Option String) : ReloadingShard × ShardCall :=
  match validateReload s.config config with
  | .error message => (s, .done (.error message))
  | .ok () =>
    let loop := (s.hosted config).foldl (applyPartition fails) (s.partitions, [])
    ({ s with partitions := loop.1 }, .running loop.2)

/-- The rest of `apply_config`. -/
def finishReload (s : ReloadingShard) (config : BrokerConfig) (errors : List String) :
    ReloadingShard × Except String Unit :=
  match errors with
  | [] => ({ s with config := config }, .ok ())
  | message :: _ => (s, .error message)

/-- A reload with nothing between its two parts. -/
def reloadAtOnce (s : ReloadingShard) (config : BrokerConfig)
    (fails : TopicPartition → Option String) : ReloadingShard × Except String Unit :=
  match s.beginReload config fails with
  | (s', .running errors) => s'.finishReload config errors
  | (s', .done result) => (s', result)
  | (s', .pending) => (s', .ok ())

theorem applyConfig_eq (s : ReloadingShard) (config : BrokerConfig)
    (fails : TopicPartition → Option String) :
    s.applyConfig config fails = s.reloadAtOnce config fails := by
  unfold applyConfig reloadAtOnce beginReload
  cases validateReload s.config config with
  | error message => rfl
  | ok =>
    simp only
    split
    · next partitions hloop =>
        rw [hloop]
        rfl
    · next partitions message rest hloop =>
        rw [hloop]
        rfl

end ReloadingShard

/-! ### The process -/

/-- The process with shards 0 to `n`. -/
structure BrokerProcess (n : Nat) where
  phase : MainPhase := .starting
  pending : Option SignalEvent := none
  config : BrokerConfig
  shards : Fin (n + 1) → ReloadingShard
  calls : Fin (n + 1) → ShardCall := fun _ => .pending
  peers : Fin (n + 1) → Bool := fun _ => false

/-- A signal; a shard taking up the call and ending it; the main loop going on when all
    shards have; a shard getting its peers, and the metrics port opened after that; and the loop
    taking up a signal, with the file as it then is. -/
inductive ProcessEvent (n : Nat) where
  | signal (event : SignalEvent)
  | begin (shard : Fin (n + 1)) (fails : TopicPartition → Option String)
  | finish (shard : Fin (n + 1)) (later : Option String)
  | join
  | setPeers (shard : Fin (n + 1))
  | serve (fails : Bool)
  | take (file : Option ConfigNode)

namespace BrokerProcess

variable {n : Nat}

/-- The shards as `sharded` makes them. -/
def launched (config : BrokerConfig) : BrokerProcess n where
  config := config
  shards := fun i => { shardId := i, config := {} }

def Launched (p : BrokerProcess n) : Prop := ∃ config, Loaded config ∧ p = launched config

def running (p : BrokerProcess n) : Bool := p.phase ≠ .stopped ∧ p.phase ≠ .failed

def all (f : Fin (n + 1) → Bool) : Bool := (List.finRange (n + 1)).all f

def setShard (p : BrokerProcess n) (i : Fin (n + 1)) (shard : ReloadingShard) (call : ShardCall) :
    BrokerProcess n :=
  { p with shards := Function.update p.shards i shard, calls := Function.update p.calls i call }

def step (p : BrokerProcess n) : ProcessEvent n → Option (BrokerProcess n)
  | .signal event => if p.running then some { p with pending := some event } else none
  | .begin i fails =>
    match p.phase, p.calls i with
    | .starting, .pending =>
      let (shard, call) := (p.shards i).beginStart p.config fails
      some (p.setShard i shard call)
    | .reloading updated, .pending =>
      let (shard, call) := (p.shards i).beginReload updated fails
      some (p.setShard i shard call)
    | _, _ => none
  | .finish i later =>
    match p.phase, p.calls i with
    | .starting, .running errors =>
      some (p.setShard i (p.shards i) (.done (ReloadingShard.finishStart errors later)))
    | .reloading updated, .running errors =>
      let (shard, result) := (p.shards i).finishReload updated errors
      some (p.setShard i shard (.done result))
    | _, _ => none
  | .join =>
    if all fun i => (p.calls i).isDone then
      match p.phase with
      | .starting =>
        if all fun i => (p.calls i).isOk then some { p with phase := .settingPeers }
        else some { p with phase := .failed }
      | .reloading updated =>
        if all fun i => (p.calls i).isOk then
          some { p with phase := .waiting, config := updated }
        else some { p with phase := .failed }
      | _ => none
    else none
  | .setPeers i =>
    if p.phase = .settingPeers then some { p with peers := Function.update p.peers i true }
    else none
  | .serve fails =>
    if p.phase = .settingPeers ∧ all p.peers then
      some { p with phase := if fails then .failed else .waiting }
    else none
  | .take file =>
    match p.phase, p.pending with
    | .waiting, some .stop => some { p with pending := none, phase := .stopped }
    | .waiting, some .reload =>
      match file.map parseConfigNode with
      | some (.ok updated) =>
        some { p with
          pending := none
          phase := .reloading updated
          calls := fun _ => .pending }
      | _ => some { p with pending := none, phase := .failed }
    | _, _ => none

end BrokerProcess

/-! ### Names are unique -/

/-- The partition loop accepts no key twice, and none of the set it begins with. -/
theorem validatePartitions_keys {seen' : List (String × Int)} {partitions : List PartitionConfig}
    (h : validatePartitions brokerIds seen partitions = .ok seen') :
    (partitions.map PartitionConfig.key).Nodup ∧
      (∀ p ∈ partitions, (p.topic, p.partition) ∉ seen) ∧
      ∀ key, key ∈ seen' ↔ key ∈ seen ∨ ∃ p ∈ partitions, (p.topic, p.partition) = key := by
  induction partitions generalizing seen with
  | nil =>
    obtain rfl := Except.ok.inj h
    simp
  | cons partition rest ih =>
    unfold validatePartitions at h
    split at h
    · cases h
    split at h
    · cases h
    next hnew _ _ =>
    obtain ⟨hnodup, hfresh, hseen⟩ := ih h
    refine ⟨?_, ?_, fun key => ?_⟩
    · rw [List.map_cons, List.nodup_cons]
      refine ⟨fun hmem => ?_, hnodup⟩
      obtain ⟨other, hother, hkey⟩ := List.mem_map.mp hmem
      exact hfresh other hother (List.mem_cons.mpr (Or.inl (toLex.injective hkey)))
    · rw [List.forall_mem_cons]
      exact ⟨hnew, fun p hp hmem => hfresh p hp (List.mem_cons_of_mem _ hmem)⟩
    · rw [hseen key, List.mem_cons, List.exists_mem_cons_iff, or_assoc, or_left_comm,
        @eq_comm _ key]

theorem validateTopics_keys {topics : List TopicConfig}
    (h : validateTopics brokerIds seen topics = .ok ()) :
    ((topics.flatMap TopicConfig.partitions).map PartitionConfig.key).Nodup ∧
      ∀ p ∈ topics.flatMap TopicConfig.partitions, (p.topic, p.partition) ∉ seen := by
  induction topics generalizing seen with
  | nil => simp
  | cons topic rest ih =>
    unfold validateTopics at h
    split at h
    · cases h
    split at h
    · cases h
    next seen' hpartitions =>
    obtain ⟨hnodup, hfresh, hseen⟩ := validatePartitions_keys hpartitions
    obtain ⟨hrest, hlater⟩ := ih h
    rw [List.flatMap_cons]
    constructor
    · rw [List.map_append, List.nodup_append']
      refine ⟨hnodup, hrest, fun key hkey hkey' => ?_⟩
      obtain ⟨p, hp, rfl⟩ := List.mem_map.mp hkey
      obtain ⟨q, hq, hsame⟩ := List.mem_map.mp hkey'
      exact hlater q hq ((hseen _).mpr (Or.inr ⟨p, hp, (toLex.injective hsame).symm⟩))
    · intro p hp hmem
      rcases List.mem_append.mp hp with hp | hp
      · exact hfresh p hp hmem
      · exact hlater p hp ((hseen _).mpr (Or.inl hmem))

/-- **No two partitions of a loaded configuration have the same topic and number.** -/
theorem Loaded.nodup_keys (h : Loaded config) :
    ((allPartitions config).map PartitionConfig.key).Nodup := by
  have hvalid := h.spec.1
  unfold validateConfig at hvalid
  split at hvalid
  · cases hvalid
  split at hvalid
  · cases hvalid
  split at hvalid
  · cases hvalid
  exact (validateTopics_keys hvalid).1

theorem Loaded.eq_of_key (h : Loaded config) {p q : PartitionConfig} (hp : p ∈ allPartitions config)
    (hq : q ∈ allPartitions config) (hkey : p.key = q.key) : p = q :=
  List.inj_on_of_nodup_map h.nodup_keys hp hq hkey

/-! ### The tables the loops make -/

namespace ReloadingShard

/-- The table has the logs of the partitions the shard hosts, with their configurations, and
    no others. -/
def Tabled (config : BrokerConfig) (s : ReloadingShard) : Prop :=
  ∀ key partition, (OrderedStore.find key s.partitions).map HostedLog.config = some partition ↔
    partition ∈ s.hosted config ∧ partition.key = key

def AllStarted (partitions : List (TopicPartition × HostedLog)) : Prop :=
  ∀ key log, OrderedStore.find key partitions = some log → log.started = true

section Loops

variable {body : List (TopicPartition × HostedLog) × List String → PartitionConfig →
  List (TopicPartition × HostedLog) × List String}

/-- The loops of `start` and `apply_config`: a turn puts a log with the partition's
    configuration under its key, and as long as no start fails all logs are started. -/
structure Files (body : List (TopicPartition × HostedLog) × List String → PartitionConfig →
    List (TopicPartition × HostedLog) × List String) : Prop where
  puts : ∀ acc partition, ∃ log : HostedLog, log.config = partition ∧
    (body acc partition).1 = OrderedStore.put partition.key log acc.1
  starts : ∀ acc partition, (acc.2 = [] → AllStarted acc.1) →
    (body acc partition).2 = [] → AllStarted (body acc partition).1

theorem allStarted_put {partitions : List (TopicPartition × HostedLog)}
    (h : AllStarted partitions) {log : HostedLog} (hlog : log.started = true)
    (key : TopicPartition) : AllStarted (OrderedStore.put key log partitions) := by
  intro other found hfound
  rw [OrderedStore.find_put] at hfound
  split at hfound
  · exact Option.some.inj hfound ▸ hlog
  · exact h other found hfound

theorem files_startPartition (fails : TopicPartition → Option String) :
    Files (startPartition fails) where
  puts := fun acc partition => ⟨_, rfl, rfl⟩
  starts := fun acc partition hacc herrors => by
    obtain ⟨hbefore, hstarts⟩ := List.append_eq_nil_iff.mp herrors
    refine allStarted_put (hacc hbefore) ?_ partition.key
    rw [Option.toList_eq_nil_iff.mp hstarts]
    rfl

theorem files_applyPartition (fails : TopicPartition → Option String) :
    Files (applyPartition fails) where
  puts := fun acc partition => by
    unfold applyPartition
    split
    · exact ⟨_, rfl, rfl⟩
    · exact ⟨_, rfl, rfl⟩
  starts := fun acc partition hacc herrors => by
    unfold applyPartition at herrors ⊢
    split at herrors
    · next existing hfound =>
        refine allStarted_put (hacc herrors) ?_ partition.key
        exact hacc herrors _ existing hfound
    · exact (files_startPartition fails).starts acc partition hacc herrors

theorem Files.allStarted (h : Files body) (partitions : List PartitionConfig)
    {acc : List (TopicPartition × HostedLog) × List String} (hacc : acc.2 = [] → AllStarted acc.1) :
    (partitions.foldl body acc).2 = [] → AllStarted (partitions.foldl body acc).1 := by
  induction partitions generalizing acc with
  | nil => exact hacc
  | cons partition rest ih => exact ih (h.starts acc partition hacc)

/-- The configurations in the table after the loop: those of the loop, and under the other
    keys those of before. -/
theorem Files.config_foldl (h : Files body) {partitions : List PartitionConfig}
    (hkeys : (partitions.map PartitionConfig.key).Nodup)
    (acc : List (TopicPartition × HostedLog) × List String) (key : TopicPartition)
    (config : PartitionConfig) :
    (OrderedStore.find key (partitions.foldl body acc).1).map HostedLog.config = some config ↔
      (config ∈ partitions ∧ config.key = key) ∨
        (∀ p ∈ partitions, p.key ≠ key) ∧
          (OrderedStore.find key acc.1).map HostedLog.config = some config := by
  induction partitions generalizing acc with
  | nil => simp
  | cons partition rest ih =>
    rw [List.map_cons, List.nodup_cons] at hkeys
    obtain ⟨log, hlog, hput⟩ := h.puts acc partition
    rw [List.foldl_cons, ih hkeys.2, hput, OrderedStore.find_put, List.mem_cons,
      List.forall_mem_cons]
    by_cases hkey : key = partition.key
    · -- the key is not one of the rest
      have hrest : ∀ p ∈ rest, p.key ≠ key :=
        fun p hp hsame => hkeys.1 (List.mem_map.mpr ⟨p, hp, hsame.trans hkey⟩)
      rw [if_pos hkey, Option.map_some, hlog, Option.some_inj]
      constructor
      · rintro (⟨hmem, hsame⟩ | ⟨-, rfl⟩)
        · exact absurd hsame (hrest config hmem)
        · exact Or.inl ⟨Or.inl rfl, hkey.symm⟩
      · rintro (⟨rfl | hmem, hsame⟩ | ⟨⟨hne, -⟩, -⟩)
        · exact Or.inr ⟨hrest, rfl⟩
        · exact absurd hsame (hrest config hmem)
        · exact absurd hkey.symm hne
    · rw [if_neg hkey]
      constructor
      · rintro (⟨hmem, hsame⟩ | ⟨hrest, hbefore⟩)
        · exact Or.inl ⟨Or.inr hmem, hsame⟩
        · exact Or.inr ⟨⟨Ne.symm hkey, hrest⟩, hbefore⟩
      · rintro (⟨rfl | hmem, hsame⟩ | ⟨⟨-, hrest⟩, hbefore⟩)
        · exact absurd hsame.symm hkey
        · exact Or.inl ⟨hmem, hsame⟩
        · exact Or.inr ⟨hrest, hbefore⟩

end Loops

variable {s : ReloadingShard} {old new : BrokerConfig} {errors : List String}

theorem nodup_hosted (h : Loaded new) (s : ReloadingShard) :
    ((s.hosted new).map PartitionConfig.key).Nodup :=
  h.nodup_keys.sublist (List.filter_sublist.map _)

theorem mem_hosted {partition : PartitionConfig} :
    partition ∈ s.hosted new ↔ partition ∈ allPartitions new ∧ partition.shard = s.shardId := by
  simp [hosted]

/-- What `start` makes of a new shard. -/
theorem tabled_beginStart (hnew : Loaded new) (hempty : s.partitions = [])
    (fails : TopicPartition → Option String) : Tabled new (s.beginStart new fails).1 := by
  intro key partition
  have hloop := (files_startPartition fails).config_foldl (nodup_hosted hnew s) (s.partitions, [])
    key partition
  rw [hempty] at hloop
  simp only [beginStart, hempty]
  rw [hloop]
  simp [OrderedStore.find, hosted]

/-- What `apply_config` makes of a table, when the configuration is accepted: every partition
    of the old one is one of the new, so that no log is left with an old configuration. -/
theorem tabled_reload (hold : Loaded old) (hnew : Loaded new)
    (haccepted : validateReload old new = .ok ()) (htabled : Tabled old s)
    (fails : TopicPartition → Option String) :
    Tabled new { s with
      partitions := ((s.hosted new).foldl (applyPartition fails) (s.partitions, [])).1 } := by
  intro key partition
  simp only
  rw [(files_applyPartition fails).config_foldl (nodup_hosted hnew s)]
  refine or_iff_left_of_imp ?_
  rintro ⟨hnone, hbefore⟩
  exfalso
  obtain ⟨hhosted, rfl⟩ := (htabled key partition).mp hbefore
  obtain ⟨hmem, hshard⟩ := mem_hosted.mp hhosted
  have hsame := sameTopology_of_validateReload hold.spec.1 haccepted
  obtain ⟨updated, hfound, hplacement⟩ := hsame.partitions partition hmem
  obtain ⟨hmem', htopic, hnumber⟩ := hnew.spec.2.found hfound
  refine hnone updated (mem_hosted.mpr ⟨hmem', hplacement.shard.trans hshard⟩) ?_
  rw [PartitionConfig.key, htopic, hnumber]
  rfl

/-! ### How far the shards are -/

/-- The shard is through with the configuration. -/
structure Hosts (new : BrokerConfig) (s : ReloadingShard) : Prop where
  config : s.config = new
  tabled : Tabled new s
  started : AllStarted s.partitions

/-- A shard while the shards are being started. -/
inductive Starts (new : BrokerConfig) : ShardCall → ReloadingShard → Prop where
  | pending {s : ReloadingShard} (empty : s.partitions = []) : Starts new .pending s
  | running {s : ReloadingShard} {errors : List String} (config : s.config = new)
      (tabled : Tabled new s) (started : errors = [] → AllStarted s.partitions) :
      Starts new (.running errors) s
  | done {s : ReloadingShard} (hosts : Hosts new s) : Starts new (.done (.ok ())) s
  | failed {s : ReloadingShard} {message : String} : Starts new (.done (.error message)) s

/-- A shard while `new` is being reloaded in place of `old`. -/
inductive Reloads (old new : BrokerConfig) : ShardCall → ReloadingShard → Prop where
  | pending {s : ReloadingShard} (hosts : Hosts old s) : Reloads old new .pending s
  | running {s : ReloadingShard} {errors : List String} (config : s.config = old)
      (accepted : validateReload old new = .ok ()) (tabled : Tabled new s)
      (started : errors = [] → AllStarted s.partitions) : Reloads old new (.running errors) s
  | done {s : ReloadingShard} (accepted : validateReload old new = .ok ()) (hosts : Hosts new s) :
      Reloads old new (.done (.ok ())) s
  | refused {s : ReloadingShard} {message : String} (hosts : Hosts old s) :
      Reloads old new (.done (.error message)) s
  | failed {s : ReloadingShard} {message : String} (config : s.config = old)
      (accepted : validateReload old new = .ok ()) (tabled : Tabled new s) :
      Reloads old new (.done (.error message)) s

theorem Starts.begin (hempty : s.partitions = []) (hnew : Loaded new)
    (fails : TopicPartition → Option String) :
    Starts new (s.beginStart new fails).2 (s.beginStart new fails).1 := by
  refine .running rfl (tabled_beginStart hnew hempty fails) ?_
  refine (files_startPartition fails).allStarted (s.hosted new) fun _ => ?_
  rw [hempty]
  intro key log hfound
  cases hfound

theorem Starts.finish (h : Starts new (.running errors) s) (later : Option String) :
    Starts new (.done (finishStart errors later)) s := by
  cases h with
  | running hconfig htabled hstarted =>
    cases errors with
    | cons message rest => exact .failed
    | nil =>
      cases later with
      | none => exact .done ⟨hconfig, htabled, hstarted rfl⟩
      | some message => exact .failed

theorem Reloads.begin (hold : Loaded old) (hnew : Loaded new) (h : Hosts old s)
    (fails : TopicPartition → Option String) :
    Reloads old new (s.beginReload new fails).2 (s.beginReload new fails).1 := by
  obtain ⟨rfl, htabled, hstarted⟩ := h
  unfold beginReload
  cases hvalidate : validateReload s.config new with
  | error message => exact .refused ⟨rfl, htabled, hstarted⟩
  | ok =>
    refine .running rfl hvalidate (tabled_reload hold hnew hvalidate htabled fails) ?_
    exact (files_applyPartition fails).allStarted (s.hosted new) fun _ => hstarted

theorem Reloads.finish (h : Reloads old new (.running errors) s) :
    Reloads old new (.done (s.finishReload new errors).2) (s.finishReload new errors).1 := by
  cases h with
  | running hconfig haccepted htabled hstarted =>
    cases errors with
    | nil => exact .done haccepted ⟨rfl, htabled, hstarted rfl⟩
    | cons message rest => exact .failed hconfig haccepted htabled

theorem Starts.hosts {call : ShardCall} (h : Starts new call s) (hok : call.isOk = true) :
    Hosts new s := by
  cases h with
  | done hosts => exact hosts
  | _ => cases hok

theorem Reloads.hosts {call : ShardCall} (h : Reloads old new call s) (hok : call.isOk = true) :
    Hosts new s := by
  cases h with
  | done accepted hosts => exact hosts
  | _ => cases hok

theorem Hosts.find_iff (h : Hosts new s) {topic : String} {number : Int} {log : HostedLog} :
    s.findPartitionLog topic number = some log ↔
      log.started = true ∧ log.config ∈ allPartitions new ∧ log.config.topic = topic ∧
        log.config.partition = number ∧ log.config.shard = s.shardId := by
  have htabled := h.tabled (toLex (topic, number)) log.config
  rw [mem_hosted] at htabled
  constructor
  · intro hfound
    obtain ⟨⟨hmem, hshard⟩, hkey⟩ :=
      htabled.mp (by rw [← findPartitionLog, hfound, Option.map_some])
    obtain ⟨htopic, hnumber⟩ := Prod.mk.inj (toLex.injective hkey)
    exact ⟨h.started _ log hfound, hmem, htopic, hnumber, hshard⟩
  · rintro ⟨hstarted, hmem, htopic, hnumber, hshard⟩
    have hkey : log.config.key = toLex (topic, number) := by
      rw [PartitionConfig.key, htopic, hnumber]
    obtain ⟨found, hfound, hconfig⟩ :=
      Option.map_eq_some_iff.mp (htabled.mpr ⟨⟨hmem, hshard⟩, hkey⟩)
    have hsame : found = log := by
      have := h.started _ found hfound
      cases found
      cases log
      simp_all only
    exact hsame ▸ hfound

end ReloadingShard

/-! ### Every run of the process -/

namespace BrokerProcess

open ReloadingShard

variable {n owner : Nat} {p p' : BrokerProcess n} {shard : ReloadingShard} {number : Int}
  {topic : String} {i : Fin (n + 1)} {e : ProcessEvent n}

theorem all_eq_true {f : Fin (n + 1) → Bool} : all f = true ↔ ∀ i, f i = true := by
  simp [all]

/-- What the shards are like in each phase. -/
def Phased (p : BrokerProcess n) : MainPhase → Prop
  | .starting => ∀ i, Starts p.config (p.calls i) (p.shards i)
  | .settingPeers => ∀ i, Hosts p.config (p.shards i)
  | .waiting | .stopped => (∀ i, Hosts p.config (p.shards i)) ∧ ∀ i, p.peers i = true
  | .reloading updated =>
    Loaded updated ∧ (∀ i, Reloads p.config updated (p.calls i) (p.shards i)) ∧
      ∀ i, p.peers i = true
  | .failed => True

structure Sound (p : BrokerProcess n) : Prop where
  loaded : Loaded p.config
  shardId : ∀ i, (p.shards i).shardId = i
  phased : p.Phased p.phase

theorem Launched.sound (h : Launched p) : Sound p := by
  obtain ⟨config, hloaded, rfl⟩ := h
  exact ⟨hloaded, fun _ => rfl, fun _ => .pending rfl⟩

/-- A property of each shard with its call, when it holds of the one that is changed. -/
theorem forall_setShard (Holds : Fin (n + 1) → ShardCall → ReloadingShard → Prop)
    (h : ∀ i, Holds i (p.calls i) (p.shards i)) {call : ShardCall} (hi : Holds i call shard)
    (j : Fin (n + 1)) :
    Holds j ((p.setShard i shard call).calls j) ((p.setShard i shard call).shards j) := by
  by_cases hj : j = i
  · subst hj
    simpa [setShard] using hi
  · simpa [setShard, hj] using h j

theorem shardId_setShard (h : ∀ i, (p.shards i).shardId = i)
    (hshard : shard.shardId = (p.shards i).shardId) (call : ShardCall) (j : Fin (n + 1)) :
    ((p.setShard i shard call).shards j).shardId = j :=
  forall_setShard (fun i _ shard => shard.shardId = i) h (hshard.trans (h i)) j

theorem shardId_beginReload (s : ReloadingShard) (config : BrokerConfig)
    (fails : TopicPartition → Option String) :
    (s.beginReload config fails).1.shardId = s.shardId := by
  unfold beginReload
  split
  · rfl
  · rfl

theorem shardId_finishReload (s : ReloadingShard) (config : BrokerConfig) (errors : List String) :
    (s.finishReload config errors).1.shardId = s.shardId := by
  unfold finishReload
  split
  · rfl
  · rfl

theorem Sound.begin (h : Sound p) {fails : TopicPartition → Option String}
    (hstep : p.step (.begin i fails) = some p') : Sound p' := by
  have hphased := h.phased
  simp only [step] at hstep
  split at hstep
  · next hphase hcall =>
      obtain rfl := Option.some.inj hstep
      rw [hphase] at hphased
      have hi := hphased i
      rw [hcall] at hi
      obtain ⟨hempty⟩ := hi
      refine ⟨h.loaded, shardId_setShard h.shardId ?_ _, ?_⟩
      · rfl
      show Phased _ p.phase
      rw [hphase]
      exact forall_setShard (fun _ => Starts p.config) hphased (Starts.begin hempty h.loaded fails)
  · next updated hphase hcall =>
      obtain rfl := Option.some.inj hstep
      rw [hphase] at hphased
      obtain ⟨hupdated, hshards, hpeers⟩ := hphased
      have hi := hshards i
      rw [hcall] at hi
      obtain ⟨hhosts⟩ := hi
      refine ⟨h.loaded, shardId_setShard h.shardId (shardId_beginReload _ _ _) _, ?_⟩
      show Phased _ p.phase
      rw [hphase]
      exact ⟨hupdated, forall_setShard (fun _ => Reloads p.config updated) hshards
        (Reloads.begin h.loaded hupdated hhosts fails), hpeers⟩
  · cases hstep

theorem Sound.finish (h : Sound p) {later : Option String}
    (hstep : p.step (.finish i later) = some p') : Sound p' := by
  have hphased := h.phased
  simp only [step] at hstep
  split at hstep
  · next errors hphase hcall =>
      obtain rfl := Option.some.inj hstep
      rw [hphase] at hphased
      refine ⟨h.loaded, shardId_setShard h.shardId rfl _, ?_⟩
      show Phased _ p.phase
      rw [hphase]
      exact forall_setShard (fun _ => Starts p.config) hphased ((hcall ▸ hphased i).finish later)
  · next updated errors hphase hcall =>
      obtain rfl := Option.some.inj hstep
      rw [hphase] at hphased
      obtain ⟨hupdated, hshards, hpeers⟩ := hphased
      refine ⟨h.loaded, shardId_setShard h.shardId (shardId_finishReload _ _ _) _, ?_⟩
      show Phased _ p.phase
      rw [hphase]
      exact ⟨hupdated, forall_setShard (fun _ => Reloads p.config updated) hshards
        (hcall ▸ hshards i).finish, hpeers⟩
  · cases hstep

theorem Sound.join (h : Sound p) (hstep : p.step .join = some p') : Sound p' := by
  have hphased := h.phased
  simp only [step] at hstep
  split at hstep
  · split at hstep
    · next hphase =>
        rw [hphase] at hphased
        split at hstep
        · next hok =>
            obtain rfl := Option.some.inj hstep
            exact ⟨h.loaded, h.shardId, fun i => (hphased i).hosts (all_eq_true.mp hok i)⟩
        · obtain rfl := Option.some.inj hstep
          exact ⟨h.loaded, h.shardId, trivial⟩
    · next updated hphase =>
        rw [hphase] at hphased
        obtain ⟨hupdated, hshards, hpeers⟩ := hphased
        split at hstep
        · next hok =>
            obtain rfl := Option.some.inj hstep
            exact ⟨hupdated, h.shardId, fun i => (hshards i).hosts (all_eq_true.mp hok i), hpeers⟩
        · obtain rfl := Option.some.inj hstep
          exact ⟨h.loaded, h.shardId, trivial⟩
    · cases hstep
  · cases hstep

theorem Sound.take (h : Sound p) {file : Option ConfigNode}
    (hstep : p.step (.take file) = some p') : Sound p' := by
  have hphased := h.phased
  simp only [step] at hstep
  split at hstep
  · next hphase _ =>
      obtain rfl := Option.some.inj hstep
      rw [hphase] at hphased
      exact ⟨h.loaded, h.shardId, hphased⟩
  · next hphase _ =>
      rw [hphase] at hphased
      obtain ⟨hhosts, hpeers⟩ := hphased
      split at hstep
      · next updated hfile =>
          obtain rfl := Option.some.inj hstep
          obtain ⟨root, -, hroot⟩ := Option.map_eq_some_iff.mp hfile
          exact ⟨h.loaded, h.shardId, ⟨root, hroot⟩, fun i => .pending (hhosts i), hpeers⟩
      · obtain rfl := Option.some.inj hstep
        exact ⟨h.loaded, h.shardId, trivial⟩
  · cases hstep

theorem Sound.step (h : Sound p) (hstep : p.step e = some p') : Sound p' := by
  cases e with
  | signal event =>
    simp only [BrokerProcess.step] at hstep
    split at hstep
    · obtain rfl := Option.some.inj hstep
      refine ⟨h.loaded, h.shardId, ?_⟩
      have hphased := h.phased
      revert hphased
      cases p.phase <;> exact id
    · cases hstep
  | begin i fails => exact h.begin hstep
  | finish i later => exact h.finish hstep
  | join => exact h.join hstep
  | setPeers i =>
    simp only [BrokerProcess.step] at hstep
    split at hstep
    · next hphase =>
        obtain rfl := Option.some.inj hstep
        have hphased := h.phased
        rw [hphase] at hphased
        refine ⟨h.loaded, h.shardId, ?_⟩
        show Phased _ p.phase
        rw [hphase]
        exact hphased
    · cases hstep
  | serve fails =>
    simp only [BrokerProcess.step] at hstep
    split at hstep
    · next hready =>
        obtain rfl := Option.some.inj hstep
        have hphased := h.phased
        rw [hready.1] at hphased
        refine ⟨h.loaded, h.shardId, ?_⟩
        cases fails with
        | true => trivial
        | false => exact ⟨hphased, all_eq_true.mp hready.2⟩
    · cases hstep
  | take file => exact h.take hstep

/-- The states of the process from its launch with a loaded configuration, in any order of
    events. -/
def Reached : BrokerProcess n → Prop :=
  Transition.Reachable Launched step fun _ _ => True

theorem Reached.sound (h : Reached p) : Sound p :=
  Transition.Reachable.invariant (fun _ h0 => h0.sound) (fun _ _ _ hs _ hstep => hs.step hstep) h

/-- **Whenever the main loop waits, every shard has the configuration of the loop and its
    peers, and has the logs of exactly the partitions that the configuration puts there, all
    started and with the configuration's values.** -/
theorem waiting_broker_uniform (h : Reached p) (hwaiting : p.phase = .waiting) :
    (∀ i, (p.shards i).config = p.config ∧ p.peers i = true) ∧
      ∀ (i : Fin (n + 1)) topic number log,
        (p.shards i).findPartitionLog topic number = some log ↔
          log.started = true ∧ log.config ∈ allPartitions p.config ∧ log.config.topic = topic ∧
            log.config.partition = number ∧ log.config.shard = i := by
  have hsound := h.sound
  have hphased := hsound.phased
  rw [hwaiting] at hphased
  obtain ⟨hhosts, hpeers⟩ := hphased
  refine ⟨fun i => ⟨(hhosts i).config, hpeers i⟩, fun i topic number log => ?_⟩
  rw [(hhosts i).find_iff, hsound.shardId i]

/-- A start. -/
def startRun : List (ProcessEvent 1) :=
  [.begin 0 fun _ => none, .begin 1 fun _ => none, .finish 1 none, .finish 0 none, .join,
    .setPeers 1, .setPeers 0, .serve false]

/-- A reload that adds a topic on the second shard, when that shard has it and the first does
    not; a stop was signalled before it. -/
def halfReloaded : List (ProcessEvent 1) :=
  [.signal .stop, .signal .reload, .take (some (exampleNode [("t", 0), ("u", 1)])),
    .begin 1 fun _ => none, .begin 0 fun _ => none, .finish 1 none]

def grownRun : List (ProcessEvent 1) := startRun ++ halfReloaded ++ [.finish 0 none, .join]

theorem launched_example : Launched (launched (exampleConfig [("t", 0)]) : BrokerProcess 1) :=
  ⟨_, ⟨exampleNode [("t", 0)], by decide +kernel⟩, rfl⟩

theorem waiting_broker_uniform_grown :
    ∃ p : BrokerProcess 1,
      Transition.run step (launched (exampleConfig [("t", 0)])) grownRun = some p ∧
      p.phase = .waiting ∧ p.config = exampleConfig [("t", 0), ("u", 1)] ∧
      (∀ i, (p.shards i).config = p.config ∧ p.peers i = true) ∧
      ∀ (i : Fin 2) topic number log,
        (p.shards i).findPartitionLog topic number = some log ↔
          log.started = true ∧ log.config ∈ allPartitions p.config ∧ log.config.topic = topic ∧
            log.config.partition = number ∧ log.config.shard = i := by
  have hruns : (Transition.run step (launched (exampleConfig [("t", 0)])) grownRun).map
      (fun p : BrokerProcess 1 => (p.phase, p.config)) =
        some (.waiting, exampleConfig [("t", 0), ("u", 1)]) := by decide +kernel
  obtain ⟨p, hp, hends⟩ := Option.map_eq_some_iff.mp hruns
  obtain ⟨hphase, hconfig⟩ := Prod.mk.inj hends
  refine ⟨p, hp, hphase, hconfig, waiting_broker_uniform ?_ hphase⟩
  exact Transition.Reachable.of_run (.start launched_example) grownRun (fun _ _ _ => trivial) hp

/-! ### Partitions stay in service -/

/-- Every shard hands what is asked for the partition to the shard `owner`, or has its log if
    it is that shard. -/
structure InService (p : BrokerProcess n) (topic : String) (number : Int) (owner : Nat) : Prop where
  routed : ∀ i, ownerShard (p.shards i).config topic number = some owner
  found : ∀ i : Fin (n + 1), owner = i → (p.shards i).findPartitionLog topic number ≠ none

/-- In the files that are loaded, a topic that repeats a name adds no partition. -/
def FirstListsAll (_ : BrokerProcess n) : ProcessEvent n → Prop
  | .take (some root) => ∀ config, parseConfigNode root = .ok config → RepeatsAddNothing config
  | _ => True

/-- What a reload that is under way, or is begun from here, is loading. -/
def Loads (p : BrokerProcess n) : Prop :=
  ∀ updated, p.phase = .reloading updated → RepeatsAddNothing updated

theorem ownerShard_reload {old new : BrokerConfig} (h : AcceptedReload old new)
    (hnew : RepeatsAddNothing new) (howner : ownerShard old topic number = some owner) :
    ownerShard new topic number = some owner := by
  rw [(routesLikeFind_iff new).mpr hnew]
  exact h.shard_eq (shard_of_ownerShard howner)

theorem InService.setShard (h : InService p topic number owner)
    (hrouted : ownerShard shard.config topic number = some owner)
    (hfound : (p.shards i).findPartitionLog topic number ≠ none →
      shard.findPartitionLog topic number ≠ none) (call : ShardCall) :
    InService (p.setShard i shard call) topic number owner where
  routed := forall_setShard (fun _ _ shard => ownerShard shard.config topic number = some owner)
    h.routed hrouted
  found := forall_setShard (fun j _ shard => owner = j → shard.findPartitionLog topic number ≠ none)
    h.found fun howner => hfound (h.found i howner)

/-- The shards are started. -/
def Serves : MainPhase → Prop
  | .starting | .settingPeers => False
  | _ => True

theorem findPartitionLog_beginReload (s : ReloadingShard) (config : BrokerConfig)
    (fails : TopicPartition → Option String) (h : s.findPartitionLog topic number ≠ none) :
    (s.beginReload config fails).1.findPartitionLog topic number ≠ none := by
  unfold beginReload
  split
  · exact h
  · obtain ⟨log, hlog⟩ := Option.ne_none_iff_exists'.mp h
    have hkept := (applied_foldl s.partitions fails (s.hosted config)).kept _ log hlog
    intro hnone
    simp only [findPartitionLog] at hnone
    rw [hnone] at hkept
    cases hkept

theorem config_beginReload (s : ReloadingShard) (config : BrokerConfig)
    (fails : TopicPartition → Option String) :
    (s.beginReload config fails).1.config = s.config := by
  unfold beginReload
  split
  · rfl
  · rfl

theorem InService.finishReload (h : InService p topic number owner) (hsound : Sound p)
    {updated : BrokerConfig} (hphase : p.phase = .reloading updated)
    (hloads : RepeatsAddNothing updated) {errors : List String}
    (hcall : p.calls i = .running errors) (call : ShardCall) :
    InService (p.setShard i ((p.shards i).finishReload updated errors).1 call) topic number
      owner := by
  have hphased := hsound.phased
  rw [hphase] at hphased
  obtain ⟨hupdated, hshards, -⟩ := hphased
  have hi := hshards i
  rw [hcall] at hi
  cases hi with
  | running hconfig haccepted _ _ =>
    cases errors with
    | cons message rest => exact h.setShard (h.routed i) id call
    | nil =>
      refine h.setShard ?_ ?_ call
      · refine ownerShard_reload ⟨hsound.loaded, hupdated, haccepted⟩ hloads ?_
        rw [← hconfig]
        exact h.routed i
      · exact fun hfound => hfound

theorem InService.step (h : InService p topic number owner) (hsound : Sound p)
    (hserves : Serves p.phase) (hloads : p.Loads) (hfile : FirstListsAll p e)
    (hstep : p.step e = some p') :
    InService p' topic number owner ∧ Serves p'.phase ∧ p'.Loads := by
  cases e with
  | signal event =>
    simp only [BrokerProcess.step] at hstep
    split at hstep
    · obtain rfl := Option.some.inj hstep
      exact ⟨⟨h.routed, h.found⟩, hserves, hloads⟩
    · cases hstep
  | begin i fails =>
    simp only [BrokerProcess.step] at hstep
    split at hstep
    · next hphase _ =>
        rw [hphase] at hserves
        exact hserves.elim
    · obtain rfl := Option.some.inj hstep
      refine ⟨h.setShard ?_ (findPartitionLog_beginReload _ _ _) _, hserves, hloads⟩
      rw [config_beginReload]
      exact h.routed i
    · cases hstep
  | finish i later =>
    simp only [BrokerProcess.step] at hstep
    split at hstep
    · next hphase _ =>
        rw [hphase] at hserves
        exact hserves.elim
    · next updated errors hphase hcall =>
        obtain rfl := Option.some.inj hstep
        exact ⟨h.finishReload hsound hphase (hloads updated hphase) hcall _, hserves, hloads⟩
    · cases hstep
  | join =>
    simp only [BrokerProcess.step] at hstep
    split at hstep
    · split at hstep
      · next hphase =>
          rw [hphase] at hserves
          exact hserves.elim
      · split at hstep
        · obtain rfl := Option.some.inj hstep
          exact ⟨⟨h.routed, h.found⟩, trivial, fun _ hphase => nomatch hphase⟩
        · obtain rfl := Option.some.inj hstep
          exact ⟨⟨h.routed, h.found⟩, trivial, fun _ hphase => nomatch hphase⟩
      · cases hstep
    · cases hstep
  | setPeers i =>
    simp only [BrokerProcess.step] at hstep
    split at hstep
    · next hphase =>
        rw [hphase] at hserves
        exact hserves.elim
    · cases hstep
  | serve fails =>
    simp only [BrokerProcess.step] at hstep
    split at hstep
    · next hready =>
        rw [hready.1] at hserves
        exact hserves.elim
    · cases hstep
  | take file =>
    simp only [BrokerProcess.step] at hstep
    split at hstep
    · obtain rfl := Option.some.inj hstep
      exact ⟨⟨h.routed, h.found⟩, trivial, fun _ hphase => nomatch hphase⟩
    · split at hstep
      · next updated hroot =>
          obtain rfl := Option.some.inj hstep
          obtain ⟨root, rfl, hparsed⟩ := Option.map_eq_some_iff.mp hroot
          refine ⟨⟨h.routed, h.found⟩, trivial, ?_⟩
          rintro _ ⟨⟩
          exact hfile updated hparsed
      · obtain rfl := Option.some.inj hstep
        exact ⟨⟨h.routed, h.found⟩, trivial, fun _ hphase => nomatch hphase⟩
    · cases hstep

/-- What the configuration of a waiting loop routes is in service. -/
theorem inService_of_waiting (hsound : Sound p) (hwaiting : p.phase = .waiting)
    (howner : ownerShard p.config topic number = some owner) : InService p topic number owner := by
  have hphased := hsound.phased
  rw [hwaiting] at hphased
  obtain ⟨hhosts, -⟩ := hphased
  refine ⟨fun i => (hhosts i).config.symm ▸ howner, fun i hi => ?_⟩
  obtain ⟨partition, hfound, hshard⟩ := Option.map_eq_some_iff.mp (shard_of_ownerShard howner)
  obtain ⟨hmem, htopic, hnumber⟩ := hsound.loaded.spec.2.found hfound
  have hlog : (p.shards i).findPartitionLog topic number =
      some { config := partition, started := true } :=
    (hhosts i).find_iff.mpr
      ⟨rfl, hmem, htopic, hnumber, hshard.trans (hi.trans (hsound.shardId i).symm)⟩
  rw [hlog]
  exact Option.some_ne_none _

/-- The invariant of the states after a waiting one. -/
structure StillServed (topic : String) (number : Int) (owner : Nat) (p : BrokerProcess n) :
    Prop where
  sound : Sound p
  serves : Serves p.phase
  loads : p.Loads
  inService : InService p topic number owner

theorem stillServed_of_waiting (hsound : Sound p) (hwaiting : p.phase = .waiting)
    (howner : ownerShard p.config topic number = some owner) :
    StillServed topic number owner p where
  sound := hsound
  serves := by
    rw [hwaiting]
    trivial
  loads := by
    intro updated hphase
    rw [hwaiting] at hphase
    cases hphase
  inService := inService_of_waiting hsound hwaiting howner

theorem StillServed.later (h : StillServed topic number owner p)
    (hlater : Transition.Reachable (· = p) step FirstListsAll p') :
    StillServed topic number owner p' := by
  refine Transition.Reachable.invariant (fun q hq => hq ▸ h) ?_ hlater
  intro q e q' hq hfile hstep
  obtain ⟨hin, hserves, hloads⟩ := hq.inService.step hq.sound hq.serves hq.loads hfile hstep
  exact ⟨hq.sound.step hstep, hserves, hloads, hin⟩

end BrokerProcess

/-- Behind its checks, an `append` refuses no partition as unknown or led elsewhere. -/
theorem appendToLog_errorCode {produceWaitMsCap : Nat} {partitionConfig : PartitionConfig}
    {records : ByteCodec.Bytes} {acks timeoutMs : Int} {outcome : AppendOutcome}
    {result : ProducePartitionResult}
    (h : appendToLog produceWaitMsCap partitionConfig records acks timeoutMs outcome =
      some result) :
    result.errorCode ≠ .unknownTopicOrPartition ∧ result.errorCode ≠ .notLeaderOrFollower := by
  obtain ⟨renumbered, -, hend⟩ := Option.bind_eq_some_iff.mp h
  have hcode : ∀ head : LogHead,
      (head.append renumbered acks).response.errorCode ≠ .unknownTopicOrPartition ∧
        (head.append renumbered acks).response.errorCode ≠ .notLeaderOrFollower := by
    intro head
    unfold LogHead.append
    split
    · exact ⟨nofun, nofun⟩
    split
    · exact ⟨nofun, nofun⟩
    split
    · exact ⟨nofun, nofun⟩
    · exact ⟨nofun, nofun⟩
  simp only at hend
  split at hend
  · obtain rfl := Option.some.inj hend
    exact ⟨nofun, nofun⟩
  split at hend
  · cases hend
  split at hend
  · obtain rfl := Option.some.inj hend
    exact ⟨nofun, nofun⟩
  · obtain rfl := Option.some.inj hend
    exact hcode _

namespace BrokerProcess

open ReloadingShard

variable {n : Nat} {p p' : BrokerProcess n}

theorem InService.append {topic : String} {number : Int} {owner : Nat}
    (h : InService p topic number owner) (hids : ∀ i, (p.shards i).shardId = i) (i : Fin (n + 1))
    {records : ByteCodec.Bytes} {acks timeoutMs : Int} {outcome : AppendOutcome}
    {reply : Reply ProducePartitionResult}
    (hreply : (p.shards i).append ⟨topic, number, records⟩ acks timeoutMs outcome = some reply) :
    (owner ≠ i ∧ reply = .forwarded owner) ∨
      owner = i ∧ ∃ result, reply = .answered result ∧
        result.errorCode ≠ .unknownTopicOrPartition := by
  have hrouted := h.routed i
  simp only [ReloadingShard.append, route, hrouted, hids i] at hreply
  by_cases howner : owner = i
  · obtain ⟨log, hlog⟩ := Option.ne_none_iff_exists'.mp (h.found i howner)
    rw [if_neg (not_not.mpr howner)] at hreply
    simp only [hlog] at hreply
    refine Or.inr ⟨howner, ?_⟩
    split at hreply
    · obtain rfl := Option.some.inj hreply
      exact ⟨_, rfl, nofun⟩
    · obtain ⟨result, hresult, rfl⟩ := Option.map_eq_some_iff.mp hreply
      exact ⟨result, rfl, (appendToLog_errorCode hresult).1⟩
  · rw [if_pos howner] at hreply
    exact Or.inl ⟨howner, (Option.some.inj hreply).symm⟩

/-- **A partition that a waiting broker routes stays in service.**  In every later state of
    the process, also in the middle of reloads and after failed ones, each shard sends an
    append for it to its owner, and the owner never answers that it does not know the
    partition, nor sends the append on. -/
theorem routed_partition_stays_served (h : Reached p) (hwaiting : p.phase = .waiting)
    {topic : String} {number : Int} {owner : Nat}
    (howner : ownerShard p.config topic number = some owner)
    (hlater : Transition.Reachable (· = p) step FirstListsAll p') (i : Fin (n + 1))
    {records : ByteCodec.Bytes} {acks timeoutMs : Int} {outcome : AppendOutcome}
    {reply : Reply ProducePartitionResult}
    (hreply : (p'.shards i).append ⟨topic, number, records⟩ acks timeoutMs outcome = some reply) :
    (owner ≠ i ∧ reply = .forwarded owner) ∨
      owner = i ∧ ∃ result, reply = .answered result ∧
        result.errorCode ≠ .unknownTopicOrPartition := by
  have hstill := (stillServed_of_waiting h.sound hwaiting howner).later hlater
  exact hstill.inService.append hstill.sound.shardId i hreply

theorem repeatsAddNothing_of_nodup (h : (config.topics.map TopicConfig.name).Nodup) :
    RepeatsAddNothing config := by
  intro front first back hsplit _ later hlater hname
  rw [hsplit, List.map_append, List.map_cons] at h
  have hnew := (List.nodup_cons.mp h.of_append_right).1
  exact absurd (List.mem_map.mpr ⟨later, hlater, hname⟩) hnew

/-- The file of the reload names no topic twice. -/
theorem firstListsAll_halfReloaded : ∀ e ∈ halfReloaded, ∀ p, FirstListsAll p e := by
  have hparsed : parseConfigNode (exampleNode [("t", 0), ("u", 1)]) =
      .ok (exampleConfig [("t", 0), ("u", 1)]) := by decide +kernel
  have hfile : ∀ config, parseConfigNode (exampleNode [("t", 0), ("u", 1)]) = .ok config →
      RepeatsAddNothing config := by
    intro config hconfig
    obtain rfl := Except.ok.inj (hparsed.symm.trans hconfig)
    exact repeatsAddNothing_of_nodup (by decide +kernel)
  simp only [halfReloaded, List.forall_mem_cons]
  exact ⟨fun _ => trivial, fun _ => trivial, fun _ => hfile, fun _ => trivial, fun _ => trivial,
    fun _ => trivial, nofun⟩

theorem routed_partition_stays_served_reloading :
    ∃ p p' : BrokerProcess 1,
      Transition.run step (launched (exampleConfig [("t", 0)])) startRun = some p ∧
      Transition.run step p halfReloaded = some p' ∧
      p'.phase = .reloading (exampleConfig [("t", 0), ("u", 1)]) ∧
      ∃ reply, (p'.shards 1).append ⟨"t", 0, []⟩ 1 0 { head := { config := defaultPartition } } =
          some reply ∧
        (0 ≠ 1 ∧ reply = .forwarded 0 ∨
          0 = 1 ∧ ∃ result, reply = .answered result ∧
            result.errorCode ≠ .unknownTopicOrPartition) := by
  have hruns : ((Transition.run step (launched (exampleConfig [("t", 0)])) startRun).bind
      fun p : BrokerProcess 1 => (Transition.run step p halfReloaded).map
        fun p' => (p.phase, ownerShard p.config "t" 0, p'.phase,
          (p'.shards 1).append ⟨"t", 0, []⟩ 1 0 { head := { config := defaultPartition } })) =
      some (.waiting, some 0, .reloading (exampleConfig [("t", 0), ("u", 1)]),
        some (.forwarded 0)) := by
    decide +kernel
  obtain ⟨p, hp, hruns⟩ := Option.bind_eq_some_iff.mp hruns
  obtain ⟨p', hp', hends⟩ := Option.map_eq_some_iff.mp hruns
  obtain ⟨hwaiting, hends⟩ := Prod.mk.inj hends
  obtain ⟨howner, hends⟩ := Prod.mk.inj hends
  obtain ⟨hreloading, hreply⟩ := Prod.mk.inj hends
  have hreached : Reached p :=
    Transition.Reachable.of_run (.start launched_example) startRun (fun _ _ _ => trivial) hp
  have hlater : Transition.Reachable (· = p) step FirstListsAll p' :=
    Transition.Reachable.of_run (.start rfl) halfReloaded firstListsAll_halfReloaded hp'
  exact ⟨p, p', hp, hp', hreloading, _, hreply,
    routed_partition_stays_served hreached hwaiting howner hlater 1 hreply⟩

end BrokerProcess

end Mkmq
