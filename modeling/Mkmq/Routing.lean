import Mkmq.ListRules
import Mkmq.ReloadTopology
import Mkmq.Transition

/-!
# Routing a request to the shard of its partition

Every shard has its own copy of the configuration, and the five calls of `BrokerShard`
(`append`, `fetch`, `list_offsets`, `append_replica`, `fetch_for_replica`) begin alike: the
shard that owns the partition is looked up in that copy, and a request for another shard is
forwarded to it (`src/broker_shard.cpp`).  The lookup is a scan of its own, which ends at
the first topic of the name; `find_partition` goes on to the next one.

A reload reaches the shards one after another, and a forwarded request may be under way for
as long as it likes.  That the owner does not forward it again rests on reloads keeping the
shard of every partition.
-/

namespace Mkmq

open ListRules

/-! ### The lookup -/

def ownerShard (config : BrokerConfig) (topic : String) (partition : Int) : Option Nat :=
  match config.topics.find? fun topicConfig => topicConfig.name = topic with
  | none => none
  | some topicConfig =>
    (topicConfig.partitions.find? fun p => p.partition = partition).map PartitionConfig.shard

/-- The scan answers like `find_partition`, for every topic and partition. -/
def RoutesLikeFind (config : BrokerConfig) : Prop :=
  ∀ topic partition,
    ownerShard config topic partition = (findPartition config topic partition).map
      PartitionConfig.shard

/-- A topic that repeats a name has no partition that the first topic of the name lacks. -/
def RepeatsAddNothing (config : BrokerConfig) : Prop :=
  ∀ front first back, config.topics = front ++ first :: back →
    (∀ topic ∈ front, topic.name ≠ first.name) →
    ∀ later ∈ back, later.name = first.name →
      ∀ p ∈ later.partitions, ∃ q ∈ first.partitions, q.partition = p.partition

section Lookup

variable {config : BrokerConfig} {topic : String} {partition : Int}

/-- Both lookups pass over the topics in front of the first of the name. -/
theorem lookup_of_first {front back : List TopicConfig} {first : TopicConfig}
    (hsplit : config.topics = front ++ first :: back)
    (hfront : ∀ other ∈ front, other.name ≠ first.name) (partition : Int) :
    ownerShard config first.name partition =
        (first.partitions.find? fun p => p.partition = partition).map PartitionConfig.shard ∧
      findPartition config first.name partition =
        (first.partitions.find? fun p => p.partition = partition).or
          (findPartition { config with topics := back } first.name partition) := by
  constructor
  · have hfind : config.topics.find? (fun t => decide (t.name = first.name)) = some first := by
      rw [hsplit, List.find?_eq_some_iff_append]
      refine ⟨decide_eq_true rfl, front, back, rfl, ?_⟩
      intro other hother
      rw [decide_eq_false (hfront other hother)]
      rfl
    unfold ownerShard
    rw [hfind]
  · have hnone : front.findSome? (fun topicConfig =>
        if topicConfig.name ≠ first.name then none
        else topicConfig.partitions.find? fun candidate => candidate.partition = partition) =
          none := by
      rw [List.findSome?_eq_none_iff]
      intro other hother
      rw [if_pos (hfront other hother)]
    unfold findPartition
    rw [hsplit, List.findSome?_append, hnone, Option.none_or, List.findSome?_cons,
      if_neg (not_not.mpr rfl)]
    cases first.partitions.find? fun candidate => decide (candidate.partition = partition) with
    | none => rfl
    | some found => rfl

/-- A topic of the name, and the first of them. -/
theorem exists_first (h : ∃ topicConfig ∈ config.topics, topicConfig.name = topic) :
    ∃ front first back, config.topics = front ++ first :: back ∧ first.name = topic ∧
      ∀ other ∈ front, other.name ≠ topic := by
  obtain ⟨topicConfig, hmem, hname⟩ := h
  cases hfind : config.topics.find? fun t => decide (t.name = topic) with
  | none =>
    have hno := List.find?_eq_none.mp hfind topicConfig hmem
    exact absurd (decide_eq_true hname) hno
  | some first =>
    obtain ⟨hfirst, front, back, hsplit, hfront⟩ := List.find?_eq_some_iff_append.mp hfind
    refine ⟨front, first, back, hsplit, of_decide_eq_true hfirst, ?_⟩
    intro other hother hsame
    have hno := hfront other hother
    rw [decide_eq_true hsame] at hno
    cases hno

theorem lookup_of_no_topic (h : ¬ ∃ topicConfig ∈ config.topics, topicConfig.name = topic)
    (partition : Int) :
    ownerShard config topic partition = none ∧ findPartition config topic partition = none := by
  push Not at h
  constructor
  · have hfind : config.topics.find? (fun t => decide (t.name = topic)) = none := by
      rw [List.find?_eq_none]
      intro t ht
      rw [decide_eq_true_eq]
      exact h t ht
    unfold ownerShard
    rw [hfind]
  · unfold findPartition
    rw [List.findSome?_eq_none_iff]
    intro t ht
    rw [if_pos (h t ht)]

theorem findPartition_ne_none (h : ∃ topicConfig ∈ config.topics, topicConfig.name = topic ∧
      ∃ p ∈ topicConfig.partitions, p.partition = partition) :
    findPartition config topic partition ≠ none := by
  obtain ⟨topicConfig, htopic, hname, p, hp, hnumber⟩ := h
  unfold findPartition
  rw [ne_eq, List.findSome?_eq_none_iff]
  intro hnone
  have hno := hnone topicConfig htopic
  rw [if_neg (not_not.mpr hname)] at hno
  exact absurd (decide_eq_true hnumber) (List.find?_eq_none.mp hno p hp)

/-- What the scan finds, `find_partition` finds. -/
theorem shard_of_ownerShard {shard : Nat} (h : ownerShard config topic partition = some shard) :
    (findPartition config topic partition).map PartitionConfig.shard = some shard := by
  by_cases hname : ∃ topicConfig ∈ config.topics, topicConfig.name = topic
  · obtain ⟨front, first, back, hsplit, rfl, hfront⟩ := exists_first hname
    obtain ⟨howner, hfind⟩ := lookup_of_first hsplit hfront partition
    rw [howner] at h
    obtain ⟨found, hfound, hshard⟩ := Option.map_eq_some_iff.mp h
    rw [hfind, hfound, Option.some_or, Option.map_some, hshard]
  · rw [(lookup_of_no_topic hname partition).1] at h
    cases h

end Lookup

/-- **Routing agrees with the configuration exactly when repeated topic names add no
    partitions.** -/
theorem routesLikeFind_iff (config : BrokerConfig) :
    RoutesLikeFind config ↔ RepeatsAddNothing config := by
  constructor
  · intro hroutes front first back hsplit hfront later hlater hname p hp
    by_contra hlacks
    push Not at hlacks
    have howner : ownerShard config first.name p.partition = none := by
      rw [(lookup_of_first hsplit hfront p.partition).1, Option.map_eq_none_iff,
        List.find?_eq_none]
      intro q hq
      rw [decide_eq_true_eq]
      exact hlacks q hq
    have hfound : findPartition config first.name p.partition ≠ none := by
      refine findPartition_ne_none ⟨later, ?_, hname, p, hp, rfl⟩
      rw [hsplit]
      exact List.mem_append_right _ (List.mem_cons_of_mem _ hlater)
    have hagree := hroutes first.name p.partition
    rw [howner] at hagree
    exact hfound (Option.map_eq_none_iff.mp hagree.symm)
  · intro hrepeats topic partition
    by_cases hname : ∃ topicConfig ∈ config.topics, topicConfig.name = topic
    · obtain ⟨front, first, back, hsplit, rfl, hfront⟩ := exists_first hname
      obtain ⟨howner, hfind⟩ := lookup_of_first hsplit hfront partition
      rw [howner, hfind]
      cases hfirst : first.partitions.find? fun p => decide (p.partition = partition) with
      | some found => rw [Option.some_or]
      | none =>
        -- what a later topic of the name has, the first one would have
        rw [Option.none_or]
        cases hlater : findPartition { config with topics := back } first.name partition with
        | none => rfl
        | some found =>
          exfalso
          obtain ⟨later, hmem, hsame, hfound, hnumber⟩ := findPartition_some hlater
          obtain ⟨q, hq, hq'⟩ :=
            hrepeats front first back hsplit hfront later hmem hsame found hfound
          exact absurd (decide_eq_true (hq'.trans hnumber)) (List.find?_eq_none.mp hfirst q hq)
    · obtain ⟨howner, hfind⟩ := lookup_of_no_topic hname partition
      rw [howner, hfind]
      rfl

/-- Two topics of one name, each with a partition of its own. -/
def splitTopic : BrokerConfig :=
  { brokers := [{}]
    topics := [⟨"t", [{ defaultPartition with topic := "t" }]⟩,
               ⟨"t", [{ defaultPartition with topic := "t", partition := 1 }]⟩] }

/-- The second partition is configured and not routed. -/
theorem routing_not_always_like_find :
    ¬ ∀ config : BrokerConfig, validateConfig config = .ok () → RoutesLikeFind config := by
  intro hall
  exact absurd (hall splitTopic (by decide +kernel) "t" 1) (by decide +kernel)

/-! ### The calls and the shards -/

/-- The calls that are routed. -/
inductive Call where
  | append
  | fetch
  | listOffsets
  | appendReplica
  | fetchForReplica
deriving DecidableEq, Repr

structure RoutedRequest where
  call : Call
  topic : String
  partition : Int
deriving DecidableEq, Repr

/-- How a shard begins with a request: it answers that the partition is missing, hands the
    request to its own log, or forwards it. -/
inductive Route where
  | missing
  | here
  | forward (owner : Nat)
deriving DecidableEq, Repr

/-- The first lines of all five calls. -/
def route (config : BrokerConfig) (shardId : Nat) (request : RoutedRequest) : Route :=
  match ownerShard config request.topic request.partition with
  | none => .missing
  | some owner => if owner ≠ shardId then .forward owner else .here

/-- The shard answers by itself. -/
def Route.Local : Route → Prop
  | .missing | .here => True
  | .forward _ => False

/-- A request under way to its owner, and how often it has been forwarded. -/
structure Forwarded where
  request : RoutedRequest
  owner : Nat
  hops : Nat
deriving DecidableEq, Repr

structure Answered (n : Nat) where
  request : RoutedRequest
  shard : Fin (n + 1)
  hops : Nat

/-- The broker of shards 0 to `n`: the configuration of the main loop and the one it reloads
    (`src/main.cpp`), the configurations of the shards, and which of them have finished the
    reload. -/
structure ShardedBroker (n : Nat) where
  config : BrokerConfig
  updated : Option BrokerConfig := none
  shardConfig : Fin (n + 1) → BrokerConfig
  applied : List (Fin (n + 1)) := []
  travelling : List Forwarded := []
  answered : List (Answered n) := []

inductive RoutingAct (n : Nat) where
  | reload (root : ConfigNode)
  | apply (shard : Fin (n + 1))
  | finish
  | arrive (shard : Fin (n + 1)) (request : RoutedRequest)
  | deliver (index : Nat)

namespace ShardedBroker

variable {n : Nat}

/-- A shard takes a request up. -/
def handle (s : ShardedBroker n) (shard : Fin (n + 1)) (request : RoutedRequest) (hops : Nat) :
    ShardedBroker n :=
  match route (s.shardConfig shard) shard request with
  | .forward owner => { s with travelling := s.travelling ++ [⟨request, owner, hops + 1⟩] }
  | .missing | .here => { s with answered := s.answered ++ [⟨request, shard, hops⟩] }

/-- A reload starts when the one before is over, and only if `validate_reload` accepts it on
    every shard; a shard goes over to the new configuration at any time after that. -/
def step (s : ShardedBroker n) : RoutingAct n → Option (ShardedBroker n)
  | .reload root =>
    match s.updated, parseConfigNode root with
    | none, .ok config =>
      if (List.finRange (n + 1)).all fun i =>
          decide (validateReload (s.shardConfig i) config = .ok ()) then
        some { s with updated := some config, applied := [] }
      else none
    | _, _ => none
  | .apply shard =>
    match s.updated with
    | none => none
    | some config =>
      if shard ∈ s.applied then none
      else some { s with
        shardConfig := Function.update s.shardConfig shard config
        applied := shard :: s.applied }
  | .finish =>
    match s.updated with
    | none => none
    | some config =>
      if (List.finRange (n + 1)).all fun i => decide (i ∈ s.applied) then
        some { s with config := config, updated := none, applied := [] }
      else none
  | .arrive shard request => some (s.handle shard request 0)
  | .deliver index =>
    match s.travelling[index]? with
    | none => none
    | some forwarded =>
      if h : forwarded.owner < n + 1 then
        some (handle { s with travelling := s.travelling.eraseIdx index } ⟨forwarded.owner, h⟩
          forwarded.request forwarded.hops)
      else none

/-- All shards have the configuration the broker was started with. -/
def started (config : BrokerConfig) : ShardedBroker n where
  config := config
  shardConfig := fun _ => config

def Started (s : ShardedBroker n) : Prop := ∃ config, Loaded config ∧ s = started config

/-- What a step can do. -/
inductive Steps (s : ShardedBroker n) : ShardedBroker n → Prop where
  | reload {config : BrokerConfig} (idle : s.updated = none) (loaded : Loaded config)
      (accepted : ∀ i, validateReload (s.shardConfig i) config = .ok ()) :
      Steps s { s with updated := some config, applied := [] }
  | apply {config : BrokerConfig} (shard : Fin (n + 1)) (reloading : s.updated = some config) :
      Steps s { s with
        shardConfig := Function.update s.shardConfig shard config
        applied := shard :: s.applied }
  | finish {config : BrokerConfig} (reloading : s.updated = some config)
      (all : ∀ i, i ∈ s.applied) :
      Steps s { s with config := config, updated := none, applied := [] }
  | arrive (shard : Fin (n + 1)) (request : RoutedRequest) : Steps s (s.handle shard request 0)
  | deliver {index : Nat} {forwarded : Forwarded} {shard : Fin (n + 1)}
      (under_way : forwarded ∈ s.travelling) (owner : forwarded.owner = shard) :
      Steps s (handle { s with travelling := s.travelling.eraseIdx index } shard
        forwarded.request forwarded.hops)

theorem steps_of_step {s s' : ShardedBroker n} {a : RoutingAct n} (h : s.step a = some s') :
    Steps s s' := by
  cases a with
  | reload root =>
    simp only [step] at h
    split at h
    · next config hidle hroot =>
        split at h
        · next hall =>
            obtain rfl := Option.some.inj h
            refine .reload hidle ⟨root, hroot⟩ ?_
            intro i
            exact of_decide_eq_true (List.all_eq_true.mp hall i (List.mem_finRange i))
        · cases h
    · cases h
  | apply shard =>
    simp only [step] at h
    split at h
    · cases h
    · next config hreloading =>
        split at h
        · cases h
        · obtain rfl := Option.some.inj h
          exact .apply shard hreloading
  | finish =>
    simp only [step] at h
    split at h
    · cases h
    · next config hreloading =>
        split at h
        · next hall =>
            obtain rfl := Option.some.inj h
            refine .finish hreloading ?_
            intro i
            exact of_decide_eq_true (List.all_eq_true.mp hall i (List.mem_finRange i))
        · cases h
  | arrive shard request =>
    obtain rfl := Option.some.inj h
    exact .arrive shard request
  | deliver index =>
    simp only [step] at h
    split at h
    · cases h
    · next forwarded hforwarded =>
        split at h
        · obtain rfl := Option.some.inj h
          exact .deliver (List.mem_of_getElem? hforwarded) rfl
        · cases h

/-! ### What holds while reloads and requests go on -/

/-- The newest configuration a shard can have. -/
def latest (s : ShardedBroker n) : BrokerConfig := s.updated.getD s.config

/-- Every shard has the configuration of the main loop or the one being reloaded, and what
    travels is on its first way, to the shard the newest configuration names. -/
structure Settled (s : ShardedBroker n) : Prop where
  loaded : Loaded s.config
  accepted : ∀ config, s.updated = some config → AcceptedReload s.config config
  reached : ∀ i ∈ s.applied, s.shardConfig i = s.latest
  waiting : ∀ i ∉ s.applied, s.shardConfig i = s.config
  travelling : ∀ forwarded ∈ s.travelling, forwarded.hops = 1 ∧
    (findPartition s.latest forwarded.request.topic forwarded.request.partition).map
      PartitionConfig.shard = some forwarded.owner
  answered : ∀ answer ∈ s.answered, answer.hops ≤ 1

end ShardedBroker

/-- A partition stays on its shard. -/
theorem AcceptedReload.shard_eq {old new : BrokerConfig} (h : AcceptedReload old new)
    {topic : String} {partition : Int} {shard : Nat}
    (hold : (findPartition old topic partition).map PartitionConfig.shard = some shard) :
    (findPartition new topic partition).map PartitionConfig.shard = some shard := by
  obtain ⟨found, hfound, hshard⟩ := Option.map_eq_some_iff.mp hold
  obtain ⟨hmem, htopic, hnumber⟩ := h.old_loaded.spec.2.found hfound
  have hsame := sameTopology_of_validateReload h.old_loaded.spec.1 h.accepted
  obtain ⟨updated, hupdated, hplacement⟩ := hsame.partitions found hmem
  rw [htopic, hnumber] at hupdated
  rw [hupdated, Option.map_some, hplacement.shard, hshard]

namespace ShardedBroker

variable {n : Nat} {s s' : ShardedBroker n} {config : BrokerConfig}

theorem latest_of_idle (h : s.updated = none) : s.latest = s.config := by
  rw [latest, h, Option.getD_none]

theorem latest_of_reloading (h : s.updated = some config) : s.latest = config := by
  rw [latest, h, Option.getD_some]

/-- Without a reload under way all shards have one configuration. -/
theorem Settled.shardConfig_of_idle (h : Settled s) (hidle : s.updated = none) (i : Fin (n + 1)) :
    s.shardConfig i = s.config := by
  by_cases hi : i ∈ s.applied
  · rw [h.reached i hi, latest_of_idle hidle]
  · exact h.waiting i hi

/-- An owner that any shard looks up is the one in the newest configuration. -/
theorem Settled.owner_eq (h : Settled s) (i : Fin (n + 1)) {topic : String} {partition : Int}
    {owner : Nat} (howner : ownerShard (s.shardConfig i) topic partition = some owner) :
    (findPartition s.latest topic partition).map PartitionConfig.shard = some owner := by
  have hfound := shard_of_ownerShard howner
  by_cases hi : i ∈ s.applied
  · rwa [h.reached i hi] at hfound
  · rw [h.waiting i hi] at hfound
    cases hupdated : s.updated with
    | none => rwa [latest_of_idle hupdated]
    | some config =>
      rw [latest_of_reloading hupdated]
      exact (h.accepted config hupdated).shard_eq hfound

theorem route_eq_forward {shardId owner : Nat} {request : RoutedRequest}
    (h : route config shardId request = .forward owner) :
    ownerShard config request.topic request.partition = some owner ∧ owner ≠ shardId := by
  unfold route at h
  split at h
  · cases h
  · next found hfound =>
      split at h
      · next hne =>
          obtain rfl := Route.forward.inj h
          exact ⟨hfound, hne⟩
      · cases h

/-- The owner of what travels answers by itself. -/
theorem Settled.local_of_travelling (h : Settled s) {forwarded : Forwarded}
    (hmem : forwarded ∈ s.travelling) {i : Fin (n + 1)} (howner : forwarded.owner = i) :
    (route (s.shardConfig i) i forwarded.request).Local := by
  cases hroute : route (s.shardConfig i) i forwarded.request with
  | missing => trivial
  | here => trivial
  | forward other =>
    obtain ⟨hother, hne⟩ := route_eq_forward hroute
    have hsame := (h.owner_eq i hother).symm.trans (h.travelling forwarded hmem).2
    exact absurd ((Option.some.inj hsame).trans howner) hne

/-- Taking a request up keeps the invariant, unless it is forwarded a second time. -/
theorem Settled.handle (h : Settled s) (i : Fin (n + 1)) (request : RoutedRequest) {hops : Nat}
    (hhops : hops = 0 ∨ hops = 1 ∧ (route (s.shardConfig i) i request).Local) :
    Settled (s.handle i request hops) := by
  unfold ShardedBroker.handle
  cases hroute : route (s.shardConfig i) i request with
  | forward owner =>
    rw [hroute] at hhops
    have hfirst : hops = 0 := hhops.resolve_right fun hlocal => hlocal.2
    refine { h with travelling := forall_mem_concat.mpr ⟨h.travelling, ?_⟩ }
    exact ⟨by rw [hfirst], h.owner_eq i (route_eq_forward hroute).1⟩
  | missing | here =>
    refine { h with answered := forall_mem_concat.mpr ⟨h.answered, ?_⟩ }
    simp only
    omega

/-- What travels at the start of a reload is still headed for the right shard. -/
theorem Settled.reload (h : Settled s) (hidle : s.updated = none)
    (hreload : AcceptedReload s.config config) :
    Settled { s with updated := some config, applied := [] } where
  loaded := h.loaded
  accepted := fun other hother => Option.some.inj hother ▸ hreload
  reached := fun _ hi => absurd hi List.not_mem_nil
  waiting := fun i _ => h.shardConfig_of_idle hidle i
  travelling := by
    intro forwarded hforwarded
    obtain ⟨hhops, howner⟩ := h.travelling forwarded hforwarded
    rw [latest_of_idle hidle] at howner
    exact ⟨hhops, hreload.shard_eq howner⟩
  answered := h.answered

theorem Settled.apply (h : Settled s) (shard : Fin (n + 1)) (hreloading : s.updated = some config) :
    Settled { s with
      shardConfig := Function.update s.shardConfig shard config
      applied := shard :: s.applied } where
  loaded := h.loaded
  accepted := h.accepted
  reached := by
    intro i hi
    change Function.update s.shardConfig shard config i = s.latest
    by_cases hsame : i = shard
    · rw [hsame, Function.update_self, latest_of_reloading hreloading]
    · rw [Function.update_of_ne hsame]
      exact h.reached i ((List.mem_cons.mp hi).resolve_left hsame)
  waiting := by
    intro i hi
    obtain ⟨hother, hwaiting⟩ := not_or.mp fun hcases => hi (List.mem_cons.mpr hcases)
    change Function.update s.shardConfig shard config i = s.config
    rw [Function.update_of_ne hother]
    exact h.waiting i hwaiting
  travelling := h.travelling
  answered := h.answered

theorem Settled.finish (h : Settled s) (hreloading : s.updated = some config)
    (hall : ∀ i, i ∈ s.applied) :
    Settled { s with config := config, updated := none, applied := [] } where
  loaded := (h.accepted config hreloading).new_loaded
  accepted := fun other hother => absurd hother (Option.some_ne_none other).symm
  reached := fun _ hi => absurd hi List.not_mem_nil
  waiting := fun i _ => (h.reached i (hall i)).trans (latest_of_reloading hreloading)
  travelling := by
    intro forwarded hforwarded
    have hbefore := h.travelling forwarded hforwarded
    rwa [latest_of_reloading hreloading] at hbefore
  answered := h.answered

theorem Settled.step (h : Settled s) (hstep : Steps s s') : Settled s' := by
  cases hstep with
  | @reload config hidle hloaded haccepted =>
    have hfirst : s.shardConfig 0 = s.config := by
      exact h.shardConfig_of_idle hidle 0
    exact h.reload hidle ⟨h.loaded, hloaded, hfirst ▸ haccepted 0⟩
  | apply shard hreloading => exact h.apply shard hreloading
  | finish hreloading hall => exact h.finish hreloading hall
  | arrive shard request => exact h.handle shard request (Or.inl rfl)
  | @deliver index forwarded shard hmem howner =>
    have hlocal := h.local_of_travelling hmem howner
    have hless : Settled { s with travelling := s.travelling.eraseIdx index } :=
      { h with
        travelling := fun other hother => h.travelling other (List.mem_of_mem_eraseIdx hother) }
    exact hless.handle shard forwarded.request (Or.inr ⟨(h.travelling forwarded hmem).1, hlocal⟩)

theorem settled_of_started (h : Started s) : Settled s := by
  obtain ⟨config, hloaded, rfl⟩ := h
  exact
    { loaded := hloaded
      accepted := fun _ hnone => absurd hnone (Option.some_ne_none _).symm
      reached := fun _ hmem => absurd hmem List.not_mem_nil
      waiting := fun _ _ => rfl
      travelling := fun _ hmem => absurd hmem List.not_mem_nil
      answered := fun _ hmem => absurd hmem List.not_mem_nil }

/-- **A request is forwarded at most once**: whatever reloads and requests have gone before,
    the owner of a request that is under way answers it by itself, and nothing has been
    answered after a second forwarding. -/
theorem forwarded_at_most_once {n : Nat} (s : ShardedBroker n)
    (h : Transition.Reachable Started step (fun _ _ => True) s) :
    (∀ forwarded ∈ s.travelling, forwarded.hops = 1 ∧
        ∀ i : Fin (n + 1), forwarded.owner = i →
          (route (s.shardConfig i) i forwarded.request).Local) ∧
      ∀ answer ∈ s.answered, answer.hops ≤ 1 := by
  have hsettled : Settled s :=
    h.invariant (fun _ => settled_of_started) fun _ _ _ hs _ hstep => hs.step (steps_of_step hstep)
  refine ⟨?_, hsettled.answered⟩
  intro forwarded hforwarded
  refine ⟨(hsettled.travelling forwarded hforwarded).1, ?_⟩
  intro i howner
  exact hsettled.local_of_travelling hforwarded howner

/-- Two shards, the first of them reloaded: what it forwards for a topic it has just learned
    of, the second one answers without knowing the topic. -/
theorem forwarded_at_most_once_reloading :
    ∃ s : ShardedBroker 1, Transition.Reachable Started step (fun _ _ => True) s ∧
      s.travelling = [⟨⟨.append, "u", 0⟩, 1, 1⟩] ∧
      route (s.shardConfig 1) 1 ⟨.append, "u", 0⟩ = .missing ∧
      ∀ forwarded ∈ s.travelling, forwarded.hops = 1 ∧
        ∀ i : Fin 2, forwarded.owner = i →
          (route (s.shardConfig i) i forwarded.request).Local := by
  have hrun : (Transition.run step (started (exampleConfig [("t", 0)]) : ShardedBroker 1)
      [.reload (exampleNode [("t", 0), ("u", 1)]), .apply 0, .arrive 0 ⟨.append, "u", 0⟩]).map
        (fun s => (s.travelling, route (s.shardConfig 1) 1 ⟨.append, "u", 0⟩)) =
      some ([⟨⟨.append, "u", 0⟩, 1, 1⟩], .missing) := by
    decide +kernel
  obtain ⟨s, hs, hstate⟩ := Option.map_eq_some_iff.mp hrun
  obtain ⟨htravelling, hroute⟩ := Prod.mk.inj hstate
  have hstarted : Started (started (exampleConfig [("t", 0)]) : ShardedBroker 1) :=
    ⟨_, ⟨exampleNode [("t", 0)], by decide +kernel⟩, rfl⟩
  have hreachable : Transition.Reachable Started step (fun _ _ => True) s :=
    (Transition.Reachable.start hstarted).of_run _ (fun _ _ _ => trivial) hs
  exact ⟨s, hreachable, htravelling, hroute, (forwarded_at_most_once s hreachable).1⟩

end ShardedBroker

end Mkmq
