import Mkmq.FollowerLog
import Mkmq.Replication

/-!
# One undisturbed catch-up round

`catch_up_follower_partition` asks the leader for at most `kReplicaCatchupMaxBytes` from
the follower's log end on and appends the answer as one record set
(`src/broker_shard.cpp`).  The leader merges record sets up to that fixed limit; the
follower refuses whatever is longer than the partition's own `max_frame_bytes`.  With a
smaller `max_frame_bytes` the two limits disagree: an answer of several record sets, each
of which the follower would take, is refused, and the next round asks for the same again.
-/

namespace Mkmq

open ByteCodec ListRules PartitionLogShard

variable {sets : List RecordSet}

/-! ### The round -/

/-- `BrokerShard::fetch_for_replica` on broker `nodeId`. -/
def brokerFetchForReplica (nodeId : Int) (s : PartitionLogShard) (offset maxBytes : Int) :
    PartitionLogShard × Except String ReplicaFetchResult :=
  if s.config.leader ≠ nodeId then (s, .ok { errorCode := .notLeaderOrFollower })
  else s.fetchForReplica offset maxBytes

/-- `BrokerShard::append_replica` on broker `nodeId`, run to its end. -/
def brokerAppendReplica (nodeId : Int) (s : PartitionLogShard) (request : ReplicaAppendRequest) :
    PartitionLogShard × Except String ProducePartitionResult :=
  if nodeId ∉ s.config.replicas then
    (s, .ok
      { topic := request.topic
        partition := request.partition
        errorCode := .notLeaderOrFollower })
  else s.appendReplica request

/-- `catch_up_follower_partition` on broker `nodeId`, with nothing else happening on either
    side; `leader` is the log on the broker the partition names as its leader. -/
def catchUpFollowerPartition (nodeId : Int) (leader follower : PartitionLogShard) :
    PartitionLogShard × PartitionLogShard :=
  let partition := follower.config
  let localEnd := follower.offsets.latest
  match brokerFetchForReplica partition.leader leader localEnd kReplicaCatchupMaxBytes with
  | (leader, .error _) => (leader, follower)
  | (leader, .ok result) =>
    if result.errorCode ≠ .none ∨ result.records = [] then (leader, follower)
    else
      match brokerAppendReplica nodeId follower
        { topic := partition.topic
          partition := partition.partition
          baseOffset := localEnd
          leaderHighWatermark := result.leaderHighWatermark
          records := result.records } with
      | (follower, .error _) => (leader, follower)
      | (follower, .ok appendResult) =>
        if appendResult.errorCode ≠ .none then (leader, follower)
        else if follower.offsets.latest ≥ appendResult.logEndOffset then
          (leader,
            { follower with
              toLogHead :=
                follower.toLogHead.markReplicatedThrough follower.offsets.latest })
        else (leader, follower)

/-! ### What the leader sends -/

section Limit

variable {visibleEnd : Int} {limit : Nat} {sets : List RecordSet}

/-- No leading part that is within the limit is longer than what is sent. -/
theorem length_le_takeWithin (hvisible : ∀ recordSet ∈ sets,
      recordSet.baseOffset < visibleEnd ∧ recordSet.lastOffset < visibleEnd) (records : Bytes)
    (n : Nat) (hwithin : records.length + (payload (sets.take n)).length ≤ limit) :
    records.length + (payload (sets.take n)).length ≤
      (takeWithin visibleEnd limit records sets).length := by
  induction sets generalizing records n with
  | nil => simp [takeWithin]
  | cons recordSet rest ih =>
    cases n with
    | zero =>
      obtain ⟨m, -, htake⟩ :=
        takeWithin_eq_payload visibleEnd limit records (recordSet :: rest)
      rw [htake, List.length_append]
      simp
    | succ n =>
      rw [List.take_succ_cons, payload_cons, List.length_append] at hwithin ⊢
      obtain ⟨hbase, hlast⟩ := hvisible recordSet List.mem_cons_self
      rw [takeWithin_cons_of_fits rest (by omega) (by omega)]
      have hrest := ih (fun r hr => hvisible r (List.mem_cons_of_mem _ hr))
        (records ++ recordSet.bytes) n (by rw [List.length_append]; omega)
      rw [List.length_append] at hrest
      omega

/-- Once there is something in the buffer, the limit holds. -/
theorem takeWithin_length_le {records : Bytes} (hne : records ≠ []) (sets : List RecordSet) :
    (takeWithin visibleEnd limit records sets).length ≤ max records.length limit := by
  induction sets generalizing records with
  | nil => exact le_max_left _ _
  | cons recordSet rest ih =>
    rw [takeWithin]
    split
    · exact le_max_left _ _
    split
    · exact le_max_left _ _
    · next hfits =>
        have hrest : (takeWithin visibleEnd limit (records ++ recordSet.bytes) rest).length ≤
            max (records ++ recordSet.bytes).length limit := ih (by simp [hne])
        have hsize : records.length + recordSet.bytes.length ≤ limit := by
          by_contra hover
          exact hfits ⟨hne, by omega⟩
        rw [List.length_append] at hrest
        omega

/-- The first record set is sent whatever its size, and the limit holds past it. -/
theorem takeWithin_cons_length_le {recordSet : RecordSet} (hne : recordSet.bytes ≠ [])
    (hvisible : recordSet.baseOffset < visibleEnd ∧ recordSet.lastOffset < visibleEnd)
    (rest : List RecordSet) :
    (takeWithin visibleEnd limit [] (recordSet :: rest)).length ≤
      max recordSet.bytes.length limit := by
  rw [takeWithin_cons_of_fits rest (by omega) (fun h => h.1 rfl), List.nil_append]
  exact takeWithin_length_le hne rest

/-- What is within the limit as a whole is sent as a whole. -/
theorem takeWithin_all (hvisible : ∀ recordSet ∈ sets,
      recordSet.baseOffset < visibleEnd ∧ recordSet.lastOffset < visibleEnd) (records : Bytes)
    (hwithin : records.length + (payload sets).length ≤ limit) :
    takeWithin visibleEnd limit records sets = records ++ payload sets := by
  induction sets generalizing records with
  | nil => simp [takeWithin]
  | cons recordSet rest ih =>
    rw [payload_cons, List.length_append] at hwithin
    obtain ⟨hbase, hlast⟩ := hvisible recordSet List.mem_cons_self
    rw [takeWithin_cons_of_fits rest (by omega) (by omega),
      ih (fun r hr => hvisible r (List.mem_cons_of_mem _ hr)) (records ++ recordSet.bytes)
        (by rw [List.length_append]; omega), payload_cons, List.append_assoc]

end Limit

/-! ### A leader at rest and a follower behind it -/

/-- The leader is at rest: all it has accepted is indexed, in order. -/
structure PartitionLogShard.AtRest (s : PartitionLogShard) (sets : List RecordSet) : Prop where
  log : PlacedLog sets
  holds : s.HoldsLog sets
  earliest : s.offsets.earliest = 0
  latest : s.offsets.latest = offsetsOf sets
  accepted : ∀ recordSet ∈ sets, recordSet.bytes.length ≤ s.config.maxFrameBytes

/-- Two brokers of one topology, the broker `config.nodeId` a follower with an idle queue
    whose log ends where record set number `k` of the leader starts. -/
structure Behind (config : BrokerConfig) (leader follower : PartitionLogShard)
    (sets : List RecordSet) (k : Nat) : Prop where
  valid : validateConfig config = .ok ()
  configured : ∃ topic partition, findPartition config topic partition = some leader.config
  shared : follower.config = leader.config
  replica : config.nodeId ∈ leader.config.replicas
  follows : leader.config.leader ≠ config.nodeId
  leader : leader.AtRest sets
  misses : k < sets.length
  latest : follower.offsets.latest = offsetsOf (sets.take k)
  idle : follower.queueDepth = 0

/-- Whatever of the missing record sets fits the leader's limit fits the follower's. -/
def LimitsAgree (maxFrameBytes : Nat) (missing : List RecordSet) : Prop :=
  ∀ n, (payload (missing.take n)).length ≤ kReplicaCatchupMaxBytes →
    (payload (missing.take n)).length ≤ maxFrameBytes

/-! ### Leaders at rest -/

/-- At rest, and ready for the next append. -/
structure PartitionLogShard.Leads (s : PartitionLogShard) (sets : List RecordSet) : Prop
    extends s.AtRest sets where
  appendable : s.Appendable sets s.offsets.latest

theorem leads_fresh (config : PartitionConfig) (segmentBytes alignment : Nat)
    (h : 0 < alignment) : (fresh config segmentBytes alignment h).Leads [] where
  log := ⟨fun _ hr => absurd hr List.not_mem_nil, fun _ _ hk => by simp at hk⟩
  holds := (appendable_fresh config segmentBytes alignment h).toHoldsLog
  earliest := rfl
  latest := rfl
  accepted := fun _ hr => absurd hr List.not_mem_nil
  appendable := appendable_fresh config segmentBytes alignment h

theorem Consecutive.append (h : Consecutive sets) (records : Bytes) :
    Consecutive (sets ++ [recordSetAt (offsetsOf sets) records]) := by
  intro k recordSet hk
  rcases Nat.lt_or_ge k sets.length with hlt | hge
  · rw [List.getElem?_append_left hlt] at hk
    rw [List.take_append_of_le_length (Nat.le_of_lt hlt)]
    exact h k recordSet hk
  · rw [List.getElem?_append_right hge, List.getElem?_singleton] at hk
    split at hk
    · obtain rfl := Option.some.inj hk
      rw [List.take_append_of_le_length (by omega), List.take_of_length_le hge]
      rfl
    · cases hk

theorem PlacedLog.append (h : PlacedLog sets) {records : Bytes} (hne : records ≠ []) :
    PlacedLog (sets ++ [recordSetAt (offsetsOf sets) records]) where
  ne_nil := forall_mem_concat.mpr ⟨h.ne_nil, hne⟩
  placed := h.placed.append records

/-- **An accepted append leaves the leader at rest**, with one record set more. -/
theorem PartitionLogShard.Leads.append {s : PartitionLogShard} (h : s.Leads sets) {records : Bytes}
    {acks : Int} (hadmits : s.toLogHead.Admits records acks) (hne : records ≠ [])
    (hsize : records.length < 2 ^ 31) (hbase : FitsInt64 s.offsets.latest) :
    (s.append records acks).1.Leads (sets ++ [recordSetAt (offsetsOf sets) records]) ∧
      (s.append records acks).1.config = s.config := by
  obtain ⟨s', happend, happendable, hhead⟩ := h.appendable.append hadmits hne hsize hbase
  have hconfig : s'.config = s.config := by rw [hhead]; rfl
  have hlatest : s'.offsets.latest = s.offsets.latest + estimateRecordCount records := by
    rw [hhead]
    rfl
  rw [happend]
  rw [h.latest] at happendable
  refine ⟨⟨⟨h.log.append hne, happendable.toHoldsLog, ?_, ?_, ?_⟩, ?_⟩, hconfig⟩
  · rw [hhead]
    exact h.earliest
  · rw [hlatest, h.latest, offsetsOf_append, offsetsOf_cons, offsetsOf_nil, add_zero]
    rfl
  · rw [hconfig]
    exact forall_mem_concat.mpr ⟨h.accepted, hadmits.1⟩
  · rw [hlatest, h.latest]
    exact happendable

section Round

variable {config : BrokerConfig} {leader follower : PartitionLogShard} {sets : List RecordSet}
  {k : Nat}

theorem PartitionLogShard.AtRest.visible (h : leader.AtRest sets) :
    ∀ recordSet ∈ sets,
      recordSet.baseOffset < leader.offsets.latest ∧
        recordSet.lastOffset < leader.offsets.latest := by
  intro recordSet hmem
  obtain ⟨i, hi⟩ := List.mem_iff_getElem?.mp hmem
  obtain ⟨hlt, -⟩ := List.getElem?_eq_some_iff.mp hi
  obtain ⟨hbase, hend⟩ := h.log.placed.endOffset hi
  have hstep := h.log.offsetsOf_take_succ hlt
  have hle := offsetsOf_take_le sets (show i + 1 ≤ sets.length from hlt)
  rw [List.take_length] at hle
  rw [h.latest]
  omega

/-- What the leader answers in a round. -/
def sent (leader : PartitionLogShard) (sets : List RecordSet) (k : Nat) : Bytes :=
  takeWithin leader.offsets.latest (leader.fetchLimit kReplicaCatchupMaxBytes) [] (sets.drop k)

theorem Behind.fetch (h : Behind config leader follower sets k) :
    ∃ cache : List (Int × Int),
      brokerFetchForReplica follower.config.leader leader follower.offsets.latest
          kReplicaCatchupMaxBytes =
        ({ leader with segmentCache := cache },
          .ok { leaderHighWatermark := leader.offsets.highWatermark
                logEndOffset := leader.offsets.latest
                records := sent leader sets k }) := by
  have hholds : leader.HoldsLog (sets.take sets.length) := by
    rw [List.take_length]
    exact h.leader.holds
  obtain ⟨cache, hfetch, -⟩ := Following.fetchForReplica_eq h.leader.log hholds h.leader.earliest
    h.leader.latest (Nat.le_of_lt h.misses) kReplicaCatchupMaxBytes
  rw [List.take_length] at hfetch
  refine ⟨cache, ?_⟩
  unfold brokerFetchForReplica
  rw [h.shared, if_neg (not_not.mpr rfl), h.latest]
  exact hfetch

/-- The answer has at least the first missing record set, and fits the follower's limit
    exactly when the limits agree on what is missing. -/
theorem Behind.sent_fits_iff (h : Behind config leader follower sets k) :
    sent leader sets k ≠ [] ∧
      ((sent leader sets k).length ≤ leader.config.maxFrameBytes ↔
        LimitsAgree leader.config.maxFrameBytes (sets.drop k)) := by
  have hvisible : ∀ recordSet ∈ sets.drop k, recordSet.baseOffset < leader.offsets.latest ∧
      recordSet.lastOffset < leader.offsets.latest :=
    fun recordSet hmem => h.leader.visible recordSet (List.mem_of_mem_drop hmem)
  obtain ⟨first, rest, hmissing⟩ : ∃ first rest, sets.drop k = first :: rest :=
    ⟨_, _, List.drop_eq_getElem_cons h.misses⟩
  have hfirst : first ∈ sets.drop k := by
    rw [hmissing]
    exact List.mem_cons_self
  have hne := h.leader.log.ne_nil first (List.mem_of_mem_drop hfirst)
  have hlimit : kReplicaCatchupMaxBytes = ((1024 * 1024 : Nat) : Int) := rfl
  refine ⟨?_, ?_, ?_⟩
  · obtain ⟨n, -, hn, hsent⟩ := takeWithin_progress (leader.fetchLimit kReplicaCatchupMaxBytes)
      rest (hvisible first hfirst)
    obtain ⟨n, rfl⟩ : ∃ m, n = m + 1 := ⟨n - 1, by omega⟩
    rw [sent, hmissing, hsent, List.take_succ_cons, payload_cons]
    exact fun hnil => hne (List.append_eq_nil_iff.mp hnil).1
  · intro hfits n hwithin
    rw [hlimit, Int.ofNat_le] at hwithin
    have hle : ([] : Bytes).length + (payload ((sets.drop k).take n)).length ≤
        (sent leader sets k).length :=
      length_le_takeWithin hvisible [] n (by rwa [List.length_nil, Nat.zero_add])
    rw [List.length_nil, Nat.zero_add] at hle
    exact le_trans hle hfits
  · intro hagree
    obtain ⟨n, -, hsent⟩ := takeWithin_eq_payload leader.offsets.latest
      (leader.fetchLimit kReplicaCatchupMaxBytes) [] (sets.drop k)
    rw [List.nil_append] at hsent
    by_cases hwithin : (sent leader sets k).length ≤ 1024 * 1024
    · rw [sent, hsent] at hwithin ⊢
      exact hagree n (by rw [hlimit, Int.ofNat_le]; exact hwithin)
    · -- past the limit there is only the first record set, which was accepted
      have hle : (sent leader sets k).length ≤ max first.bytes.length (1024 * 1024) := by
        rw [sent, hmissing]
        exact takeWithin_cons_length_le hne (hvisible first hfirst) rest
      have haccepted := h.leader.accepted first (List.mem_of_mem_drop hfirst)
      omega

/-! ### What the follower makes of it -/

theorem placeSegment_toLogHead (s : PartitionLogShard) (baseOffset : Int) (frameSize : Nat) :
    (s.placeSegment baseOffset frameSize).toLogHead = s.toLogHead := by
  unfold placeSegment ensureSegmentForWrite afterFlushBarrier openActiveSegment
  grind

/-- The second half of an append leaves the offsets as admission decided, whether its write
    succeeds or not. -/
theorem complete_offsets (s : PartitionLogShard) (admission : Admission) :
    (s.complete admission).1.offsets = admission.head.offsets := by
  unfold PartitionLogShard.complete
  split
  · rfl
  · next recordSet hset =>
      have hwrite : ∀ t : PartitionLogShard,
          (t.writeRecordSet recordSet).1.toLogHead = t.toLogHead := by
        intro t
        have hplaced := placeSegment_toLogHead t recordSet.baseOffset
          (recordSet.frameSize t.logFrameAlignment)
        unfold writeRecordSet reserve
        simp only
        split
        · next heq => grind
        · next heq =>
            unfold commitFrame dmaWrite scheduleIndexEntryWrite noteIndexEntry writeIndexEntryAt
            grind
      show (LogHead.settle _).offsets = _
      rw [LogHead.settle_offsets, hwrite]

/-- The request the follower makes of it. -/
def fetched (leader follower : PartitionLogShard) (sets : List RecordSet) (k : Nat) :
    ReplicaAppendRequest :=
  { topic := follower.config.topic
    partition := follower.config.partition
    baseOffset := follower.offsets.latest
    leaderHighWatermark := leader.offsets.highWatermark
    records := sent leader sets k }

/-- **The round moves the log end as admission at the follower decides.** -/
theorem Behind.latest_round (h : Behind config leader follower sets k) :
    (catchUpFollowerPartition config.nodeId leader follower).2.offsets.latest =
      (follower.toLogHead.appendReplica (fetched leader follower sets k)).head.offsets.latest := by
  obtain ⟨cache, hfetch⟩ := h.fetch
  have hreplica : ¬ config.nodeId ∉ follower.config.replicas := by
    rw [h.shared]
    exact not_not.mpr h.replica
  have hnone : ¬ (ErrorCode.none ≠ ErrorCode.none ∨ sent leader sets k = []) := by
    rintro (herror | hnil)
    · exact herror rfl
    · exact h.sent_fits_iff.1 hnil
  unfold catchUpFollowerPartition
  simp only [hfetch]
  rw [if_neg hnone]
  unfold brokerAppendReplica
  rw [if_neg hreplica]
  have happend := complete_offsets follower
    (follower.toLogHead.appendReplica (fetched leader follower sets k))
  unfold fetched at happend ⊢
  rw [← happend, PartitionLogShard.appendReplica]
  generalize follower.complete _ = completed
  obtain ⟨after, outcome⟩ := completed
  cases outcome with
  | error message => rfl
  | ok response =>
    simp only
    split
    · rfl
    split
    · rfl
    · rfl

/-- **A round makes progress exactly when the two limits agree on what is missing.** -/
theorem catch_up_progress_iff (h : Behind config leader follower sets k) :
    follower.offsets.latest <
        (catchUpFollowerPartition config.nodeId leader follower).2.offsets.latest ↔
      LimitsAgree leader.config.maxFrameBytes (sets.drop k) := by
  obtain ⟨hne, hfits⟩ := h.sent_fits_iff
  obtain ⟨topic, partition, hfound⟩ := h.configured
  have hqueue := (validateConfig_ok h.valid hfound).queueLimit_pos
  rw [h.latest_round, ← hfits]
  set request := fetched leader follower sets k
  have hadmits : follower.toLogHead.AdmitsReplica request ↔
      (sent leader sets k).length ≤ leader.config.maxFrameBytes := by
    unfold LogHead.AdmitsReplica
    rw [h.shared, h.idle]
    exact ⟨fun hall => hall.1, fun hsize => ⟨hsize, rfl, hqueue⟩⟩
  rw [← hadmits]
  by_cases hadmitted : follower.toLogHead.AdmitsReplica request
  · have hcount := one_le_estimateRecordCount hne
    rw [LogHead.appendReplica_of_admits hadmitted, LogHead.replicated_latest]
    refine iff_of_true ?_ hadmitted
    show follower.offsets.latest <
      follower.offsets.latest + estimateRecordCount (sent leader sets k)
    omega
  · rw [(LogHead.appendReplica_of_not_admits hadmitted).1]
    exact iff_of_false (lt_irrefl _) hadmitted

end Round

/-! ### Two record sets where one fits -/

/-- A partition that takes frames of at most four bytes. -/
def smallFrames : PartitionConfig :=
  { topic := "t", replicas := [0, 1], isr := [0, 1], maxFrameBytes := 4 }

/-- The follower's view of it. -/
def smallFramesFollower : BrokerConfig :=
  { nodeId := 1
    brokers := [{ id := 0 }, { id := 1 }]
    topics := [{ name := "t", partitions := [smallFrames] }] }

theorem frameBlock_pos : 0 < 512 := by decide

def emptyLog : PartitionLogShard := fresh smallFrames 4096 512 frameBlock_pos

def oneEntry : PartitionLogShard := (emptyLog.append [1, 2, 3] 1).1

def twoEntries : PartitionLogShard := (oneEntry.append [4, 5, 6] 1).1

def twoSets : List RecordSet := [recordSetAt 0 [1, 2, 3], recordSetAt 1 [4, 5, 6]]

theorem leads_twoEntries : twoEntries.Leads twoSets ∧ twoEntries.config = smallFrames := by
  obtain ⟨hone, hconfig⟩ := (leads_fresh smallFrames 4096 512 (by decide)).append
    (by decide : LogHead.Admits _ [1, 2, 3] 1) (by decide) (by decide) (by decide)
  obtain ⟨htwo, hsame⟩ := hone.append
    (by decide +kernel : LogHead.Admits oneEntry.toLogHead [4, 5, 6] 1) (by decide) (by decide)
    (by decide +kernel)
  exact ⟨htwo, hsame.trans hconfig⟩

theorem behind_twoEntries {follower : PartitionLogShard} {k : Nat}
    (hshared : follower.config = smallFrames) (hk : k < 2)
    (hlatest : follower.offsets.latest = offsetsOf (twoSets.take k))
    (hidle : follower.queueDepth = 0) :
    Behind smallFramesFollower twoEntries follower twoSets k where
  valid := by decide +kernel
  configured := ⟨"t", 0, by rw [leads_twoEntries.2]; decide +kernel⟩
  shared := by rw [hshared, leads_twoEntries.2]
  replica := by rw [leads_twoEntries.2]; decide
  follows := by rw [leads_twoEntries.2]; decide
  leader := leads_twoEntries.1.toAtRest
  misses := hk
  latest := hlatest
  idle := hidle

/-- A follower that misses only the second record set gets on. -/
theorem catch_up_progress_lastEntry :
    Behind smallFramesFollower twoEntries oneEntry twoSets 1 ∧
      (oneEntry.offsets.latest <
          (catchUpFollowerPartition smallFramesFollower.nodeId twoEntries
            oneEntry).2.offsets.latest ↔
        LimitsAgree twoEntries.config.maxFrameBytes (twoSets.drop 1)) := by
  have hbehind : Behind smallFramesFollower twoEntries oneEntry twoSets 1 :=
    behind_twoEntries (by decide +kernel) (by decide) (by decide +kernel) (by decide +kernel)
  exact ⟨hbehind, catch_up_progress_iff hbehind⟩

/-- An empty follower is sent both, refuses them, and stays empty. -/
theorem catch_up_not_always_progress :
    ¬ ∀ (config : BrokerConfig) (leader follower : PartitionLogShard) (sets : List RecordSet)
      (k : Nat), Behind config leader follower sets k →
        follower.offsets.latest <
          (catchUpFollowerPartition config.nodeId leader follower).2.offsets.latest := by
  intro hprogress
  have hbehind : Behind smallFramesFollower twoEntries emptyLog twoSets 0 :=
    behind_twoEntries (by decide) (by decide) (by decide) (by decide)
  have hround := hprogress _ _ _ _ _ hbehind
  have hstuck : (catchUpFollowerPartition smallFramesFollower.nodeId twoEntries
      emptyLog).2.offsets.latest = emptyLog.offsets.latest := by
    decide +kernel
  rw [hstuck] at hround
  exact lt_irrefl _ hround

end Mkmq
