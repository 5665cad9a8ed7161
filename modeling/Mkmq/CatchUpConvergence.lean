import Mkmq.CatchUpOffsets

/-!
# Catch-up rounds come to an end

One round of `catch_up_follower_partition` brings a follower some record sets nearer to a
leader at rest, and the maintenance timer makes a round every second.  What the follower has
is the leader's bytes in other record sets: each round appends its answer, which may be many
record sets of the leader, as one.  That the offsets agree nevertheless rests on the record
sets being chains of batches, and that no round is lost on the two size limits agreeing.
-/

namespace Mkmq

open ByteCodec ListRules PartitionLogShard

variable {s : PartitionLogShard} {sets : List RecordSet}

/-- A round, with the leader's log and the follower's. -/
def catchUpRound (nodeId : Int) (logs : PartitionLogShard × PartitionLogShard) :
    PartitionLogShard × PartitionLogShard :=
  catchUpFollowerPartition nodeId logs.1 logs.2

/-- The follower's record sets `copy` have the bytes and take the offsets of the first `k`
    record sets of a leader at rest; nothing else is going on. -/
structure Trails (config : BrokerConfig) (sets : List RecordSet)
    (logs : PartitionLogShard × PartitionLogShard) (copy : List RecordSet) (k : Nat) : Prop where
  valid : validateConfig config = .ok ()
  configured : ∃ topic partition, findPartition config topic partition = some logs.1.config
  shared : logs.2.config = logs.1.config
  replica : config.nodeId ∈ logs.1.config.replicas
  follows : logs.1.config.leader ≠ config.nodeId
  leader : logs.1.AtRest sets
  chains : ∀ recordSet ∈ sets, BatchChain recordSet.bytes
  limits : ∀ j, LimitsAgree logs.1.config.maxFrameBytes (sets.drop j)
  fits : FitsInt64 logs.1.offsets.latest
  reached : k ≤ sets.length
  follower : logs.2.Leads copy
  bytes : payload copy = payload (sets.take k)
  ends : offsetsOf copy = offsetsOf (sets.take k)
  idle : logs.2.queueDepth = 0

/-! ### An accepted answer -/

/-- An accepted replica append leaves the log at rest, with one record set more. -/
theorem PartitionLogShard.Leads.appendReplica (h : s.Leads sets) {request : ReplicaAppendRequest}
    (hadmits : s.toLogHead.AdmitsReplica request) (hne : request.records ≠ [])
    (hsize : request.records.length < 2 ^ 31) (hbase : FitsInt64 s.offsets.latest) :
    ∃ s', s.appendReplica request = (s', .ok (s.toLogHead.appendReplica request).response) ∧
      s'.Leads (sets ++ [recordSetAt (offsetsOf sets) request.records]) ∧
      s'.toLogHead = (s.toLogHead.replicated request).settle := by
  have hadmission := LogHead.appendReplica_of_admits hadmits
  obtain ⟨hfits, hat, -⟩ := hadmits
  rw [hat] at hadmission
  obtain ⟨hs, hcount⟩ := recordSetAt_storable hne hsize hbase
  obtain ⟨s', hdone, happendable, hhead⟩ :=
    Appendable.complete h.appendable hs hcount (congrArg Admission.recordSet hadmission)
  rw [hadmission] at hhead
  have hlatest : s'.offsets.latest = s.offsets.latest + estimateRecordCount request.records := by
    rw [hhead, LogHead.settle_offsets, LogHead.replicated_latest, hat]
  have hconfig : s'.config = s.config := by
    rw [hhead]
    rfl
  rw [h.latest] at happendable
  refine ⟨s', hdone, ⟨⟨h.log.append hne, happendable.toHoldsLog, ?_, ?_, ?_⟩, ?_⟩, hhead⟩
  · rw [hhead]
    exact h.earliest
  · rw [hlatest, h.latest, offsetsOf_append, offsetsOf_cons, offsetsOf_nil, add_zero]
    rfl
  · rw [hconfig]
    exact forall_mem_concat.mpr ⟨h.accepted, hfits⟩
  · rw [hlatest, h.latest, ← recordSetAt_endOffset]
    exact happendable

theorem PartitionLogShard.AtRest.withCache (h : s.AtRest sets) {cache : List (Int × Int)}
    (hcache : ∀ cached ∈ cache, cached.2 = cached.1) :
    { s with segmentCache := cache }.AtRest sets :=
  { h with holds := { h.holds with coherent := h.holds.coherent.withCache hcache } }

namespace Trails

variable {config : BrokerConfig} {sets copy : List RecordSet}
  {logs : PartitionLogShard × PartitionLogShard} {k : Nat}

section

variable (h : Trails config sets logs copy k)

include h

theorem latest : logs.2.offsets.latest = offsetsOf (sets.take k) :=
  h.follower.latest.trans h.ends

theorem behind (hk : k < sets.length) : Behind config logs.1 logs.2 sets k :=
  { h with misses := hk, latest := h.latest }

/-- What the leader answers, and that it is at rest as before. -/
theorem fetch :
    ∃ cache : List (Int × Int), (∀ cached ∈ cache, cached.2 = cached.1) ∧
      brokerFetchForReplica logs.2.config.leader logs.1 logs.2.offsets.latest
          kReplicaCatchupMaxBytes =
        ({ logs.1 with segmentCache := cache },
          .ok { leaderHighWatermark := logs.1.offsets.highWatermark
                logEndOffset := logs.1.offsets.latest
                records := sent logs.1 sets k }) := by
  have hholds : logs.1.HoldsLog (sets.take sets.length) := by
    rw [List.take_length]
    exact h.leader.holds
  obtain ⟨cache, hfetch, hcache⟩ := Following.fetchForReplica_eq h.leader.log hholds
    h.leader.earliest h.leader.latest h.reached kReplicaCatchupMaxBytes
  rw [List.take_length] at hfetch
  refine ⟨cache, hcache, ?_⟩
  unfold brokerFetchForReplica
  rw [h.shared, if_neg (not_not.mpr rfl), h.latest]
  exact hfetch

theorem fitsInt64_latest : FitsInt64 logs.2.offsets.latest := by
  have hfits := h.fits
  have hle := offsetsOf_take_le sets h.reached
  have hnonneg := offsetsOf_nonneg (sets.take k)
  rw [List.take_length, ← h.leader.latest] at hle
  unfold FitsInt64 at hfits ⊢
  rw [h.latest]
  omega

/-- The answer of a round is at least one of the missing record sets, merged, and the
    follower takes it. -/
theorem sent_eq (hk : k < sets.length) :
    ∃ n, 1 ≤ n ∧ k + n ≤ sets.length ∧ sent logs.1 sets k = payload ((sets.drop k).take n) ∧
      sent logs.1 sets k ≠ [] ∧ (sent logs.1 sets k).length ≤ logs.1.config.maxFrameBytes ∧
      (sent logs.1 sets k).length < 2 ^ 31 := by
  obtain ⟨hne, hfits⟩ := (h.behind hk).sent_fits_iff
  obtain ⟨first, rest, hmissing⟩ : ∃ first rest, sets.drop k = first :: rest :=
    ⟨_, _, List.drop_eq_getElem_cons hk⟩
  have hfirst : first ∈ sets := by
    refine List.mem_of_mem_drop (i := k) ?_
    rw [hmissing]
    exact List.mem_cons_self
  have hvisible := h.leader.visible first hfirst
  obtain ⟨n, hn, hpos, hsent⟩ := takeWithin_progress (logs.1.fetchLimit kReplicaCatchupMaxBytes)
    rest hvisible
  have hlength : (first :: rest).length = sets.length - k := by
    rw [← hmissing, List.length_drop]
  have hbound : (sent logs.1 sets k).length ≤ max first.bytes.length (1024 * 1024) := by
    rw [sent, hmissing]
    exact takeWithin_cons_length_le (h.leader.log.ne_nil first hfirst) hvisible rest
  have hstorable := (h.leader.holds.storable first hfirst).size
  refine ⟨n, hpos, by omega, ?_, hne, hfits.mpr (h.limits k), by omega⟩
  rw [sent, hmissing]
  exact hsent

/-! ### Rounds -/

/-- **A round with something missing** brings the follower at least one record set nearer. -/
theorem round (hk : k < sets.length) :
    ∃ n more, 1 ≤ n ∧
      Trails config sets (catchUpRound config.nodeId logs) (copy ++ [more]) (k + n) ∧
      (catchUpRound config.nodeId logs).1.offsets = logs.1.offsets := by
  obtain ⟨cache, hcache, hfetch⟩ := h.fetch
  obtain ⟨n, hpos, hn, hsent, hne, hsize, hsmall⟩ := h.sent_eq hk
  obtain ⟨topic, partition, hfound⟩ := h.configured
  have hqueue := (validateConfig_ok h.valid hfound).queueLimit_pos
  have hreplica : ¬ config.nodeId ∉ logs.2.config.replicas := by
    rw [h.shared]
    exact not_not.mpr h.replica
  set request : ReplicaAppendRequest :=
    { topic := logs.2.config.topic
      partition := logs.2.config.partition
      baseOffset := logs.2.offsets.latest
      leaderHighWatermark := logs.1.offsets.highWatermark
      records := sent logs.1 sets k } with hrequest
  have hadmits : logs.2.toLogHead.AdmitsReplica request := by
    refine ⟨?_, rfl, ?_⟩
    · rw [h.shared]
      exact hsize
    · rw [h.idle, h.shared]
      exact hqueue
  obtain ⟨after, happend, hleads, hhead⟩ :=
    h.follower.appendReplica hadmits hne hsmall h.fitsInt64_latest
  have hresponse := congrArg Admission.response (LogHead.appendReplica_of_admits hadmits)
  have hlatest : after.offsets.latest =
      logs.2.offsets.latest + estimateRecordCount (sent logs.1 sets k) := by
    rw [hhead]
    rfl
  have hround : catchUpRound config.nodeId logs =
      ({ logs.1 with segmentCache := cache },
        { after with
          toLogHead := after.toLogHead.markReplicatedThrough after.offsets.latest }) := by
    unfold catchUpRound catchUpFollowerPartition
    simp only [hfetch]
    rw [if_neg (by simp [hne])]
    unfold brokerAppendReplica
    rw [if_neg hreplica, ← hrequest, happend, hresponse]
    simp only [ne_eq, not_true_eq_false, if_false]
    rw [if_pos (by rw [hlatest, hrequest])]
  have hchains : ∀ recordSet ∈ (sets.drop k).take n, BatchChain recordSet.bytes :=
    fun recordSet hmem => h.chains recordSet (List.mem_of_mem_drop (List.mem_of_mem_take hmem))
  have hcount : estimateRecordCount (sent logs.1 sets k) = offsetsOf ((sets.drop k).take n) := by
    rw [hsent, (estimateRecordCount_chains hchains).2]
  refine ⟨n, recordSetAt (offsetsOf copy) (sent logs.1 sets k), hpos, ?_, by rw [hround]⟩
  rw [hround]
  exact
    { h with
      shared := by
        show after.config = logs.1.config
        rw [hhead]
        exact h.shared
      leader := h.leader.withCache hcache
      reached := hn
      follower := LeaderEntries.leads_withHead hleads rfl rfl rfl
      bytes := by
        rw [payload_append, h.bytes, payload_cons, payload_nil, List.append_nil, List.take_add,
          payload_append]
        exact congrArg _ hsent
      ends := by
        rw [offsetsOf_append, h.ends, offsetsOf_cons, offsetsOf_nil, add_zero, List.take_add,
          offsetsOf_append]
        exact congrArg _ hcount
      idle := by
        show after.queueDepth = 0
        rw [hhead]
        show logs.2.queueDepth + 1 - 1 = 0
        rw [h.idle] }

/-- A round with nothing missing does nothing. -/
theorem round_idle (hk : sets.length = k) :
    Trails config sets (catchUpRound config.nodeId logs) copy k ∧
      (catchUpRound config.nodeId logs).1.offsets = logs.1.offsets ∧
      (catchUpRound config.nodeId logs).2 = logs.2 := by
  obtain ⟨cache, hcache, hfetch⟩ := h.fetch
  have hnothing : sent logs.1 sets k = [] := by
    rw [sent, List.drop_eq_nil_of_le (le_of_eq hk)]
    rfl
  have hround :
      catchUpRound config.nodeId logs = ({ logs.1 with segmentCache := cache }, logs.2) := by
    unfold catchUpRound catchUpFollowerPartition
    simp only [hfetch]
    rw [if_pos (Or.inr hnothing)]
  rw [hround]
  exact ⟨{ h with leader := h.leader.withCache hcache }, rfl, rfl⟩

/-- Enough rounds bring all of it. -/
theorem iterate {rounds : Nat} (hrounds : sets.length ≤ k + rounds) :
    ∃ more, Trails config sets ((catchUpRound config.nodeId)^[rounds] logs) (copy ++ more)
        sets.length ∧
      ((catchUpRound config.nodeId)^[rounds] logs).1.offsets = logs.1.offsets := by
  induction rounds generalizing logs copy k with
  | zero =>
    have hk : k = sets.length := Nat.le_antisymm h.reached hrounds
    refine ⟨[], ?_, rfl⟩
    rw [List.append_nil, ← hk]
    exact h
  | succ rounds ih =>
    rw [Function.iterate_succ_apply]
    rcases Nat.lt_or_ge k sets.length with hk | hk
    · obtain ⟨n, first, hn, hround, hoffsets⟩ := h.round hk
      obtain ⟨more, hmore, hsame⟩ := ih hround (by omega)
      rw [List.append_assoc] at hmore
      exact ⟨_, hmore, hsame.trans hoffsets⟩
    · obtain ⟨hround, hoffsets, -⟩ := h.round_idle (Nat.le_antisymm hk h.reached)
      obtain ⟨more, hmore, hsame⟩ := ih hround (by omega)
      exact ⟨more, hmore, hsame.trans hoffsets⟩

end

theorem iterate_idle (h : Trails config sets logs copy sets.length) (rounds : Nat) :
    ((catchUpRound config.nodeId)^[rounds] logs).2 = logs.2 := by
  induction rounds generalizing logs with
  | zero => rfl
  | succ rounds ih =>
    obtain ⟨hround, -, hsame⟩ := h.round_idle rfl
    rw [Function.iterate_succ_apply, ih hround, hsame]

end Trails

/-- **A follower catches up.**  After at most one round for each record set it misses, its log
    ends where that of the leader ends, and its record sets are those it had and others, with
    the bytes of the leader's as a whole; from then on rounds leave it alone. -/
theorem catch_up_converges {config : BrokerConfig} {sets copy : List RecordSet}
    {logs after : PartitionLogShard × PartitionLogShard} {k : Nat}
    (h : Trails config sets logs copy k) {rounds : Nat} (hrounds : sets.length - k ≤ rounds)
    (hafter : (catchUpRound config.nodeId)^[rounds] logs = after) :
    after.2.offsets.latest = logs.1.offsets.latest ∧ after.1.offsets = logs.1.offsets ∧
      (∃ more, after.2.Leads (copy ++ more) ∧ payload (copy ++ more) = payload sets) ∧
      ∀ later, ((catchUpRound config.nodeId)^[later] after).2 = after.2 := by
  obtain ⟨more, hall, hoffsets⟩ := h.iterate (Nat.sub_le_iff_le_add'.mp hrounds)
  rw [hafter] at hall hoffsets
  refine ⟨?_, hoffsets, ⟨more, hall.follower, ?_⟩, hall.iterate_idle⟩
  · rw [hall.latest, List.take_length, ← hoffsets, hall.leader.latest]
  · rw [hall.bytes, List.take_length]

/-! ### An empty follower of a leader with two record sets -/

/-- A partition on two brokers that takes whatever a round asks for. -/
def roomyFrames : PartitionConfig := { smallFrames with maxFrameBytes := 1024 * 1024 }

def roomyFollower : BrokerConfig :=
  { smallFramesFollower with topics := [{ name := "t", partitions := [roomyFrames] }] }

def emptyRoomy : PartitionLogShard := fresh roomyFrames 4096 512 frameBlock_pos

def oneBatch : PartitionLogShard := (emptyRoomy.append (shortBatch 0) 1).1

def twoBatches : PartitionLogShard := (oneBatch.append (shortBatch 1) 1).1

def batchSets : List RecordSet := [recordSetAt 0 (shortBatch 0), recordSetAt 1 (shortBatch 1)]

theorem leads_twoBatches : twoBatches.Leads batchSets ∧ twoBatches.config = roomyFrames := by
  obtain ⟨hone, hconfig⟩ := (leads_fresh roomyFrames 4096 512 (by decide)).append
    (by decide : LogHead.Admits _ (shortBatch 0) 1) (by decide) (by decide) (by decide)
  obtain ⟨htwo, hsame⟩ := hone.append
    (by decide +kernel : LogHead.Admits oneBatch.toLogHead (shortBatch 1) 1) (by decide) (by decide)
    (by decide +kernel)
  exact ⟨htwo, hsame.trans hconfig⟩

theorem trails_twoBatches : Trails roomyFollower batchSets (twoBatches, emptyRoomy) [] 0 where
  valid := by decide +kernel
  configured := ⟨"t", 0, by rw [leads_twoBatches.2]; decide +kernel⟩
  shared := leads_twoBatches.2.symm
  replica := by rw [leads_twoBatches.2]; decide
  follows := by rw [leads_twoBatches.2]; decide
  leader := leads_twoBatches.1.toAtRest
  chains := by
    intro recordSet hmem
    simp only [batchSets, List.mem_cons, List.not_mem_nil, or_false] at hmem
    rcases hmem with rfl | rfl
    · exact batchChain_shortBatch 0
    · exact batchChain_shortBatch 1
  limits := by
    intro j n hwithin
    rw [leads_twoBatches.2]
    exact Int.ofNat_le.mp hwithin
  fits := by decide +kernel
  reached := Nat.zero_le _
  follower := leads_fresh _ _ _ _
  bytes := rfl
  ends := rfl
  idle := rfl

theorem catch_up_converges_twoBatches :
    ∃ after, (catchUpRound roomyFollower.nodeId)^[2] (twoBatches, emptyRoomy) = after ∧
      after.2.offsets.latest = twoBatches.offsets.latest ∧
      ∃ more, after.2.Leads more ∧ payload more = payload batchSets := by
  obtain ⟨hlatest, -, hcopy, -⟩ :=
    catch_up_converges trails_twoBatches (by decide : batchSets.length - 0 ≤ 2) rfl
  exact ⟨_, rfl, hlatest, hcopy⟩

end Mkmq
