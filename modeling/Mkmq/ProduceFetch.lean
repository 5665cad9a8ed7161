import Mkmq.BatchWalks
import Mkmq.Broker
import Mkmq.SequentialLog
import Mkmq.Transition

/-!
# Produce and fetch, end to end

A producer and a consumer talk to a single-replica partition, one call at a time and in
any order.  The consumer starts at offset 0 and continues one past the last offset it
was given.  At every moment it has received a prefix of the accepted batches, renumbered
consecutively from 0, and after as many further fetches as there are accepted batches
it has received all of them.
-/

namespace Mkmq

open ByteCodec

variable {batch : Bytes} {batches : List Bytes} {config : BrokerConfig}
  {partition : PartitionConfig}

/-! ### The consumer -/

/-- The consumer's walk over the batches of an answer: one past the last offset of the
    last whole batch. -/
def nextOffsetLoop : Nat → Bytes → Int → Int
  | 0, _, next => next
  | fuel + 1, rest, next =>
    let size := batchLengthField rest + 12
    if 61 ≤ rest.length ∧ size ≤ rest.length then
      nextOffsetLoop fuel (rest.drop size) (baseOffsetField rest + lastOffsetDelta rest + 1)
    else next

def nextOffset (offset : Int) (records : Bytes) : Int :=
  nextOffsetLoop records.length records offset

/-- A whole batch that takes as many offsets as its last offset delta says. -/
structure ProducedBatch (batch : Bytes) : Prop extends WholeBatch batch where
  delta : 0 ≤ lastOffsetDelta batch

theorem ProducedBatch.batchCount_eq (h : ProducedBatch batch) :
    batchCount batch = lastOffsetDelta batch + 1 := by
  have hdelta := h.delta
  unfold batchCount
  omega

theorem baseOffsetField_append (h : 8 ≤ batch.length) (rest : Bytes) :
    baseOffsetField (batch ++ rest) = baseOffsetField batch := by
  unfold baseOffsetField
  rw [slice_append_left (by omega)]

theorem lastOffsetDelta_append (h : 27 ≤ batch.length) (rest : Bytes) :
    lastOffsetDelta (batch ++ rest) = lastOffsetDelta batch := by
  unfold lastOffsetDelta
  rw [slice_append_left (by omega)]

/-- Walking a renumbered chain ends at the offset after it. -/
theorem nextOffsetLoop_chain (h : ∀ batch ∈ batches, ProducedBatch batch) {fuel : Nat}
    (hfuel : batches.length ≤ fuel) {base : Int} (hlo : 0 ≤ base)
    (hhi : base + offsetsTaken batches < 2 ^ 63) :
    nextOffsetLoop fuel (renumberedChain base batches).flatten base =
      base + offsetsTaken batches := by
  induction batches generalizing fuel base with
  | nil => cases fuel <;> simp [renumberedChain, nextOffsetLoop]
  | cons batch batches ih =>
    obtain ⟨fuel, rfl⟩ : ∃ n, fuel = n + 1 :=
      ⟨fuel - 1, by rw [List.length_cons] at hfuel; omega⟩
    have hbatch := h batch List.mem_cons_self
    have hheader := hbatch.header
    have hone := one_le_batchCount batch
    have hnonneg := offsetsTaken_nonneg batches
    rw [offsetsTaken_cons] at hhi ⊢
    have hbase : FitsInt64 base := ⟨by omega, by omega⟩
    have hwhole := hbatch.toWholeBatch.renumbered base
    have hlen := length_renumbered (by omega : 21 ≤ batch.length) base
    obtain ⟨hsize, -⟩ := hwhole.batchLengthField_eq
    have hnext : base + lastOffsetDelta batch + 1 = base + batchCount batch := by
      rw [hbatch.batchCount_eq, add_assoc]
    rw [renumberedChain, List.flatten_cons, nextOffsetLoop]
    simp only [batchLengthField_append (by omega : 12 ≤ (renumbered base batch).length),
      baseOffsetField_append (by omega : 8 ≤ (renumbered base batch).length),
      lastOffsetDelta_append (by omega : 27 ≤ (renumbered base batch).length),
      baseOffsetField_renumbered hbase, lastOffsetDelta_renumbered (by omega : 21 ≤ batch.length)]
    rw [hsize, if_pos (by rw [List.length_append]; omega), List.drop_left, hnext,
      ih (fun b hb => h b (List.mem_cons_of_mem _ hb))
        (by rw [List.length_cons] at hfuel; omega) (by omega) (by omega), add_assoc]

theorem nextOffset_chain (h : ∀ batch ∈ batches, ProducedBatch batch) (base : Int) (hlo : 0 ≤ base)
    (hhi : base + offsetsTaken batches < 2 ^ 63) :
    nextOffset base (renumberedChain base batches).flatten = base + offsetsTaken batches := by
  have hwhole := wholeBatch_renumberedChain (fun b hb => (h b hb).toWholeBatch) base
  have hlen := length_le_length_flatten hwhole
  rw [length_renumberedChain] at hlen
  exact nextOffsetLoop_chain h hlen hlo hhi

/-! ### The record sets of a sequence of accepted requests -/

/-- The record sets written for accepted requests, given as lists of batches, from the log
    end `base` on. -/
def setsOf : Int → List (List Bytes) → List RecordSet
  | _, [] => []
  | base, batches :: rest =>
    recordSetAt base (renumberedChain base batches).flatten ::
      setsOf (base + offsetsTaken batches) rest

theorem length_setsOf (base : Int) (groups : List (List Bytes)) :
    (setsOf base groups).length = groups.length := by
  induction groups generalizing base with
  | nil => rfl
  | cons batches groups ih => rw [setsOf, List.length_cons, ih, List.length_cons]

theorem setsOf_append (base : Int) (front back : List (List Bytes)) :
    setsOf base (front ++ back) =
      setsOf base front ++ setsOf (base + offsetsTaken front.flatten) back := by
  induction front generalizing base with
  | nil => simp [setsOf]
  | cons batches front ih =>
    rw [List.cons_append, setsOf, ih, setsOf, List.cons_append, List.flatten_cons,
      offsetsTaken_append, add_assoc]

theorem take_setsOf (base : Int) (groups : List (List Bytes)) (n : Nat) :
    (setsOf base groups).take n = setsOf base (groups.take n) := by
  induction groups generalizing base n with
  | nil => simp [setsOf]
  | cons batches groups ih =>
    cases n with
    | zero => rfl
    | succ n => rw [setsOf, List.take_succ_cons, ih, List.take_succ_cons, setsOf]

theorem payload_setsOf (base : Int) (groups : List (List Bytes)) :
    payload (setsOf base groups) = (renumberedChain base groups.flatten).flatten := by
  induction groups generalizing base with
  | nil => rfl
  | cons batches groups ih =>
    rw [setsOf, payload_cons, ih, List.flatten_cons, renumberedChain_append, List.flatten_append]
    rfl

/-- A request of whole batches takes as many offsets as its batches. -/
theorem estimateRecordCount_chain (h : ∀ batch ∈ batches, ProducedBatch batch) (base : Int) :
    estimateRecordCount (renumberedChain base batches).flatten = offsetsTaken batches := by
  have hwhole : ∀ batch ∈ batches, WholeBatch batch := fun b hb => (h b hb).toWholeBatch
  rw [estimateRecordCount_flatten (wholeBatch_renumberedChain hwhole base),
    offsetsTaken_renumberedChain fun batch hbatch =>
      le_trans (by omega) (hwhole batch hbatch).header]

/-- The record sets lie between `base` and the offset after the last batch. -/
theorem setsOf_bounds (groups : List (List Bytes))
    (h : ∀ batches ∈ groups, batches ≠ [] ∧ ∀ batch ∈ batches, ProducedBatch batch) (base : Int) :
    ∀ recordSet ∈ setsOf base groups, base ≤ recordSet.baseOffset ∧
      recordSet.baseOffset ≤ recordSet.lastOffset ∧
      recordSet.lastOffset < base + offsetsTaken groups.flatten := by
  induction groups generalizing base with
  | nil => simp [setsOf]
  | cons batches groups ih =>
    obtain ⟨hne, hbatches⟩ := h batches List.mem_cons_self
    have hpos := offsetsTaken_pos hne
    have hrest := offsetsTaken_nonneg groups.flatten
    rw [List.flatten_cons, offsetsTaken_append]
    intro recordSet hmem
    rcases List.mem_cons.mp hmem with rfl | hmem
    · have hend := recordSetAt_endOffset base (renumberedChain base batches).flatten
      rw [estimateRecordCount_chain hbatches, RecordSet.endOffset] at hend
      refine ⟨le_refl _, ?_, by omega⟩
      show base ≤ _
      omega
    · obtain ⟨hlo, hmid, hhi⟩ :=
        ih (fun g hg => h g (List.mem_cons_of_mem _ hg)) (base + offsetsTaken batches)
          recordSet hmem
      exact ⟨by omega, hmid, by omega⟩

/-! ### A session -/

structure Session where
  shard : PartitionLogShard
  accepted : List Bytes := []
  offset : Int := 0
  received : Bytes := []

/-- One call: a produce of the given batches, or the consumer's next fetch. -/
inductive SessionCall where
  | produce (batches : List Bytes) (acks : Int)
  | fetch (request : FetchPartitionRequest)

def Session.step (config : BrokerConfig) (answers : String → Bool) (session : Session) :
    SessionCall → Option Session
  | .produce batches acks =>
    (brokerAppend config answers session.shard batches.flatten acks).map fun (shard, result) =>
      { session with
        shard := shard
        accepted :=
          match result with
          | .error _ => session.accepted
          | .ok result =>
            if result.errorCode = .none then session.accepted ++ batches
            else session.accepted }
  | .fetch request =>
    match brokerFetch config session.shard { request with offset := session.offset } with
    | (shard, .error _) => some { session with shard := shard }
    | (shard, .ok result) =>
      some
        { session with
          shard := shard
          offset := nextOffset session.offset result.records
          received := session.received ++ result.records }

/-- The requests among `calls` that the partition's limits let through. -/
def acceptedBy (partition : PartitionConfig) : List SessionCall → List (List Bytes)
  | [] => []
  | .fetch _ :: rest => acceptedBy partition rest
  | .produce batches acks :: rest =>
    if batches.flatten.length ≤ partition.maxFrameBytes ∧ -1 ≤ acks ∧ acks ≤ 1 then
      batches :: acceptedBy partition rest
    else acceptedBy partition rest

/-- A produce carries a non-empty chain of batches that fits in a Kafka frame. -/
def SessionCall.WellFormed : SessionCall → Prop
  | .produce batches _ =>
    batches ≠ [] ∧ (∀ batch ∈ batches, ProducedBatch batch) ∧
      batches.flatten.length ≤ kMaxKafkaFrameBytes
  | .fetch request => 0 < request.maxBytes

/-- A partition whose only replica is this broker. -/
structure SingleReplica (config : BrokerConfig) (partition : PartitionConfig) : Prop where
  valid : ∃ brokerIds, partition.Valid brokerIds
  replicas : partition.replicas = [config.nodeId]

theorem SingleReplica.leader (h : SingleReplica config partition) :
    partition.leader = config.nodeId := by
  obtain ⟨brokerIds, hvalid⟩ := h.valid
  have hmem := hvalid.leader_mem
  rw [h.replicas] at hmem
  exact List.mem_singleton.mp hmem

/-- There is no follower, so replication is over at once, however long the ISR list is. -/
theorem SingleReplica.replicated (h : SingleReplica config partition) (answers : String → Bool) :
    (if partition.isr.length > 1 then replicateToIsr config partition answers else true) =
      true := by
  obtain ⟨brokerIds, hvalid⟩ := h.valid
  have hnone : isrFollowers config.nodeId partition = [] := by
    refine List.filter_eq_nil_iff.mpr ?_
    intro id hid
    have hmem := hvalid.isr_subset id hid
    rw [h.replicas] at hmem
    simp [List.mem_singleton.mp hmem]
  split
  · simp [replicateToIsr, hnone]
  · rfl

section Produce

variable {config : BrokerConfig} (answers : String → Bool) {s : PartitionLogShard}
  {records renumberedRecords : Bytes} {acks : Int} {result : ProducePartitionResult}

/-- A produce the local log accepts, with no follower to wait for. -/
theorem brokerAppend_accepted (h : SingleReplica config s.config)
    (hrenumber : rewriteRecordBatchOffsets records s.offsets.latest = some renumberedRecords)
    {s' : PartitionLogShard} (happend : s.append renumberedRecords acks = (s', .ok result))
    (hresult : result.errorCode = .none) :
    brokerAppend config answers s records acks =
      some ({ s' with
        toLogHead := s'.toLogHead.markReplicatedThrough s'.offsets.latest }, .ok result) := by
  have hreplicated := h.replicated answers
  unfold brokerAppend
  rw [if_neg (not_not.mpr h.leader), hrenumber, Option.map_some]
  simp only [hreplicated, happend, settleAll, hresult, LogHead.afterReplication, if_true,
    ne_eq, not_true_eq_false, if_false]
  split <;> rfl

/-- A produce the local log refuses: only the replica lag and the degraded flag may
    move, because replication "succeeds" all the same when `acks` is not -1. -/
theorem brokerAppend_refused (h : SingleReplica config s.config)
    (hrenumber : rewriteRecordBatchOffsets records s.offsets.latest = some renumberedRecords)
    (happend : s.append renumberedRecords acks = (s, .ok result))
    (hresult : result.errorCode ≠ .none) :
    ∃ head, brokerAppend config answers s records acks =
        some ({ s with toLogHead := head }, .ok result) ∧
      (head = s.toLogHead ∨ head = s.toLogHead.markReplicatedThrough s.offsets.latest) := by
  have hreplicated := h.replicated answers
  unfold brokerAppend
  rw [if_neg (not_not.mpr h.leader), hrenumber, Option.map_some]
  simp only [hreplicated, happend, settleAll, LogHead.afterReplication, if_true]
  by_cases hacks : acks = -1
  · exact ⟨s.toLogHead, by rw [if_pos hacks, if_pos hresult], Or.inl rfl⟩
  · exact ⟨_, by rw [if_neg hacks], Or.inr rfl⟩

end Produce

/-! ### What holds between calls -/

/-- The log holds the record sets of the accepted requests, all of them are visible, and
    the consumer has read the first `read` of them. -/
structure Session.Holds (partition : PartitionConfig) (session : Session)
    (groups : List (List Bytes)) (read : Nat) : Prop where
  accepted : session.accepted = groups.flatten
  batches : ∀ batches ∈ groups, batches ≠ [] ∧ ∀ batch ∈ batches, ProducedBatch batch
  log : session.shard.Appendable (setsOf 0 groups) (offsetsTaken groups.flatten)
  partition : session.shard.config = partition
  offsets : session.shard.offsets =
    ⟨0, offsetsTaken groups.flatten, offsetsTaken groups.flatten⟩
  queue : session.shard.queueDepth = 0
  read_le : read ≤ groups.length
  offset : session.offset = offsetsTaken (groups.take read).flatten
  received : session.received = payload (setsOf 0 (groups.take read))

section Steps

variable {config : BrokerConfig} (answers : String → Bool) {partition : PartitionConfig}
  {session : Session} {groups : List (List Bytes)} {read : Nat} {batches : List Bytes} {acks : Int}

theorem markReplicatedThrough_latest_offsets (head : LogHead)
    (hhw : head.offsets.highWatermark ≤ head.offsets.latest) :
    (head.markReplicatedThrough head.offsets.latest).offsets =
      ⟨head.offsets.earliest, head.offsets.latest, head.offsets.latest⟩ := by
  unfold LogHead.markReplicatedThrough
  simp only [max_eq_right hhw, min_self]

/-- The records of a request, renumbered from the log end on. -/
theorem renumberedChain_facts (hne : batches ≠ [])
    (hbatches : ∀ batch ∈ batches, ProducedBatch batch) (logEnd : Int) :
    rewriteRecordBatchOffsets batches.flatten logEnd =
        some (renumberedChain logEnd batches).flatten ∧
      (renumberedChain logEnd batches).flatten.length = batches.flatten.length ∧
      estimateRecordCount (renumberedChain logEnd batches).flatten = offsetsTaken batches ∧
      (renumberedChain logEnd batches).flatten ≠ [] := by
  have hwhole : ∀ batch ∈ batches, WholeBatch batch := fun b hb => (hbatches b hb).toWholeBatch
  have hrenumber := rewriteRecordBatchOffsets_flatten hwhole logEnd
  have hcount := estimateRecordCount_chain hbatches logEnd
  refine ⟨hrenumber, length_rewriteRecordBatchOffsets hrenumber, hcount, fun hnil => ?_⟩
  rw [hnil, estimateRecordCount_nil] at hcount
  exact absurd hcount (ne_of_lt (offsetsTaken_pos hne))

variable (h : session.Holds partition groups read)

include h

/-- The log's own checks of a request, with nothing in its queue. -/
theorem Session.Holds.admits_iff (hsingle : SingleReplica config partition) {records : Bytes} :
    session.shard.toLogHead.Admits records acks ↔
      records.length ≤ partition.maxFrameBytes ∧ -1 ≤ acks ∧ acks ≤ 1 := by
  obtain ⟨brokerIds, hvalid⟩ := hsingle.valid
  unfold LogHead.Admits
  rw [h.partition, h.queue]
  exact ⟨fun ⟨hsize, _, hacks⟩ => ⟨hsize, hacks⟩,
    fun ⟨hsize, hacks⟩ => ⟨hsize, hvalid.queueLimit_pos, hacks⟩⟩

theorem Session.Holds.latest : session.shard.offsets.latest = offsetsTaken groups.flatten := by
  rw [h.offsets]

/-- An accepted request is behind the others, and visible. -/
theorem Session.Holds.extend (hne : batches ≠ [])
    (hbatches : ∀ batch ∈ batches, ProducedBatch batch) {s' : PartitionLogShard}
    (hlog : s'.Appendable (setsOf 0 (groups ++ [batches]))
      (offsetsTaken (groups ++ [batches]).flatten))
    (hhead : s'.toLogHead = (session.shard.toLogHead.appended
      (renumberedChain (offsetsTaken groups.flatten) batches).flatten).settle) :
    Session.Holds partition
      { session with
        shard := { s' with toLogHead := s'.toLogHead.markReplicatedThrough s'.offsets.latest }
        accepted := session.accepted ++ batches }
      (groups ++ [batches]) read := by
  have hflat : (groups ++ [batches]).flatten = groups.flatten ++ batches := by simp
  have htake : (groups ++ [batches]).take read = groups.take read :=
    List.take_append_of_le_length h.read_le
  have hcount := (renumberedChain_facts hne hbatches (offsetsTaken groups.flatten)).2.2.1
  have hlatest : s'.offsets.latest = offsetsTaken groups.flatten + offsetsTaken batches := by
    rw [hhead, LogHead.settle_offsets, LogHead.appended_latest, h.latest, hcount]
  have hearliest : s'.offsets.earliest = 0 := by
    rw [hhead]
    exact congrArg PartitionOffsets.earliest h.offsets
  have hhw : s'.offsets.highWatermark ≤ s'.offsets.latest := by
    have hpos := offsetsTaken_pos hne
    rw [hlatest, hhead, LogHead.settle_offsets]
    unfold LogHead.appended
    simp only
    split
    · rw [h.latest, hcount]
    · rw [h.offsets]
      exact le_add_of_nonneg_right (le_of_lt hpos)
  exact
    { accepted := by rw [hflat, h.accepted]
      batches := ListRules.forall_mem_concat.mpr ⟨h.batches, hne, hbatches⟩
      log := hlog.withHead _
      partition := by
        show (s'.toLogHead.markReplicatedThrough s'.offsets.latest).config = partition
        rw [LogHead.markReplicatedThrough_config, hhead, LogHead.settle_config,
          LogHead.appended_config]
        exact h.partition
      offsets := by
        show (s'.toLogHead.markReplicatedThrough s'.offsets.latest).offsets = _
        rw [markReplicatedThrough_latest_offsets s'.toLogHead hhw, hearliest, hlatest, hflat,
          offsetsTaken_append]
      queue := by
        show (s'.toLogHead).queueDepth = 0
        rw [hhead]
        exact congrArg (fun n => n + 1 - 1) h.queue
      read_le := by
        rw [List.length_append]
        exact le_trans h.read_le (Nat.le_add_right _ _)
      offset := by rw [htake]; exact h.offset
      received := by rw [htake]; exact h.received }

theorem Session.Holds.produce_accepted (hsingle : SingleReplica config partition)
    (hcall : (SessionCall.produce batches acks).WellFormed)
    (hrange : offsetsTaken groups.flatten < 2 ^ 63)
    (haccepted : batches.flatten.length ≤ partition.maxFrameBytes ∧ -1 ≤ acks ∧ acks ≤ 1) :
    ∃ session', session.step config answers (.produce batches acks) = some session' ∧
      session'.Holds partition (groups ++ [batches]) read := by
  obtain ⟨hne, hbatches, hframe⟩ := hcall
  obtain ⟨hrenumber, hlen, hcount, hrecords⟩ :=
    renumberedChain_facts hne hbatches (offsetsTaken groups.flatten)
  have hnonneg := offsetsTaken_nonneg groups.flatten
  have hadmits := (h.admits_iff hsingle).mpr (hlen ▸ haccepted)
  have hlog := h.log
  rw [← h.latest] at hlog
  obtain ⟨s', happend, hlog', hhead⟩ := hlog.append hadmits hrecords
    (by unfold kMaxKafkaFrameBytes at hframe; omega) (by rw [h.latest]; exact ⟨by omega, hrange⟩)
  have hresponse := LogHead.append_of_admits hadmits
  have hbroker := brokerAppend_accepted answers (h.partition ▸ hsingle)
    (by rw [h.latest]; exact hrenumber) happend (by rw [hresponse])
  refine ⟨_, ?_, h.extend hne hbatches ?_ hhead⟩
  · simp only [Session.step, hbroker, hresponse, Option.map_some, if_true]
  · rw [h.latest, hcount] at hlog'
    have hflat : (groups ++ [batches]).flatten = groups.flatten ++ batches := by simp
    rw [setsOf_append, hflat, offsetsTaken_append, zero_add]
    exact hlog'

theorem Session.Holds.produce_refused (hsingle : SingleReplica config partition)
    (hcall : (SessionCall.produce batches acks).WellFormed)
    (hrefused : ¬ (batches.flatten.length ≤ partition.maxFrameBytes ∧ -1 ≤ acks ∧ acks ≤ 1)) :
    ∃ session', session.step config answers (.produce batches acks) = some session' ∧
      session'.Holds partition groups read := by
  obtain ⟨hne, hbatches, -⟩ := hcall
  obtain ⟨hrenumber, hlen, -⟩ := renumberedChain_facts hne hbatches (offsetsTaken groups.flatten)
  have hadmits := mt (h.admits_iff hsingle).mp (hlen ▸ hrefused)
  have herror := (LogHead.append_of_not_admits hadmits).2.2
  obtain ⟨head, hbroker, hhead⟩ := brokerAppend_refused answers (h.partition ▸ hsingle)
    (by rw [h.latest]; exact hrenumber) (PartitionLogShard.append_of_not_admits hadmits) herror
  have hsame : head.config = session.shard.config ∧ head.offsets = session.shard.offsets ∧
      head.queueDepth = session.shard.queueDepth := by
    rcases hhead with rfl | rfl
    · exact ⟨rfl, rfl, rfl⟩
    · refine ⟨rfl, ?_, rfl⟩
      rw [markReplicatedThrough_latest_offsets _ (by rw [h.offsets]), h.offsets]
  refine ⟨{ session with shard := { session.shard with toLogHead := head } }, ?_, ?_⟩
  · simp only [Session.step, hbroker, Option.map_some, if_neg herror]
  · exact
      { h with
        log := h.log.withHead head
        partition := hsame.1.trans h.partition
        offsets := hsame.2.1.trans h.offsets
        queue := hsame.2.2.trans h.queue }

theorem Session.Holds.produce (hsingle : SingleReplica config partition)
    (hcall : (SessionCall.produce batches acks).WellFormed)
    (hrange : offsetsTaken groups.flatten < 2 ^ 63) :
    ∃ session', session.step config answers (.produce batches acks) = some session' ∧
      session'.Holds partition
        (if batches.flatten.length ≤ partition.maxFrameBytes ∧ -1 ≤ acks ∧ acks ≤ 1 then
          groups ++ [batches] else groups) read := by
  split
  · next haccepted => exact h.produce_accepted answers hsingle hcall hrange haccepted
  · next hrefused => exact h.produce_refused answers hsingle hcall hrefused

/-- What the consumer's fetch reads: the record sets from its position on, at least one
    if there is one. -/
theorem Session.Holds.fetch (maxBytes : Int) :
    ∃ n cache, read + n ≤ groups.length ∧ (read < groups.length → 1 ≤ n) ∧
      session.shard.fetch session.offset maxBytes =
        ({ session.shard with segmentCache := cache },
          .ok
            { highWatermark := offsetsTaken groups.flatten
              logStartOffset := 0
              logEndOffset := offsetsTaken groups.flatten
              records := payload (setsOf session.offset ((groups.drop read).take n)) }) ∧
      ∀ cached ∈ cache, cached.2 = cached.1 := by
  have hsplit : groups.take read ++ groups.drop read = groups := List.take_append_drop read groups
  have hsum : offsetsTaken (groups.take read).flatten + offsetsTaken (groups.drop read).flatten =
      offsetsTaken groups.flatten := by
    rw [← offsetsTaken_append, ← List.flatten_append, hsplit]
  have hfront := offsetsTaken_nonneg (groups.take read).flatten
  have hback := offsetsTaken_nonneg (groups.drop read).flatten
  have hsets : setsOf 0 groups =
      setsOf 0 (groups.take read) ++ setsOf session.offset (groups.drop read) := by
    rw [h.offset, ← zero_add (offsetsTaken _), ← setsOf_append, hsplit]
  have hfrontBounds := setsOf_bounds (groups.take read)
    (fun g hg => h.batches g (List.mem_of_mem_take hg)) 0
  have hbackBounds := setsOf_bounds (groups.drop read)
    (fun g hg => h.batches g (List.mem_of_mem_drop hg)) session.offset
  -- the sets before the consumer's offset are skipped, the others are not
  have hfrom : setsFrom session.offset (setsOf 0 groups) =
      setsOf session.offset (groups.drop read) := by
    rw [hsets]
    refine setsFrom_append (fun r hr => ?_) (fun r hr => ?_)
    · have := (hfrontBounds r hr).2.2
      rwa [zero_add, ← h.offset] at this
    · obtain ⟨hlo, hmid, -⟩ := hbackBounds r hr
      exact le_trans hlo hmid
  have hvisible : session.shard.visibleEnd = offsetsTaken groups.flatten := by
    unfold PartitionLogShard.visibleEnd
    rw [h.offsets]
    split <;> rfl
  obtain ⟨cache, hread, hcache⟩ := readRecordsFromIndex_eq h.log.toHoldsLog session.offset
    session.shard.visibleEnd (session.shard.fetchLimit maxBytes)
  have hinRange : ¬ (session.offset < session.shard.offsets.earliest ∨
      session.offset > session.shard.offsets.latest) := by
    rw [h.offsets, h.offset]
    simp only
    omega
  obtain ⟨n, hn, hprogress, htake⟩ : ∃ n ≤ (groups.drop read).length,
      (read < groups.length → 1 ≤ n) ∧
      takeWithin session.shard.visibleEnd (session.shard.fetchLimit maxBytes) []
          (setsOf session.offset (groups.drop read)) =
        payload (setsOf session.offset ((groups.drop read).take n)) := by
    cases hrest : setsOf session.offset (groups.drop read) with
    | nil =>
      have hlen := length_setsOf session.offset (groups.drop read)
      rw [hrest, List.length_nil, List.length_drop] at hlen
      exact ⟨0, Nat.zero_le _, fun hlt => by omega, rfl⟩
    | cons first rest =>
      have hfirst := hbackBounds first (by rw [hrest]; exact List.mem_cons_self)
      rw [h.offset, hsum, ← hvisible] at hfirst
      obtain ⟨n, hn, hone, htake⟩ := takeWithin_progress (session.shard.fetchLimit maxBytes) rest
        ⟨lt_of_le_of_lt hfirst.2.1 hfirst.2.2, hfirst.2.2⟩
      rw [← hrest, length_setsOf] at hn
      refine ⟨n, hn, fun _ => hone, ?_⟩
      rw [htake, ← hrest, take_setsOf]
  refine ⟨n, cache, by rw [List.length_drop] at hn; have := h.read_le; omega, hprogress, ?_, hcache⟩
  rw [hvisible] at hread htake
  unfold PartitionLogShard.fetch
  rw [if_neg hinRange]
  simp only [hvisible, hread, hfrom, htake, h.offsets, Except.map]

theorem Session.Holds.withCache {cache : List (Int × Int)}
    (hcache : ∀ cached ∈ cache, cached.2 = cached.1) :
    { session with shard := { session.shard with segmentCache := cache } }.Holds partition groups
      read :=
  { h with
    log := h.log.withCache hcache
    partition := h.partition
    offsets := h.offsets
    queue := h.queue }

/-- The consumer advances past what it was given. -/
theorem Session.Holds.advance (hrange : offsetsTaken groups.flatten < 2 ^ 63) {n : Nat}
    (hn : read + n ≤ groups.length) :
    { session with
      offset := nextOffset session.offset
        (payload (setsOf session.offset ((groups.drop read).take n)))
      received := session.received ++
        payload (setsOf session.offset ((groups.drop read).take n)) }.Holds
      partition groups (read + n) := by
  have htake : groups.take (read + n) = groups.take read ++ (groups.drop read).take n :=
    List.take_add
  have hrest : groups.take (read + n) ++ groups.drop (read + n) = groups :=
    List.take_append_drop _ _
  have hbatches : ∀ batch ∈ ((groups.drop read).take n).flatten, ProducedBatch batch := by
    intro batch hbatch
    obtain ⟨g, hg, hmem⟩ := List.mem_flatten.mp hbatch
    exact (h.batches g (List.mem_of_mem_drop (List.mem_of_mem_take hg))).2 batch hmem
  have hsum : session.offset + offsetsTaken ((groups.drop read).take n).flatten =
      offsetsTaken (groups.take (read + n)).flatten := by
    rw [h.offset, htake, List.flatten_append, offsetsTaken_append]
  have hle : offsetsTaken (groups.take (read + n)).flatten ≤ offsetsTaken groups.flatten := by
    have := offsetsTaken_nonneg (groups.drop (read + n)).flatten
    conv_rhs => rw [← hrest, List.flatten_append, offsetsTaken_append]
    omega
  have hnext := nextOffset_chain hbatches session.offset
    (by rw [h.offset]; exact offsetsTaken_nonneg _) (by rw [hsum]; omega)
  exact
    { h with
      log := h.log
      read_le := hn
      offset := by
        show nextOffset _ _ = _
        rw [payload_setsOf, hnext, hsum]
      received := by
        show _ ++ _ = _
        rw [htake, setsOf_append, payload_append, zero_add, ← h.offset, ← h.received] }

/-- The broker passes the log's answer on. -/
theorem Session.Holds.brokerFetch (hsingle : SingleReplica config partition)
    (request : FetchPartitionRequest) :
    ∃ n cache result, read + n ≤ groups.length ∧ (read < groups.length → 1 ≤ n) ∧
      brokerFetch config session.shard { request with offset := session.offset } =
        ({ session.shard with segmentCache := cache }, .ok result) ∧
      result.records = payload (setsOf session.offset ((groups.drop read).take n)) ∧
      ∀ cached ∈ cache, cached.2 = cached.1 := by
  obtain ⟨n, cache, hn, hprogress, hfetch, hcache⟩ := h.fetch request.maxBytes
  -- the second read, if there is one, sees the same log with the cache moved
  obtain ⟨m, cache', hm, hprogress', hagain, hcache'⟩ := (h.withCache hcache).fetch request.maxBytes
  have hallowed : ¬ (config.nodeId ∉ session.shard.config.replicas ∨
      (session.shard.config.leader ≠ config.nodeId ∧
        session.shard.config.allowFollowerFetch = false)) := by
    rw [h.partition, hsingle.replicas, hsingle.leader]
    simp
  unfold Mkmq.brokerFetch
  rw [if_neg hallowed]
  simp only [hfetch]
  split
  · exact ⟨n, cache, _, hn, hprogress, rfl, rfl, hcache⟩
  · exact ⟨m, cache', _, hm, hprogress', hagain, rfl, hcache'⟩

theorem Session.Holds.fetchStep (hsingle : SingleReplica config partition)
    (hrange : offsetsTaken groups.flatten < 2 ^ 63) (request : FetchPartitionRequest) :
    ∃ session' n, session.step config answers (.fetch request) = some session' ∧
      session'.Holds partition groups (read + n) ∧ (read < groups.length → 1 ≤ n) := by
  obtain ⟨n, cache, result, hn, hprogress, hfetch, hrecords, hcache⟩ :=
    h.brokerFetch hsingle request
  refine ⟨_, n, ?_, (h.withCache hcache).advance hrange hn, hprogress⟩
  simp only [Session.step, hfetch, hrecords]

end Steps

/-! ### Whole sessions -/

section Sessions

variable {config : BrokerConfig} (answers : String → Bool) {partition : PartitionConfig}
  {groups : List (List Bytes)} {session : Session}

/-- The session before the first call. -/
def Session.start (partition : PartitionConfig) (segmentBytes alignment : Nat)
    (halign : 0 < alignment) : Session where
  shard := PartitionLogShard.fresh partition segmentBytes alignment halign

theorem Session.start_holds (partition : PartitionConfig) (segmentBytes alignment : Nat)
    (halign : 0 < alignment) :
    (Session.start partition segmentBytes alignment halign).Holds partition [] 0 where
  accepted := rfl
  batches := by simp
  log := PartitionLogShard.appendable_fresh partition segmentBytes alignment halign
  partition := rfl
  offsets := rfl
  queue := rfl
  read_le := le_refl 0
  offset := rfl
  received := rfl

/-- Any calls, accepted or not, keep `Holds`. -/
theorem Session.Holds.run {read : Nat} (h : session.Holds partition groups read)
    (hsingle : SingleReplica config partition) (calls : List SessionCall)
    (hcalls : ∀ call ∈ calls, call.WellFormed)
    (hrange : offsetsTaken (groups ++ acceptedBy partition calls).flatten < 2 ^ 63) :
    ∃ session' read', Transition.run (Session.step config answers) session calls = some session' ∧
      session'.Holds partition (groups ++ acceptedBy partition calls) read' := by
  induction calls generalizing session groups read with
  | nil => exact ⟨session, read, rfl, by simpa [acceptedBy] using h⟩
  | cons call calls ih =>
    have hcall := hcalls call List.mem_cons_self
    have hrest : ∀ c ∈ calls, c.WellFormed := fun c hc => hcalls c (List.mem_cons_of_mem _ hc)
    have hbefore : offsetsTaken groups.flatten < 2 ^ 63 := by
      have := offsetsTaken_nonneg (acceptedBy partition (call :: calls)).flatten
      rw [List.flatten_append, offsetsTaken_append] at hrange
      omega
    cases call with
    | produce batches acks =>
      obtain ⟨session', hstep, hholds⟩ := h.produce answers hsingle hcall hbefore
      have hgroups : groups ++ acceptedBy partition (.produce batches acks :: calls) =
          (if batches.flatten.length ≤ partition.maxFrameBytes ∧ -1 ≤ acks ∧ acks ≤ 1 then
            groups ++ [batches] else groups) ++ acceptedBy partition calls := by
        rw [acceptedBy]
        split <;> simp
      rw [hgroups] at hrange ⊢
      rw [Transition.run_cons hstep]
      exact ih hholds hrest hrange
    | fetch request =>
      obtain ⟨session', n, hstep, hholds, -⟩ := h.fetchStep answers hsingle hbefore request
      rw [Transition.run_cons hstep]
      exact ih hholds hrest hrange

/-- Enough fetches read everything. -/
theorem Session.Holds.drain {read : Nat} (h : session.Holds partition groups read)
    (hsingle : SingleReplica config partition) (hrange : offsetsTaken groups.flatten < 2 ^ 63)
    (requests : List FetchPartitionRequest) (henough : groups.length ≤ read + requests.length) :
    ∃ session', Transition.run (Session.step config answers) session
        (requests.map SessionCall.fetch) = some session' ∧
      session'.Holds partition groups groups.length := by
  induction requests generalizing session read with
  | nil =>
    have hread : read = groups.length := le_antisymm h.read_le (by simpa using henough)
    exact ⟨session, rfl, hread ▸ h⟩
  | cons request requests ih =>
    obtain ⟨session', n, hstep, hholds, hprogress⟩ := h.fetchStep answers hsingle hrange request
    rw [List.map_cons, Transition.run_cons hstep]
    refine ih hholds ?_
    rw [List.length_cons] at henough
    by_cases hlt : read < groups.length
    · have := hprogress hlt
      omega
    · omega

/-- **Produce/fetch end to end.**  Whatever calls a producer and a consumer make, one at a
    time, on a single-replica partition: no call is without a defined result; the accepted
    batches are those of the requests within the partition's limits; the consumer has
    received a prefix of them, renumbered consecutively from 0; and as many further fetches
    as there are accepted batches bring it all of them. -/
theorem session_delivers_accepted (config : BrokerConfig) (answers : String → Bool)
    (partition : PartitionConfig) (hsingle : SingleReplica config partition)
    (segmentBytes alignment : Nat) (halign : 0 < alignment) (calls : List SessionCall)
    (hcalls : ∀ call ∈ calls, call.WellFormed)
    (hrange : offsetsTaken (acceptedBy partition calls).flatten < 2 ^ 63) :
    ∃ session,
      Transition.run (Session.step config answers)
        (Session.start partition segmentBytes alignment halign) calls = some session ∧
      session.accepted = (acceptedBy partition calls).flatten ∧
      session.received <+: (renumberedChain 0 session.accepted).flatten ∧
      ∀ requests : List FetchPartitionRequest, session.accepted.length ≤ requests.length →
        ∃ final,
          Transition.run (Session.step config answers) session
            (requests.map SessionCall.fetch) = some final ∧
          final.received = (renumberedChain 0 session.accepted).flatten := by
  obtain ⟨session, read, hrun, hholds⟩ := (Session.start_holds partition segmentBytes alignment
    halign).run answers hsingle calls hcalls (by simpa using hrange)
  rw [List.nil_append] at hholds
  set groups := acceptedBy partition calls with hgroups
  refine ⟨session, hrun, hholds.accepted, ?_, ?_⟩
  · rw [hholds.received, hholds.accepted, payload_setsOf]
    conv_rhs => rw [← List.take_append_drop read groups, List.flatten_append,
      renumberedChain_append, List.flatten_append]
    exact List.prefix_append _ _
  · intro requests henough
    have hlen : groups.length ≤ requests.length := by
      refine le_trans ?_ henough
      rw [hholds.accepted]
      exact length_le_length_flatten_of_ne_nil fun g hg => (hholds.batches g hg).1
    obtain ⟨final, hfinal, hall⟩ := hholds.drain answers hsingle hrange requests
      (le_trans hlen (Nat.le_add_left _ _))
    refine ⟨final, hfinal, ?_⟩
    rw [hall.received, List.take_length, payload_setsOf, hholds.accepted]

/-- The smallest batch: a header that says it takes one offset, and no records. -/
def headerOnlyBatch : Bytes :=
  List.replicate 8 0 ++ [0, 0, 0, 49] ++ List.replicate 49 0

theorem headerOnlyBatch_produced : ProducedBatch headerOnlyBatch where
  header := by decide
  lengthField := by decide
  delta := by decide

theorem session_delivers_headerOnlyBatch :
    ∃ session final,
      Transition.run (Session.step { nodeId := 1 } fun _ => false)
        (Session.start { replicas := [1], isr := [1], leader := 1 } 4096 512 (by decide))
        [.produce [headerOnlyBatch, headerOnlyBatch] 1] = some session ∧
      Transition.run (Session.step { nodeId := 1 } fun _ => false) session
        [.fetch { maxBytes := 1 }, .fetch { maxBytes := 1 }] = some final ∧
      final.received = (renumberedChain 0 [headerOnlyBatch, headerOnlyBatch]).flatten := by
  have hvalid : PartitionConfig.Valid [1] { replicas := [1], isr := [1], leader := 1 } := by
    constructor <;> simp
  obtain ⟨session, hrun, haccepted, -, hall⟩ :=
    session_delivers_accepted { nodeId := 1 } (fun _ => false)
      { replicas := [1], isr := [1], leader := 1 } ⟨⟨[1], hvalid⟩, rfl⟩ 4096 512 (by decide)
      [.produce [headerOnlyBatch, headerOnlyBatch] 1]
      (by
        intro call hcall
        obtain rfl := List.mem_singleton.mp hcall
        refine ⟨by simp, ?_, by decide +kernel⟩
        intro batch hbatch
        obtain rfl : batch = headerOnlyBatch := by simpa using hbatch
        exact headerOnlyBatch_produced)
      (by decide +kernel)
  have hbatches : session.accepted = [headerOnlyBatch, headerOnlyBatch] := by
    rw [haccepted]
    decide +kernel
  obtain ⟨final, hfinal, hreceived⟩ :=
    hall [{ maxBytes := 1 }, { maxBytes := 1 }] (by rw [hbatches]; decide)
  exact ⟨session, final, hrun, hfinal, by rw [hreceived, hbatches]⟩

end Sessions

end Mkmq
