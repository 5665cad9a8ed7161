import Mkmq.BatchWalks
import Mkmq.LogHead

/-!
# Turning away idempotent and transactional producers

The broker keeps no state of producers, so a produce request that relies on it must not be
accepted.  `to_broker_produce_request` turns the decoded request into the broker's own and
marks it as rejected when it has a transactional id, or when one of its batches names a
producer (`src/kafka_protocol.cpp`).  `has_idempotent_record_batch` looks for such a batch
along the length fields, as the renumbering does afterwards, but asks for the 61 bytes of
a whole header where the renumbering asks for 57.
-/

namespace Mkmq

open ByteCodec ChainWalk

/-! ### The producer fields of a batch -/

def producerId (rest : Bytes) : Int := signed 64 (beNat (slice rest 43 8))

def producerEpoch (rest : Bytes) : Int := signed 16 (beNat (slice rest 51 2))

def baseSequence (rest : Bytes) : Int := signed 32 (beNat (slice rest 53 4))

/-- The batch at the head of `rest` names a producer. -/
def NamesProducer (rest : Bytes) : Prop :=
  producerId rest ≠ -1 ∨ producerEpoch rest ≠ -1 ∨ baseSequence rest ≠ -1

instance (rest : Bytes) : Decidable (NamesProducer rest) := by
  unfold NamesProducer
  infer_instance

/-- The loop of `has_idempotent_record_batch`. -/
def idempotentLoop : Nat → Bytes → Bool
  | 0, _ => false
  | fuel + 1, rest =>
    if 61 ≤ rest.length then
      let batchLength := signed 32 (batchLengthField rest)
      if batchLength ≤ 0 then false
      else
        let totalBatchSize := batchLength.toNat + 12
        if totalBatchSize > rest.length then false
        else if NamesProducer rest then true
        else idempotentLoop fuel (rest.drop totalBatchSize)
    else false

def hasIdempotentRecordBatch (records : Bytes) : Bool := idempotentLoop records.length records

/-- The batches the guard looks at. -/
def guardCut : Cut UInt8 := signedCut 61

theorem idempotentLoop_eq {fuel : Nat} {records : Bytes} (hfuel : records.length ≤ fuel) :
    idempotentLoop fuel records = true ↔ ∃ rest ∈ guardCut.visits records, NamesProducer rest := by
  induction records using guardCut.induction generalizing fuel with
  | stop rest hsize =>
    have hno : ¬ (61 ≤ rest.length ∧ 0 < signed 32 (batchLengthField rest) ∧
        (signed 32 (batchLengthField rest)).toNat + 12 ≤ rest.length) :=
      signedSize_eq_none_iff.mp hsize
    have hfalse : idempotentLoop fuel rest = false := by
      cases fuel with
      | zero => rfl
      | succ fuel =>
        rw [idempotentLoop]
        split
        · simp only
          split
          · rfl
          · rw [if_pos (by omega)]
        · rfl
    rw [hfalse, Cut.visits_of_none hsize]
    simp only [Bool.false_eq_true, List.not_mem_nil, false_and, exists_const]
  | piece rest n hsize ih =>
    obtain ⟨hheader, hpos, hn, hfits⟩ := signedSize_eq_some_iff.mp hsize
    have hlt := Cut.length_drop_lt hsize
    obtain ⟨fuel, rfl⟩ : ∃ m, fuel = m + 1 := ⟨fuel - 1, by omega⟩
    have hlater := ih (by omega : (rest.drop n).length ≤ fuel)
    rw [idempotentLoop, if_pos hheader]
    simp only [← hn]
    rw [if_neg (by omega), if_neg (by omega), Cut.visits_of_some hsize, List.exists_mem_cons_iff,
      ← hlater]
    split
    · next hnames => simp only [hnames, true_or]
    · next hnames => simp only [hnames, false_or]

/-- **The guard finds the batches that name a producer among those it looks at.** -/
theorem hasIdempotentRecordBatch_iff (records : Bytes) :
    hasIdempotentRecordBatch records = true ↔
      ∃ rest ∈ guardCut.visits records, NamesProducer rest :=
  idempotentLoop_eq (le_refl _)

/-- The guard looks at those batches of the renumbering that start at least 61 bytes before
    the end. -/
theorem mem_guardVisits_iff {records rest : Bytes} :
    rest ∈ guardCut.visits records ↔ rest ∈ rewriteCut.visits records ∧ 61 ≤ rest.length := by
  have hstrict : ∀ l n, guardCut.size l = some n → rewriteCut.size l = some n := by
    intro l n hsize
    obtain ⟨hheader, hbatch⟩ := signedSize_eq_some_iff.mp hsize
    exact signedSize_eq_some_iff.mpr ⟨by omega, hbatch⟩
  rw [rewriteCut.visits_append hstrict, List.mem_append]
  constructor
  · intro hrest
    obtain ⟨-, n, hsize⟩ := guardCut.mem_visits hrest
    exact ⟨Or.inl hrest, (signedSize_eq_some_iff.mp hsize).1⟩
  · rintro ⟨hguard | hlater, hlong⟩
    · exact hguard
    · exfalso
      have hstop := guardCut.size_rest records
      obtain ⟨hle, n, hsize⟩ := rewriteCut.mem_visits hlater
      -- what the guard left is long enough for it, so the renumbering ends there too
      have hnone : rewriteCut.size (guardCut.rest records) = none := by
        cases hmore : rewriteCut.size (guardCut.rest records) with
        | none => rfl
        | some m =>
          have hbatch := (signedSize_eq_some_iff.mp hmore).2
          have hguard := signedSize_eq_some_iff.mpr ⟨(by omega : 61 ≤ _), hbatch⟩
          exact absurd (hstop.symm.trans hguard) (Option.some_ne_none m).symm
      rw [Cut.visits_of_none hnone] at hlater
      exact absurd hlater List.not_mem_nil

/-! ### The request -/

structure ProduceRequestPartition where
  partitionIndex : Int := 0
  records : Bytes
deriving DecidableEq, Repr

structure ProduceRequestTopic where
  name : String
  partitions : List ProduceRequestPartition
deriving DecidableEq, Repr

/-- `generated::codec::ProduceRequest`, as it was decoded. -/
structure WireProduceRequest where
  transactionalId : Option String := none
  acks : Int := 1
  timeoutMs : Int := 0
  topics : List ProduceRequestTopic
deriving DecidableEq, Repr

structure ProducePartitionRequest where
  topic : String
  partition : Int
  records : Bytes
deriving DecidableEq, Repr

/-- The broker's own `ProduceRequest`. -/
structure ProduceRequest where
  acks : Int := 1
  timeoutMs : Int := 0
  rejectedErrorCode : ErrorCode := .none
  partitions : List ProducePartitionRequest := []
deriving DecidableEq, Repr

/-- The body of the inner loop. -/
def ProduceRequest.add (topic : String) (request : ProduceRequest)
    (wirePartition : ProduceRequestPartition) : ProduceRequest :=
  { request with
    rejectedErrorCode :=
      if request.rejectedErrorCode = .none ∧ hasIdempotentRecordBatch wirePartition.records then
        .invalidRequest
      else request.rejectedErrorCode
    partitions := request.partitions ++
      [⟨topic, wirePartition.partitionIndex, wirePartition.records⟩] }

def toBrokerProduceRequest (wire : WireProduceRequest) : ProduceRequest :=
  wire.topics.foldl
    (fun request topic => topic.partitions.foldl (ProduceRequest.add topic.name) request)
    { acks := wire.acks
      timeoutMs := wire.timeoutMs
      rejectedErrorCode := if wire.transactionalId.isSome then .invalidRequest else .none }

/-- The partitions of a decoded request. -/
def WireProduceRequest.partitions (wire : WireProduceRequest) : List ProducePartitionRequest :=
  wire.topics.flatMap fun topic =>
    topic.partitions.map fun p => ⟨topic.name, p.partitionIndex, p.records⟩

/-- What the inner loop has done. -/
theorem foldl_add (topic : String) (partitions : List ProduceRequestPartition)
    (request : ProduceRequest) :
    (partitions.foldl (ProduceRequest.add topic) request).partitions =
        request.partitions ++ partitions.map (fun p => ⟨topic, p.partitionIndex, p.records⟩) ∧
      ((partitions.foldl (ProduceRequest.add topic) request).rejectedErrorCode = .none ↔
        request.rejectedErrorCode = .none ∧
          ∀ p ∈ partitions, hasIdempotentRecordBatch p.records = false) := by
  induction partitions generalizing request with
  | nil => simp only [List.foldl_nil, List.map_nil, List.append_nil, List.not_mem_nil,
      false_implies, implies_true, and_true, and_self]
  | cons first partitions ih =>
    obtain ⟨hpartitions, hrejected⟩ := ih (request.add topic first)
    rw [List.foldl_cons]
    refine ⟨?_, ?_⟩
    · rw [hpartitions, ProduceRequest.add, List.append_assoc, List.map_cons,
        List.singleton_append]
    · rw [hrejected, List.forall_mem_cons, ← and_assoc]
      refine and_congr_left fun _ => ?_
      unfold ProduceRequest.add
      simp only
      cases hasIdempotentRecordBatch first.records with
      | true =>
        simp only [and_true, Bool.true_eq_false, and_false, iff_false]
        split
        · exact ErrorCode.noConfusion
        · next hne => exact hne
      | false => simp only [Bool.false_eq_true, and_false, if_false, and_true]

/-- What both loops have done. -/
theorem foldl_topics (topics : List ProduceRequestTopic) (request : ProduceRequest) :
    let result := topics.foldl
      (fun request topic => topic.partitions.foldl (ProduceRequest.add topic.name) request) request
    let added := topics.flatMap fun topic =>
      topic.partitions.map fun p =>
        (⟨topic.name, p.partitionIndex, p.records⟩ : ProducePartitionRequest)
    result.partitions = request.partitions ++ added ∧
      (result.rejectedErrorCode = .none ↔ request.rejectedErrorCode = .none ∧
        ∀ p ∈ added, hasIdempotentRecordBatch p.records = false) := by
  induction topics generalizing request with
  | nil => simp only [List.foldl_nil, List.flatMap_nil, List.append_nil, List.not_mem_nil,
      false_implies, implies_true, and_true, and_self]
  | cons topic topics ih =>
    obtain ⟨hfirst, hrejected⟩ := foldl_add topic.name topic.partitions request
    obtain ⟨hpartitions, hlater⟩ :=
      ih (topic.partitions.foldl (ProduceRequest.add topic.name) request)
    simp only [List.foldl_cons, List.flatMap_cons] at hpartitions hlater ⊢
    refine ⟨?_, ?_⟩
    · rw [hpartitions, hfirst, List.append_assoc]
    · rw [hlater, hrejected, List.forall_mem_append, List.forall_mem_map, and_assoc]

/-- The request is passed on with its partitions, and not rejected when it has no
    transactional id and the guard finds nothing in any of them. -/
theorem toBrokerProduceRequest_spec (wire : WireProduceRequest) :
    (toBrokerProduceRequest wire).partitions = wire.partitions ∧
      ((toBrokerProduceRequest wire).rejectedErrorCode = .none ↔
        wire.transactionalId = none ∧
          ∀ p ∈ wire.partitions, hasIdempotentRecordBatch p.records = false) := by
  obtain ⟨hpartitions, hrejected⟩ := foldl_topics wire.topics
    { acks := wire.acks, timeoutMs := wire.timeoutMs,
      rejectedErrorCode := if wire.transactionalId.isSome then .invalidRequest else .none }
  refine ⟨hpartitions, hrejected.trans (and_congr_left fun _ => ?_)⟩
  cases wire.transactionalId with
  | none => simp only [Option.isSome_none, Bool.false_eq_true, if_false]
  | some id => simp only [Option.isSome_some, if_true, reduceCtorEq]

/-! ### What gets past the guard -/

/-- A batch of the partition that is renumbered on append names a producer. -/
def ProducePartitionRequest.NamesProducer (partition : ProducePartitionRequest) : Prop :=
  ∃ rest ∈ rewriteCut.visits partition.records, Mkmq.NamesProducer rest

/-- Nothing that names a producer is accepted, and a request is rejected for nothing else
    than that and its transactional id. -/
structure GuardComplete (wire : WireProduceRequest) : Prop where
  accepted : (toBrokerProduceRequest wire).rejectedErrorCode = .none →
    ∀ partition ∈ (toBrokerProduceRequest wire).partitions, ¬ partition.NamesProducer
  passes : wire.transactionalId = none →
    (∀ partition ∈ (toBrokerProduceRequest wire).partitions, ¬ partition.NamesProducer) →
    (toBrokerProduceRequest wire).rejectedErrorCode = .none

/-- The guard only finds what names a producer. -/
theorem namesProducer_of_hasIdempotent {partition : ProducePartitionRequest}
    (h : hasIdempotentRecordBatch partition.records = true) : partition.NamesProducer := by
  obtain ⟨rest, hrest, hnames⟩ := (hasIdempotentRecordBatch_iff _).mp h
  exact ⟨rest, (mem_guardVisits_iff.mp hrest).1, hnames⟩

/-- **The guard is complete exactly when no batch that starts in the last 60 bytes of its
    records names a producer**, unless the request is rejected for another batch or its
    transactional id. -/
theorem guardComplete_iff (wire : WireProduceRequest) :
    GuardComplete wire ↔
      (wire.transactionalId ≠ none ∨
        (∃ partition ∈ wire.partitions, ∃ rest ∈ rewriteCut.visits partition.records,
          61 ≤ rest.length ∧ NamesProducer rest) ∨
        ∀ partition ∈ wire.partitions, ∀ rest ∈ rewriteCut.visits partition.records,
          rest.length < 61 → ¬ NamesProducer rest) := by
  obtain ⟨hpartitions, hrejected⟩ := toBrokerProduceRequest_spec wire
  constructor
  · intro hcomplete
    by_contra hnone
    push Not at hnone
    obtain ⟨hid, hfar, partition, hpartition, rest, hrest, -, hnames⟩ := hnone
    -- the guard finds nothing, so the request is accepted
    have haccepted : (toBrokerProduceRequest wire).rejectedErrorCode = .none := by
      refine hrejected.mpr ⟨hid, ?_⟩
      intro p hp
      rw [← Bool.not_eq_true, hasIdempotentRecordBatch_iff]
      rintro ⟨left, hleft, hleftNames⟩
      obtain ⟨hvisited, hlong⟩ := mem_guardVisits_iff.mp hleft
      exact hfar p hp left hvisited hlong hleftNames
    refine hcomplete.accepted haccepted partition ?_ ⟨rest, hrest, hnames⟩
    rwa [hpartitions]
  · intro hcondition
    refine ⟨?_, ?_⟩
    · intro haccepted partition hpartition hnames
      obtain ⟨rest, hrest, hnames⟩ := hnames
      obtain ⟨hid, hpass⟩ := hrejected.mp haccepted
      rw [hpartitions] at hpartition
      -- a batch far enough from the end would have been found
      have hfound : ∀ p ∈ wire.partitions, ∀ left ∈ rewriteCut.visits p.records,
          61 ≤ left.length → ¬ NamesProducer left := by
        intro p hp left hleft hlong hleftNames
        have htrue := (hasIdempotentRecordBatch_iff p.records).mpr
          ⟨left, mem_guardVisits_iff.mpr ⟨hleft, hlong⟩, hleftNames⟩
        rw [hpass p hp] at htrue
        cases htrue
      rcases hcondition with hsome | ⟨p, hp, left, hleft, hlong, hleftNames⟩ | hnear
      · exact hsome hid
      · exact hfound p hp left hleft hlong hleftNames
      · by_cases hlong : 61 ≤ rest.length
        · exact hfound partition hpartition rest hrest hlong hnames
        · exact hnear partition hpartition rest hrest (by omega) hnames
    · intro hid hclean
      refine hrejected.mpr ⟨hid, ?_⟩
      intro p hp
      rw [← hpartitions] at hp
      rw [← Bool.not_eq_true]
      exact fun hfound => hclean p hp (namesProducer_of_hasIdempotent hfound)

/-- A batch of 57 bytes from producer 0. -/
def hiddenBatch : Bytes := List.replicate 8 0 ++ beBytes 4 45 ++ List.replicate 45 0

/-- It is renumbered, and the guard does not look at it. -/
theorem guard_not_always_complete : ¬ ∀ wire : WireProduceRequest, GuardComplete wire := by
  intro hall
  have hcomplete := hall { topics := [⟨"t", [⟨0, hiddenBatch⟩]⟩] }
  have hclean := hcomplete.accepted (by decide) ⟨"t", 0, hiddenBatch⟩ (by decide)
  exact hclean ⟨hiddenBatch, by decide, by decide⟩

end Mkmq
