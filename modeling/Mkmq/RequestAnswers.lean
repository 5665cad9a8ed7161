import Mkmq.Grouping
import Mkmq.ShardCalls

/-!
# One answer for each requested partition

`KafkaProtocol::handle_frame` flattens a Produce, Fetch or ListOffsets request into a list
with one request for each partition, calls the broker for one after another, and groups the
results by topic again (`src/kafka_protocol.cpp`).  The results of a produce and of an offset
listing are grouped by the topic they name themselves, those of a fetch by the topic of the
request kept beside them.

As in `ProduceGuard`, texts are strings and numbers are unbounded: nothing is computed with
them here.
-/

namespace Mkmq

open ByteCodec Grouping

variable {α ρ : Type} {requests : List ρ}

/-! ### Requests -/

structure FetchRequestPartition where
  partition : Int := 0
  fetchOffset : Int := 0
  partitionMaxBytes : Int := 0
deriving DecidableEq, Repr

structure FetchRequestTopic where
  topic : String
  partitions : List FetchRequestPartition
deriving DecidableEq, Repr

/-- `generated::codec::FetchRequest`, as far as the broker reads it. -/
structure WireFetchRequest where
  maxWaitMs : Int := 0
  minBytes : Int := 0
  maxBytes : Int := 0
  topics : List FetchRequestTopic
deriving DecidableEq, Repr

def toBrokerFetchRequest (wire : WireFetchRequest) : List FetchPartitionRequest :=
  wire.topics.flatMap fun topic =>
    topic.partitions.map fun (wirePartition : FetchRequestPartition) =>
      { topic := topic.topic
        partition := wirePartition.partition
        offset := wirePartition.fetchOffset
        maxWaitMs := wire.maxWaitMs
        minBytes := wire.minBytes
        maxBytes :=
          if wirePartition.partitionMaxBytes ≤ 0 then wire.maxBytes
          else wirePartition.partitionMaxBytes }

structure ListOffsetsRequestPartition where
  partitionIndex : Int := 0
  timestamp : Int := -1
deriving DecidableEq, Repr

structure ListOffsetsRequestTopic where
  name : String
  partitions : List ListOffsetsRequestPartition
deriving DecidableEq, Repr

/-- `generated::codec::ListOffsetsRequest`, as far as the broker reads it. -/
structure WireListOffsetsRequest where
  topics : List ListOffsetsRequestTopic
deriving DecidableEq, Repr

def toBrokerListOffsetsRequest (wire : WireListOffsetsRequest) : List ListOffsetPartitionRequest :=
  wire.topics.flatMap fun topic =>
    topic.partitions.map fun wirePartition =>
      { topic := topic.name
        partition := wirePartition.partitionIndex
        timestamp := wirePartition.timestamp }

/-! ### Responses -/

structure ProduceResponsePartition where
  partitionIndex : Int := 0
  errorCode : ErrorCode := .none
  baseOffset : Int := 0
  logAppendTimeMs : Int := -1
  logStartOffset : Int := 0
  recordErrors : List Int := []
  errorMessage : Option String := none
deriving DecidableEq, Repr

structure FetchResponsePartition where
  partitionIndex : Int := 0
  errorCode : ErrorCode := .none
  highWatermark : Int := 0
  lastStableOffset : Int := 0
  logStartOffset : Int := 0
  abortedTransactions : Option (List Int) := none
  preferredReadReplica : Int := -1
  records : Bytes := []
deriving DecidableEq, Repr

structure ListOffsetsResponsePartition where
  partitionIndex : Int := 0
  errorCode : ErrorCode := .none
  timestamp : Int := -1
  offset : Int := 0
  leaderEpoch : Int := 0
deriving DecidableEq, Repr

/-- A topic of a response, with the entries of its partitions. -/
structure ResponseTopic (ε : Type) where
  name : String
  partitions : List ε
deriving DecidableEq, Repr

/-- The three responses are alike but for their entries; the constant fields around the
    topics are left out. -/
structure Response (ε : Type) where
  topics : List (ResponseTopic ε)
deriving DecidableEq, Repr

/-- The loops all three have: results grouped by topic in a `std::map`, and an entry made of
    each. -/
def groupedResponse {α ε : Type} (topic : α → String) (entry : α → ε) (responses : List α) :
    Response ε :=
  { topics := (group topic responses).map fun (topic, partitions) =>
      { name := topic, partitions := partitions.map entry } }

def produceEntry (partition : ProducePartitionResult) : ProduceResponsePartition :=
  { partitionIndex := partition.partition
    errorCode := partition.errorCode
    baseOffset := partition.baseOffset
    logAppendTimeMs := -1
    logStartOffset := partition.logStartOffset
    recordErrors := []
    errorMessage := none }

def produceResponse (responses : List ProducePartitionResult) : Response ProduceResponsePartition :=
  groupedResponse ProducePartitionResult.topic produceEntry responses

def fetchEntry (response : FetchPartitionRequest × FetchPartitionResult) :
    FetchResponsePartition :=
  { partitionIndex := response.1.partition
    errorCode := response.2.errorCode
    highWatermark := response.2.highWatermark
    lastStableOffset := response.2.highWatermark
    logStartOffset := response.2.logStartOffset
    abortedTransactions := none
    preferredReadReplica := -1
    records := response.2.records }

def fetchResponse (responses : List (FetchPartitionRequest × FetchPartitionResult)) :
    Response FetchResponsePartition :=
  groupedResponse (fun response => response.1.topic) fetchEntry responses

def listOffsetsEntry (partition : ListOffsetPartitionResult) : ListOffsetsResponsePartition :=
  { partitionIndex := partition.partition
    errorCode := partition.errorCode
    timestamp := -1
    offset := partition.selected
    leaderEpoch := 0 }

def listOffsetsResponse (responses : List ListOffsetPartitionResult) :
    Response ListOffsetsResponsePartition :=
  groupedResponse ListOffsetPartitionResult.topic listOffsetsEntry responses

/-- The results of a request that was turned away. -/
def rejectedProduceResults (request : ProduceRequest) : List ProducePartitionResult :=
  request.partitions.map fun partition =>
    { topic := partition.topic
      partition := partition.partition
      errorCode := request.rejectedErrorCode }

/-! ### Calls -/

/-- A call that arrives at a shard resolves to a result: each shard it comes to, in the state
    that shard has by then, answers it or hands it on. -/
inductive Resolves {α : Type} (handle : ReloadingShard → Reply α → Prop) : Nat → α → Prop where
  | answered {s : ReloadingShard} {result : α} (hserved : s.Served)
      (h : handle s (.answered result)) : Resolves handle s.shardId result
  | forwarded {s : ReloadingShard} {owner : Nat} {result : α} (hserved : s.Served)
      (h : handle s (.forwarded owner)) (hrest : Resolves handle owner result) :
      Resolves handle s.shardId result

/-- What every shard sees to when it answers holds of what a call resolves to. -/
theorem Resolves.result {handle : ReloadingShard → Reply α → Prop} {shard : Nat} {result : α}
    {P : α → Prop} (h : Resolves handle shard result)
    (hanswers : ∀ s result, ReloadingShard.Served s → handle s (.answered result) → P result) :
    P result := by
  induction h with
  | answered hserved h => exact hanswers _ _ hserved h
  | forwarded _ _ _ ih => exact ih

/-- `broker_.append` resolves, with some outcome of what it depends on. -/
def Appends (shard : Nat) (acks timeoutMs : Int) (request : ProducePartitionRequest) :
    ProducePartitionResult → Prop :=
  Resolves (fun s reply => ∃ outcome, s.append request acks timeoutMs outcome = some reply) shard

/-- `broker_.fetch` resolves; the result is kept beside the request. -/
def Fetches (shard : Nat) (request : FetchPartitionRequest)
    (response : FetchPartitionRequest × FetchPartitionResult) : Prop :=
  response.1 = request ∧
    Resolves (fun s reply => ∃ outcome, s.fetch request outcome = some reply) shard response.2

def ListsOffsets (shard : Nat) (request : ListOffsetPartitionRequest) :
    ListOffsetPartitionResult → Prop :=
  Resolves (fun s reply => ∃ head, s.listOffsets request head = reply) shard

/-- `do_for_each`: the calls are made one after another, and each pushes its result. -/
inductive Collects {ρ α : Type} (call : ρ → α → Prop) : List ρ → List α → List α → Prop where
  | done {results : List α} : Collects call [] results results
  | next {request : ρ} {requests : List ρ} {results final : List α} {result : α}
      (hcall : call request result) (hrest : Collects call requests (results ++ [result]) final) :
      Collects call (request :: requests) results final

/-- **Each request has its own result, at its own place.** -/
theorem Collects.forall₂ {call : ρ → α → Prop} {results final : List α}
    (h : Collects call requests results final) :
    ∃ pushed, final = results ++ pushed ∧ List.Forall₂ call requests pushed := by
  induction h with
  | done => exact ⟨[], (List.append_nil _).symm, .nil⟩
  | next hcall _ ih =>
    obtain ⟨pushed, hfinal, hcalls⟩ := ih
    exact ⟨_ :: pushed, by rw [hfinal, List.append_assoc]; rfl, .cons hcall hcalls⟩

theorem Collects.each {call : ρ → α → Prop} {results : List α}
    (h : Collects call requests [] results) : List.Forall₂ call requests results := by
  obtain ⟨pushed, hresults, hcalls⟩ := h.forall₂
  rwa [hresults]

/-! ### Replies -/

/-- The body of a reply to a produce request; `none` is no reply at all. -/
def produceReply (request : ProduceRequest) (results : List ProducePartitionResult) :
    Option (Response ProduceResponsePartition) :=
  if request.rejectedErrorCode ≠ .none then
    if request.acks = 0 then none else some (produceResponse (rejectedProduceResults request))
  else if request.acks = 0 then none
  else some (produceResponse results)

/-- `response` answers the requests `asked`, whose results are `results`: it has the topics that
    were asked for, ascending, each once, and in each of them an entry for each request, in
    their order, with the partition of the request and what is made of its result. -/
def AnswersEach {ρ α ε : Type} (asked : List ρ) (results : List α) (topic : ρ → String)
    (entry : ρ → α → ε) (response : Response ε) : Prop :=
  results.length = asked.length ∧
    Grouped
      (List.zipWith (fun request result => (topic request, entry request result)) asked results)
      (response.topics.map fun topic => (topic.name, topic.partitions))

/-- Grouping by what the results say is grouping by the requests, if the results name them. -/
theorem answersEach_groupedResponse {ε : Type} {asked : List ρ} {results : List α}
    {topicOf : ρ → String} {entryOf : ρ → α → ε} {topic : α → String} {entry : α → ε}
    (h : List.Forall₂ (fun request result =>
      topic result = topicOf request ∧ entry result = entryOf request result) asked results) :
    AnswersEach asked results topicOf entryOf (groupedResponse topic entry results) := by
  refine ⟨h.length_eq.symm, ?_⟩
  have hnamed : List.zipWith (fun request result => (topicOf request, entryOf request result))
      asked results = results.map fun result => (topic result, entry result) := by
    induction h with
    | nil => rfl
    | cons hnames _ ih => rw [List.zipWith_cons_cons, List.map_cons, ih, hnames.1, hnames.2]
  have hgrouped := grouped_group topic entry results
  unfold groupedResponse
  rw [hnamed, List.map_map]
  exact hgrouped

/-- A shard that hosts `t/0`, after its start. -/
def servingOne : ReloadingShard :=
  { config := ReloadingShard.oneTopic
    partitions := [(toLex ("t", 0), ⟨{ defaultPartition with topic := "t" }, true⟩)] }

theorem served_servingOne : servingOne.Served := by
  have hempty : ReloadingShard.Served { config := ReloadingShard.oneTopic } := .start rfl
  exact .next (.host { defaultPartition with topic := "t" } fun _ => none) hempty trivial rfl

/-- The same partition twice, with one of another topic between. -/
def twiceAndMissing : WireProduceRequest :=
  { topics := [⟨"t", [⟨0, [1]⟩]⟩, ⟨"a", [⟨3, [2]⟩]⟩, ⟨"t", [⟨0, [3]⟩]⟩] }

/-- Offset 0 for the first, an error for the second, and a wait that runs out for the third. -/
def twiceAndMissingResults : List ProducePartitionResult :=
  [{ topic := "t", logEndOffset := 1 },
    { topic := "a", partition := 3, errorCode := .unknownTopicOrPartition },
    { topic := "t", errorCode := .requestTimedOut }]

theorem collects_twiceAndMissing :
    Collects (Appends 0 1 0) (toBrokerProduceRequest twiceAndMissing).partitions []
      twiceAndMissingResults := by
  have hcall : ∀ request outcome result,
      servingOne.append request 1 0 outcome = some (.answered result) →
      Appends 0 1 0 request result :=
    fun _ outcome _ h => .answered served_servingOne ⟨outcome, h⟩
  refine .next (hcall _ { head := { config := {} } } _ ?_)
    (.next (hcall _ { head := { config := {} } } _ ?_)
      (.next (hcall _ { head := { config := {} }, late := true } _ ?_) .done))
  · decide +kernel
  · decide +kernel
  · decide +kernel

end Mkmq
