import Mkmq.ClientAgreement
import Mkmq.Connection
import Mkmq.RequestAnswers
import Mkmq.RequestBounds

/-!
# From the bytes of a request to the bytes of its response (`KafkaProtocol::handle_frame`)

The header is parsed, and the rest by the decoder that its API has.  `ApiVersions` and
`Metadata` are answered at once; for the others the broker is called for one partition after
another, and the response is made of the results when the last of them is there.

The codec has byte strings and integers of the widths of the wire, the broker's model has texts
and unbounded integers: `textOf` and `bytesOf` take a character for each byte, and what goes
out is cut to the width of its field.
-/

namespace Mkmq

open ByteCodec ReadProgram ReadProgram.Program WriteProgram WireReader WireWriter

variable {header : RequestHeader} {config : BrokerConfig}

/-! ### Texts -/

def textOf (bytes : Bytes) : String := String.ofList (bytes.map fun byte => Char.ofNat byte.toNat)

def bytesOf (text : String) : Bytes := text.toList.map fun char => UInt8.ofNat char.toNat

/-! ### The responses that need no call -/

namespace Codec

structure ApiVersionsResponseApi where
  apiKey : Int16
  minVersion : Int16
  maxVersion : Int16

structure ApiVersionsResponse where
  errorCode : Int16
  apiKeys : List ApiVersionsResponseApi
  throttleTimeMs : Int32 := 0

def writeApiVersionsApi (api : ApiVersionsResponseApi) : Writing := do
  writeInt16 api.apiKey
  writeInt16 api.minVersion
  writeInt16 api.maxVersion
  writeEmptyTaggedFields

def writeApiVersionsResponse (response : ApiVersionsResponse) : Writing := do
  writeInt16 response.errorCode
  writeItems response.apiKeys writeApiVersionsApi
  writeInt32 response.throttleTimeMs
  writeEmptyTaggedFields

def encodeApiVersionsResponse (response : ApiVersionsResponse) : Except Thrown Bytes :=
  takeBytes (writeApiVersionsResponse response)

end Codec

structure FixedKafkaApi where
  apiKey : Int16
  minVersion : Int16
  maxVersion : Int16
deriving DecidableEq, Repr

def fixedKafkaApis : List FixedKafkaApi :=
  [⟨18, 0, 3⟩, ⟨3, 9, 9⟩, ⟨0, 3, 9⟩, ⟨1, 4, 12⟩, ⟨2, 6, 6⟩]

def errorId (error : ErrorCode) : Int16 := .ofInt error.code

def apiVersionsResponse (error : ErrorCode) : Codec.ApiVersionsResponse :=
  { errorCode := errorId error
    apiKeys := fixedKafkaApis.map fun api => ⟨api.apiKey, api.minVersion, api.maxVersion⟩ }

def kNoAuthorizedOps : Int32 := -2147483648

/-- The configured topic of a name, or one without partitions. -/
def topicFor (config : BrokerConfig) (name : String) : TopicConfig :=
  (config.topics.find? fun configured => configured.name = name).getD ⟨name, []⟩

def metadataPartition (missing : Bool) (partition : PartitionConfig) :
    Codec.MetadataResponsePartition :=
  { errorCode := if missing then errorId .unknownTopicOrPartition else 0
    partitionIndex := .ofInt partition.partition
    leaderId := if missing then -1 else .ofInt partition.leader
    leaderEpoch := 0
    replicaNodes := partition.replicas.map Int32.ofInt
    isrNodes := partition.isr.map Int32.ofInt
    offlineReplicas := [] }

def metadataTopic (topic : TopicConfig) : Codec.MetadataResponseTopic :=
  let missing := topic.partitions.isEmpty
  { errorCode := if missing then errorId .unknownTopicOrPartition else 0
    name := bytesOf topic.name
    isInternal := false
    partitions := topic.partitions.map (metadataPartition missing)
    topicAuthorizedOperations := kNoAuthorizedOps }

def metadataResponse (config : BrokerConfig) (request : Codec.MetadataRequest) :
    Codec.MetadataResponse :=
  let topics :=
    if request.allTopics then config.topics
    else request.topics.map fun requested => topicFor config (textOf requested.name)
  { throttleTimeMs := 0
    brokers := config.brokers.map fun node =>
      ⟨.ofInt node.id, bytesOf node.kafkaHost, .ofNat node.kafkaPort, none⟩
    clusterId := some (bytesOf "mkmq-cluster")
    controllerId := .ofInt config.nodeId
    topics := topics.map metadataTopic
    clusterAuthorizedOperations := kNoAuthorizedOps }

/-! ### Requests and results of the broker -/

def wireProduce (wire : Codec.ProduceRequest) : WireProduceRequest :=
  { transactionalId := wire.transactionalId.map textOf
    acks := wire.acks.toInt
    timeoutMs := wire.timeoutMs.toInt
    topics := wire.topics.map fun topic =>
      { name := textOf topic.name
        partitions := topic.partitions.map fun p => ⟨p.partitionIndex.toInt, p.records⟩ } }

def wireFetch (wire : Codec.FetchRequest) : WireFetchRequest :=
  { maxWaitMs := wire.maxWaitMs.toInt
    minBytes := wire.minBytes.toInt
    maxBytes := wire.maxBytes.toInt
    topics := wire.topics.map fun topic =>
      { topic := textOf topic.topic
        partitions := topic.partitions.map fun p =>
          ⟨p.partition.toInt, p.fetchOffset.toInt, p.partitionMaxBytes.toInt⟩ } }

def wireListOffsets (wire : Codec.ListOffsetsRequest) : WireListOffsetsRequest :=
  { topics := wire.topics.map fun topic =>
      { name := textOf topic.name
        partitions := topic.partitions.map fun p => ⟨p.partitionIndex.toInt, p.timestamp.toInt⟩ } }

def codecProducePartition (p : ProduceResponsePartition) : Codec.ProduceResponsePartition :=
  { partitionIndex := .ofInt p.partitionIndex
    errorCode := errorId p.errorCode
    baseOffset := .ofInt p.baseOffset
    logAppendTimeMs := .ofInt p.logAppendTimeMs
    logStartOffset := .ofInt p.logStartOffset
    recordErrors := p.recordErrors.map Int32.ofInt
    errorMessage := p.errorMessage.map bytesOf }

def codecProduce (response : Response ProduceResponsePartition) : Codec.ProduceResponse :=
  { topics := response.topics.map fun topic =>
      ⟨bytesOf topic.name, topic.partitions.map codecProducePartition⟩
    throttleTimeMs := 0 }

def codecFetchPartition (p : FetchResponsePartition) : Codec.FetchResponsePartition :=
  { partitionIndex := .ofInt p.partitionIndex
    errorCode := errorId p.errorCode
    highWatermark := .ofInt p.highWatermark
    lastStableOffset := .ofInt p.lastStableOffset
    logStartOffset := .ofInt p.logStartOffset
    abortedTransactions := p.abortedTransactions.map fun ids => ids.map Int64.ofInt
    preferredReadReplica := .ofInt p.preferredReadReplica
    records := p.records }

def codecFetch (response : Response FetchResponsePartition) : Codec.FetchResponse :=
  { throttleTimeMs := 0
    errorCode := 0
    sessionId := 0
    topics := response.topics.map fun topic =>
      ⟨bytesOf topic.name, topic.partitions.map codecFetchPartition⟩ }

def codecListOffsetsPartition (p : ListOffsetsResponsePartition) :
    Codec.ListOffsetsResponsePartition :=
  { partitionIndex := .ofInt p.partitionIndex
    errorCode := errorId p.errorCode
    timestamp := .ofInt p.timestamp
    offset := .ofInt p.offset
    leaderEpoch := .ofInt p.leaderEpoch }

def codecListOffsets (response : Response ListOffsetsResponsePartition) :
    Codec.ListOffsetsResponse :=
  { throttleTimeMs := 0
    topics := response.topics.map fun topic =>
      ⟨bytesOf topic.name, topic.partitions.map codecListOffsetsPartition⟩ }

/-! ### The handler -/

def apiName (key : ApiKey) : String := ((findInfo key).map ApiInfo.name).getD "Unknown"

/-- The decoder of an API; the other keys of the enumeration have none. -/
def decoderOf : ApiKey → Option RequestDecoder
  | .metadata => some .metadata
  | .produce => some .produce
  | .fetch => some .fetch
  | .listOffsets => some .listOffsets
  | .offsetCommit | .offsetFetch | .findCoordinator | .apiVersions => none

/-- What is read behind the header: of an `ApiVersions` request, nothing. -/
def readBody (header : RequestHeader) : Reading (RequestHeader × Option Request) :=
  if header.apiKey = .apiVersions then return (header, none)
  else if isSupported header.apiKey header.apiVersion = false then
    .fail (.protocolError ("unsupported fixed Kafka API version for " ++ apiName header.apiKey))
  else
    match decoderOf header.apiKey with
    | none => .fail (.protocolError "Kafka API is outside the fixed first release scope")
    | some decoder => do return (header, some (← decoder.run))

/-- What `handle_frame` reads. -/
def readRequest : Reading (RequestHeader × Option Request) := parseRequestHeader >>= readBody

/-- What is left to do when `handle_frame` has returned its future. -/
inductive FrameTask where
  | ready (response : Option Bytes)
  | produce (header : RequestHeader) (request : ProduceRequest)
      (left : List ProducePartitionRequest) (results : List ProducePartitionResult)
  | fetch (header : RequestHeader) (left : List FetchPartitionRequest)
      (results : List (FetchPartitionRequest × FetchPartitionResult))
  | listOffsets (header : RequestHeader) (left : List ListOffsetPartitionRequest)
      (results : List ListOffsetPartitionResult)
deriving DecidableEq, Repr

def respond (header : RequestHeader) (body : Except Thrown Bytes) : Except Thrown (Option Bytes) :=
  (body >>= makeResponseFrame header).map some

def startTask (config : BrokerConfig) (header : RequestHeader) :
    Option Request → Except Thrown FrameTask
  | none =>
    let supported := isSupported .apiVersions header.apiVersion
    (respond header (Codec.encodeApiVersionsResponse
      (apiVersionsResponse (if supported then .none else .unsupportedVersion)))).map .ready
  | some (.metadata request) =>
    (respond header
      (Codec.encodeMetadataResponse (metadataResponse config request))).map .ready
  | some (.produce wire) =>
    let request := toBrokerProduceRequest (wireProduce wire)
    if request.rejectedErrorCode ≠ .none then
      if request.acks = 0 then .ok (.ready none)
      else
        (respond header (Codec.encodeProduceResponse
          (codecProduce (produceResponse (rejectedProduceResults request))))).map .ready
    else .ok (.produce header request request.partitions [])
  | some (.fetch wire) => .ok (.fetch header (toBrokerFetchRequest (wireFetch wire)) [])
  | some (.listOffsets wire) =>
    .ok (.listOffsets header (toBrokerListOffsetsRequest (wireListOffsets wire)) [])

def handleFrame (config : BrokerConfig) (payload : Bytes) : Except Thrown FrameTask := do
  let (header, request) ← decode readRequest payload
  startTask config header request

/-- The call that is made next. -/
inductive BrokerCall where
  | append (request : ProducePartitionRequest) (acks timeoutMs : Int)
  | fetch (request : FetchPartitionRequest)
  | listOffsets (request : ListOffsetPartitionRequest)
deriving DecidableEq, Repr

inductive CallResult where
  | append (result : ProducePartitionResult)
  | fetch (result : FetchPartitionResult)
  | listOffsets (result : ListOffsetPartitionResult)
deriving DecidableEq, Repr

namespace FrameTask

def call : FrameTask → Option BrokerCall
  | .produce _ request (partition :: _) _ =>
    some (.append partition request.acks request.timeoutMs)
  | .fetch _ (partition :: _) _ => some (.fetch partition)
  | .listOffsets _ (partition :: _) _ => some (.listOffsets partition)
  | _ => none

/-- The call has resolved. -/
def resume : FrameTask → CallResult → Option FrameTask
  | .produce header request (_ :: left) results, .append result =>
    some (.produce header request left (results ++ [result]))
  | .fetch header (original :: left) results, .fetch result =>
    some (.fetch header left (results ++ [(original, result)]))
  | .listOffsets header (_ :: left) results, .listOffsets result =>
    some (.listOffsets header left (results ++ [result]))
  | _, _ => none

/-- What the future resolves to when no call is left. -/
def finish : FrameTask → Option (Except Thrown (Option Bytes))
  | .ready response => some (.ok response)
  | .produce header request [] results =>
    some (if request.acks = 0 then .ok none
      else respond header (Codec.encodeProduceResponse (codecProduce (produceResponse results))))
  | .fetch header [] results =>
    some (respond header (Codec.encodeFetchResponse (codecFetch (fetchResponse results))))
  | .listOffsets header [] results =>
    some (respond header
      (Codec.encodeListOffsetsResponse (codecListOffsets (listOffsetsResponse results))))
  | _ => none

/-- The task with the results that its calls come to, where `none` is a call that fails; with
    those of other calls, or not enough of them, it does not end. -/
def run : FrameTask → List (Option CallResult) → Option FrameOutcome
  | task, [] =>
    task.finish.map fun
      | .ok response => .answered response
      | .error _ => .failed
  | task, none :: _ => if task.call.isSome then some .failed else none
  | task, some result :: results => (task.resume result).bind fun task => task.run results

end FrameTask

/-- What `handle_kafka_frame` may come to for a frame. -/
def HandlesFrame (config : BrokerConfig) (payload : Bytes) (outcome : FrameOutcome) : Prop :=
  match handleFrame config payload with
  | .error _ => outcome = .threw
  | .ok task => ∃ results, task.run results = some outcome

/-! ### One response, with the request's own id -/

/-- A request whose response is not sent. -/
def wantsReply : Option Request → Bool
  | some (.produce wire) => decide (wire.acks.toInt ≠ 0)
  | _ => true

/-- The client's check (`expect_correlation`). -/
def BenchClient.expectCorrelation (frame : Bytes) (correlationId : Int32) : Except Thrown Unit :=
  decode (do
    let _ ← readInt32
    let actual ← readInt32
    if actual ≠ correlationId then .fail (.runtimeError "unexpected correlation id in response")
    else return ()) frame

theorem toBrokerProduceRequest_acks (wire : WireProduceRequest) :
    (toBrokerProduceRequest wire).acks = wire.acks := by
  have hpartitions : ∀ topic (partitions : List ProduceRequestPartition) (request : ProduceRequest),
      (partitions.foldl (ProduceRequest.add topic) request).acks = request.acks := by
    intro topic partitions
    induction partitions with
    | nil => exact fun _ => rfl
    | cons first partitions ih => exact fun request => ih (request.add topic first)
  have htopics : ∀ (topics : List ProduceRequestTopic) (request : ProduceRequest),
      (topics.foldl (fun request topic =>
        topic.partitions.foldl (ProduceRequest.add topic.name) request) request).acks =
          request.acks := by
    intro topics
    induction topics with
    | nil => exact fun _ => rfl
    | cons first topics ih =>
      exact fun request => (ih _).trans (hpartitions first.name first.partitions request)
  exact htopics wire.topics _

/-- A response frame is its size, the id of the request, and the rest. -/
theorem makeResponseFrame_eq (header : RequestHeader) (body : Bytes) :
    ∃ rest, makeResponseFrame header body =
      .ok (beBytes 4 (Int32.ofNat (4 + rest.length)).toBitVec.toNat ++
        (beBytes 4 header.correlationId.toBitVec.toNat ++ rest)) := by
  have htags : ∃ tags, Writes (if responseHeaderVersion header.apiKey header.apiVersion ≥ 1
      then writeEmptyTaggedFields else return ()) tags := by
    split
    · exact carries_emptyTaggedFields.succeeds
    · exact ⟨[], fun data => by rw [List.append_nil]; rfl⟩
  obtain ⟨tags, htags⟩ := htags
  have hid : Writes (writeInt32 header.correlationId)
      (beBytes 4 header.correlationId.toBitVec.toNat) := writes_raw _
  have hframe := makeFrame_of_writes ((hid.seq htags).seq (writes_raw body))
  refine ⟨tags ++ body, ?_⟩
  rwa [List.append_assoc, List.length_append, length_beBytes] at hframe

theorem beBytes_ofNat {n : Nat} (h : n < 2 ^ 31) :
    beBytes 4 (Int32.ofNat n).toBitVec.toNat = i32be n := by
  have hbits : (Int32.ofNat n).toBitVec.toNat = n := by
    rw [Int32.toBitVec_ofNat', BitVec.toNat_ofNat]
    exact Nat.mod_eq_of_lt (by omega)
  have hunsigned : unsigned 32 n = n := by
    unfold unsigned
    rw [Int.emod_eq_of_lt (by omega) (by omega), Int.toNat_natCast]
  rw [hbits, i32be, hunsigned]

/-- What the client sees of a response: one frame that passes its check. -/
def Correlated (correlationId : Int32) (frame : Bytes) : Prop :=
  0 < frame.length ∧ BenchClient.expectCorrelation (Connection.sized frame) correlationId = .ok ()

theorem makeResponseFrame_sized {body frame : Bytes} (h : makeResponseFrame header body = .ok frame)
    (hlength : frame.length < 2 ^ 31) :
    ∃ contents, frame = Connection.sized contents ∧ Correlated header.correlationId contents := by
  obtain ⟨rest, heq⟩ := makeResponseFrame_eq header body
  obtain rfl := Except.ok.inj (heq.symm.trans h)
  rw [List.length_append, List.length_append, length_beBytes, length_beBytes] at hlength
  have hsized : beBytes 4 (Int32.ofNat (4 + rest.length)).toBitVec.toNat ++
      (beBytes 4 header.correlationId.toBitVec.toNat ++ rest) =
        Connection.sized (beBytes 4 header.correlationId.toBitVec.toNat ++ rest) := by
    rw [Connection.sized, beBytes_ofNat (by omega), List.length_append, length_beBytes]
  refine ⟨_, hsized, ?_, ?_⟩
  · rw [List.length_append, length_beBytes]
    omega
  · rw [← hsized, ← List.append_assoc]
    refine decode_of_reads ((reads_int32 _).bind (Reads.ends (reads_int32 header.correlationId) ?_))
      rest
    rw [if_neg (not_not.mpr rfl)]

/-! #### The task -/

/-- What a request with this header is answered with, if a reply is wanted or not. -/
def AnsweredWith (header : RequestHeader) (wanted : Bool) (answer : Option Bytes) : Prop :=
  if wanted then ∃ body frame, answer = some frame ∧ makeResponseFrame header body = .ok frame
  else answer = none

namespace FrameTask

variable {answer : Option Bytes} {header : RequestHeader} {task : FrameTask} {wanted : Bool}

/-- The task of a request with this header. -/
def Replies (header : RequestHeader) (wanted : Bool) : FrameTask → Prop
  | .ready response => AnsweredWith header wanted response
  | .produce own request _ _ => own = header ∧ wanted = decide (request.acks ≠ 0)
  | .fetch own _ _ | .listOffsets own _ _ => own = header ∧ wanted = true

theorem reply_of_respond {body : Except Thrown Bytes} (h : respond header body = .ok answer) :
    AnsweredWith header true answer := by
  cases body with
  | error thrown => cases h
  | ok bytes =>
    rw [AnsweredWith, if_pos rfl]
    change (makeResponseFrame header bytes).map some = .ok answer at h
    cases hframe : makeResponseFrame header bytes with
    | error thrown =>
      rw [hframe] at h
      cases h
    | ok frame =>
      rw [hframe] at h
      exact ⟨bytes, frame, (Except.ok.inj h).symm, hframe⟩

theorem Replies.resume {task' : FrameTask} (h : Replies header wanted task) {result : CallResult}
    (hresume : task.resume result = some task') : Replies header wanted task' := by
  unfold FrameTask.resume at hresume
  split at hresume
  · obtain rfl := Option.some.inj hresume
    exact h
  · obtain rfl := Option.some.inj hresume
    exact h
  · obtain rfl := Option.some.inj hresume
    exact h
  · cases hresume

theorem Replies.finish (h : Replies header wanted task) (hfinish : task.finish = some
    (.ok answer)) : AnsweredWith header wanted answer := by
  unfold FrameTask.finish at hfinish
  split at hfinish
  · obtain rfl := Except.ok.inj (Option.some.inj hfinish)
    exact h
  · next own request results =>
      obtain ⟨rfl, rfl⟩ := h
      have hanswer := Option.some.inj hfinish
      split at hanswer
      · next hacks =>
          rw [AnsweredWith, if_neg (by simpa using hacks)]
          exact (Except.ok.inj hanswer).symm
      · next hacks =>
          rw [decide_eq_true hacks]
          exact reply_of_respond hanswer
  · obtain ⟨rfl, rfl⟩ := h
    exact reply_of_respond (Option.some.inj hfinish)
  · obtain ⟨rfl, rfl⟩ := h
    exact reply_of_respond (Option.some.inj hfinish)
  · cases hfinish

theorem Replies.run (h : Replies header wanted task) {results : List (Option CallResult)}
    (hrun : task.run results = some (.answered answer)) : AnsweredWith header wanted answer := by
  induction results generalizing task with
  | nil =>
    obtain ⟨outcome, hfinish, houtcome⟩ := Option.map_eq_some_iff.mp hrun
    cases outcome with
    | error thrown => cases houtcome
    | ok response =>
      cases houtcome
      exact h.finish hfinish
  | cons result results ih =>
    cases result with
    | none =>
      rw [FrameTask.run] at hrun
      split at hrun
      · cases hrun
      · cases hrun
    | some result =>
      obtain ⟨task', hresume, hrest⟩ := Option.bind_eq_some_iff.mp hrun
      exact ih (h.resume hresume) hrest

end FrameTask

theorem ready_of_map {body : Except Thrown Bytes} {task : FrameTask}
    (h : (respond header body).map FrameTask.ready = .ok task) :
    FrameTask.Replies header true task := by
  cases hrespond : respond header body with
  | error thrown =>
    rw [hrespond] at h
    cases h
  | ok answer =>
    rw [hrespond] at h
    obtain rfl := Except.ok.inj h
    exact FrameTask.reply_of_respond hrespond

theorem startTask_replies {request : Option Request} {task : FrameTask}
    (h : startTask config header request = .ok task) :
    task.Replies header (wantsReply request) := by
  unfold startTask at h
  split at h
  · exact ready_of_map h
  · exact ready_of_map h
  · next wire =>
      have hacks := toBrokerProduceRequest_acks (wireProduce wire)
      simp only at h
      split at h
      · split at h
        · next hzero =>
            obtain rfl := Except.ok.inj h
            have hnone : wire.acks.toInt = 0 := hacks.symm.trans hzero
            rw [wantsReply, hnone]
            exact rfl
        · next hsome =>
            have hsome' : wire.acks.toInt ≠ 0 := fun hzero => hsome (hacks.trans hzero)
            rw [wantsReply, decide_eq_true hsome']
            exact ready_of_map h
      · obtain rfl := Except.ok.inj h
        exact ⟨rfl, by rw [wantsReply, hacks]; rfl⟩
  · obtain rfl := Except.ok.inj h
    exact ⟨rfl, rfl⟩
  · obtain rfl := Except.ok.inj h
    exact ⟨rfl, rfl⟩

/-- The answer to a frame is that to the request read off it. -/
theorem HandlesFrame.answered {payload : Bytes} {answer : Option Bytes}
    (h : HandlesFrame config payload (.answered answer)) :
    ∃ header request, decode readRequest payload = .ok (header, request) ∧
      AnsweredWith header (wantsReply request) answer := by
  unfold HandlesFrame at h
  split at h
  · cases h
  · next task htask =>
      obtain ⟨results, hrun⟩ := h
      cases hread : decode readRequest payload with
      | error thrown =>
        rw [handleFrame, hread] at htask
        cases htask
      | ok read =>
        rw [handleFrame, hread] at htask
        exact ⟨read.1, read.2, rfl, (startTask_replies htask).run hrun⟩

end Mkmq
