import Mkmq.Wire

/-!
# Requests and responses of the Kafka protocol

The API table of `src/protocol/api.cpp`, the headers of `src/protocol/header.cpp`, and the
request decoders and response encoders that `tools/generate_kafka_schemas.py` renders into
`src/generated/kafka_codec.cpp`.  The loop over an array of the declared count is `repeated`;
a negative count is that of a null array and has no turns.  Each turn that constructs a topic
or a partition begins with `making`.
-/

namespace Mkmq

open ByteCodec ReadProgram ReadProgram.Program WriteProgram WireReader WireWriter

/-! ### The API table -/

inductive ApiKey where
  | produce
  | fetch
  | listOffsets
  | metadata
  | offsetCommit
  | offsetFetch
  | findCoordinator
  | apiVersions
deriving DecidableEq, Repr

namespace ApiKey

/-- `api_id`, the values of the enumeration. -/
def id : ApiKey → Int16
  | produce => 0
  | fetch => 1
  | listOffsets => 2
  | metadata => 3
  | offsetCommit => 8
  | offsetFetch => 9
  | findCoordinator => 10
  | apiVersions => 18

end ApiKey

structure ApiInfo where
  key : ApiKey
  name : String
  minVersion : Int16
  maxVersion : Int16
  flexibleStart : Int16
deriving DecidableEq, Repr

def kApis : List ApiInfo :=
  [⟨.produce, "Produce", 9, 9, 9⟩,
   ⟨.fetch, "Fetch", 12, 12, 12⟩,
   ⟨.listOffsets, "ListOffsets", 6, 6, 6⟩,
   ⟨.metadata, "Metadata", 9, 9, 9⟩,
   ⟨.apiVersions, "ApiVersions", 0, 3, 3⟩]

def findInfo (key : ApiKey) : Option ApiInfo := kApis.find? fun info => info.key = key

/-- `is_known_api`, and the cast of a known id to its key. -/
def apiKeyFromId (id : Int16) : Except Thrown ApiKey :=
  match kApis.find? fun info => info.key.id = id with
  | none => .error (.invalidArgument "unknown Kafka API key")
  | some info => .ok info.key

def isSupported (key : ApiKey) (version : Int16) : Bool :=
  match findInfo key with
  | none => false
  | some info => version ≥ info.minVersion && version ≤ info.maxVersion

def isFlexible (key : ApiKey) (version : Int16) : Bool :=
  match findInfo key with
  | none => false
  | some info => version ≥ info.flexibleStart

def requestHeaderVersion (key : ApiKey) (version : Int16) : Int16 :=
  if isFlexible key version then 2 else 1

def responseHeaderVersion (key : ApiKey) (version : Int16) : Int16 :=
  if key = .apiVersions then 0
  else if isFlexible key version then 1 else 0

/-! ### Headers -/

structure RequestHeader where
  apiKey : ApiKey
  apiVersion : Int16
  correlationId : Int32
  clientId : Bytes
  headerVersion : Int16
deriving DecidableEq, Repr

/-- Throw what a function that reads nothing throws. -/
def orThrow {α : Type} : Except Thrown α → Reading α
  | .ok value => .done value
  | .error thrown => .fail thrown

def parseRequestHeader : Reading RequestHeader := do
  let apiIdValue ← readInt16
  let version ← readInt16
  let key ← orThrow (apiKeyFromId apiIdValue)
  let headerVersion := requestHeaderVersion key version
  let correlationId ← readInt32
  let clientId ← readNullableString
  (if headerVersion ≥ 2 then skipTaggedFields else return ())
  return {
    apiKey := key
    apiVersion := version
    headerVersion
    correlationId
    clientId := clientId.getD [] }

def writeResponseHeader (request : RequestHeader) : Writing := do
  writeInt32 request.correlationId
  (if responseHeaderVersion request.apiKey request.apiVersion ≥ 1 then writeEmptyTaggedFields
    else return ())

/-- A frame: room for the size, the contents, and the size of the contents written over the
    first four bytes. -/
def makeFrame (contents : Writing) : Except Thrown Bytes :=
  takeBytes do
    writeInt32 0
    contents
    fun data => patchInt32 0 (.ofNat (data.length - 4)) data

def makeResponseFrame (request : RequestHeader) (body : Bytes) : Except Thrown Bytes :=
  makeFrame do
    writeResponseHeader request
    writeRaw body

namespace Codec

/-! ### Requests -/

structure MetadataRequestTopic where
  name : Bytes
deriving DecidableEq, Repr

structure MetadataRequest where
  allTopics : Bool
  topics : List MetadataRequestTopic
  allowAutoTopicCreation : Bool
  includeClusterAuthorizedOperations : Bool
  includeTopicAuthorizedOperations : Bool
deriving DecidableEq, Repr

structure ProduceRequestPartition where
  partitionIndex : Int32
  records : Bytes
deriving DecidableEq, Repr

structure ProduceRequestTopic where
  name : Bytes
  partitions : List ProduceRequestPartition
deriving DecidableEq, Repr

structure ProduceRequest where
  transactionalId : Option Bytes
  acks : Int16
  timeoutMs : Int32
  topics : List ProduceRequestTopic
deriving DecidableEq, Repr

structure FetchRequestPartition where
  partition : Int32
  currentLeaderEpoch : Int32
  fetchOffset : Int64
  lastFetchedEpoch : Int32
  logStartOffset : Int64
  partitionMaxBytes : Int32
deriving DecidableEq, Repr

structure FetchRequestTopic where
  topic : Bytes
  partitions : List FetchRequestPartition
deriving DecidableEq, Repr

structure FetchRequest where
  replicaId : Int32
  maxWaitMs : Int32
  minBytes : Int32
  maxBytes : Int32
  isolationLevel : Int8
  sessionId : Int32
  sessionEpoch : Int32
  topics : List FetchRequestTopic
  rackId : Bytes
deriving DecidableEq, Repr

structure ListOffsetsRequestPartition where
  partitionIndex : Int32
  currentLeaderEpoch : Int32
  timestamp : Int64
deriving DecidableEq, Repr

structure ListOffsetsRequestTopic where
  name : Bytes
  partitions : List ListOffsetsRequestPartition
deriving DecidableEq, Repr

structure ListOffsetsRequest where
  replicaId : Int32
  isolationLevel : Int8
  topics : List ListOffsetsRequestTopic
deriving DecidableEq, Repr

/-- The loop over an array: as many turns as the count that was read. -/
def readItems {α : Type} (count : Int32) (item : Reading α) : Reading (List α) :=
  repeated count.toNatClampNeg item

/-- The count of an array and its elements. -/
def readArray {α : Type} (nullable : Bool) (item : Reading α) : Reading (List α) := do
  let count ← readArrayCount true nullable
  readItems count item

/-- The turn of the loop over topics that have partitions, with the reader of a partition. -/
def readTopic {α β : Type} (topic : Bytes → List α → β) (partition : Reading α) : Reading β := do
  making
  let name ← readCompactString
  let partitionCount ← readArrayCount true
  let partitions ← readItems partitionCount partition
  skipTaggedFields
  return topic name partitions

def readMetadataTopic : Reading MetadataRequestTopic := do
  making
  let name ← readCompactString
  skipTaggedFields
  return { name }

def decodeMetadataRequest : Reading MetadataRequest := do
  let topicCount ← readArrayCount true true
  let topics ← readItems topicCount readMetadataTopic
  let allowAutoTopicCreation ← readBool
  let includeClusterAuthorizedOperations ← readBool
  let includeTopicAuthorizedOperations ← readBool
  skipTaggedFields
  return {
    allTopics := topicCount < 0
    topics
    allowAutoTopicCreation
    includeClusterAuthorizedOperations
    includeTopicAuthorizedOperations }

def readProducePartition : Reading ProduceRequestPartition := do
  making
  let partitionIndex ← readInt32
  let records ← readCompactNullableBytes
  skipTaggedFields
  return { partitionIndex, records := records.getD [] }

def readProduceTopic : Reading ProduceRequestTopic := readTopic .mk readProducePartition

def decodeProduceRequest : Reading ProduceRequest := do
  let transactionalId ← readCompactNullableString
  let acks ← readInt16
  let timeoutMs ← readInt32
  let topicCount ← readArrayCount true
  let topics ← readItems topicCount readProduceTopic
  skipTaggedFields
  return { transactionalId, acks, timeoutMs, topics }

def readFetchPartition : Reading FetchRequestPartition := do
  making
  let partition ← readInt32
  let currentLeaderEpoch ← readInt32
  let fetchOffset ← readInt64
  let lastFetchedEpoch ← readInt32
  let logStartOffset ← readInt64
  let partitionMaxBytes ← readInt32
  skipTaggedFields
  return {
    partition
    currentLeaderEpoch
    fetchOffset
    lastFetchedEpoch
    logStartOffset
    partitionMaxBytes }

def readFetchTopic : Reading FetchRequestTopic := readTopic .mk readFetchPartition

/-- A forgotten topic is read and thrown away. -/
def readForgottenTopic : Reading Unit := do
  let _ ← readCompactString
  let partitionCount ← readArrayCount true
  let _ ← readItems partitionCount readInt32
  skipTaggedFields

def decodeFetchRequest : Reading FetchRequest := do
  let replicaId ← readInt32
  let maxWaitMs ← readInt32
  let minBytes ← readInt32
  let maxBytes ← readInt32
  let isolationLevel ← readInt8
  let sessionId ← readInt32
  let sessionEpoch ← readInt32
  let topicCount ← readArrayCount true
  let topics ← readItems topicCount readFetchTopic
  let _ ← readArray false readForgottenTopic
  let rackId ← readCompactString
  skipTaggedFields
  return {
    replicaId
    maxWaitMs
    minBytes
    maxBytes
    isolationLevel
    sessionId
    sessionEpoch
    topics
    rackId }

def readListOffsetsPartition : Reading ListOffsetsRequestPartition := do
  making
  let partitionIndex ← readInt32
  let currentLeaderEpoch ← readInt32
  let timestamp ← readInt64
  skipTaggedFields
  return { partitionIndex, currentLeaderEpoch, timestamp }

def readListOffsetsTopic : Reading ListOffsetsRequestTopic := readTopic .mk readListOffsetsPartition

def decodeListOffsetsRequest : Reading ListOffsetsRequest := do
  let replicaId ← readInt32
  let isolationLevel ← readInt8
  let topicCount ← readArrayCount true
  let topics ← readItems topicCount readListOffsetsTopic
  skipTaggedFields
  return { replicaId, isolationLevel, topics }

/-! ### Responses -/

structure MetadataResponseBroker where
  nodeId : Int32
  host : Bytes
  port : Int32
  rack : Option Bytes

structure MetadataResponsePartition where
  errorCode : Int16
  partitionIndex : Int32
  leaderId : Int32
  leaderEpoch : Int32
  replicaNodes : List Int32
  isrNodes : List Int32
  offlineReplicas : List Int32

structure MetadataResponseTopic where
  errorCode : Int16
  name : Bytes
  isInternal : Bool
  partitions : List MetadataResponsePartition
  topicAuthorizedOperations : Int32

structure MetadataResponse where
  throttleTimeMs : Int32
  brokers : List MetadataResponseBroker
  clusterId : Option Bytes
  controllerId : Int32
  topics : List MetadataResponseTopic
  clusterAuthorizedOperations : Int32

structure ProduceResponsePartition where
  partitionIndex : Int32
  errorCode : Int16
  baseOffset : Int64
  logAppendTimeMs : Int64
  logStartOffset : Int64
  recordErrors : List Int32
  errorMessage : Option Bytes

structure ProduceResponseTopic where
  name : Bytes
  partitions : List ProduceResponsePartition

structure ProduceResponse where
  topics : List ProduceResponseTopic
  throttleTimeMs : Int32

structure FetchResponsePartition where
  partitionIndex : Int32
  errorCode : Int16
  highWatermark : Int64
  lastStableOffset : Int64
  logStartOffset : Int64
  abortedTransactions : Option (List Int64)
  preferredReadReplica : Int32
  records : Bytes

structure FetchResponseTopic where
  topic : Bytes
  partitions : List FetchResponsePartition

structure FetchResponse where
  throttleTimeMs : Int32
  errorCode : Int16
  sessionId : Int32
  topics : List FetchResponseTopic

structure ListOffsetsResponsePartition where
  partitionIndex : Int32
  errorCode : Int16
  timestamp : Int64
  offset : Int64
  leaderEpoch : Int32

structure ListOffsetsResponseTopic where
  name : Bytes
  partitions : List ListOffsetsResponsePartition

structure ListOffsetsResponse where
  throttleTimeMs : Int32
  topics : List ListOffsetsResponseTopic

/-- The count of a vector, then its elements. -/
def writeItems {α : Type} (items : List α) (write : α → Writing) : Writing := do
  writeArrayCount (.ofNat items.length) true
  items.forM write

/-- A topic that has partitions. -/
def writeTopic {α : Type} (name : Bytes) (partitions : List α) (partition : α → Writing) :
    Writing := do
  writeCompactString name
  writeItems partitions partition
  writeEmptyTaggedFields

def writeMetadataBroker (broker : MetadataResponseBroker) : Writing := do
  writeInt32 broker.nodeId
  writeCompactString broker.host
  writeInt32 broker.port
  writeCompactNullableString broker.rack
  writeEmptyTaggedFields

def writeMetadataPartition (partition : MetadataResponsePartition) : Writing := do
  writeInt16 partition.errorCode
  writeInt32 partition.partitionIndex
  writeInt32 partition.leaderId
  writeInt32 partition.leaderEpoch
  writeItems partition.replicaNodes writeInt32
  writeItems partition.isrNodes writeInt32
  writeItems partition.offlineReplicas writeInt32
  writeEmptyTaggedFields

def writeMetadataTopic (topic : MetadataResponseTopic) : Writing := do
  writeInt16 topic.errorCode
  writeCompactString topic.name
  writeBool topic.isInternal
  writeItems topic.partitions writeMetadataPartition
  writeInt32 topic.topicAuthorizedOperations
  writeEmptyTaggedFields

def writeMetadataResponse (response : MetadataResponse) : Writing := do
  writeInt32 response.throttleTimeMs
  writeItems response.brokers writeMetadataBroker
  writeCompactNullableString response.clusterId
  writeInt32 response.controllerId
  writeItems response.topics writeMetadataTopic
  writeInt32 response.clusterAuthorizedOperations
  writeEmptyTaggedFields

def encodeMetadataResponse (response : MetadataResponse) : Except Thrown Bytes :=
  takeBytes (writeMetadataResponse response)

def writeRecordError (error : Int32) : Writing := do
  writeInt32 error
  writeCompactNullableString none
  writeEmptyTaggedFields

/-- The fields of a partition behind its index. -/
def writeProduceResult (partition : ProduceResponsePartition) : Writing := do
  writeInt16 partition.errorCode
  writeInt64 partition.baseOffset
  writeInt64 partition.logAppendTimeMs
  writeInt64 partition.logStartOffset
  writeItems partition.recordErrors writeRecordError
  writeCompactNullableString partition.errorMessage
  writeEmptyTaggedFields

def writeProducePartition (partition : ProduceResponsePartition) : Writing := do
  writeInt32 partition.partitionIndex
  writeProduceResult partition

def writeProduceTopic (topic : ProduceResponseTopic) : Writing :=
  writeTopic topic.name topic.partitions writeProducePartition

def writeProduceResponse (response : ProduceResponse) : Writing := do
  writeItems response.topics writeProduceTopic
  writeInt32 response.throttleTimeMs
  writeEmptyTaggedFields

def encodeProduceResponse (response : ProduceResponse) : Except Thrown Bytes :=
  takeBytes (writeProduceResponse response)

def writeAbortedTransaction (producerId : Int64) : Writing := do
  writeInt64 producerId
  writeInt64 (-1)
  writeEmptyTaggedFields

def writeAbortedTransactions : Option (List Int64) → Writing
  | none => writeNullableArrayCount (-1) true
  | some producerIds => writeItems producerIds writeAbortedTransaction

/-- The fields of a partition behind its index. -/
def writeFetchResult (partition : FetchResponsePartition) : Writing := do
  writeInt16 partition.errorCode
  writeInt64 partition.highWatermark
  writeInt64 partition.lastStableOffset
  writeInt64 partition.logStartOffset
  writeAbortedTransactions partition.abortedTransactions
  writeInt32 partition.preferredReadReplica
  writeCompactNullableBytes (some partition.records)
  writeEmptyTaggedFields

def writeFetchPartition (partition : FetchResponsePartition) : Writing := do
  writeInt32 partition.partitionIndex
  writeFetchResult partition

def writeFetchTopic (topic : FetchResponseTopic) : Writing :=
  writeTopic topic.topic topic.partitions writeFetchPartition

def writeFetchResponse (response : FetchResponse) : Writing := do
  writeInt32 response.throttleTimeMs
  writeInt16 response.errorCode
  writeInt32 response.sessionId
  writeItems response.topics writeFetchTopic
  writeEmptyTaggedFields

def encodeFetchResponse (response : FetchResponse) : Except Thrown Bytes :=
  takeBytes (writeFetchResponse response)

/-- The fields of a partition behind its index. -/
def writeListOffsetsResult (partition : ListOffsetsResponsePartition) : Writing := do
  writeInt16 partition.errorCode
  writeInt64 partition.timestamp
  writeInt64 partition.offset
  writeInt32 partition.leaderEpoch
  writeEmptyTaggedFields

def writeListOffsetsPartition (partition : ListOffsetsResponsePartition) : Writing := do
  writeInt32 partition.partitionIndex
  writeListOffsetsResult partition

def writeListOffsetsTopic (topic : ListOffsetsResponseTopic) : Writing :=
  writeTopic topic.name topic.partitions writeListOffsetsPartition

def writeListOffsetsResponse (response : ListOffsetsResponse) : Writing := do
  writeInt32 response.throttleTimeMs
  writeItems response.topics writeListOffsetsTopic
  writeEmptyTaggedFields

def encodeListOffsetsResponse (response : ListOffsetsResponse) : Except Thrown Bytes :=
  takeBytes (writeListOffsetsResponse response)

end Codec

end Mkmq
