import Mkmq.Crc32c
import Mkmq.ReplicaMessages
import Mkmq.KafkaCodec

/-!
# The bench client (`src/tools/kafka_bench_client.cpp`)

The client has a codec of its own, written by hand against the Kafka specification: it wraps
request bodies that the broker's decoders read, and reads the first error, offset or records
off the broker's responses.  Both sides are modelled from their own source; that they agree is
proved in `ClientAgreement`.
-/

namespace Mkmq

open ByteCodec ReadProgram ReadProgram.Program WriteProgram WireReader WireWriter

namespace BenchClient

/-- The options the bodies are made from.  `parse_options` refuses a negative payload size. -/
structure Options where
  topic : Bytes
  partition : Int32
  payloadSize : Int32
  transactionalId : Option Bytes
  idempotentBatch : Bool
  payloadSize_nonneg : 0 ≤ payloadSize

/-- `"mkmq-bench"` -/
def kClientId : Bytes := [0x6d, 0x6b, 0x6d, 0x71, 0x2d, 0x62, 0x65, 0x6e, 0x63, 0x68]

/-! ### Requests -/

/-- The header `wrap_request` writes before the body. -/
def writeRequestHeader (apiKey apiVersion : Int16) (correlationId : Int32) : Writing := do
  writeInt16 apiKey
  writeInt16 apiVersion
  writeInt32 correlationId
  writeNullableString (some kClientId)
  writeEmptyTaggedFields

def wrapRequest (apiKey apiVersion : Int16) (correlationId : Int32) (body : Bytes) :
    Except Thrown Bytes :=
  makeFrame do
    writeRequestHeader apiKey apiVersion correlationId
    writeRaw body

def writeMetadataBody (options : Options) : Writing := do
  writeArrayCount 1 true
  writeCompactString options.topic
  writeEmptyTaggedFields
  writeBool false
  writeBool false
  writeBool false
  writeEmptyTaggedFields

def makeMetadataBody (options : Options) : Except Thrown Bytes :=
  takeBytes (writeMetadataBody options)

/-- The value is a `std::uint64_t`: a bit above the lowest seven is set from 128 on. -/
def appendUnsignedVarint (bytes : Bytes) (value : Nat) : Bytes :=
  if value < 128 then bytes ++ [UInt8.ofNat value]
  else appendUnsignedVarint (bytes ++ [UInt8.ofNat (value % 128 + 128)]) (value / 128)
termination_by value

def appendVarint (bytes : Bytes) (value : Int32) : Bytes :=
  appendUnsignedVarint bytes ((value.toUInt32 <<< 1) ^^^ (value >>> 31).toUInt32).toNat

def appendVarlong (bytes : Bytes) (value : Int64) : Bytes :=
  appendUnsignedVarint bytes ((value.toUInt64 <<< 1) ^^^ (value >>> 63).toUInt64).toNat

def putI64Be (bytes : Bytes) (pos : Nat) (value : Int64) : Bytes :=
  splice bytes pos (beBytes 8 value.toBitVec.toNat)

def putI32Be (bytes : Bytes) (pos : Nat) (value : Int32) : Bytes :=
  splice bytes pos (beBytes 4 value.toBitVec.toNat)

def putI16Be (bytes : Bytes) (pos : Nat) (value : Int16) : Bytes :=
  splice bytes pos (beBytes 2 value.toBitVec.toNat)

def makeRecordBatch (options : Options) : Bytes :=
  let recordBody := appendVarlong [0] 0
  let recordBody := appendVarint recordBody 0
  let recordBody := appendVarint recordBody (-1)
  let recordBody := appendVarint recordBody options.payloadSize
  let recordBody := recordBody ++ (List.range options.payloadSize.toNatClampNeg).map UInt8.ofNat
  let recordBody := appendVarint recordBody 0
  let records := appendVarint [] (.ofNat recordBody.length) ++ recordBody
  let size := 61 + records.length
  let batch : Bytes := List.replicate size 0
  let batch := putI32Be batch 8 (.ofNat (size - 12))
  let batch := splice batch 16 [2]
  let batch := putI64Be batch 43 (if options.idempotentBatch then 1 else -1)
  let batch := putI16Be batch 51 (if options.idempotentBatch then 0 else -1)
  let batch := putI32Be batch 53 (if options.idempotentBatch then 0 else -1)
  let batch := putI32Be batch 57 1
  let batch := splice batch 61 records
  putI32Be batch 17 (.ofBitVec (crc32c (batch.drop 21)))

def writeProduceBody (options : Options) (acks : Int16) : Writing := do
  writeCompactNullableString options.transactionalId
  writeInt16 acks
  writeInt32 100
  writeArrayCount 1 true
  writeCompactString options.topic
  writeArrayCount 1 true
  writeInt32 options.partition
  writeCompactNullableBytes (some (makeRecordBatch options))
  writeEmptyTaggedFields
  writeEmptyTaggedFields
  writeEmptyTaggedFields

def makeProduceBody (options : Options) (acks : Int16) : Except Thrown Bytes :=
  takeBytes (writeProduceBody options acks)

def writeFetchBody (options : Options) (offset : Int64) (maxWaitMs : Int32) : Writing := do
  writeInt32 (-1)
  writeInt32 maxWaitMs
  writeInt32 1
  writeInt32 (1024 * 1024)
  writeInt8 0
  writeInt32 0
  writeInt32 (-1)
  writeArrayCount 1 true
  writeCompactString options.topic
  writeArrayCount 1 true
  writeInt32 options.partition
  writeInt32 0
  writeInt64 offset
  writeInt32 (-1)
  writeInt64 (-1)
  writeInt32 (1024 * 1024)
  writeEmptyTaggedFields
  writeEmptyTaggedFields
  writeArrayCount 0 true
  writeCompactString []
  writeEmptyTaggedFields

def makeFetchBody (options : Options) (offset : Int64) (maxWaitMs : Int32) : Except Thrown Bytes :=
  takeBytes (writeFetchBody options offset maxWaitMs)

def writeListOffsetsBody (options : Options) (timestamp : Int64) : Writing := do
  writeInt32 (-1)
  writeInt8 0
  writeArrayCount 1 true
  writeCompactString options.topic
  writeArrayCount 1 true
  writeInt32 options.partition
  writeInt32 (-1)
  writeInt64 timestamp
  writeEmptyTaggedFields
  writeEmptyTaggedFields
  writeEmptyTaggedFields

def makeListOffsetsBody (options : Options) (timestamp : Int64) : Except Thrown Bytes :=
  takeBytes (writeListOffsetsBody options timestamp)

/-! ### Responses -/

def skipResponseHeaderTags (correlationId : Int32) : Reading Unit := do
  let _ ← readInt32
  let actual ← readInt32
  if actual ≠ correlationId then .fail (.runtimeError "unexpected correlation id in response")
  else skipTaggedFields

/-- Up to behind the index of the first partition of the first topic, then `item`. -/
def readFirstPartition {α : Type} (noTopics noPartitions : String) (item : Reading α) :
    Reading α := do
  let topicCount ← readArrayCount true
  if topicCount ≤ 0 then .fail (.runtimeError noTopics)
  else
    let _ ← readCompactString
    let partitionCount ← readArrayCount true
    if partitionCount ≤ 0 then .fail (.runtimeError noPartitions)
    else
      let _ ← readInt32
      item

def firstProduceError (frame : Bytes) (correlationId : Int32) : Except Thrown Int16 :=
  decode (do
    skipResponseHeaderTags correlationId
    readFirstPartition "Produce response had no topics" "Produce response had no partitions"
      readInt16) frame

def skipBroker : Reading Unit := do
  let _ ← readInt32
  let _ ← readCompactString
  let _ ← readInt32
  let _ ← readCompactNullableString
  skipTaggedFields

def readMetadataError : Reading Int16 := do
  let _ ← readInt32
  let _ ← Codec.readArray false skipBroker
  let _ ← readCompactNullableString
  let _ ← readInt32
  let topicCount ← readArrayCount true
  if topicCount ≤ 0 then .fail (.runtimeError "Metadata response had no topics")
  else readInt16

def firstMetadataError (frame : Bytes) (correlationId : Int32) : Except Thrown Int16 :=
  decode (do
    skipResponseHeaderTags correlationId
    readMetadataError) frame

structure FetchSummary where
  errorCode : Int16
  highWatermark : Int64
  records : Bytes
deriving DecidableEq, Repr

def skipAbortedTransaction : Reading Unit := do
  let _ ← readInt64
  let _ ← readInt64
  skipTaggedFields

def readFetchSummary : Reading FetchSummary := do
  let errorCode ← readInt16
  let highWatermark ← readInt64
  let _ ← readInt64
  let _ ← readInt64
  let _ ← Codec.readArray true skipAbortedTransaction
  let _ ← readInt32
  let records ← readCompactNullableBytes
  return { errorCode, highWatermark, records := records.getD [] }

def firstFetchSummary (frame : Bytes) (correlationId : Int32) : Except Thrown FetchSummary :=
  decode (do
    skipResponseHeaderTags correlationId
    let _ ← readInt32
    let _ ← readInt16
    let _ ← readInt32
    readFirstPartition "Fetch response had no topics" "Fetch response had no partitions"
      readFetchSummary) frame

def readListOffset : Reading (Int16 × Int64) := do
  let error ← readInt16
  let _ ← readInt64
  let offset ← readInt64
  return (error, offset)

def firstListOffset (frame : Bytes) (correlationId : Int32) : Except Thrown (Int16 × Int64) :=
  decode (do
    skipResponseHeaderTags correlationId
    let _ ← readInt32
    readFirstPartition "ListOffsets response had no topics"
      "ListOffsets response had no partitions" readListOffset) frame

end BenchClient

end Mkmq
