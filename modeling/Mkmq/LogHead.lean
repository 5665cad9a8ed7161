import Mkmq.Config
import Mkmq.RecordBatch

/-!
# The head of a partition log: offsets, limits and admission

`PartitionLogShard::append` and `append_replica` (`src/partition_log_shard.cpp`) run
in two halves.  The first is synchronous: admission checks, assignment of offsets,
the high watermark.  The second writes the frame and flushes, and may be delayed,
reordered or fail.  `LogHead` is the part of the shard the first half reads and
changes, and this module is that half, together with the watermark operations.

Offsets are mathematical integers; the 64-bit counters of the source agree with them
up to signed overflow, which has no defined result there.
-/

namespace Mkmq

open ByteCodec

variable {head : LogHead} {request : ReplicaAppendRequest}

inductive ErrorCode where
  | none
  | offsetOutOfRange
  | unknownTopicOrPartition
  | notLeaderOrFollower
  | requestTimedOut
  | recordListTooLarge
  | notEnoughReplicas
  | unsupportedVersion
  | invalidRequest
  | policyViolation
deriving DecidableEq, Repr

/-- The number a code has on the wire. -/
def ErrorCode.code : ErrorCode → Int
  | .none => 0
  | .offsetOutOfRange => 1
  | .unknownTopicOrPartition => 3
  | .notLeaderOrFollower => 6
  | .requestTimedOut => 7
  | .recordListTooLarge => 18
  | .notEnoughReplicas => 19
  | .unsupportedVersion => 35
  | .invalidRequest => 42
  | .policyViolation => 44

structure PartitionOffsets where
  earliest : Int := 0
  latest : Int := 0
  highWatermark : Int := 0
deriving DecidableEq, Repr

structure RecordSet where
  baseOffset : Int := 0
  lastOffset : Int := -1
  bytes : Bytes := []
deriving DecidableEq, Repr

structure ProducePartitionResult where
  topic : String := ""
  partition : Int := 0
  errorCode : ErrorCode := .none
  baseOffset : Int := 0
  logEndOffset : Int := 0
  logStartOffset : Int := 0
deriving DecidableEq, Repr

structure ReplicaAppendRequest where
  topic : String := ""
  partition : Int := 0
  baseOffset : Int := 0
  leaderHighWatermark : Int := 0
  records : Bytes := []
deriving DecidableEq, Repr

/-- What admission reads and changes of a partition's log. -/
structure LogHead where
  config : PartitionConfig
  offsets : PartitionOffsets := {}
  queueDepth : Nat := 0
  degraded : Bool := false
  replicaLag : Int := 0
deriving DecidableEq, Repr

/-- The record set that takes the offsets from `baseOffset` on. -/
def recordSetAt (baseOffset : Int) (records : Bytes) : RecordSet :=
  let count := estimateRecordCount records
  { baseOffset := baseOffset
    lastOffset := if count = 0 then baseOffset - 1 else baseOffset + count - 1
    bytes := records }

/-- One past the last offset of a record set. -/
def RecordSet.endOffset (recordSet : RecordSet) : Int := recordSet.lastOffset + 1

theorem recordSetAt_endOffset (baseOffset : Int) (records : Bytes) :
    (recordSetAt baseOffset records).endOffset = baseOffset + estimateRecordCount records := by
  unfold RecordSet.endOffset recordSetAt
  simp only
  split <;> omega

/-! ### Admission -/

/-- The outcome of the synchronous half: the new head, the response as filled in so far,
    and the record set handed to `write_record_set` unless the request was refused. -/
structure Admission where
  head : LogHead
  response : ProducePartitionResult
  recordSet : Option RecordSet
deriving DecidableEq, Repr

def LogHead.append (head : LogHead) (records : Bytes) (acks : Int) : Admission :=
  let response : ProducePartitionResult :=
    { topic := head.config.topic
      partition := head.config.partition
      logStartOffset := head.offsets.earliest }
  if records.length > head.config.maxFrameBytes then
    ⟨head, { response with errorCode := .recordListTooLarge }, none⟩
  else if head.queueDepth ≥ head.config.queueLimit then
    ⟨head, { response with errorCode := .requestTimedOut }, none⟩
  else if acks < -1 ∨ acks > 1 then
    ⟨head, { response with errorCode := .invalidRequest }, none⟩
  else
    let baseOffset := head.offsets.latest
    let latest := baseOffset + estimateRecordCount records
    let highWatermark :=
      if head.config.isr.length ≤ 1 then latest else head.offsets.highWatermark
    ⟨{ head with
        queueDepth := head.queueDepth + 1
        offsets := { head.offsets with latest := latest, highWatermark := highWatermark } },
      { response with baseOffset := baseOffset, logEndOffset := latest },
      some (recordSetAt baseOffset records)⟩

def LogHead.appendReplica (head : LogHead) (request : ReplicaAppendRequest) : Admission :=
  let response : ProducePartitionResult :=
    { topic := request.topic
      partition := request.partition
      baseOffset := request.baseOffset
      logStartOffset := head.offsets.earliest }
  if request.records.length > head.config.maxFrameBytes then
    ⟨head, { response with errorCode := .recordListTooLarge }, none⟩
  else if request.baseOffset ≠ head.offsets.latest then
    ⟨head, { response with errorCode := .offsetOutOfRange }, none⟩
  else if head.queueDepth ≥ head.config.queueLimit then
    ⟨head, { response with errorCode := .requestTimedOut }, none⟩
  else
    let latest := request.baseOffset + estimateRecordCount request.records
    let highWatermark := min latest request.leaderHighWatermark
    ⟨{ head with
        queueDepth := head.queueDepth + 1
        offsets := { head.offsets with latest := latest, highWatermark := highWatermark }
        replicaLag := max 0 (request.leaderHighWatermark - highWatermark) },
      { response with logEndOffset := latest },
      some (recordSetAt request.baseOffset request.records)⟩

/-- The `finally` of both: the write has settled, one way or the other. -/
def LogHead.settle (head : LogHead) : LogHead := { head with queueDepth := head.queueDepth - 1 }

/-- The three checks of `append`. -/
def LogHead.Admits (head : LogHead) (records : Bytes) (acks : Int) : Prop :=
  records.length ≤ head.config.maxFrameBytes ∧ head.queueDepth < head.config.queueLimit ∧
    -1 ≤ acks ∧ acks ≤ 1

instance (head : LogHead) (records : Bytes) (acks : Int) :
    Decidable (head.Admits records acks) := by unfold LogHead.Admits; infer_instance

/-- The three checks of `append_replica`. -/
def LogHead.AdmitsReplica (head : LogHead) (request : ReplicaAppendRequest) : Prop :=
  request.records.length ≤ head.config.maxFrameBytes ∧
    request.baseOffset = head.offsets.latest ∧ head.queueDepth < head.config.queueLimit

instance (head : LogHead) (request : ReplicaAppendRequest) :
    Decidable (head.AdmitsReplica request) := by unfold LogHead.AdmitsReplica; infer_instance

/-- The head after an accepted `append`. -/
def LogHead.appended (head : LogHead) (records : Bytes) : LogHead :=
  let latest := head.offsets.latest + estimateRecordCount records
  { head with
    queueDepth := head.queueDepth + 1
    offsets := { head.offsets with
      latest := latest
      highWatermark := if head.config.isr.length ≤ 1 then latest else head.offsets.highWatermark } }

/-- The head after an accepted `append_replica`. -/
def LogHead.replicated (head : LogHead) (request : ReplicaAppendRequest) : LogHead :=
  let latest := request.baseOffset + estimateRecordCount request.records
  { head with
    queueDepth := head.queueDepth + 1
    offsets := { head.offsets with
      latest := latest
      highWatermark := min latest request.leaderHighWatermark }
    replicaLag := max 0 (request.leaderHighWatermark - min latest request.leaderHighWatermark) }

theorem LogHead.append_of_admits {records : Bytes} {acks : Int} (h : head.Admits records acks) :
    head.append records acks =
      ⟨head.appended records,
        { topic := head.config.topic
          partition := head.config.partition
          baseOffset := head.offsets.latest
          logEndOffset := head.offsets.latest + estimateRecordCount records
          logStartOffset := head.offsets.earliest },
        some (recordSetAt head.offsets.latest records)⟩ := by
  obtain ⟨hsize, hqueue, hlo, hhi⟩ := h
  unfold LogHead.append
  rw [if_neg (by omega), if_neg (by omega), if_neg (by omega)]
  rfl

/-- A refused `append` changes nothing and answers with an error. -/
theorem LogHead.append_of_not_admits {records : Bytes} {acks : Int}
    (h : ¬ head.Admits records acks) :
    (head.append records acks).head = head ∧ (head.append records acks).recordSet = none ∧
      (head.append records acks).response.errorCode ≠ .none := by
  unfold LogHead.append
  split
  · exact ⟨rfl, rfl, by simp⟩
  split
  · exact ⟨rfl, rfl, by simp⟩
  split
  · exact ⟨rfl, rfl, by simp⟩
  next hsize hqueue hacks =>
    refine absurd ⟨?_, ?_, ?_, ?_⟩ h <;> omega

theorem LogHead.appendReplica_of_admits (h : head.AdmitsReplica request) :
    head.appendReplica request =
      ⟨head.replicated request,
        { topic := request.topic
          partition := request.partition
          baseOffset := request.baseOffset
          logEndOffset := request.baseOffset + estimateRecordCount request.records
          logStartOffset := head.offsets.earliest },
        some (recordSetAt request.baseOffset request.records)⟩ := by
  obtain ⟨hsize, hbase, hqueue⟩ := h
  unfold LogHead.appendReplica
  rw [if_neg (by omega), if_neg (not_not.mpr hbase), if_neg (by omega)]
  rfl

theorem LogHead.appendReplica_of_not_admits (h : ¬ head.AdmitsReplica request) :
    (head.appendReplica request).head = head ∧ (head.appendReplica request).recordSet = none ∧
      (head.appendReplica request).response.errorCode ≠ .none := by
  unfold LogHead.appendReplica
  split
  · exact ⟨rfl, rfl, by simp⟩
  split
  · exact ⟨rfl, rfl, by simp⟩
  split
  · exact ⟨rfl, rfl, by simp⟩
  next hsize hbase hqueue =>
    exact absurd ⟨by omega, not_not.mp hbase, by omega⟩ h

/-! ### Either kind of request -/

inductive LogCall where
  | append (records : Bytes) (acks : Int)
  | appendReplica (request : ReplicaAppendRequest)
deriving DecidableEq, Repr

def LogCall.records : LogCall → Bytes
  | .append records _ => records
  | .appendReplica request => request.records

def LogCall.admission (head : LogHead) : LogCall → Admission
  | .append records acks => head.append records acks
  | .appendReplica request => head.appendReplica request

/-- **A request is admitted at the log end or refused without a trace.** -/
theorem LogCall.admission_cases (head : LogHead) (call : LogCall) :
    ((call.admission head).recordSet = some (recordSetAt head.offsets.latest call.records) ∧
      (call.admission head).head.offsets.latest =
        head.offsets.latest + estimateRecordCount call.records ∧
      (call.admission head).head.config = head.config ∧
      (call.admission head).response.errorCode = .none) ∨
    ((call.admission head).recordSet = none ∧ (call.admission head).head = head ∧
      (call.admission head).response.errorCode ≠ .none) := by
  cases call with
  | append records acks =>
    by_cases hadmits : head.Admits records acks
    · left
      rw [LogCall.admission, LogHead.append_of_admits hadmits]
      exact ⟨rfl, rfl, rfl, rfl⟩
    · obtain ⟨hhead, hnone, herror⟩ := LogHead.append_of_not_admits hadmits
      exact Or.inr ⟨hnone, hhead, herror⟩
  | appendReplica request =>
    by_cases hadmits : head.AdmitsReplica request
    · left
      rw [LogCall.admission, LogHead.appendReplica_of_admits hadmits, ← hadmits.2.1]
      exact ⟨rfl, rfl, rfl, rfl⟩
    · obtain ⟨hhead, hnone, herror⟩ := LogHead.appendReplica_of_not_admits hadmits
      exact Or.inr ⟨hnone, hhead, herror⟩

/-! ### Watermark operations -/

def LogHead.markReplicatedThrough (head : LogHead) (offset : Int) : LogHead :=
  let highWatermark := min head.offsets.latest (max head.offsets.highWatermark offset)
  { head with
    offsets := { head.offsets with highWatermark := highWatermark }
    replicaLag := max 0 (head.offsets.latest - highWatermark)
    degraded := false }

def LogHead.markDegraded (head : LogHead) : LogHead :=
  { head with
    degraded := true
    replicaLag := max 0 (head.offsets.latest - head.offsets.highWatermark) }

@[simp] theorem LogHead.appended_latest (head : LogHead) (records : Bytes) :
    (head.appended records).offsets.latest =
      head.offsets.latest + estimateRecordCount records := rfl

@[simp] theorem LogHead.replicated_latest (head : LogHead) (request : ReplicaAppendRequest) :
    (head.replicated request).offsets.latest =
      request.baseOffset + estimateRecordCount request.records := rfl

@[simp] theorem LogHead.appended_config (head : LogHead) (records : Bytes) :
    (head.appended records).config = head.config := rfl

@[simp] theorem LogHead.settle_offsets (head : LogHead) : head.settle.offsets = head.offsets := rfl
@[simp] theorem LogHead.settle_config (head : LogHead) : head.settle.config = head.config := rfl

@[simp] theorem LogHead.markReplicatedThrough_config (head : LogHead) (offset : Int) :
    (head.markReplicatedThrough offset).config = head.config := rfl

end Mkmq
