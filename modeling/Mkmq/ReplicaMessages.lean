import Mkmq.Wire

/-!
# Replication messages (`src/broker_shard_detail.cpp`)

The leader pushes `ReplicaAppendRequest`s and answers `ReplicaFetchRequest`s with
`ReplicaFetchResult`s.  The structures here are the ones on the wire: a topic is its bytes and
the integers have their widths.  Encoders and decoders are separate functions of the source;
what ties them together is that each decoder turns exactly the bytes of its encoder back into
the message and refuses every part of them.
-/

namespace Mkmq

open ByteCodec ReadProgram ReadProgram.Program WriteProgram WireReader WireWriter

variable {α : Type}

/-- A function that constructs a `WireReader` over `payload` and reads from it. -/
def decode {α : Type} (p : Reading α) (payload : Bytes) : Except Thrown α :=
  (p.exec payload 0).map Prod.fst

namespace Wire

structure ReplicaAppendRequest where
  topic : Bytes
  partition : Int32
  baseOffset : Int64
  leaderHighWatermark : Int64
  records : Bytes
deriving DecidableEq

structure ReplicaFetchRequest where
  topic : Bytes
  partition : Int32
  offset : Int64
  maxBytes : Int32
deriving DecidableEq

structure ReplicaFetchResult where
  errorCode : Int16
  leaderHighWatermark : Int64
  logEndOffset : Int64
  records : Bytes
deriving DecidableEq

def readReplicaAppend : Reading ReplicaAppendRequest := do
  let topic ← readString
  let partition ← readInt32
  let baseOffset ← readInt64
  let leaderHighWatermark ← readInt64
  let records ← readBytes
  return { topic, partition, baseOffset, leaderHighWatermark, records }

def decodeReplicaAppend : Bytes → Except Thrown ReplicaAppendRequest := decode readReplicaAppend

def writeReplicaAppend (request : ReplicaAppendRequest) : Writing := do
  writeString request.topic
  writeInt32 request.partition
  writeInt64 request.baseOffset
  writeInt64 request.leaderHighWatermark
  writeBytes request.records

def encodeReplicaAppend (request : ReplicaAppendRequest) : Except Thrown Bytes :=
  takeBytes (writeReplicaAppend request)

def writeReplicaAppendResponse (errorCode : Int16) (logEndOffset : Int64) : Writing := do
  writeInt16 errorCode
  writeInt64 logEndOffset

def encodeReplicaAppendResponse (errorCode : Int16) (logEndOffset : Int64) : Except Thrown Bytes :=
  takeBytes (writeReplicaAppendResponse errorCode logEndOffset)

def readReplicaFetch : Reading ReplicaFetchRequest := do
  let topic ← readString
  let partition ← readInt32
  let offset ← readInt64
  let maxBytes ← readInt32
  return { topic, partition, offset, maxBytes }

def decodeReplicaFetch : Bytes → Except Thrown ReplicaFetchRequest := decode readReplicaFetch

def writeReplicaFetch (request : ReplicaFetchRequest) : Writing := do
  writeString request.topic
  writeInt32 request.partition
  writeInt64 request.offset
  writeInt32 request.maxBytes

def encodeReplicaFetch (request : ReplicaFetchRequest) : Except Thrown Bytes :=
  takeBytes (writeReplicaFetch request)

def writeReplicaFetchResponse (result : ReplicaFetchResult) : Writing := do
  writeInt16 result.errorCode
  writeInt64 result.leaderHighWatermark
  writeInt64 result.logEndOffset
  writeBytes result.records

def encodeReplicaFetchResponse (result : ReplicaFetchResult) : Except Thrown Bytes :=
  takeBytes (writeReplicaFetchResponse result)

def readReplicaFetchResponse : Reading ReplicaFetchResult := do
  let errorCode ← readInt16
  let leaderHighWatermark ← readInt64
  let logEndOffset ← readInt64
  let records ← readBytes
  return { errorCode, leaderHighWatermark, logEndOffset, records }

def decodeReplicaFetchResponse : Bytes → Except Thrown ReplicaFetchResult :=
  decode readReplicaFetchResponse

/-- The continuation `replicate_to_isr` gives to `forward`: only the error code is read, and
    any but 0 fails the push. -/
def replicateResponse : Bytes → Except Thrown Unit :=
  fun payload => do
    let errorCode ← decode readInt16 payload
    if errorCode ≠ 0 then .error (.runtimeError "replica append failed") else return ()

end Wire

/-! ### Which errors a reader throws -/

theorem failsWith_pure {P : Thrown → Prop} (value : α) : (pure value : Reading α).FailsWith P :=
  trivial

theorem failsWith_raw (n : Nat) : (readRaw n).FailsWith Thrown.IsProtocolError :=
  ⟨trivial, fun _ => trivial⟩

theorem failsWith_int16 : readInt16.FailsWith Thrown.IsProtocolError :=
  (failsWith_raw 2).bind fun _ => failsWith_pure _

theorem failsWith_int32 : readInt32.FailsWith Thrown.IsProtocolError :=
  (failsWith_raw 4).bind fun _ => failsWith_pure _

theorem failsWith_int64 : readInt64.FailsWith Thrown.IsProtocolError :=
  (failsWith_raw 8).bind fun _ => failsWith_pure _

theorem failsWith_string : readString.FailsWith Thrown.IsProtocolError := by
  refine failsWith_int16.bind fun size => ?_
  split
  · trivial
  · exact failsWith_raw _

theorem failsWith_bytes : readBytes.FailsWith Thrown.IsProtocolError := by
  refine failsWith_int32.bind fun size => ?_
  split
  · trivial
  · exact failsWith_raw _

/-! ### Messages there and back -/

/-- `decode` gives `value` back from what `encode` returns, and throws a `ProtocolError` on
    every proper part of it that starts at the beginning. -/
def RoundTrips {α : Type} (encode : Except Thrown Bytes) (decode : Bytes → Except Thrown α)
    (value : α) : Prop :=
  ∃ payload, encode = .ok payload ∧ decode payload = .ok value ∧
    ∀ cut missing : Bytes, cut ++ missing = payload → missing ≠ [] →
      ∃ what, decode cut = .error (.protocolError what)

theorem takeBytes_of_writes {w : Writing} {bytes : Bytes} (h : Writes w bytes) :
    takeBytes w = .ok bytes := by
  rw [takeBytes, h [], List.nil_append]
  rfl

theorem decode_of_reads {p : Reading α} {bytes : Bytes} {value : α} (h : Reads p bytes value)
    (after : Bytes) : decode p (bytes ++ after) = .ok value := by
  rw [decode, h.exec after]
  rfl

theorem decode_cut {p : Reading α} {cut missing : Bytes} {value : α}
    (h : Reads p (cut ++ missing) value) (hp : p.FailsWith Thrown.IsProtocolError)
    (hmissing : missing ≠ []) : ∃ what, decode p cut = .error (.protocolError what) := by
  obtain ⟨error, herror⟩ := h.error_of_cut hmissing
  have hkind := hp.of_exec herror
  cases error with
  | protocolError what => exact ⟨what, by rw [decode, herror]; rfl⟩
  | invalidArgument _ => exact hkind.elim
  | runtimeError _ => exact hkind.elim

theorem roundTrips_of_carries {w : Writing} {p : Reading α} {value : α} (h : Carries w p value)
    (hp : p.FailsWith Thrown.IsProtocolError) : RoundTrips (takeBytes w) (decode p) value := by
  obtain ⟨bytes, hwrites, hreads⟩ := h
  refine ⟨bytes, takeBytes_of_writes hwrites, ?_, ?_⟩
  · have hwhole := decode_of_reads hreads []
    rwa [List.append_nil] at hwhole
  · rintro cut missing rfl hmissing
    exact decode_cut hreads hp hmissing

theorem carries_replicaAppend (request : Wire.ReplicaAppendRequest)
    (htopic : request.topic.length ≤ 32767) (hrecords : request.records.length < 2 ^ 31) :
    Carries (Wire.writeReplicaAppend request) Wire.readReplicaAppend request :=
  (carries_string htopic).seq <| (carries_int32 _).seq <| (carries_int64 _).seq <|
    (carries_int64 _).seq <| (carries_bytes hrecords).ends rfl

theorem carries_replicaFetch (request : Wire.ReplicaFetchRequest)
    (htopic : request.topic.length ≤ 32767) :
    Carries (Wire.writeReplicaFetch request) Wire.readReplicaFetch request :=
  (carries_string htopic).seq <| (carries_int32 _).seq <| (carries_int64 _).seq <|
    (carries_int32 _).ends rfl

theorem carries_replicaFetchResponse (result : Wire.ReplicaFetchResult)
    (hrecords : result.records.length < 2 ^ 31) :
    Carries (Wire.writeReplicaFetchResponse result) Wire.readReplicaFetchResponse result :=
  (carries_int16 _).seq <| (carries_int64 _).seq <| (carries_int64 _).seq <|
    (carries_bytes hrecords).ends rfl

theorem failsWith_replicaAppend : Wire.readReplicaAppend.FailsWith Thrown.IsProtocolError :=
  failsWith_string.bind fun _ => failsWith_int32.bind fun _ => failsWith_int64.bind fun _ =>
    failsWith_int64.bind fun _ => failsWith_bytes.bind fun _ => failsWith_pure _

theorem failsWith_replicaFetch : Wire.readReplicaFetch.FailsWith Thrown.IsProtocolError :=
  failsWith_string.bind fun _ => failsWith_int32.bind fun _ => failsWith_int64.bind fun _ =>
    failsWith_int32.bind fun _ => failsWith_pure _

theorem failsWith_replicaFetchResponse :
    Wire.readReplicaFetchResponse.FailsWith Thrown.IsProtocolError :=
  failsWith_int16.bind fun _ => failsWith_int64.bind fun _ => failsWith_int64.bind fun _ =>
    failsWith_bytes.bind fun _ => failsWith_pure _

/-- The error code stands first, so reading it needs nothing of what follows. -/
theorem decode_replicaAppendResponse (errorCode : Int16) (logEndOffset : Int64) :
    ∃ payload, Wire.encodeReplicaAppendResponse errorCode logEndOffset = .ok payload ∧
      decode readInt16 payload = .ok errorCode := by
  obtain ⟨first, hwrites, hreads⟩ := carries_int16 errorCode
  obtain ⟨second, hwrites', -⟩ := carries_int64 logEndOffset
  exact ⟨first ++ second, takeBytes_of_writes (hwrites.seq hwrites'), decode_of_reads hreads second⟩

/-- **Replication messages survive the wire and cannot be truncated.** -/
theorem replication_messages_round_trip :
    (∀ request : Wire.ReplicaAppendRequest, request.topic.length ≤ 32767 →
      request.records.length < 2 ^ 31 →
      RoundTrips (Wire.encodeReplicaAppend request) Wire.decodeReplicaAppend request) ∧
    (∀ request : Wire.ReplicaFetchRequest, request.topic.length ≤ 32767 →
      RoundTrips (Wire.encodeReplicaFetch request) Wire.decodeReplicaFetch request) ∧
    (∀ result : Wire.ReplicaFetchResult, result.records.length < 2 ^ 31 →
      RoundTrips (Wire.encodeReplicaFetchResponse result) Wire.decodeReplicaFetchResponse result) ∧
    ∀ (errorCode : Int16) (logEndOffset : Int64), ∃ payload,
      Wire.encodeReplicaAppendResponse errorCode logEndOffset = .ok payload ∧
        decode readInt16 payload = .ok errorCode ∧
        (Wire.replicateResponse payload = .ok () ↔ errorCode = 0) := by
  refine ⟨fun request htopic hrecords => ?_, fun request htopic => ?_, fun result hrecords => ?_,
    fun errorCode logEndOffset => ?_⟩
  · exact roundTrips_of_carries (carries_replicaAppend request htopic hrecords)
      failsWith_replicaAppend
  · exact roundTrips_of_carries (carries_replicaFetch request htopic) failsWith_replicaFetch
  · exact roundTrips_of_carries (carries_replicaFetchResponse result hrecords)
      failsWith_replicaFetchResponse
  · obtain ⟨payload, hencode, hdecode⟩ := decode_replicaAppendResponse errorCode logEndOffset
    refine ⟨payload, hencode, hdecode, ?_⟩
    rw [Wire.replicateResponse, hdecode]
    change (if errorCode ≠ 0 then Except.error _ else pure ()) = _ ↔ _
    by_cases hzero : errorCode = 0
    · rw [if_neg (not_not.mpr hzero)]
      exact iff_of_true rfl hzero
    · rw [if_pos hzero]
      exact iff_of_false (fun h => nomatch h) hzero

/-- A push of one batch of three bytes to an empty topic name, at the least and greatest offsets. -/
theorem replication_messages_round_trip_push :
    RoundTrips (Wire.encodeReplicaAppend ⟨[], -1, Int64.minValue, Int64.maxValue, [1, 2, 3]⟩)
      Wire.decodeReplicaAppend ⟨[], -1, Int64.minValue, Int64.maxValue, [1, 2, 3]⟩ :=
  replication_messages_round_trip.1 _ (by decide) (by decide)

end Mkmq
