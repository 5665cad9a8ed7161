import Mathlib.Algebra.Order.BigOperators.Group.List
import Mkmq.BenchClient

/-!
# Client and broker agree

What the bench client wraps, `parse_request_header` and the decoder of the API read to exactly
the fields written, and nothing is left.  What the broker frames, the client's `first_*`
readers open at the first topic or partition.  In both directions the frame is below `2 ^ 31`
bytes, the size its first four bytes can state; the lengths and counts inside it are bounded
by it.
-/

namespace Mkmq

open ByteCodec ReadProgram ReadProgram.Program WriteProgram WireReader WireWriter

variable {α β : Type} {key : ApiKey} {version : Int16} {write : α → Writing} {value : β}

/-! ### How much the fields take -/

theorem grows_raw (bytes : Bytes) : Grows (writeRaw bytes) bytes.length := grows_append bytes

theorem grows_int8 (value : Int8) : Grows (writeInt8 value) 1 := by
  have h := grows_raw (beBytes 1 value.toBitVec.toNat)
  rwa [length_beBytes] at h

theorem grows_int16 (value : Int16) : Grows (writeInt16 value) 2 := by
  have h := grows_raw (beBytes 2 value.toBitVec.toNat)
  rwa [length_beBytes] at h

theorem grows_int32 (value : Int32) : Grows (writeInt32 value) 4 := by
  have h := grows_raw (beBytes 4 value.toBitVec.toNat)
  rwa [length_beBytes] at h

theorem grows_int64 (value : Int64) : Grows (writeInt64 value) 8 := by
  have h := grows_raw (beBytes 8 value.toBitVec.toNat)
  rwa [length_beBytes] at h

theorem grows_bool (value : Bool) : Grows (writeBool value) 1 := grows_int8 _

theorem grows_varintLoop (turns : Nat) (value : UInt32) :
    Grows (writeVarintLoop turns value) 1 := by
  induction turns generalizing value with
  | zero => exact grows_raw _
  | succ turns ih =>
    rw [writeVarintLoop]
    split
    · exact ((grows_raw _).seq (ih _)).mono (Nat.le_add_right _ _)
    · exact grows_raw _

theorem grows_unsignedVarint (value : UInt32) : Grows (writeUnsignedVarint value) 1 :=
  grows_varintLoop 5 value

theorem grows_compactString (value : Bytes) : Grows (writeCompactString value) value.length :=
  ((grows_unsignedVarint _).seq (grows_raw value)).mono (Nat.le_add_left _ _)

theorem grows_compactNullableBytes (value : Option Bytes) :
    Grows (writeCompactNullableBytes value) (value.getD []).length := by
  cases value with
  | none => exact (grows_unsignedVarint 0).mono (Nat.zero_le _)
  | some bytes => exact grows_compactString bytes

theorem grows_compactNullableString (value : Option Bytes) :
    Grows (writeCompactNullableString value) (value.getD []).length := by
  cases value with
  | none => exact (grows_unsignedVarint 0).mono (Nat.zero_le _)
  | some bytes => exact grows_compactString bytes

theorem grows_arrayCount (count : Int32) : Grows (writeArrayCount count true) 1 := by
  rw [writeArrayCount]
  split
  · exact grows_fails _ 1
  · exact grows_unsignedVarint _

theorem grows_emptyTaggedFields : Grows writeEmptyTaggedFields 1 := grows_unsignedVarint 0

theorem grows_items {items : List α} {size : α → Nat} (h : ∀ x ∈ items, Grows (write x) (size x)) :
    Grows (Codec.writeItems items write) ((items.map size).sum + 1) :=
  ((grows_arrayCount _).seq (Grows.forM h)).mono (by omega)

/-- A nullable field that takes less than `2 ^ 31` bytes has a length that fits its varint. -/
theorem fits_of_getD_length {value : Option Bytes} (h : (value.getD []).length < 2 ^ 31) :
    ∀ bytes ∈ value, bytes.length + 1 < 2 ^ 32 := by
  rintro bytes ⟨⟩
  rw [Option.getD_some] at h
  omega

/-! ### Fields that take any value -/

theorem succeeds_compactString (value : Bytes) : Succeeds (writeCompactString value) :=
  (carries_unsignedVarint _).succeeds.seq ⟨value, writes_raw value⟩

theorem succeeds_compactNullableBytes (value : Option Bytes) :
    Succeeds (writeCompactNullableBytes value) := by
  cases value with
  | none => exact (carries_unsignedVarint 0).succeeds
  | some bytes => exact succeeds_compactString bytes

theorem succeeds_compactNullableString (value : Option Bytes) :
    Succeeds (writeCompactNullableString value) := by
  cases value with
  | none => exact (carries_unsignedVarint 0).succeeds
  | some bytes => exact succeeds_compactString bytes

/-! ### Frames -/

/-- A frame is the size of its contents and the contents. -/
theorem makeFrame_of_writes {contents : Writing} {bytes : Bytes} (h : Writes contents bytes) :
    makeFrame contents = .ok (beBytes 4 (Int32.ofNat bytes.length).toBitVec.toNat ++ bytes) := by
  have hroom : Writes (writeInt32 0) (beBytes 4 0) := writes_raw _
  have hlength : (beBytes 4 0).length = 4 := length_beBytes 4 0
  rw [makeFrame, takeBytes, hroom.run, h.run, patchInt32, List.nil_append, List.length_append,
    hlength, if_neg (by omega), Nat.add_sub_cancel_left]
  have hsplice := splice_append_right [] (beBytes 4 0 ++ bytes)
    (beBytes 4 (Int32.ofNat bytes.length).toBitVec.toNat)
  rw [List.nil_append, List.length_nil, length_beBytes, List.drop_left' hlength,
    List.nil_append] at hsplice
  rw [hsplice]
  rfl

/-! ### Requests -/

open BenchClient

/-- The payload of `wrap_request` around `body` is read to the header and `request`, and
    consumed completely. -/
def ReceivedAs {α : Type} (body : Except Thrown Bytes) (apiId : Int16) (key : ApiKey)
    (version : Int16) (decoder : Reading α) (request : α) : Prop :=
  ∀ correlationId : Int32, ∃ frame, (body >>= wrapRequest apiId version correlationId) = .ok frame ∧
    (frame.length < 2 ^ 31 →
      exec (frame.drop 4) (do
          let header ← parseRequestHeader
          let request ← decoder
          return (header, request)) 0 =
        .ok ((⟨key, version, correlationId, kClientId, 2⟩, request), (frame.drop 4).length))

/-- The header, for an API version that has tagged fields in it. -/
theorem carries_requestHeader {apiId : Int16} (hkey : apiKeyFromId apiId = .ok key)
    (hversion : requestHeaderVersion key version = 2) (correlationId : Int32) :
    Carries (writeRequestHeader apiId version correlationId) parseRequestHeader
      ⟨key, version, correlationId, kClientId, 2⟩ := by
  refine (carries_int16 apiId).seq <| (carries_int16 version).seq ?_
  rw [hkey]
  change Carries _ (readInt32 >>= _) _
  rw [hversion]
  have hclient : ∀ bytes ∈ some kClientId, bytes.length ≤ 32767 := by
    rintro bytes ⟨⟩
    decide
  exact (carries_int32 correlationId).seq <| (carries_nullableString hclient).seq <|
    carries_emptyTaggedFields.ends rfl

theorem receivedAs_of_delivers {w : Writing} {decoder : Reading α} {request : α}
    (h : Delivers (2 ^ 31) w decoder request) {apiId : Int16} (hkey : apiKeyFromId apiId = .ok key)
    (hversion : requestHeaderVersion key version = 2) :
    ReceivedAs (takeBytes w) apiId key version decoder request := by
  intro correlationId
  obtain ⟨bytes, hbytes⟩ := h.succeeds
  obtain ⟨k, hgrows, hcarries⟩ := h.carries
  obtain ⟨header, hheader, hparse⟩ := carries_requestHeader hkey hversion correlationId
  have hframe := makeFrame_of_writes (hheader.seq (writes_raw bytes))
  refine ⟨_, by rw [takeBytes_of_writes hbytes]; exact hframe, fun hlength => ?_⟩
  rw [List.drop_left' (length_beBytes _ _)]
  rw [List.length_append, List.length_append] at hlength
  have hk := hgrows.length_le hbytes
  obtain ⟨bytes', hbytes', hreads⟩ := hcarries (by omega)
  obtain rfl := hbytes'.unique hbytes
  have hall := (hparse.bind (f := fun header => do return (header, ← decoder))
    (hreads.ends rfl)).exec []
  rwa [List.append_nil] at hall

/-! #### The fields of the bodies -/

theorem delivers_int8 (value : Int8) : Delivers (2 ^ 31) (writeInt8 value) readInt8 value :=
  (carries_int8 value).delivers (grows_int8 value)

theorem delivers_int16 (value : Int16) : Delivers (2 ^ 31) (writeInt16 value) readInt16 value :=
  (carries_int16 value).delivers (grows_int16 value)

theorem delivers_int32 (value : Int32) : Delivers (2 ^ 31) (writeInt32 value) readInt32 value :=
  (carries_int32 value).delivers (grows_int32 value)

theorem delivers_int64 (value : Int64) : Delivers (2 ^ 31) (writeInt64 value) readInt64 value :=
  (carries_int64 value).delivers (grows_int64 value)

theorem delivers_bool (value : Bool) : Delivers (2 ^ 31) (writeBool value) readBool value :=
  (carries_bool value).delivers (grows_bool value)

theorem delivers_emptyTaggedFields : Delivers (2 ^ 31) writeEmptyTaggedFields skipTaggedFields () :=
  carries_emptyTaggedFields.delivers grows_emptyTaggedFields

theorem delivers_one (nullable : Bool) :
    Delivers (2 ^ 31) (writeArrayCount 1 true) (readArrayCount true nullable) 1 :=
  (carries_arrayCount (by decide) (by decide) true nullable).delivers (grows_arrayCount 1)

theorem delivers_zero : Delivers (2 ^ 31) (writeArrayCount 0 true) (readArrayCount true) 0 :=
  (carries_arrayCount (by decide) (by decide) true false).delivers (grows_arrayCount 0)

theorem delivers_compactString (value : Bytes) :
    Delivers (2 ^ 31) (writeCompactString value) readCompactString value :=
  ⟨succeeds_compactString value, value.length, grows_compactString value,
    fun h => carries_compactString (by omega)⟩

theorem delivers_compactNullableBytes (value : Option Bytes) :
    Delivers (2 ^ 31) (writeCompactNullableBytes value) readCompactNullableBytes value :=
  ⟨succeeds_compactNullableBytes value, _, grows_compactNullableBytes value,
    fun h => carries_compactNullableBytes (fits_of_getD_length h)⟩

theorem delivers_compactNullableString (value : Option Bytes) :
    Delivers (2 ^ 31) (writeCompactNullableString value) readCompactNullableString value :=
  ⟨succeeds_compactNullableString value, _, grows_compactNullableString value,
    fun h => carries_compactNullableString (fits_of_getD_length h)⟩

/-- No element is read of an empty array. -/
theorem delivers_noItems (item : Reading α) :
    Delivers (2 ^ 31) (writeArrayCount 0 true) (Codec.readArray false item) [] :=
  delivers_zero.ends rfl

/-- An array of one element has one turn of the loop. -/
theorem readItems_one (item : Reading α) :
    Codec.readItems 1 item = item >>= fun value => pure [value] :=
  rfl

theorem delivers_metadataBody (options : Options) :
    Delivers (2 ^ 31) (writeMetadataBody options) Codec.decodeMetadataRequest
      { allTopics := false
        topics := [⟨options.topic⟩]
        allowAutoTopicCreation := false
        includeClusterAuthorizedOperations := false
        includeTopicAuthorizedOperations := false } := by
  refine (delivers_one true).seq ?_
  rw [readItems_one, Codec.readMetadataTopic]
  simp only [bind_assoc, pure_bind]
  exact Delivers.making <| (delivers_compactString _).seq <| delivers_emptyTaggedFields.seq <|
    (delivers_bool false).seq <| (delivers_bool false).seq <| (delivers_bool false).seq <|
      delivers_emptyTaggedFields.ends rfl

theorem delivers_produceBody (options : Options) (acks : Int16) :
    Delivers (2 ^ 31) (writeProduceBody options acks) Codec.decodeProduceRequest
      { transactionalId := options.transactionalId
        acks
        timeoutMs := 100
        topics := [⟨options.topic, [⟨options.partition, makeRecordBatch options⟩]⟩] } := by
  refine (delivers_compactNullableString _).seq <| (delivers_int16 acks).seq <|
    (delivers_int32 100).seq <| (delivers_one false).seq ?_
  rw [readItems_one, Codec.readProduceTopic, Codec.readTopic]
  simp only [bind_assoc, pure_bind]
  refine Delivers.making <| (delivers_compactString _).seq <| (delivers_one false).seq ?_
  rw [readItems_one, Codec.readProducePartition]
  simp only [bind_assoc, pure_bind]
  exact Delivers.making <| (delivers_int32 _).seq <| (delivers_compactNullableBytes _).seq <|
    delivers_emptyTaggedFields.seq <| delivers_emptyTaggedFields.seq <|
      delivers_emptyTaggedFields.ends rfl

theorem delivers_fetchBody (options : Options) (offset : Int64) (maxWaitMs : Int32) :
    Delivers (2 ^ 31) (writeFetchBody options offset maxWaitMs) Codec.decodeFetchRequest
      { replicaId := -1
        maxWaitMs
        minBytes := 1
        maxBytes := 1024 * 1024
        isolationLevel := 0
        sessionId := 0
        sessionEpoch := -1
        topics := [⟨options.topic, [⟨options.partition, 0, offset, -1, -1, 1024 * 1024⟩]⟩]
        rackId := [] } := by
  refine (delivers_int32 _).seq <| (delivers_int32 _).seq <| (delivers_int32 _).seq <|
    (delivers_int32 _).seq <| (delivers_int8 _).seq <| (delivers_int32 _).seq <|
      (delivers_int32 _).seq <| (delivers_one false).seq ?_
  rw [readItems_one, Codec.readFetchTopic, Codec.readTopic]
  simp only [bind_assoc, pure_bind]
  refine Delivers.making <| (delivers_compactString _).seq <| (delivers_one false).seq ?_
  rw [readItems_one, Codec.readFetchPartition]
  simp only [bind_assoc, pure_bind]
  exact Delivers.making <| (delivers_int32 _).seq <| (delivers_int32 _).seq <|
    (delivers_int64 _).seq <| (delivers_int32 _).seq <| (delivers_int64 _).seq <|
    (delivers_int32 _).seq <| delivers_emptyTaggedFields.seq <| delivers_emptyTaggedFields.seq <|
    (delivers_noItems _).seq <| (delivers_compactString []).seq <|
    delivers_emptyTaggedFields.ends rfl

theorem delivers_listOffsetsBody (options : Options) (timestamp : Int64) :
    Delivers (2 ^ 31) (writeListOffsetsBody options timestamp) Codec.decodeListOffsetsRequest
      { replicaId := -1
        isolationLevel := 0
        topics := [⟨options.topic, [⟨options.partition, -1, timestamp⟩]⟩] } := by
  refine (delivers_int32 _).seq <| (delivers_int8 _).seq <| (delivers_one false).seq ?_
  rw [readItems_one, Codec.readListOffsetsTopic, Codec.readTopic]
  simp only [bind_assoc, pure_bind]
  refine Delivers.making <| (delivers_compactString _).seq <| (delivers_one false).seq ?_
  rw [readItems_one, Codec.readListOffsetsPartition]
  simp only [bind_assoc, pure_bind]
  exact Delivers.making <| (delivers_int32 _).seq <| (delivers_int32 _).seq <|
    (delivers_int64 _).seq <| delivers_emptyTaggedFields.seq <| delivers_emptyTaggedFields.seq <|
      delivers_emptyTaggedFields.ends rfl

/-! ### Responses -/

/-- `read`, applied to the frame that answers a request of the API `key`, returns `value`. -/
def AnsweredBy {β : Type} (key : ApiKey) (body : Except Thrown Bytes)
    (read : Bytes → Int32 → Except Thrown β) (value : β) : Prop :=
  ∀ (header : RequestHeader) (frame : Bytes), header.apiKey = key →
    isSupported key header.apiVersion → (body >>= makeResponseFrame header) = .ok frame →
    frame.length < 2 ^ 31 → read frame header.correlationId = .ok value

theorem reads_int32 (value : Int32) : Reads readInt32 (beBytes 4 value.toBitVec.toNat) value := by
  obtain ⟨bytes, hwrites, hreads⟩ := carries_int32 value
  obtain rfl := hwrites.unique (writes_raw _)
  exact hreads

/-- The response header of an API version that has tagged fields in it. -/
theorem reads_responseHeader {header : RequestHeader}
    (hversion : responseHeaderVersion header.apiKey header.apiVersion = 1) :
    ∃ bytes, Writes (writeResponseHeader header) bytes ∧ ∀ size : Int32,
      Reads (skipResponseHeaderTags header.correlationId)
        (beBytes 4 size.toBitVec.toNat ++ bytes) () := by
  obtain ⟨id, hid, hreadId⟩ := carries_int32 header.correlationId
  obtain ⟨tags, htags, hreadTags⟩ := carries_emptyTaggedFields
  have htail : Writes (if responseHeaderVersion header.apiKey header.apiVersion ≥ 1
      then writeEmptyTaggedFields else return ()) tags := by
    rw [hversion]
    exact htags
  refine ⟨id ++ tags, hid.seq htail, fun size => (reads_int32 size).bind (hreadId.bind ?_)⟩
  rw [if_neg (not_not.mpr rfl)]
  exact hreadTags

theorem answeredBy_of_opens {w : Writing} {item : Reading β} (h : Opens (2 ^ 31) w item value)
    (hkey : ∀ version, isSupported key version → responseHeaderVersion key version = 1) :
    AnsweredBy key (takeBytes w) (fun frame correlationId => decode (do
      skipResponseHeaderTags correlationId
      item) frame) value := by
  intro header frame happlies hsupported hframe hlength
  rw [takeBytes] at hframe
  cases hbody : w [] with
  | error thrown =>
    rw [hbody] at hframe
    cases hframe
  | ok result =>
    rw [hbody] at hframe
    change makeResponseFrame header result.2 = .ok frame at hframe
    have hversion : responseHeaderVersion header.apiKey header.apiVersion = 1 := by
      rw [happlies]
      exact hkey _ hsupported
    obtain ⟨bytes, hbytes, hheader⟩ := reads_responseHeader hversion
    rw [makeResponseFrame, makeFrame_of_writes (hbytes.seq (writes_raw result.2))] at hframe
    obtain rfl := Except.ok.inj hframe
    rw [List.length_append, List.length_append] at hlength
    obtain ⟨first, rest, hfirst, hreads⟩ := h.reads [] result.2 hbody (by
      rw [List.length_nil]
      omega)
    rw [List.nil_append] at hfirst
    rw [hfirst, ← List.append_assoc, ← List.append_assoc]
    exact decode_of_reads ((hheader _).bind (f := fun _ => item) hreads) rest

/-! #### Counted elements -/

theorem grows_items_length (h : ∀ x, Grows (write x) 1) (items : List α) :
    Grows (Codec.writeItems items write) (items.length + 1) := by
  have hall : Grows (Codec.writeItems items write) ((items.map fun _ => 1).sum + 1) :=
    grows_items fun x _ => h x
  rwa [List.map_const', List.sum_replicate_nat, Nat.mul_one] at hall

/-- The elements, when all of them are read. -/
theorem carries_items {γ : Type} {items : List γ} {write : γ → Writing} {item : Reading α}
    {value : γ → α} (hlength : items.length < 0x7fffffff)
    (h : ∀ x ∈ items, Carries (write x) item (value x)) (nullable : Bool) :
    Carries (Codec.writeItems items write) (Codec.readArray nullable item) (items.map value) := by
  refine (carries_listCount hlength nullable).seq ?_
  rw [Codec.readItems, (size_int32 (lt_trans hlength (by decide))).2]
  exact Carries.repeated h

/-- The first element, when only that is read. -/
theorem opens_items {first : α} {others : List α} {f : Int32 → Reading β}
    (hgrows : ∀ x, Grows (write x) 1)
    (h : ∀ count : Int32, ¬ count ≤ 0 → Opens (2 ^ 31) (write first) (f count) value) :
    Opens (2 ^ 31) (Codec.writeItems (first :: others) write) (readArrayCount true >>= f)
      value := by
  have hothers : Grows (others.forM write) 0 :=
    (Grows.forM fun x _ => hgrows x).mono (Nat.zero_le _)
  have hall : Grows ((first :: others).forM write) 0 :=
    ((hgrows first).mono (Nat.zero_le 1)).seq hothers
  refine opens_seq_of_grows (a := Int32.ofNat (first :: others).length)
    (grows_items_length hgrows _) hall fun hlength => ?_
  have hcount : (first :: others).length < 0x7fffffff := by omega
  refine ⟨carries_listCount hcount false, (h _ ?_).before hothers⟩
  have hint := Int32.toInt_ofNat_of_lt (lt_trans hcount (by decide))
  rw [Int32.le_iff_toInt_le, hint, List.length_cons]
  simp

theorem grows_topic {π : Type} (name : Bytes) (partitions : List π) {partition : π → Writing}
    (h : ∀ p, Grows (partition p) 1) : Grows (Codec.writeTopic name partitions partition) 1 :=
  ((grows_compactString name).seq <| (grows_items_length h partitions).seq
    grows_emptyTaggedFields).mono (by omega)

/-- Down to the first partition of the first topic. -/
theorem opens_firstPartition {τ π : Type} (name : τ → Bytes) (partitions : τ → List π)
    (index : π → Int32) (fields : π → Writing) (hfields : ∀ p, Grows (fields p) 0)
    {topics others : List τ} {topic : τ} (htopics : topics = topic :: others) {rest : List π}
    {partition : π} (hpartitions : partitions topic = partition :: rest) {item : Reading β}
    (h : Opens (2 ^ 31) (fields partition) item value) (noTopics noPartitions : String) :
    Opens (2 ^ 31)
      (Codec.writeItems topics fun t => Codec.writeTopic (name t) (partitions t) fun p => do
        writeInt32 (index p)
        fields p)
      (readFirstPartition noTopics noPartitions item) value := by
  have hpartition : ∀ p, Grows (do writeInt32 (index p); fields p) 1 := fun p =>
    ((grows_int32 _).seq (hfields p)).mono (by omega)
  rw [htopics]
  refine opens_items (fun t => grows_topic _ _ hpartition) fun topicCount htopicCount => ?_
  rw [if_neg htopicCount, Codec.writeTopic, hpartitions]
  refine Opens.seq (grows_compactString _) (fun hlength => carries_compactString (by omega)) ?_
  refine Opens.before ?_ (grows_emptyTaggedFields.mono (Nat.zero_le 1))
  refine opens_items hpartition fun partitionCount hpartitionCount => ?_
  rw [if_neg hpartitionCount]
  exact Opens.seq (grows_int32 _) (fun _ => carries_int32 _) h

/-! #### The four responses -/

theorem grows_recordError (error : Int32) : Grows (Codec.writeRecordError error) 1 :=
  ((grows_int32 _).seq <| (grows_compactNullableString _).seq grows_emptyTaggedFields).mono
    (by omega)

theorem grows_abortedTransaction (producerId : Int64) :
    Grows (Codec.writeAbortedTransaction producerId) 1 :=
  ((grows_int64 _).seq <| (grows_int64 _).seq grows_emptyTaggedFields).mono (by omega)

theorem grows_produceResult (partition : Codec.ProduceResponsePartition) :
    Grows (Codec.writeProduceResult partition) 0 :=
  ((grows_int16 _).seq <| (grows_int64 _).seq <| (grows_int64 _).seq <| (grows_int64 _).seq <|
    (grows_items_length grows_recordError _).seq <|
      (grows_compactNullableString _).seq grows_emptyTaggedFields).mono (Nat.zero_le _)

theorem opens_produceResponse {response : Codec.ProduceResponse}
    {topic : Codec.ProduceResponseTopic}
    {others : List Codec.ProduceResponseTopic} (htopics : response.topics = topic :: others)
    {partition : Codec.ProduceResponsePartition} {rest : List Codec.ProduceResponsePartition}
    (hpartitions : topic.partitions = partition :: rest) (noTopics noPartitions : String) :
    Opens (2 ^ 31) (Codec.writeProduceResponse response)
      (readFirstPartition noTopics noPartitions readInt16) partition.errorCode := by
  have hitem : Opens (2 ^ 31) (Codec.writeProduceResult partition) readInt16
      partition.errorCode := by
    refine (opens_of_carries (grows_int16 _) fun _ => carries_int16 _).before ?_
    exact ((grows_int64 _).seq <| (grows_int64 _).seq <| (grows_int64 _).seq <|
      (grows_items_length grows_recordError _).seq <|
        (grows_compactNullableString _).seq grows_emptyTaggedFields).mono (Nat.zero_le _)
  have hfirst := opens_firstPartition Codec.ProduceResponseTopic.name
    Codec.ProduceResponseTopic.partitions Codec.ProduceResponsePartition.partitionIndex
      Codec.writeProduceResult grows_produceResult htopics hpartitions hitem noTopics noPartitions
  exact hfirst.before (((grows_int32 _).seq grows_emptyTaggedFields).mono (Nat.zero_le _))

theorem grows_listOffsetsResult (partition : Codec.ListOffsetsResponsePartition) :
    Grows (Codec.writeListOffsetsResult partition) 0 :=
  ((grows_int16 _).seq <| (grows_int64 _).seq <| (grows_int64 _).seq <| (grows_int32 _).seq
    grows_emptyTaggedFields).mono (Nat.zero_le _)

theorem opens_listOffsetsResponse {response : Codec.ListOffsetsResponse}
    {topic : Codec.ListOffsetsResponseTopic} {others : List Codec.ListOffsetsResponseTopic}
    (htopics : response.topics = topic :: others) {partition : Codec.ListOffsetsResponsePartition}
    {rest : List Codec.ListOffsetsResponsePartition}
    (hpartitions : topic.partitions = partition :: rest) (noTopics noPartitions : String) :
    Opens (2 ^ 31) (Codec.writeListOffsetsResponse response)
      (do
        let _ ← readInt32
        readFirstPartition noTopics noPartitions readListOffset)
      (partition.errorCode, partition.offset) := by
  have hitem : Opens (2 ^ 31) (Codec.writeListOffsetsResult partition) readListOffset
      (partition.errorCode, partition.offset) := by
    refine Opens.seq (grows_int16 _) (fun _ => carries_int16 _) ?_
    refine Opens.seq (grows_int64 _) (fun _ => carries_int64 _) ?_
    refine Opens.before (opens_of_carries (grows_int64 _) fun _ => (carries_int64 _).ends rfl) ?_
    exact ((grows_int32 _).seq grows_emptyTaggedFields).mono (Nat.zero_le _)
  have hfirst := opens_firstPartition Codec.ListOffsetsResponseTopic.name
    Codec.ListOffsetsResponseTopic.partitions Codec.ListOffsetsResponsePartition.partitionIndex
      Codec.writeListOffsetsResult grows_listOffsetsResult htopics hpartitions hitem noTopics
        noPartitions
  refine Opens.seq (grows_int32 _) (fun _ => carries_int32 _) ?_
  exact hfirst.before (grows_emptyTaggedFields.mono (Nat.zero_le 1))

theorem grows_abortedTransactions (aborted : Option (List Int64)) :
    Grows (Codec.writeAbortedTransactions aborted) ((aborted.getD []).length + 1) := by
  cases aborted with
  | none => exact grows_unsignedVarint 0
  | some producerIds => exact grows_items_length grows_abortedTransaction producerIds

theorem grows_fetchResult (partition : Codec.FetchResponsePartition) :
    Grows (Codec.writeFetchResult partition) 0 :=
  ((grows_int16 _).seq <| (grows_int64 _).seq <| (grows_int64 _).seq <| (grows_int64 _).seq <|
    (grows_abortedTransactions _).seq <| (grows_int32 _).seq <|
      (grows_compactNullableBytes _).seq grows_emptyTaggedFields).mono (Nat.zero_le _)

theorem carries_abortedTransaction (producerId : Int64) :
    Carries (Codec.writeAbortedTransaction producerId) skipAbortedTransaction () :=
  (carries_int64 _).seq <| (carries_int64 _).seq carries_emptyTaggedFields

/-- A null array has no turns of the loop. -/
theorem carries_abortedTransactions {aborted : Option (List Int64)}
    (h : (aborted.getD []).length < 0x7fffffff) :
    Carries (Codec.writeAbortedTransactions aborted) (Codec.readArray true skipAbortedTransaction)
      ((aborted.getD []).map fun _ => ()) := by
  cases aborted with
  | none => exact (carries_nullableArrayCount (by decide) (by decide) true).ends rfl
  | some producerIds =>
    exact carries_items h (fun producerId _ => carries_abortedTransaction producerId) true

theorem opens_fetchResult (partition : Codec.FetchResponsePartition) :
    Opens (2 ^ 31) (Codec.writeFetchResult partition) readFetchSummary
      ⟨partition.errorCode, partition.highWatermark, partition.records⟩ := by
  refine Opens.seq (grows_int16 _) (fun _ => carries_int16 _) ?_
  refine Opens.seq (grows_int64 _) (fun _ => carries_int64 _) ?_
  refine Opens.seq (grows_int64 _) (fun _ => carries_int64 _) ?_
  refine Opens.seq (grows_int64 _) (fun _ => carries_int64 _) ?_
  refine Opens.seq (grows_abortedTransactions _)
    (fun hlength => carries_abortedTransactions (by omega)) ?_
  refine Opens.seq (grows_int32 _) (fun _ => carries_int32 _) ?_
  refine Opens.before ?_ (grows_emptyTaggedFields.mono (Nat.zero_le 1))
  refine opens_of_carries (grows_compactNullableBytes _) fun hlength => ?_
  exact (carries_compactNullableBytes (fits_of_getD_length hlength)).ends rfl

theorem opens_fetchResponse {response : Codec.FetchResponse} {topic : Codec.FetchResponseTopic}
    {others : List Codec.FetchResponseTopic} (htopics : response.topics = topic :: others)
    {partition : Codec.FetchResponsePartition} {rest : List Codec.FetchResponsePartition}
    (hpartitions : topic.partitions = partition :: rest) (noTopics noPartitions : String) :
    Opens (2 ^ 31) (Codec.writeFetchResponse response)
      (do
        let _ ← readInt32
        let _ ← readInt16
        let _ ← readInt32
        readFirstPartition noTopics noPartitions readFetchSummary)
      ⟨partition.errorCode, partition.highWatermark, partition.records⟩ := by
  have hfirst := opens_firstPartition Codec.FetchResponseTopic.topic
    Codec.FetchResponseTopic.partitions Codec.FetchResponsePartition.partitionIndex
      Codec.writeFetchResult grows_fetchResult htopics hpartitions (opens_fetchResult partition)
        noTopics noPartitions
  refine Opens.seq (grows_int32 _) (fun _ => carries_int32 _) ?_
  refine Opens.seq (grows_int16 _) (fun _ => carries_int16 _) ?_
  refine Opens.seq (grows_int32 _) (fun _ => carries_int32 _) ?_
  exact hfirst.before (grows_emptyTaggedFields.mono (Nat.zero_le 1))

/-- The bytes a broker takes at least. -/
def brokerSize (broker : Codec.MetadataResponseBroker) : Nat :=
  broker.host.length + (broker.rack.getD []).length + 1

theorem grows_metadataBroker (broker : Codec.MetadataResponseBroker) :
    Grows (Codec.writeMetadataBroker broker) (brokerSize broker) :=
  ((grows_int32 _).seq <| (grows_compactString _).seq <| (grows_int32 _).seq <|
    (grows_compactNullableString _).seq grows_emptyTaggedFields).mono (by unfold brokerSize; omega)

theorem carries_metadataBroker {broker : Codec.MetadataResponseBroker}
    (h : brokerSize broker < 2 ^ 31) :
    Carries (Codec.writeMetadataBroker broker) skipBroker () := by
  unfold brokerSize at h
  exact (carries_int32 _).seq <| (carries_compactString (by omega)).seq <|
    (carries_int32 _).seq <|
      (carries_compactNullableString (fits_of_getD_length (by omega))).seq carries_emptyTaggedFields

theorem carries_metadataBrokers {brokers : List Codec.MetadataResponseBroker}
    (h : (brokers.map brokerSize).sum + 1 < 2 ^ 31) :
    Carries (Codec.writeItems brokers Codec.writeMetadataBroker) (Codec.readArray false skipBroker)
      (brokers.map fun _ => ()) := by
  have hlength := List.length_le_sum_of_one_le (brokers.map brokerSize) (by
    intro size hsize
    obtain ⟨broker, -, rfl⟩ := List.mem_map.mp hsize
    exact Nat.le_add_left 1 _)
  rw [List.length_map] at hlength
  refine carries_items (by omega) (fun broker hbroker => carries_metadataBroker ?_) false
  have hsize := List.single_le_sum (fun _ _ => Nat.zero_le _) _
    (List.mem_map_of_mem (f := brokerSize) hbroker)
  omega

theorem grows_metadataPartition (partition : Codec.MetadataResponsePartition) :
    Grows (Codec.writeMetadataPartition partition) 1 :=
  have hnode : ∀ node : Int32, Grows (writeInt32 node) 1 := fun node =>
    (grows_int32 node).mono (by decide)
  ((grows_int16 _).seq <| (grows_int32 _).seq <| (grows_int32 _).seq <| (grows_int32 _).seq <|
    (grows_items_length hnode _).seq <| (grows_items_length hnode _).seq <|
      (grows_items_length hnode _).seq grows_emptyTaggedFields).mono (by omega)

theorem grows_metadataTopic (topic : Codec.MetadataResponseTopic) :
    Grows (Codec.writeMetadataTopic topic) 1 :=
  ((grows_int16 _).seq <| (grows_compactString _).seq <| (grows_bool _).seq <|
    (grows_items_length grows_metadataPartition _).seq <| (grows_int32 _).seq
      grows_emptyTaggedFields).mono (by omega)

theorem opens_metadataResponse {response : Codec.MetadataResponse}
    {topic : Codec.MetadataResponseTopic} {others : List Codec.MetadataResponseTopic}
    (htopics : response.topics = topic :: others) :
    Opens (2 ^ 31) (Codec.writeMetadataResponse response) readMetadataError topic.errorCode := by
  refine Opens.seq (grows_int32 _) (fun _ => carries_int32 _) ?_
  refine Opens.seq (grows_items fun broker _ => grows_metadataBroker broker)
    (fun hlength => carries_metadataBrokers hlength) ?_
  refine Opens.seq (grows_compactNullableString _)
    (fun hlength => carries_compactNullableString (fits_of_getD_length hlength)) ?_
  refine Opens.seq (grows_int32 _) (fun _ => carries_int32 _) ?_
  refine Opens.before ?_ (((grows_int32 _).seq grows_emptyTaggedFields).mono (Nat.zero_le _))
  rw [htopics]
  refine opens_items grows_metadataTopic fun topicCount htopicCount => ?_
  rw [if_neg htopicCount]
  refine (opens_of_carries (grows_int16 _) fun _ => carries_int16 _).before ?_
  exact ((grows_compactString _).seq <| (grows_bool _).seq <|
    (grows_items_length grows_metadataPartition _).seq <| (grows_int32 _).seq
      grows_emptyTaggedFields).mono (Nat.zero_le _)

theorem responseHeaderVersion_of_isSupported
    (hkey : key = .metadata ∨ key = .produce ∨ key = .fetch ∨ key = .listOffsets)
    (h : isSupported key version) : responseHeaderVersion key version = 1 := by
  rcases hkey with rfl | rfl | rfl | rfl <;>
  · rw [responseHeaderVersion, if_neg (by decide), if_pos]
    have hboth := Bool.and_eq_true_iff.mp h
    exact hboth.1

/-- **Client and broker agree.**  The broker reads what the client wraps to exactly the fields
    written and consumes it completely; the client reads off the broker's response the error
    code of its first topic or partition, and the high watermark and records or the offset. -/
theorem client_and_broker_agree :
    (∀ options : Options,
      ReceivedAs (makeMetadataBody options) 3 .metadata 9 Codec.decodeMetadataRequest
        { allTopics := false
          topics := [⟨options.topic⟩]
          allowAutoTopicCreation := false
          includeClusterAuthorizedOperations := false
          includeTopicAuthorizedOperations := false }) ∧
    (∀ (options : Options) (acks : Int16),
      ReceivedAs (makeProduceBody options acks) 0 .produce 9 Codec.decodeProduceRequest
        { transactionalId := options.transactionalId
          acks
          timeoutMs := 100
          topics := [⟨options.topic, [⟨options.partition, makeRecordBatch options⟩]⟩] }) ∧
    (∀ (options : Options) (offset : Int64) (maxWaitMs : Int32),
      ReceivedAs (makeFetchBody options offset maxWaitMs) 1 .fetch 12 Codec.decodeFetchRequest
        { replicaId := -1
          maxWaitMs
          minBytes := 1
          maxBytes := 1024 * 1024
          isolationLevel := 0
          sessionId := 0
          sessionEpoch := -1
          topics := [⟨options.topic, [⟨options.partition, 0, offset, -1, -1, 1024 * 1024⟩]⟩]
          rackId := [] }) ∧
    (∀ (options : Options) (timestamp : Int64),
      ReceivedAs (makeListOffsetsBody options timestamp) 2 .listOffsets 6
        Codec.decodeListOffsetsRequest
        { replicaId := -1
          isolationLevel := 0
          topics := [⟨options.topic, [⟨options.partition, -1, timestamp⟩]⟩] }) ∧
    (∀ (response : Codec.MetadataResponse) topic others, response.topics = topic :: others →
      AnsweredBy .metadata (Codec.encodeMetadataResponse response) firstMetadataError
        topic.errorCode) ∧
    (∀ (response : Codec.ProduceResponse) topic others partition rest,
      response.topics = topic :: others → topic.partitions = partition :: rest →
      AnsweredBy .produce (Codec.encodeProduceResponse response) firstProduceError
        partition.errorCode) ∧
    (∀ (response : Codec.FetchResponse) topic others partition rest,
      response.topics = topic :: others → topic.partitions = partition :: rest →
      AnsweredBy .fetch (Codec.encodeFetchResponse response) firstFetchSummary
        ⟨partition.errorCode, partition.highWatermark, partition.records⟩) ∧
    ∀ (response : Codec.ListOffsetsResponse) topic others partition rest,
      response.topics = topic :: others → topic.partitions = partition :: rest →
      AnsweredBy .listOffsets (Codec.encodeListOffsetsResponse response) firstListOffset
        (partition.errorCode, partition.offset) := by
  refine ⟨fun options => ?_, fun options acks => ?_, fun options offset maxWaitMs => ?_,
    fun options timestamp => ?_, fun response topic others htopics => ?_,
    fun response topic others partition rest htopics hpartitions => ?_,
    fun response topic others partition rest htopics hpartitions => ?_,
    fun response topic others partition rest htopics hpartitions => ?_⟩
  · exact receivedAs_of_delivers (delivers_metadataBody options) rfl rfl
  · exact receivedAs_of_delivers (delivers_produceBody options acks) rfl rfl
  · exact receivedAs_of_delivers (delivers_fetchBody options offset maxWaitMs) rfl rfl
  · exact receivedAs_of_delivers (delivers_listOffsetsBody options timestamp) rfl rfl
  · exact answeredBy_of_opens (opens_metadataResponse htopics) fun _ =>
      responseHeaderVersion_of_isSupported (by decide)
  · exact answeredBy_of_opens (opens_produceResponse htopics hpartitions _ _) fun _ =>
      responseHeaderVersion_of_isSupported (by decide)
  · exact answeredBy_of_opens (opens_fetchResponse htopics hpartitions _ _) fun _ =>
      responseHeaderVersion_of_isSupported (by decide)
  · exact answeredBy_of_opens (opens_listOffsetsResponse htopics hpartitions _ _) fun _ =>
      responseHeaderVersion_of_isSupported (by decide)

/-- A response with one partition, its frame, and the offset the client reads. -/
theorem client_and_broker_agree_offset :
    (Codec.encodeListOffsetsResponse ⟨0, [⟨[0x74], [⟨3, 0, -1, 42, 0⟩]⟩]⟩ >>=
        makeResponseFrame ⟨.listOffsets, 6, 7, [], 2⟩) =
      .ok [0, 0, 0, 42, 0, 0, 0, 7, 0, 0, 0, 0, 0, 2, 2, 0x74, 2, 0, 0, 0, 3, 0, 0, 255, 255, 255,
        255, 255, 255, 255, 255, 0, 0, 0, 0, 0, 0, 0, 42, 0, 0, 0, 0, 0, 0, 0] ∧
    firstListOffset [0, 0, 0, 42, 0, 0, 0, 7, 0, 0, 0, 0, 0, 2, 2, 0x74, 2, 0, 0, 0, 3, 0, 0, 255,
        255, 255, 255, 255, 255, 255, 255, 0, 0, 0, 0, 0, 0, 0, 42, 0, 0, 0, 0, 0, 0, 0] 7 =
      .ok (0, 42) :=
  ⟨rfl, client_and_broker_agree.2.2.2.2.2.2.2 ⟨0, [⟨[0x74], [⟨3, 0, -1, 42, 0⟩]⟩]⟩ _ _ _ _ rfl rfl
    ⟨.listOffsets, 6, 7, [], 2⟩ _ rfl rfl rfl (by decide)⟩

end Mkmq
