import Mkmq.KafkaCodec

/-!
# Decoding is bounded by the bytes received

Array counts, tagged-field counts and varint lengths are chosen by the sender and drive
nested loops.  What stops them is the end of the input: every path through every element
takes a byte, so at no step of a decoder are there more elements than bytes behind the
reader.
-/

namespace Mkmq

open ByteCodec ReadProgram ReadProgram.Program WireReader

/-- What one of the four request decoders returns. -/
inductive Request where
  | metadata (request : Codec.MetadataRequest)
  | produce (request : Codec.ProduceRequest)
  | fetch (request : Codec.FetchRequest)
  | listOffsets (request : Codec.ListOffsetsRequest)

/-- The request decoders. -/
inductive RequestDecoder where
  | metadata
  | produce
  | fetch
  | listOffsets
deriving DecidableEq, Repr

def RequestDecoder.run : RequestDecoder → Reading Request
  | metadata => do return .metadata (← Codec.decodeMetadataRequest)
  | produce => do return .produce (← Codec.decodeProduceRequest)
  | fetch => do return .fetch (← Codec.decodeFetchRequest)
  | listOffsets => do return .listOffsets (← Codec.decodeListOffsetsRequest)

/-- A request as `handle_frame` reads it. -/
def parseRequest (decoder : RequestDecoder) : Reading (RequestHeader × Request) := do
  let header ← parseRequestHeader
  let request ← decoder.run
  return (header, request)

/-- The topics and partitions of a request. -/
def Request.elements : Request → Nat
  | metadata request => request.topics.length
  | produce request => (request.topics.map fun topic => topic.partitions.length + 1).sum
  | fetch request => (request.topics.map fun topic => topic.partitions.length + 1).sum
  | listOffsets request => (request.topics.map fun topic => topic.partitions.length + 1).sum

/-! ### What the fields take -/

theorem takes_raw (n : Nat) : (readRaw n).Takes n :=
  fun _ => Nat.sub_self n

theorem takes_byte : readByte.Takes 1 := (takes_raw 1).bind fun _ => takes_pure _

theorem takes_int8 : readInt8.Takes 1 := (takes_raw 1).bind fun _ => takes_pure _

theorem takes_bool : readBool.Takes 1 := takes_int8.bind fun _ => takes_pure _

theorem takes_int16 : readInt16.Takes 2 := (takes_raw 2).bind fun _ => takes_pure _

theorem takes_int32 : readInt32.Takes 4 := (takes_raw 4).bind fun _ => takes_pure _

theorem takes_int64 : readInt64.Takes 8 := (takes_raw 8).bind fun _ => takes_pure _

/-- A varint has a first byte, whatever follows it. -/
theorem takes_varintLoop (turns shift : Nat) (value : UInt32) :
    (readVarintLoop turns shift value).Takes 1 := by
  induction turns generalizing shift value with
  | zero => trivial
  | succ turns ih =>
    refine takes_byte.followed fun byte => ?_
    split
    · exact takes_pure _
    · exact (ih _ _).none

theorem takes_unsignedVarint : readUnsignedVarint.Takes 1 := takes_varintLoop 5 0 0

theorem takes_nullableString : readNullableString.Takes 2 := by
  refine takes_int16.followed fun size => ?_
  split
  · exact takes_pure _
  · exact (takes_raw _).none.followed fun _ => takes_pure _

theorem takes_compactString : readCompactString.Takes 1 := by
  refine takes_unsignedVarint.followed fun sizePlusOne => ?_
  split
  · trivial
  · exact (takes_raw _).none

theorem takes_compactNullableBytes : readCompactNullableBytes.Takes 1 := by
  refine takes_unsignedVarint.followed fun sizePlusOne => ?_
  split
  · exact takes_pure _
  · exact (takes_raw _).none.followed fun _ => takes_pure _

theorem takes_compactNullableString : readCompactNullableString.Takes 1 :=
  takes_compactNullableBytes

theorem takes_arrayCount (nullable : Bool) : (readArrayCount true nullable).Takes 1 := by
  refine takes_unsignedVarint.followed fun countPlusOne => ?_
  split
  · split
    · trivial
    · exact takes_pure _
  · split
    · trivial
    · exact takes_pure _

theorem takes_skipTaggedFieldsLoop (left i : Nat) (previousTag : UInt32) :
    (skipTaggedFieldsLoop left i previousTag).Takes 0 := by
  induction left generalizing i previousTag with
  | zero => exact takes_pure _
  | succ left ih =>
    refine takes_unsignedVarint.none.followed fun tag => ?_
    split
    · trivial
    · refine takes_unsignedVarint.none.followed fun size => ?_
      have hskip : (skip size.toNat).Takes 0 :=
        (takes_raw _).none.followed fun _ => takes_pure ()
      exact hskip.followed fun _ => ih _ _

theorem takes_taggedFields : skipTaggedFields.Takes 1 :=
  takes_unsignedVarint.followed fun _ => takes_skipTaggedFieldsLoop _ _ _

theorem takes_orThrow {α : Type} (result : Except Thrown α) : (orThrow result).Takes 0 := by
  cases result with
  | ok value => exact takes_pure value
  | error thrown => trivial

/-- The fixed part of a request header is ten bytes. -/
theorem takes_requestHeader : parseRequestHeader.Takes 10 := by
  refine takes_int16.bind (m := 8) fun _ => takes_int16.bind (m := 6) fun _ =>
    (takes_orThrow _).bind (m := 6) fun _ => takes_int32.bind (m := 2) fun _ =>
      takes_nullableString.followed fun _ => ?_
  refine Takes.followed ?_ fun _ => takes_pure _
  split
  · exact takes_taggedFields.none
  · exact takes_pure _

/-! ### What the elements cost -/

namespace Codec

variable {α : Type}

theorem takes_array {item : Reading α} (h : item.Takes 0) : (readArray false item).Takes 1 :=
  (takes_arrayCount false).followed fun _ => h.repeated _

/-- A topic is paid by the byte before it, its partitions by its name. -/
theorem pays_topic {β : Type} (topic : Bytes → List α → β) {partition : Reading α}
    (h : ∀ credit, partition.Pays (credit + 1) (credit + 1)) (credit : Nat) :
    (readTopic topic partition).Pays (credit + 1) (credit + 1) :=
  (pays_making credit).bind fun _ => (takes_compactString.pays credit).bind fun _ =>
    ((takes_arrayCount false).pays _).bind fun _ => ((h _).repeated _).bind fun _ =>
      (takes_taggedFields.pays _).bind fun _ => pays_pure _ (by omega)

theorem pays_metadataTopic (credit : Nat) : readMetadataTopic.Pays (credit + 1) (credit + 1) :=
  (pays_making credit).bind fun _ => (takes_compactString.pays _).bind fun _ =>
    (takes_taggedFields.pays _).bind fun _ => pays_pure _ (by omega)

theorem pays_producePartition (credit : Nat) :
    readProducePartition.Pays (credit + 1) (credit + 1) :=
  (pays_making credit).bind fun _ => (takes_int32.pays _).bind fun _ =>
    (takes_compactNullableBytes.pays _).bind fun _ => (takes_taggedFields.pays _).bind fun _ =>
      pays_pure _ (by omega)

theorem pays_fetchPartition (credit : Nat) : readFetchPartition.Pays (credit + 1) (credit + 1) :=
  (pays_making credit).bind fun _ => (takes_int32.pays _).bind fun _ =>
    (takes_int32.pays _).bind fun _ => (takes_int64.pays _).bind fun _ =>
      (takes_int32.pays _).bind fun _ => (takes_int64.pays _).bind fun _ =>
        (takes_int32.pays _).bind fun _ => (takes_taggedFields.pays _).bind fun _ =>
          pays_pure _ (by omega)

theorem pays_listOffsetsPartition (credit : Nat) :
    readListOffsetsPartition.Pays (credit + 1) (credit + 1) :=
  (pays_making credit).bind fun _ => (takes_int32.pays _).bind fun _ =>
    (takes_int32.pays _).bind fun _ => (takes_int64.pays _).bind fun _ =>
      (takes_taggedFields.pays _).bind fun _ => pays_pure _ (by omega)

theorem takes_forgottenTopic : readForgottenTopic.Takes 0 :=
  takes_compactString.none.followed fun _ => (takes_arrayCount false).none.followed fun _ =>
    (takes_int32.none.repeated _).followed fun _ => takes_taggedFields.none

theorem pays_metadataRequest : decodeMetadataRequest.Pays 10 0 :=
  ((takes_arrayCount true).pays _).bind fun _ => ((pays_metadataTopic _).repeated _).bind fun _ =>
    (takes_bool.pays _).bind fun _ => (takes_bool.pays _).bind fun _ =>
      (takes_bool.pays _).bind fun _ => (takes_taggedFields.pays _).bind fun _ =>
        pays_pure _ (Nat.zero_le _)

theorem pays_produceRequest : decodeProduceRequest.Pays 10 0 :=
  (takes_compactNullableString.pays _).bind fun _ => (takes_int16.pays _).bind fun _ =>
    (takes_int32.pays _).bind fun _ => ((takes_arrayCount false).pays _).bind fun _ =>
      ((pays_topic _ pays_producePartition _).repeated _).bind fun _ =>
        (takes_taggedFields.pays _).bind fun _ => pays_pure _ (Nat.zero_le _)

theorem pays_fetchRequest : decodeFetchRequest.Pays 10 0 :=
  (takes_int32.pays _).bind fun _ => (takes_int32.pays _).bind fun _ =>
    (takes_int32.pays _).bind fun _ => (takes_int32.pays _).bind fun _ =>
      (takes_int8.pays _).bind fun _ => (takes_int32.pays _).bind fun _ =>
        (takes_int32.pays _).bind fun _ => ((takes_arrayCount false).pays _).bind fun _ =>
          ((pays_topic _ pays_fetchPartition _).repeated _).bind fun _ =>
            ((takes_array takes_forgottenTopic).pays _).bind fun _ =>
              (takes_compactString.pays _).bind fun _ =>
                (takes_taggedFields.pays _).bind fun _ => pays_pure _ (Nat.zero_le _)

theorem pays_listOffsetsRequest : decodeListOffsetsRequest.Pays 10 0 :=
  (takes_int32.pays _).bind fun _ => (takes_int8.pays _).bind fun _ =>
    ((takes_arrayCount false).pays _).bind fun _ =>
      ((pays_topic _ pays_listOffsetsPartition _).repeated _).bind fun _ =>
        (takes_taggedFields.pays _).bind fun _ => pays_pure _ (Nat.zero_le _)

/-! ### What the elements are -/

theorem makes_topic {β : Type} (topic : Bytes → List α → β) (size : β → Nat) {partition : Reading α}
    (h : ∀ made, partition.Makes made fun _ => made + 1)
    (hsize : ∀ name partitions, size (topic name partitions) = partitions.length + 1) (made : Nat) :
    (readTopic topic partition).Makes made fun value => made + size value := by
  refine (makes_making made).bind fun _ => (takes_compactString.makes _).bind fun name =>
    ((takes_arrayCount false).makes _).bind fun _ => (Makes.repeated h _ _).bind fun partitions =>
      (takes_taggedFields.makes _).bind fun _ => makes_pure _ ?_
  rw [hsize, List.map_const', List.sum_replicate_nat, Nat.mul_one]
  omega

theorem makes_metadataTopic (made : Nat) : readMetadataTopic.Makes made fun _ => made + 1 :=
  (makes_making made).bind fun _ => (takes_compactString.makes _).bind fun _ =>
    (takes_taggedFields.makes _).bind fun _ => makes_pure _ rfl

theorem makes_producePartition (made : Nat) : readProducePartition.Makes made fun _ => made + 1 :=
  (makes_making made).bind fun _ => (takes_int32.makes _).bind fun _ =>
    (takes_compactNullableBytes.makes _).bind fun _ => (takes_taggedFields.makes _).bind fun _ =>
      makes_pure _ rfl

theorem makes_produceTopic (made : Nat) :
    readProduceTopic.Makes made fun topic => made + (topic.partitions.length + 1) :=
  makes_topic ProduceRequestTopic.mk (fun topic => topic.partitions.length + 1)
    makes_producePartition
    (fun _ _ => rfl) made

theorem makes_fetchPartition (made : Nat) : readFetchPartition.Makes made fun _ => made + 1 :=
  (makes_making made).bind fun _ => (takes_int32.makes _).bind fun _ =>
    (takes_int32.makes _).bind fun _ => (takes_int64.makes _).bind fun _ =>
      (takes_int32.makes _).bind fun _ => (takes_int64.makes _).bind fun _ =>
        (takes_int32.makes _).bind fun _ => (takes_taggedFields.makes _).bind fun _ =>
          makes_pure _ rfl

theorem makes_fetchTopic (made : Nat) :
    readFetchTopic.Makes made fun topic => made + (topic.partitions.length + 1) :=
  makes_topic FetchRequestTopic.mk (fun topic => topic.partitions.length + 1) makes_fetchPartition
    (fun _ _ => rfl) made

theorem makes_listOffsetsPartition (made : Nat) :
    readListOffsetsPartition.Makes made fun _ => made + 1 :=
  (makes_making made).bind fun _ => (takes_int32.makes _).bind fun _ =>
    (takes_int32.makes _).bind fun _ => (takes_int64.makes _).bind fun _ =>
      (takes_taggedFields.makes _).bind fun _ => makes_pure _ rfl

theorem makes_listOffsetsTopic (made : Nat) :
    readListOffsetsTopic.Makes made fun topic => made + (topic.partitions.length + 1) :=
  makes_topic ListOffsetsRequestTopic.mk (fun topic => topic.partitions.length + 1)
    makes_listOffsetsPartition
    (fun _ _ => rfl) made

theorem makes_metadataRequest :
    decodeMetadataRequest.Makes 0 fun request => (Request.metadata request).elements := by
  refine ((takes_arrayCount true).makes _).bind fun _ =>
    (Makes.repeated makes_metadataTopic _ _).bind fun topics =>
      (takes_bool.makes _).bind fun _ => (takes_bool.makes _).bind fun _ =>
        (takes_bool.makes _).bind fun _ => (takes_taggedFields.makes _).bind fun _ =>
          makes_pure _ ?_
  rw [List.map_const', List.sum_replicate_nat, Nat.mul_one, Nat.zero_add]
  rfl

theorem makes_produceRequest :
    decodeProduceRequest.Makes 0 fun request => (Request.produce request).elements :=
  (takes_compactNullableString.makes _).bind fun _ => (takes_int16.makes _).bind fun _ =>
    (takes_int32.makes _).bind fun _ => ((takes_arrayCount false).makes _).bind fun _ =>
      (Makes.repeated makes_produceTopic _ _).bind fun _ =>
        (takes_taggedFields.makes _).bind fun _ => makes_pure _ (Nat.zero_add _).symm

theorem makes_fetchRequest :
    decodeFetchRequest.Makes 0 fun request => (Request.fetch request).elements :=
  (takes_int32.makes _).bind fun _ => (takes_int32.makes _).bind fun _ =>
    (takes_int32.makes _).bind fun _ => (takes_int32.makes _).bind fun _ =>
      (takes_int8.makes _).bind fun _ => (takes_int32.makes _).bind fun _ =>
        (takes_int32.makes _).bind fun _ => ((takes_arrayCount false).makes _).bind fun _ =>
          (Makes.repeated makes_fetchTopic _ _).bind fun _ =>
            ((takes_array takes_forgottenTopic).makes _).bind fun _ =>
              (takes_compactString.makes _).bind fun _ =>
                (takes_taggedFields.makes _).bind fun _ => makes_pure _ (Nat.zero_add _).symm

theorem makes_listOffsetsRequest :
    decodeListOffsetsRequest.Makes 0 fun request => (Request.listOffsets request).elements :=
  (takes_int32.makes _).bind fun _ => (takes_int8.makes _).bind fun _ =>
    ((takes_arrayCount false).makes _).bind fun _ =>
      (Makes.repeated makes_listOffsetsTopic _ _).bind fun _ =>
        (takes_taggedFields.makes _).bind fun _ => makes_pure _ (Nat.zero_add _).symm

end Codec

theorem pays_parseRequest (decoder : RequestDecoder) : (parseRequest decoder).Pays 0 0 := by
  refine (takes_requestHeader.pays 0).bind fun header => ?_
  have hrun : decoder.run.Pays 10 0 := by
    cases decoder with
    | metadata => exact Codec.pays_metadataRequest.bind fun _ => pays_pure _ (le_refl 0)
    | produce => exact Codec.pays_produceRequest.bind fun _ => pays_pure _ (le_refl 0)
    | fetch => exact Codec.pays_fetchRequest.bind fun _ => pays_pure _ (le_refl 0)
    | listOffsets => exact Codec.pays_listOffsetsRequest.bind fun _ => pays_pure _ (le_refl 0)
  exact hrun.bind fun _ => pays_pure _ (le_refl 0)

theorem makes_parseRequest (decoder : RequestDecoder) :
    (parseRequest decoder).Makes 0 fun result => result.2.elements := by
  refine (takes_requestHeader.makes 0).bind fun header => ?_
  have hrun : decoder.run.Makes 0 Request.elements := by
    cases decoder with
    | metadata => exact Codec.makes_metadataRequest.bind fun _ => makes_pure _ rfl
    | produce => exact Codec.makes_produceRequest.bind fun _ => makes_pure _ rfl
    | fetch => exact Codec.makes_fetchRequest.bind fun _ => makes_pure _ rfl
    | listOffsets => exact Codec.makes_listOffsetsRequest.bind fun _ => makes_pure _ rfl
  exact hrun.bind fun _ => makes_pure _ rfl

/-- **Decoding is bounded by the bytes received.**  At every step the reader is inside the
    buffer and no more topics and partitions have been constructed than bytes consumed; the run
    ends with a request, whose elements are the ones constructed, or with an exception. -/
theorem request_decoding_bounded (decoder : RequestDecoder) (data : Bytes) :
    (∀ s, Running.Reached data (parseRequest decoder) s → s.pos ≤ data.length ∧ s.made ≤ s.pos) ∧
      ∃ s, Running.Reached data (parseRequest decoder) s ∧
        ((∃ header request, s.program = .done (header, request) ∧ s.made = request.elements ∧
            (parseRequest decoder).exec data 0 = .ok ((header, request), s.pos)) ∨
          ∃ thrown, s.program = .fail thrown ∧
            (parseRequest decoder).exec data 0 = .error thrown) := by
  refine ⟨fun s hs => ⟨hs.pos_le, hs.made_le_pos (pays_parseRequest decoder)⟩, ?_⟩
  obtain ⟨s, hs, ⟨⟨header, request⟩, hdone, hexec⟩ | ⟨thrown, hfail, hexec⟩⟩ :=
    Running.exists_end data (parseRequest decoder)
  · exact ⟨s, hs, Or.inl ⟨header, request, hdone,
      hs.made_eq (makes_parseRequest decoder) hdone, hexec⟩⟩
  · exact ⟨s, hs, Or.inr ⟨thrown, hfail, hexec⟩⟩

end Mkmq
