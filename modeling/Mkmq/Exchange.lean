import Mkmq.FailureRules
import Mkmq.HandleFrame

/-!
# What a client asks is what the broker is asked

The requests of the benchmark client (`src/tools/kafka_bench_client.cpp`), through the wire,
`handle_frame` and back: which call of the broker each of them becomes, and what the client
reads off the response that is made of the call's result.
-/

namespace Mkmq

open ByteCodec ReadProgram ReadProgram.Program WriteProgram WireReader WireWriter BenchClient
  FailureRules

variable {α : Type} {options : Options} {acks : Int16} {config : BrokerConfig} {topic : TopicConfig}
  {write : α → Writing}

/-! ### The request -/

theorem readBody_eq (header : RequestHeader) {kind : RequestDecoder}
    (hkey : header.apiKey ≠ .apiVersions)
    (hsupported : isSupported header.apiKey header.apiVersion = true)
    (hkind : decoderOf header.apiKey = some kind) :
    readBody header = do return (header, some (← kind.run)) := by
  rw [readBody, if_neg hkey, hsupported, if_neg (by decide), hkind]

theorem handleFrame_of_delivers {w : Writing} {decoder : Reading α} {request : α}
    (h : Delivers (2 ^ 31) w decoder request) (apiId version : Int16) {key : ApiKey}
    (hid : apiKeyFromId apiId = .ok key) (hversion : requestHeaderVersion key version = 2)
    (kind : RequestDecoder) (wrap : α → Request) (hkey : key ≠ .apiVersions)
    (hsupported : isSupported key version = true) (hkind : decoderOf key = some kind)
    (hrun : kind.run = (do return wrap (← decoder))) (correlationId : Int32) :
    ∃ frame, (takeBytes w >>= wrapRequest apiId version correlationId) = .ok frame ∧
      (frame.length < 2 ^ 31 → ∀ config, handleFrame config (frame.drop 4) =
        startTask config ⟨key, version, correlationId, kClientId, 2⟩ (some (wrap request))) := by
  obtain ⟨frame, hframe, hreceived⟩ := receivedAs_of_delivers h hid hversion correlationId
  refine ⟨frame, hframe, fun hlength config => ?_⟩
  have hexec := hreceived hlength
  rw [exec_bind] at hexec
  obtain ⟨⟨header, pos⟩, hheader, hexec⟩ := bind_eq_ok.mp hexec
  rw [exec_bind] at hexec
  obtain ⟨⟨decoded, stop⟩, hdecoded, hexec⟩ := bind_eq_ok.mp hexec
  have hends : ((header, decoded), stop) = _ := Except.ok.inj hexec
  obtain ⟨hread, rfl⟩ := Prod.mk.inj hends
  obtain ⟨rfl, rfl⟩ := Prod.mk.inj hread
  have hdecoder :
      (kind.run).exec (frame.drop 4) pos = .ok (wrap decoded, (frame.drop 4).length) := by
    rw [hrun, exec_bind, hdecoded]
    rfl
  have hbody := readBody_eq ⟨key, version, correlationId, kClientId, 2⟩ hkey hsupported hkind
  have hread : decode readRequest (frame.drop 4) =
      .ok (⟨key, version, correlationId, kClientId, 2⟩, some (wrap decoded)) := by
    rw [decode, readRequest, exec_bind, hheader]
    change ((readBody _).exec (frame.drop 4) pos).map Prod.fst = _
    rw [hbody, exec_bind, hdecoder]
    rfl
  rw [handleFrame, hread]
  rfl

/-! ### Responses of one partition -/

theorem succeeds_raw (bytes : Bytes) : Succeeds (writeRaw bytes) := ⟨bytes, writes_raw bytes⟩

theorem succeeds_forM {items : List α} (h : ∀ item ∈ items, Succeeds (write item)) :
    Succeeds (items.forM write) := by
  induction items with
  | nil => exact ⟨[], fun data => by rw [List.append_nil]; rfl⟩
  | cons item rest ih =>
    obtain ⟨hitem, hrest⟩ := List.forall_mem_cons.mp h
    exact hitem.seq (ih hrest)

theorem succeeds_items {items : List α} (hlength : items.length < 0x7fffffff)
    (h : ∀ item ∈ items, Succeeds (write item)) : Succeeds (Codec.writeItems items write) :=
  (carries_listCount hlength false).succeeds.seq (succeeds_forM h)

theorem succeeds_item {item : α} (h : Succeeds (write item)) :
    Succeeds (Codec.writeItems [item] write) :=
  succeeds_items (show 1 < _ by decide) (List.forall_mem_singleton.mpr h)

theorem succeeds_noItems (write : α → Writing) : Succeeds (Codec.writeItems [] write) :=
  succeeds_items (show 0 < _ by decide) fun _ hmem => absurd hmem List.not_mem_nil

theorem succeeds_emptyTaggedFields : Succeeds writeEmptyTaggedFields :=
  carries_emptyTaggedFields.succeeds

theorem succeeds_topic (name : Bytes) {partition : α} (h : Succeeds (write partition)) :
    Succeeds (Codec.writeTopic name [partition] write) :=
  (succeeds_compactString name).seq <| (succeeds_item h).seq succeeds_emptyTaggedFields

/-! ### The client's batch -/

/-- What the client writes into a batch of `size` zeros. -/
def batchWrites (options : Options) (size : Nat) (records : Bytes) (crc : Int32) :
    List (Nat × Bytes) :=
  let id : Int64 := if options.idempotentBatch then 1 else -1
  let epoch : Int16 := if options.idempotentBatch then 0 else -1
  let sequence : Int32 := if options.idempotentBatch then 0 else -1
  [(8, beBytes 4 (Int32.ofNat (size - 12)).toBitVec.toNat), (16, [2]),
    (43, beBytes 8 id.toBitVec.toNat), (51, beBytes 2 epoch.toBitVec.toNat),
    (53, beBytes 4 sequence.toBitVec.toNat), (57, beBytes 4 (1 : Int32).toBitVec.toNat),
    (61, records), (17, beBytes 4 crc.toBitVec.toNat)]

theorem makeRecordBatch_eq (options : Options) :
    ∃ records crc, makeRecordBatch options =
      spliceAll (List.replicate (61 + records.length) 0)
        (batchWrites options (61 + records.length) records crc) :=
  ⟨_, _, rfl⟩

theorem batchWrites_read (options : Options) (records : Bytes) (crc : Int32) :
    (spliceAll (List.replicate (61 + records.length) 0)
        (batchWrites options (61 + records.length) records crc)).length = 61 + records.length ∧
      ∀ write ∈ batchWrites options (61 + records.length) records crc,
        slice (spliceAll (List.replicate (61 + records.length) 0)
          (batchWrites options (61 + records.length) records crc)) write.1 write.2.length =
            write.2 := by
  have hlength : (List.replicate (61 + records.length) (0 : UInt8)).length = 61 + records.length :=
    List.length_replicate
  have hinside : ∀ write ∈ batchWrites options (61 + records.length) records crc,
      write.1 + write.2.length ≤ 61 + records.length := by
    intro write hwrite
    simp only [batchWrites, List.mem_cons, List.not_mem_nil, or_false] at hwrite
    rcases hwrite with rfl | rfl | rfl | rfl | rfl | rfl | rfl | rfl <;>
      simp only [length_beBytes, List.length_singleton] <;> omega
  have hall := slice_spliceAll (by rwa [hlength]) (by
    simp only [batchWrites, List.pairwise_cons, List.mem_cons, List.not_mem_nil, or_false,
      forall_eq_or_imp, forall_eq, length_beBytes, List.length_singleton, List.Pairwise.nil,
      false_implies, implies_true, and_true]
    omega)
  rwa [hlength] at hall

/-- The client's batch fills its length, and names a producer if it is told to. -/
theorem makeRecordBatch_fields (h : (makeRecordBatch options).length < 2 ^ 31) :
    61 ≤ (makeRecordBatch options).length ∧
      signed 32 (batchLengthField (makeRecordBatch options)) =
        ((makeRecordBatch options).length - 12 : Nat) ∧
      (NamesProducer (makeRecordBatch options) ↔ options.idempotentBatch) := by
  obtain ⟨records, crc, hbatch⟩ := makeRecordBatch_eq options
  obtain ⟨hlength, hread⟩ := batchWrites_read options records crc
  rw [← hbatch] at hlength hread
  simp only [batchWrites, List.forall_mem_cons, length_beBytes, List.not_mem_nil, false_implies,
    implies_true, and_true] at hread
  obtain ⟨hsize, -, hid, hepoch, hsequence, -⟩ := hread
  refine ⟨by omega, ?_, ?_⟩
  · have hbits : (Int32.ofNat (61 + records.length - 12)).toBitVec.toNat =
        61 + records.length - 12 := by
      rw [Int32.toBitVec_ofNat', BitVec.toNat_ofNat]
      exact Nat.mod_eq_of_lt (by omega)
    rw [batchLengthField, hsize, hbits, beNat_beBytes, hlength, Nat.mod_eq_of_lt (by omega)]
    exact signed_eq_self (by omega)
  · rw [NamesProducer, producerId, producerEpoch, baseSequence, hid, hepoch, hsequence]
    cases options.idempotentBatch <;> decide

theorem hasIdempotentRecordBatch_makeRecordBatch (h : (makeRecordBatch options).length < 2 ^ 31) :
    hasIdempotentRecordBatch (makeRecordBatch options) = options.idempotentBatch := by
  obtain ⟨hheader, hsize, hnames⟩ := makeRecordBatch_fields h
  obtain ⟨fuel, hfuel⟩ : ∃ n, (makeRecordBatch options).length = n + 1 :=
    ⟨_, (Nat.sub_add_cancel (by omega)).symm⟩
  have hend : idempotentLoop fuel [] = false := by cases fuel <;> rfl
  rw [hasIdempotentRecordBatch, hfuel, idempotentLoop, if_pos hheader]
  simp only [hsize]
  rw [if_neg (by omega), if_neg (by omega), Int.toNat_natCast, Nat.sub_add_cancel (by omega),
    List.drop_length, hend]
  cases hoption : options.idempotentBatch with
  | true => rw [if_pos (hnames.mpr hoption)]
  | false => rw [if_neg (by rw [hnames, hoption]; exact Bool.false_ne_true)]

/-! ### The exchange -/

/-- A body that is written is sent, and the client reads off it what the reader returns. -/
theorem respond_of_opens {β : Type} {w : Writing} {item : Reading β} {value : β}
    (header : RequestHeader) (h : Opens (2 ^ 31) w item value) (hsucceeds : Succeeds w)
    (hkey : header.apiKey = .metadata ∨ header.apiKey = .produce ∨ header.apiKey = .fetch ∨
      header.apiKey = .listOffsets) (hsupported : isSupported header.apiKey header.apiVersion) :
    ∃ response, respond header (takeBytes w) = .ok (some response) ∧
      (response.length < 2 ^ 31 → decode (do
        skipResponseHeaderTags header.correlationId
        item) response = .ok value) := by
  obtain ⟨bytes, hbytes⟩ := hsucceeds
  obtain ⟨rest, hframe⟩ := makeResponseFrame_eq header bytes
  have hbody : (takeBytes w >>= makeResponseFrame header) = makeResponseFrame header bytes := by
    rw [takeBytes_of_writes hbytes]
    rfl
  rw [hframe] at hbody
  refine ⟨_, by rw [respond, hbody]; rfl, fun hlength => ?_⟩
  exact answeredBy_of_opens h (fun _ => responseHeaderVersion_of_isSupported hkey) header _ rfl
    hsupported hbody hlength

/-- The last call of a task resolves. -/
theorem FrameTask.run_last {task task' : FrameTask} {result : CallResult} {answer : Option Bytes}
    (hresume : task.resume result = some task') (hfinish : task'.finish = some (.ok answer)) :
    task.run [some result] = some (.answered answer) := by
  rw [FrameTask.run, hresume, Option.bind_some, FrameTask.run, hfinish]
  rfl

/-- The client's request becomes one call of the broker, and the client reads `value` of the
    call's result off the response. -/
def ExchangedAs {ρ β : Type} (body : Except Thrown Bytes) (apiId version : Int16)
    (call : BrokerCall) (result : ρ → CallResult) (read : Bytes → Int32 → Except Thrown β)
    (value : ρ → β) : Prop :=
  ∀ (config : BrokerConfig) (correlationId : Int32),
    ∃ frame, (body >>= wrapRequest apiId version correlationId) = .ok frame ∧
      (frame.length < 2 ^ 31 → ∃ task, handleFrame config (frame.drop 4) = .ok task ∧
        task.call = some call ∧ ∀ r, ∃ response,
          task.run [some (result r)] = some (.answered (some response)) ∧
            (response.length < 2 ^ 31 → read response correlationId = .ok (value r)))

/-- Under this configuration the client's request is answered without a call, and the client
    reads `value` off the response. -/
def AnsweredAtOnce {β : Type} (config : BrokerConfig) (body : Except Thrown Bytes)
    (apiId version : Int16) (read : Bytes → Int32 → Except Thrown β) (value : β) : Prop :=
  ∀ correlationId : Int32,
    ∃ frame, (body >>= wrapRequest apiId version correlationId) = .ok frame ∧
      (frame.length < 2 ^ 31 → ∃ response,
        handleFrame config (frame.drop 4) = .ok (.ready (some response)) ∧
          (response.length < 2 ^ 31 → read response correlationId = .ok value))

/-- The client's request is given no response: it becomes the call, if there is one, and
    nothing is sent whatever the result. -/
def SentUnanswered {ρ : Type} (body : Except Thrown Bytes) (apiId version : Int16)
    (call : Option BrokerCall) (result : ρ → CallResult) : Prop :=
  ∀ (config : BrokerConfig) (correlationId : Int32),
    ∃ frame, (body >>= wrapRequest apiId version correlationId) = .ok frame ∧
      (frame.length < 2 ^ 31 → ∃ task, handleFrame config (frame.drop 4) = .ok task ∧
        task.call = call ∧
        ∀ r, task.run (call.map fun _ => some (result r)).toList = some (.answered none))

section Responses

variable (header : RequestHeader) (hsupported : isSupported header.apiKey header.apiVersion)

include hsupported

theorem produce_response_read (hkey : header.apiKey = .produce) (result : ProducePartitionResult) :
    ∃ response, respond header
        (Codec.encodeProduceResponse (codecProduce (produceResponse [result]))) =
          .ok (some response) ∧
      (response.length < 2 ^ 31 →
        firstProduceError response header.correlationId = .ok (errorId result.errorCode)) := by
  have hpartition : Succeeds (Codec.writeProducePartition
      (codecProducePartition (produceEntry result))) :=
    (succeeds_raw _).seq <| (succeeds_raw _).seq <| (succeeds_raw _).seq <| (succeeds_raw _).seq <|
      (succeeds_raw _).seq <| (succeeds_noItems _).seq <|
        (succeeds_compactNullableString _).seq succeeds_emptyTaggedFields
  have htopics : (codecProduce (produceResponse [result])).topics =
      [⟨bytesOf result.topic, [codecProducePartition (produceEntry result)]⟩] := rfl
  have hopens := opens_produceResponse htopics rfl "Produce response had no topics"
    "Produce response had no partitions"
  refine respond_of_opens header hopens ?_ (by rw [hkey]; decide) hsupported
  exact (succeeds_item (succeeds_topic _ hpartition)).seq <| (succeeds_raw _).seq
    succeeds_emptyTaggedFields

theorem fetch_response_read (hkey : header.apiKey = .fetch) (request : FetchPartitionRequest)
    (result : FetchPartitionResult) :
    ∃ response, respond header
        (Codec.encodeFetchResponse (codecFetch (fetchResponse [(request, result)]))) =
          .ok (some response) ∧
      (response.length < 2 ^ 31 → firstFetchSummary response header.correlationId =
        .ok ⟨errorId result.errorCode, .ofInt result.highWatermark, result.records⟩) := by
  have hpartition : Succeeds (Codec.writeFetchPartition
      (codecFetchPartition (fetchEntry (request, result)))) :=
    (succeeds_raw _).seq <| (succeeds_raw _).seq <| (succeeds_raw _).seq <| (succeeds_raw _).seq <|
      (succeeds_raw _).seq <| (carries_unsignedVarint 0).succeeds.seq <| (succeeds_raw _).seq <|
        (succeeds_compactNullableBytes _).seq succeeds_emptyTaggedFields
  have htopics : (codecFetch (fetchResponse [(request, result)])).topics =
      [⟨bytesOf request.topic, [codecFetchPartition (fetchEntry (request, result))]⟩] := rfl
  have hopens := opens_fetchResponse htopics rfl "Fetch response had no topics"
    "Fetch response had no partitions"
  refine respond_of_opens header hopens ?_ (by rw [hkey]; decide) hsupported
  exact (succeeds_raw _).seq <| (succeeds_raw _).seq <| (succeeds_raw _).seq <|
    (succeeds_item (succeeds_topic _ hpartition)).seq succeeds_emptyTaggedFields

theorem listOffsets_response_read (hkey : header.apiKey = .listOffsets)
    (result : ListOffsetPartitionResult) :
    ∃ response, respond header
        (Codec.encodeListOffsetsResponse (codecListOffsets (listOffsetsResponse [result]))) =
          .ok (some response) ∧
      (response.length < 2 ^ 31 → firstListOffset response header.correlationId =
        .ok (errorId result.errorCode, .ofInt result.selected)) := by
  have hpartition : Succeeds (Codec.writeListOffsetsPartition
      (codecListOffsetsPartition (listOffsetsEntry result))) :=
    (succeeds_raw _).seq <| (succeeds_raw _).seq <| (succeeds_raw _).seq <| (succeeds_raw _).seq <|
      (succeeds_raw _).seq succeeds_emptyTaggedFields
  have htopics : (codecListOffsets (listOffsetsResponse [result])).topics =
      [⟨bytesOf result.topic, [codecListOffsetsPartition (listOffsetsEntry result)]⟩] := rfl
  have hopens := opens_listOffsetsResponse htopics rfl "ListOffsets response had no topics"
    "ListOffsets response had no partitions"
  refine respond_of_opens header hopens ?_ (by rw [hkey]; decide) hsupported
  exact (succeeds_raw _).seq <| (succeeds_item (succeeds_topic _ hpartition)).seq
    succeeds_emptyTaggedFields

end Responses

theorem exchanged_fetch (options : Options) (offset : Int64) (maxWaitMs : Int32) :
    ExchangedAs (makeFetchBody options offset maxWaitMs) 1 12
      (.fetch
        { topic := textOf options.topic
          partition := options.partition.toInt
          offset := offset.toInt
          maxWaitMs := maxWaitMs.toInt
          minBytes := 1
          maxBytes := 1024 * 1024 })
      .fetch firstFetchSummary
      fun result => ⟨errorId result.errorCode, .ofInt result.highWatermark, result.records⟩ := by
  intro config correlationId
  obtain ⟨frame, hframe, hhandle⟩ :=
    handleFrame_of_delivers (delivers_fetchBody options offset maxWaitMs)
    1 12 rfl rfl .fetch .fetch (by decide) (by decide) rfl rfl correlationId
  refine ⟨frame, hframe, fun hlength => ⟨_, hhandle hlength config, rfl, fun result => ?_⟩⟩
  obtain ⟨response, hrespond, hread⟩ := fetch_response_read
    ⟨.fetch, 12, correlationId, kClientId, 2⟩ rfl rfl
    { topic := textOf options.topic
      partition := options.partition.toInt
      offset := offset.toInt
      maxWaitMs := maxWaitMs.toInt
      minBytes := 1
      maxBytes := 1024 * 1024 } result
  exact ⟨response, FrameTask.run_last rfl (congrArg some hrespond), hread⟩

theorem exchanged_listOffsets (options : Options) (timestamp : Int64) :
    ExchangedAs (makeListOffsetsBody options timestamp) 2 6
      (.listOffsets
        { topic := textOf options.topic
          partition := options.partition.toInt
          timestamp := timestamp.toInt })
      .listOffsets firstListOffset
      fun result => (errorId result.errorCode, .ofInt result.selected) := by
  intro config correlationId
  obtain ⟨frame, hframe, hhandle⟩ :=
    handleFrame_of_delivers (delivers_listOffsetsBody options timestamp)
    2 6 rfl rfl .listOffsets .listOffsets (by decide) (by decide) rfl rfl correlationId
  refine ⟨frame, hframe, fun hlength => ⟨_, hhandle hlength config, rfl, fun result => ?_⟩⟩
  obtain ⟨response, hrespond, hread⟩ := listOffsets_response_read
    ⟨.listOffsets, 6, correlationId, kClientId, 2⟩ rfl rfl result
  exact ⟨response, FrameTask.run_last rfl (congrArg some hrespond), hread⟩

section

variable (hbatch : (makeRecordBatch options).length < 2 ^ 31)

include hbatch

/-- The client's produce request, as the broker has it. -/
theorem toBrokerProduceRequest_client (acks : Int16) :
    toBrokerProduceRequest (wireProduce
        { transactionalId := options.transactionalId
          acks
          timeoutMs := 100
          topics := [⟨options.topic, [⟨options.partition, makeRecordBatch options⟩]⟩] }) =
      { acks := acks.toInt
        timeoutMs := 100
        rejectedErrorCode :=
          if options.transactionalId.isSome || options.idempotentBatch then .invalidRequest
          else .none
        partitions :=
          [⟨textOf options.topic, options.partition.toInt, makeRecordBatch options⟩] } := by
  have hguard := hasIdempotentRecordBatch_makeRecordBatch hbatch
  unfold toBrokerProduceRequest wireProduce
  simp only [List.map_cons, List.map_nil, List.foldl_cons, List.foldl_nil, ProduceRequest.add,
    hguard, Option.isSome_map, List.nil_append]
  cases options.transactionalId.isSome <;> cases options.idempotentBatch <;> rfl

/-- The task that the client's produce request becomes. -/
theorem handleFrame_produce (acks : Int16) (config : BrokerConfig) (correlationId : Int32) :
    ∃ frame, (makeProduceBody options acks >>= wrapRequest 0 9 correlationId) = .ok frame ∧
      (frame.length < 2 ^ 31 →
        ((options.transactionalId.isSome || options.idempotentBatch) = true →
          handleFrame config (frame.drop 4) =
            if acks.toInt = 0 then .ok (.ready none)
            else (respond ⟨.produce, 9, correlationId, kClientId, 2⟩ (Codec.encodeProduceResponse
              (codecProduce (produceResponse [{ topic := textOf options.topic
                                                partition := options.partition.toInt
                                                errorCode := .invalidRequest }])))).map .ready) ∧
        ((options.transactionalId.isSome || options.idempotentBatch) = false →
          handleFrame config (frame.drop 4) = .ok (.produce
            ⟨.produce, 9, correlationId, kClientId, 2⟩
            { acks := acks.toInt
              timeoutMs := 100
              rejectedErrorCode := .none
              partitions :=
                [⟨textOf options.topic, options.partition.toInt, makeRecordBatch options⟩] }
            [⟨textOf options.topic, options.partition.toInt, makeRecordBatch options⟩] []))) := by
  obtain ⟨frame, hframe, hhandle⟩ := handleFrame_of_delivers (delivers_produceBody options acks)
    0 9 rfl rfl .produce .produce (by decide) (by decide) rfl rfl correlationId
  refine ⟨frame, hframe, fun hlength => ?_⟩
  rw [hhandle hlength config]
  constructor
  · intro hmarked
    simp only [startTask, toBrokerProduceRequest_client hbatch, hmarked, if_true, ne_eq,
      reduceCtorEq, not_false_eq_true]
    rfl
  · intro hplain
    simp only [startTask, toBrokerProduceRequest_client hbatch, hplain, Bool.false_eq_true,
      if_false, ne_eq, not_true_eq_false]

theorem exchanged_produce
    (hplain : (options.transactionalId.isSome || options.idempotentBatch) = false)
    (hacks : acks.toInt ≠ 0) :
    ExchangedAs (makeProduceBody options acks) 0 9
      (.append ⟨textOf options.topic, options.partition.toInt, makeRecordBatch options⟩ acks.toInt
        100)
      .append firstProduceError fun result => errorId result.errorCode := by
  intro config correlationId
  obtain ⟨frame, hframe, hhandle⟩ := handleFrame_produce hbatch acks config correlationId
  refine ⟨frame, hframe, fun hlength => ⟨_, (hhandle hlength).2 hplain, rfl, fun result => ?_⟩⟩
  obtain ⟨response, hrespond, hread⟩ := produce_response_read
    ⟨.produce, 9, correlationId, kClientId, 2⟩ rfl rfl result
  refine ⟨response, FrameTask.run_last rfl ?_, hread⟩
  rw [FrameTask.finish, if_neg hacks]
  exact congrArg some hrespond

theorem rejected_produce
    (hmarked : (options.transactionalId.isSome || options.idempotentBatch) = true)
    (hacks : acks.toInt ≠ 0) (config : BrokerConfig) :
    AnsweredAtOnce config (makeProduceBody options acks) 0 9 firstProduceError
      (errorId .invalidRequest) := by
  intro correlationId
  obtain ⟨frame, hframe, hhandle⟩ := handleFrame_produce hbatch acks config correlationId
  refine ⟨frame, hframe, fun hlength => ?_⟩
  have htask := (hhandle hlength).1 hmarked
  rw [if_neg hacks] at htask
  obtain ⟨response, hrespond, hread⟩ := produce_response_read
    ⟨.produce, 9, correlationId, kClientId, 2⟩ rfl rfl
    { topic := textOf options.topic, partition := options.partition.toInt,
      errorCode := .invalidRequest }
  exact ⟨response, htask.trans (congrArg (Except.map FrameTask.ready) hrespond), hread⟩

/-- A produce with `acks = 0` is given no response, whether it is handed on or turned away. -/
theorem unanswered_produce (hacks : acks.toInt = 0) :
    SentUnanswered (makeProduceBody options acks) 0 9
      (if options.transactionalId.isSome || options.idempotentBatch then none
        else some (.append
          ⟨textOf options.topic, options.partition.toInt, makeRecordBatch options⟩ 0 100))
      .append := by
  intro config correlationId
  obtain ⟨frame, hframe, hhandle⟩ := handleFrame_produce hbatch acks config correlationId
  refine ⟨frame, hframe, fun hlength => ?_⟩
  cases hmarked : options.transactionalId.isSome || options.idempotentBatch with
  | true =>
    have htask := (hhandle hlength).1 hmarked
    rw [if_pos hacks] at htask
    exact ⟨_, htask, rfl, fun _ => rfl⟩
  | false =>
    refine ⟨_, (hhandle hlength).2 hmarked, ?_, fun result => FrameTask.run_last rfl ?_⟩
    · rw [if_neg Bool.false_ne_true, ← hacks]
      rfl
    · rw [FrameTask.finish, if_pos hacks]

end

/-- The lists of a metadata response are short enough to be counted. -/
def Countable (config : BrokerConfig) (topic : TopicConfig) : Prop :=
  config.brokers.length < 0x7fffffff ∧ topic.partitions.length < 0x7fffffff ∧
    ∀ partition ∈ topic.partitions,
      partition.replicas.length < 0x7fffffff ∧ partition.isr.length < 0x7fffffff

theorem succeeds_metadataTopic (h : Countable config topic) :
    Succeeds (Codec.writeMetadataTopic (metadataTopic topic)) := by
  have hitems : ∀ nodes : List Int, nodes.length < 0x7fffffff →
      Succeeds (Codec.writeItems (nodes.map Int32.ofInt) writeInt32) := fun nodes hnodes =>
    succeeds_items (by rwa [List.length_map]) fun _ _ => succeeds_raw _
  have hpartitions : Succeeds (Codec.writeItems (metadataTopic topic).partitions
      Codec.writeMetadataPartition) := by
    refine succeeds_items (by simpa [metadataTopic] using h.2.1) ?_
    intro item hitem
    obtain ⟨partition, hpartition, rfl⟩ := List.mem_map.mp hitem
    obtain ⟨hreplicas, hisr⟩ := h.2.2 partition hpartition
    exact (succeeds_raw _).seq <| (succeeds_raw _).seq <| (succeeds_raw _).seq <|
      (succeeds_raw _).seq <| (hitems _ hreplicas).seq <| (hitems _ hisr).seq <|
        (succeeds_noItems _).seq succeeds_emptyTaggedFields
  exact (succeeds_raw _).seq <| (succeeds_compactString _).seq <| (succeeds_raw _).seq <|
    hpartitions.seq <| (succeeds_raw _).seq succeeds_emptyTaggedFields

theorem succeeds_metadataResponse {request : Codec.MetadataRequest} (h : Countable config topic)
    (htopics : (metadataResponse config request).topics = [metadataTopic topic]) :
    Succeeds (Codec.writeMetadataResponse (metadataResponse config request)) := by
  have hbrokers : Succeeds (Codec.writeItems (metadataResponse config request).brokers
      Codec.writeMetadataBroker) := by
    refine succeeds_items (by simpa [metadataResponse] using h.1) fun broker _ => ?_
    exact (succeeds_raw _).seq <| (succeeds_compactString _).seq <| (succeeds_raw _).seq <|
      (succeeds_compactNullableString _).seq succeeds_emptyTaggedFields
  have htopic : Succeeds (Codec.writeItems (metadataResponse config request).topics
      Codec.writeMetadataTopic) := by
    rw [htopics]
    exact succeeds_item (succeeds_metadataTopic h)
  exact (succeeds_raw _).seq <| hbrokers.seq <| (succeeds_compactNullableString _).seq <|
    (succeeds_raw _).seq <| htopic.seq <| (succeeds_raw _).seq succeeds_emptyTaggedFields

theorem answered_metadata (options : Options)
    (h : Countable config (topicFor config (textOf options.topic))) :
    AnsweredAtOnce config (makeMetadataBody options) 3 9 firstMetadataError
      (if (topicFor config (textOf options.topic)).partitions = [] then
        errorId .unknownTopicOrPartition
      else 0) := by
  intro correlationId
  obtain ⟨frame, hframe, hhandle⟩ := handleFrame_of_delivers (delivers_metadataBody options)
    3 9 rfl rfl .metadata .metadata (by decide) (by decide) rfl rfl correlationId
  refine ⟨frame, hframe, fun hlength => ?_⟩
  have htopics : (metadataResponse config
      { allTopics := false
        topics := [⟨options.topic⟩]
        allowAutoTopicCreation := false
        includeClusterAuthorizedOperations := false
        includeTopicAuthorizedOperations := false }).topics =
      [metadataTopic (topicFor config (textOf options.topic))] := rfl
  obtain ⟨response, hrespond, hread⟩ := respond_of_opens
    ⟨.metadata, 9, correlationId, kClientId, 2⟩ (opens_metadataResponse htopics)
    (succeeds_metadataResponse h htopics) (Or.inl rfl) rfl
  refine ⟨response, (hhandle hlength config).trans
    (congrArg (Except.map FrameTask.ready) hrespond), fun hshort => (hread hshort).trans ?_⟩
  simp only [metadataTopic, List.isEmpty_iff]

/-- **The client gets what the broker answered.**  Through the wire and `handle_frame`, under any
    configuration and for any result of the call: a fetch, a listing of offsets and a produce
    each become one call of the broker with exactly the client's topic, partition, offset and
    records, and the client reads the result's error code, and the watermark and records or the
    offset, off the response; a produce with a transactional id or an idempotent batch is turned
    away without a call; one with `acks = 0` is given no response in either case; and what
    metadata says of a topic is whether it has partitions. -/
theorem client_gets_the_brokers_answer (options : Options) :
    (∀ offset maxWaitMs, ExchangedAs (makeFetchBody options offset maxWaitMs) 1 12
      (.fetch
        { topic := textOf options.topic
          partition := options.partition.toInt
          offset := offset.toInt
          maxWaitMs := maxWaitMs.toInt
          minBytes := 1
          maxBytes := 1024 * 1024 })
      .fetch firstFetchSummary
      fun result => ⟨errorId result.errorCode, .ofInt result.highWatermark, result.records⟩) ∧
    (∀ timestamp, ExchangedAs (makeListOffsetsBody options timestamp) 2 6
      (.listOffsets
        { topic := textOf options.topic
          partition := options.partition.toInt
          timestamp := timestamp.toInt })
      .listOffsets firstListOffset
      fun result => (errorId result.errorCode, .ofInt result.selected)) ∧
    (∀ acks : Int16, (makeRecordBatch options).length < 2 ^ 31 →
      (acks.toInt = 0 → SentUnanswered (makeProduceBody options acks) 0 9
        (if options.transactionalId.isSome || options.idempotentBatch then none
          else some (.append
            ⟨textOf options.topic, options.partition.toInt, makeRecordBatch options⟩ 0 100))
        .append) ∧
      (acks.toInt ≠ 0 →
        ((options.transactionalId.isSome || options.idempotentBatch) = false →
          ExchangedAs (makeProduceBody options acks) 0 9
            (.append ⟨textOf options.topic, options.partition.toInt, makeRecordBatch options⟩
              acks.toInt 100)
            .append firstProduceError fun result => errorId result.errorCode) ∧
        ((options.transactionalId.isSome || options.idempotentBatch) = true →
          ∀ config, AnsweredAtOnce config (makeProduceBody options acks) 0 9 firstProduceError
            (errorId .invalidRequest)))) ∧
    ∀ config, Countable config (topicFor config (textOf options.topic)) →
      AnsweredAtOnce config (makeMetadataBody options) 3 9 firstMetadataError
        (if (topicFor config (textOf options.topic)).partitions = [] then
          errorId .unknownTopicOrPartition
        else 0) := by
  refine ⟨exchanged_fetch options, exchanged_listOffsets options, ?_,
    fun _ => answered_metadata options⟩
  intro acks hbatch
  refine ⟨unanswered_produce hbatch, fun hacks => ⟨?_, ?_⟩⟩
  · exact fun hplain => exchanged_produce hbatch hplain hacks
  · exact fun hmarked => rejected_produce hbatch hmarked hacks

end Mkmq
