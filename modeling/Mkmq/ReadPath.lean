import Mkmq.LowerBound
import Mkmq.PartitionLog

/-!
# The read path

`find_index_for_offset`, `get_segment_file_for_read`, `read_records_from_index`, `fetch` and
`fetch_for_replica` of `src/partition_log_shard.cpp`.  The read merges neighbouring index
entries of a segment into one DMA read and cuts the frames out of the buffer.
-/

namespace Mkmq

open ByteCodec

structure FetchPartitionResult where
  errorCode : ErrorCode := .none
  highWatermark : Int := 0
  logStartOffset : Int := 0
  logEndOffset : Int := 0
  records : Bytes := []
deriving DecidableEq, Repr

structure ReplicaFetchResult where
  errorCode : ErrorCode := .none
  leaderHighWatermark : Int := 0
  logEndOffset : Int := 0
  records : Bytes := []
deriving DecidableEq, Repr

/-- The size of the frame an index entry points at. -/
def IndexEntry.frameSize (alignment : Nat) (entry : IndexEntry) : Nat :=
  Mkmq.frameSize alignment entry.recordBytes.toNat

namespace PartitionLogShard

/-! ### The read path -/

def findIndexForOffset (s : PartitionLogShard) (offset : Int) : Nat :=
  LowerBound.lowerBound (fun entry => decide (entry.lastOffset < offset)) s.indexEntries

/-- The file a read of `segmentBase` goes to, with the cache moved to most recently used
    order; `none` when the file cannot be opened. -/
def getSegmentFileForRead (s : PartitionLogShard) (segmentBase : Int) :
    PartitionLogShard × Option Int :=
  if segmentBase = s.activeSegmentBaseOffset ∧ s.file.isSome then (s, s.file)
  else
    match s.segmentCache.find? (fun cached => decide (cached.1 = segmentBase)) with
    | some cached =>
      ({ s with segmentCache := cached :: s.segmentCache.erase cached }, some cached.2)
    | none =>
      if (OrderedStore.find segmentBase s.root.segments).isSome then
        ({ s with
            segmentCache :=
              (segmentBase, segmentBase) :: s.segmentCache.take (kSegmentCacheMax - 1) },
          some segmentBase)
      else (s, none)

/-- The entries merged into one read. -/
structure ReadRun where
  count : Nat
  recordBytes : Nat
  totalBytes : Nat
deriving DecidableEq, Repr

/-- The inner loop that grows a run.  `taken` is `records.size()`.  Positions in a run
    ascend, where the source's unsigned difference is the subtraction here. -/
def extendRun (alignment : Nat) (visibleEnd : Int) (limit taken : Nat) (segmentBase : Int)
    (start : Nat) : List IndexEntry → ReadRun → ReadRun
  | [], run => run
  | entry :: rest, run =>
    if entry.baseOffset ≥ visibleEnd ∨ entry.lastOffset ≥ visibleEnd then run
    else if entry.segmentBase ≠ segmentBase then run
    else if taken + run.recordBytes + entry.recordBytes.toNat > limit then run
    else
      extendRun alignment visibleEnd limit taken segmentBase start rest
        { count := run.count + 1
          recordBytes := run.recordBytes + entry.recordBytes.toNat
          totalBytes := (entry.segmentPosition - start) + entry.frameSize alignment }

/-- Cut the payloads of a run out of its buffer. -/
def parseRun (buffer : Bytes) (start : Nat) : List IndexEntry → Bytes → Except String Bytes
  | [], records => .ok records
  | entry :: rest, records =>
    let header := entry.segmentPosition - start
    if slice buffer header 8 ≠ kLogMagic ∨ getI64 buffer (header + 8) ≠ entry.baseOffset ∨
        getI32 buffer (header + 16) ≠ entry.recordBytes then
      .error "partition segment frame is corrupt"
    else
      parseRun buffer start rest
        (records ++ slice buffer (header + 20) entry.recordBytes.toNat)

/-- The outer loop; the entries from `idx` on are its argument, and each iteration takes
    at least one, so `fuel` is enough once it is no less than their number. -/
def readLoop (offset visibleEnd : Int) (limit : Nat) :
    Nat → PartitionLogShard → List IndexEntry → Bytes → PartitionLogShard × Except String Bytes
  | _, s, [], records => (s, .ok records)
  | 0, s, _ :: _, records => (s, .ok records)
  | fuel + 1, s, first :: rest, records =>
    if first.lastOffset < offset then readLoop offset visibleEnd limit fuel s rest records
    else if first.baseOffset ≥ visibleEnd ∨ first.lastOffset ≥ visibleEnd then (s, .ok records)
    else if records ≠ [] ∧ records.length + first.recordBytes.toNat > limit then
      (s, .ok records)
    else
      let start := first.segmentPosition
      let run := extendRun s.logFrameAlignment visibleEnd limit records.length
        first.segmentBase start rest
        ⟨1, first.recordBytes.toNat, first.frameSize s.logFrameAlignment⟩
      match s.getSegmentFileForRead first.segmentBase with
      | (s, none) => (s, .error "open_file_dma failed")
      | (s, some file) =>
        let buffer := slice (s.root.contents file) start run.totalBytes
        if buffer.length ≠ run.totalBytes then (s, .error "partition segment short read")
        else
          match parseRun buffer start ((first :: rest).take run.count) records with
          | .error e => (s, .error e)
          | .ok records =>
            if records.length ≥ limit then (s, .ok records)
            else
              readLoop offset visibleEnd limit fuel s ((first :: rest).drop run.count) records

def readRecordsFromIndex (s : PartitionLogShard) (offset visibleEnd : Int) (limit : Nat) :
    PartitionLogShard × Except String Bytes :=
  readLoop offset visibleEnd limit s.indexEntries.length s
    (s.indexEntries.drop (s.findIndexForOffset offset)) []

/-- `max_bytes` as a limit: not positive means the partition's own. -/
def fetchLimit (s : PartitionLogShard) (maxBytes : Int) : Nat :=
  if maxBytes ≤ 0 then s.config.maxFrameBytes else maxBytes.toNat

def visibleEnd (s : PartitionLogShard) : Int :=
  match s.config.fetchVisibility with
  | .highWatermark => s.offsets.highWatermark
  | .leaderLocalEnd => s.offsets.latest

def fetch (s : PartitionLogShard) (offset maxBytes : Int) :
    PartitionLogShard × Except String FetchPartitionResult :=
  let result : FetchPartitionResult :=
    { highWatermark := s.visibleEnd
      logStartOffset := s.offsets.earliest
      logEndOffset := s.offsets.latest }
  if offset < s.offsets.earliest ∨ offset > s.offsets.latest then
    (s, .ok { result with errorCode := .offsetOutOfRange })
  else
    let (s', records) := s.readRecordsFromIndex offset s.visibleEnd (s.fetchLimit maxBytes)
    (s', records.map fun records => { result with records := records })

def fetchForReplica (s : PartitionLogShard) (offset maxBytes : Int) :
    PartitionLogShard × Except String ReplicaFetchResult :=
  let result : ReplicaFetchResult :=
    { leaderHighWatermark := s.offsets.highWatermark
      logEndOffset := s.offsets.latest }
  if offset < s.offsets.earliest ∨ offset > s.offsets.latest then
    (s, .ok { result with errorCode := .offsetOutOfRange })
  else
    let (s', records) := s.readRecordsFromIndex offset s.offsets.latest (s.fetchLimit maxBytes)
    (s', records.map fun records => { result with records := records })

/-! ### A read changes nothing but the cache -/

theorem getSegmentFileForRead_cache (s : PartitionLogShard) (segmentBase : Int) :
    ∃ cache, (s.getSegmentFileForRead segmentBase).1 = { s with segmentCache := cache } := by
  unfold getSegmentFileForRead
  split
  · exact ⟨s.segmentCache, rfl⟩
  split
  · exact ⟨_, rfl⟩
  split
  · exact ⟨_, rfl⟩
  · exact ⟨s.segmentCache, rfl⟩

theorem readLoop_cache (offset visibleEnd : Int) (limit fuel : Nat) (s : PartitionLogShard)
    (entries : List IndexEntry) (records : Bytes) :
    ∃ cache, (readLoop offset visibleEnd limit fuel s entries records).1 =
      { s with segmentCache := cache } := by
  induction fuel generalizing s entries records with
  | zero => cases entries <;> exact ⟨s.segmentCache, rfl⟩
  | succ fuel ih =>
    cases entries with
    | nil => exact ⟨s.segmentCache, rfl⟩
    | cons first rest =>
      unfold readLoop
      split
      · exact ih s rest records
      split
      · exact ⟨s.segmentCache, rfl⟩
      split
      · exact ⟨s.segmentCache, rfl⟩
      simp only
      obtain ⟨cache, hcache⟩ := s.getSegmentFileForRead_cache first.segmentBase
      split
      · next s' hfile => exact ⟨cache, by rw [← hcache, hfile]⟩
      · next s' file hfile =>
          have hs' : s' = { s with segmentCache := cache } := by rw [← hcache, hfile]
          subst hs'
          split
          · exact ⟨cache, rfl⟩
          split
          · exact ⟨cache, rfl⟩
          split
          · exact ⟨cache, rfl⟩
          · exact ih { s with segmentCache := cache } _ _

theorem fetchForReplica_cache (s : PartitionLogShard) (offset maxBytes : Int) :
    ∃ cache, (s.fetchForReplica offset maxBytes).1 = { s with segmentCache := cache } := by
  unfold fetchForReplica
  split
  · exact ⟨s.segmentCache, rfl⟩
  · exact readLoop_cache _ _ _ _ _ _ _

end PartitionLogShard

end Mkmq
