import Mkmq.LogFrame
import Mkmq.LogHead
import Mkmq.OrderedStore

/-!
# The write path of a partition log

`PartitionLogShard` as `src/partition_log_shard.cpp` has it: the head of `LogHead` and
under it the segment files, the index file and the in-memory index.  Each function here
is the code between two asynchronous boundaries, so the same pieces serve a log that
runs one call at a time (the end of this module) and one whose calls interleave.

A segment file is named by its base offset; the name of the source is that number
after the topic and the partition, padded so that names sort as numbers do.
-/

namespace Mkmq

open ByteCodec

/-! ### Files -/

/-- The files of one partition: segments by base offset, in listing order, and the
    index file. -/
structure DataDir where
  segments : List (Int × Bytes) := []
  index : Option Bytes := none
deriving DecidableEq, Repr

/-- What reading the segment file `base` sees; a missing file reads as empty. -/
def DataDir.contents (dir : DataDir) (base : Int) : Bytes :=
  (OrderedStore.find base dir.segments).getD []

/-- `open_flags::create`: an existing file is opened as it is. -/
def DataDir.createSegment (dir : DataDir) (base : Int) : DataDir :=
  match OrderedStore.find base dir.segments with
  | some _ => dir
  | none => { dir with segments := OrderedStore.put base [] dir.segments }

def DataDir.writeSegment (dir : DataDir) (base : Int) (position : Nat) (bytes : Bytes) : DataDir :=
  { dir with
    segments := OrderedStore.put base (splice (dir.contents base) position bytes) dir.segments }

def DataDir.writeIndex (dir : DataDir) (position : Nat) (bytes : Bytes) : DataDir :=
  { dir with index := some (splice (dir.index.getD []) position bytes) }

theorem DataDir.segments_createSegment (dir : DataDir) (base : Int) :
    (dir.createSegment base).segments =
      match OrderedStore.find base dir.segments with
      | some _ => dir.segments
      | none => OrderedStore.put base [] dir.segments := by
  unfold DataDir.createSegment
  split <;> rfl

/-- The contents of a file that is listed. -/
theorem DataDir.contents_of_mem {dir : DataDir} (hascending : OrderedStore.Ascending dir.segments)
    {file : Int × Bytes} (hfile : file ∈ dir.segments) : dir.contents file.1 = file.2 := by
  unfold DataDir.contents
  rw [hascending.find_of_mem hfile]
  rfl

@[simp] theorem DataDir.contents_createSegment (dir : DataDir) (base other : Int) :
    (dir.createSegment base).contents other = dir.contents other := by
  unfold DataDir.createSegment
  split
  · rfl
  next hnone =>
    unfold DataDir.contents
    simp only [OrderedStore.find_put]
    split
    · next heq => rw [heq, hnone]; rfl
    · rfl

theorem DataDir.contents_writeSegment (dir : DataDir) (base other : Int) (position : Nat)
    (bytes : Bytes) :
    (dir.writeSegment base position bytes).contents other =
      if other = base then splice (dir.contents base) position bytes else dir.contents other := by
  unfold DataDir.contents DataDir.writeSegment
  simp only [OrderedStore.find_put]
  split <;> rfl

/-! ### The shard -/

structure SegmentInfo where
  baseOffset : Int := 0
  lastOffset : Int := -1
  writePosition : Nat := 0
deriving DecidableEq, Repr

def kSegmentCacheMax : Nat := 32

/-- `file` names the segment file the open handle `file_` is on, and a cache entry pairs
    its key with the file its handle is on.  `pendingFlush` numbers the shared future. -/
structure PartitionLogShard extends LogHead where
  segmentBytes : Nat
  logFrameAlignment : Nat
  /-- `update_dma_alignment` never stores less than one. -/
  logFrameAlignment_pos : 0 < logFrameAlignment
  root : DataDir := {}
  segments : List SegmentInfo := []
  activeSegmentBaseOffset : Int := 0
  writePosition : Nat := 0
  file : Option Int := none
  indexFile : Bool := false
  segmentCache : List (Int × Int) := []
  indexPosition : Nat := 0
  indexEntries : List IndexEntry := []
  flushScheduled : Bool := false
  pendingFlush : Nat := 0
deriving DecidableEq, Repr

namespace PartitionLogShard

/-- The shard that `start` leaves in an empty directory: the first segment and the index
    are created and open. -/
def fresh (config : PartitionConfig) (segmentBytes alignment : Nat) (h : 0 < alignment) :
    PartitionLogShard where
  config := config
  segmentBytes := segmentBytes
  logFrameAlignment := alignment
  logFrameAlignment_pos := h
  root := { segments := [(0, [])], index := some [] }
  file := some 0
  indexFile := true

/-- What an append waits for before it may reserve its position. -/
inductive SegmentWait where
  | ready
  | opening (base : Int)
  | barrier (flush : Option Nat)
deriving DecidableEq, Repr

/-- Where a frame goes.  The source reads the three from different fields, so nothing
    says here that `file` is the file `segmentBase` names. -/
structure Placement where
  file : Int
  segmentBase : Int
  position : Nat
deriving DecidableEq, Repr

/-! ### Between the asynchronous boundaries -/

def ensureSegmentForWrite (s : PartitionLogShard) (baseOffset : Int) (frameSize : Nat) :
    PartitionLogShard × SegmentWait :=
  match s.file with
  | none =>
    ({ s with activeSegmentBaseOffset := baseOffset, writePosition := 0 }, .opening baseOffset)
  | some _ =>
    if s.writePosition = 0 ∨ s.writePosition + frameSize ≤ s.segmentBytes then (s, .ready)
    else (s, .barrier (if s.flushScheduled then some s.pendingFlush else none))

/-- The continuation of the flush barrier: seal the active file and open the next. -/
def afterFlushBarrier (s : PartitionLogShard) (baseOffset : Int) :
    PartitionLogShard × SegmentWait :=
  match s.file with
  | none => (s, .ready)
  | some oldFile =>
    if s.writePosition = 0 then (s, .ready)
    else
      ({ s with
          file := none
          segmentCache :=
            (s.activeSegmentBaseOffset, oldFile) :: s.segmentCache.take (kSegmentCacheMax - 1)
          activeSegmentBaseOffset := baseOffset
          writePosition := 0 }, .opening baseOffset)

/-- `open_file_dma` of the segment `base` has completed. -/
def openActiveSegment (s : PartitionLogShard) (base : Int) : PartitionLogShard :=
  { s with root := s.root.createSegment base, file := some base }

/-- The first lines of the continuation in `write_record_set`: the position is taken even
    when there is no file to write to. -/
def reserve (s : PartitionLogShard) (frameSize : Nat) : PartitionLogShard × Option Placement :=
  ({ s with writePosition := s.writePosition + frameSize },
    s.file.map fun file => ⟨file, s.activeSegmentBaseOffset, s.writePosition⟩)

def dmaWrite (s : PartitionLogShard) (placement : Placement) (frame : Bytes) : PartitionLogShard :=
  { s with root := s.root.writeSegment placement.file placement.position frame }

/-- The end of the frame is exact here and a 64-bit sum in the source; the two differ only for
    an entry whose position is within a frame of `2 ^ 64`, which no append writes. -/
def noteSegment (alignment : Nat) (segments : List SegmentInfo) (entry : IndexEntry) :
    List SegmentInfo :=
  let nextPosition := entry.segmentPosition + frameSize alignment entry.recordBytes.toNat
  match segments.getLast? with
  | none => [⟨entry.segmentBase, entry.lastOffset, nextPosition⟩]
  | some last =>
    if last.baseOffset ≠ entry.segmentBase then
      segments ++ [⟨entry.segmentBase, entry.lastOffset, nextPosition⟩]
    else
      segments.dropLast ++
        [{ last with
            lastOffset := max last.lastOffset entry.lastOffset
            writePosition := max last.writePosition nextPosition }]

def noteIndexEntry (s : PartitionLogShard) (entry : IndexEntry) : PartitionLogShard :=
  { s with
    indexEntries := s.indexEntries ++ [entry]
    segments := noteSegment s.logFrameAlignment s.segments entry }

/-- The entry is installed at once; the position of its index write is returned when one
    is started. -/
def scheduleIndexEntryWrite (s : PartitionLogShard) (entry : IndexEntry) :
    PartitionLogShard × Option Nat :=
  if s.indexFile then
    (noteIndexEntry
      { s with indexPosition := s.indexPosition + indexEntrySize s.logFrameAlignment } entry,
      some s.indexPosition)
  else (s, none)

def writeIndexEntryAt (s : PartitionLogShard) (entry : IndexEntry) (position : Nat) :
    PartitionLogShard :=
  { s with root := s.root.writeIndex position (encodeIndexEntry s.logFrameAlignment entry) }

end PartitionLogShard

/-- The size of the frame a record set is written as. -/
def RecordSet.frameSize (alignment : Nat) (recordSet : RecordSet) : Nat :=
  Mkmq.frameSize alignment recordSet.bytes.length

/-- The frame of a record set. -/
def RecordSet.frame (alignment : Nat) (recordSet : RecordSet) : Bytes :=
  encodeFrame alignment recordSet.baseOffset recordSet.bytes

/-- The index entry of a record set written at `position` of the segment `segmentBase`. -/
def RecordSet.entryAt (recordSet : RecordSet) (segmentBase : Int) (position : Nat) : IndexEntry :=
  { baseOffset := recordSet.baseOffset
    lastOffset := recordSet.lastOffset
    segmentBase := segmentBase
    segmentPosition := position
    recordBytes := signed 32 recordSet.bytes.length }

theorem RecordSet.entryAt_recordBytes (recordSet : RecordSet) (segmentBase : Int) (position : Nat) :
    (recordSet.entryAt segmentBase position).recordBytes = signed 32 recordSet.bytes.length := by
  simp only [RecordSet.entryAt]

@[simp] theorem RecordSet.length_frame {alignment : Nat} (h : 0 < alignment)
    (recordSet : RecordSet) : (recordSet.frame alignment).length = recordSet.frameSize alignment :=
  length_encodeFrame h _ _

theorem RecordSet.frameSize_pos {alignment : Nat} (h : 0 < alignment) (recordSet : RecordSet) :
    0 < recordSet.frameSize alignment :=
  lt_of_lt_of_le h (alignment_le_frameSize h _)

namespace PartitionLogShard

/-! ### One call at a time

With no other append running, every wait is over before anything else happens, and a
flush, which changes no contents, is armed, started and finished in one go. -/

/-- `ensure_segment_for_write` with its waits over. -/
def placeSegment (s : PartitionLogShard) (baseOffset : Int) (frameSize : Nat) :
    PartitionLogShard :=
  match s.ensureSegmentForWrite baseOffset frameSize with
  | (s, .ready) => s
  | (s, .opening base) => s.openActiveSegment base
  | (s, .barrier _) =>
    match s.afterFlushBarrier baseOffset with
    | (s, .opening base) => s.openActiveSegment base
    | (s, _) => s

/-- The frame has reached its file; note the entry and write it to the index. -/
def commitFrame (s : PartitionLogShard) (recordSet : RecordSet) (placement : Placement) :
    PartitionLogShard :=
  let entry := recordSet.entryAt placement.segmentBase placement.position
  match (s.dmaWrite placement
      (recordSet.frame s.logFrameAlignment)).scheduleIndexEntryWrite entry with
  | (s, some position) => s.writeIndexEntryAt entry position
  | (s, none) => s

def writeRecordSet (s : PartitionLogShard) (recordSet : RecordSet) :
    PartitionLogShard × Except String Unit :=
  let frameSize := recordSet.frameSize s.logFrameAlignment
  match (s.placeSegment recordSet.baseOffset frameSize).reserve frameSize with
  | (s, none) => (s, .error "partition segment file is not open")
  | (s, some placement) => (s.commitFrame recordSet placement, .ok ())

def maybeFlush (s : PartitionLogShard) : Except String Unit :=
  if s.config.durability ≠ .fsync then .ok ()
  else if s.file = none then .error "partition segment file is not open"
  else .ok ()

/-- The second half of `append` and `append_replica`. -/
def complete (s : PartitionLogShard) (admission : Admission) :
    PartitionLogShard × Except String ProducePartitionResult :=
  match admission.recordSet with
  | none => ({ s with toLogHead := admission.head }, .ok admission.response)
  | some recordSet =>
    let (s, wrote) := { s with toLogHead := admission.head }.writeRecordSet recordSet
    ({ s with toLogHead := s.toLogHead.settle },
      match wrote with
      | .error e => .error e
      | .ok () => s.maybeFlush.map fun _ => admission.response)

def append (s : PartitionLogShard) (records : Bytes) (acks : Int) :
    PartitionLogShard × Except String ProducePartitionResult :=
  s.complete (s.toLogHead.append records acks)

def appendReplica (s : PartitionLogShard) (request : ReplicaAppendRequest) :
    PartitionLogShard × Except String ProducePartitionResult :=
  s.complete (s.toLogHead.appendReplica request)

end PartitionLogShard

end Mkmq
