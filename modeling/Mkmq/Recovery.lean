import Mkmq.LogReading

/-!
# Recovery

`start` of `src/partition_log_shard.cpp` rebuilds the in-memory index from the files of
the partition.  The index file is tried first and believed if the segments it describes
are exactly the segment files with exactly their sizes; otherwise the segment files are
scanned frame by frame and the index file is written anew.  A scan ends at the first
frame it does not recognise, and the next file is scanned from its beginning all the
same.

`leadingEntries` and `scanSegment` say what the two loops find, as functions of the
bytes alone.
-/

namespace Mkmq

open ByteCodec

/-- A frame as the scan of a segment file reads it. -/
structure ScannedFrame where
  baseOffset : Int
  recordBytes : Int
  records : Bytes
deriving DecidableEq, Repr

/-- The body of the loop in `recover_segment_file` up to the copied records; `none` where
    it breaks. -/
def readFrame (alignment : Nat) (segment : Bytes) (position : Nat) : Option ScannedFrame :=
  if position + alignment ≤ segment.length then
    let header := slice segment position alignment
    let baseOffset := getI64 header 8
    let recordBytes := getI32 header 16
    if slice header 0 8 ≠ kLogMagic then none
    else if recordBytes ≤ 0 then none
    else if position + frameSize alignment recordBytes.toNat > segment.length then none
    else if frameSize alignment recordBytes.toNat = alignment then
      some ⟨baseOffset, recordBytes, slice header 20 recordBytes.toNat⟩
    else
      let frame := slice segment position (frameSize alignment recordBytes.toNat)
      if slice frame 0 8 ≠ kLogMagic ∨ getI64 frame 8 ≠ baseOffset ∨
          getI32 frame 16 ≠ recordBytes then none
      else some ⟨baseOffset, recordBytes, slice frame 20 recordBytes.toNat⟩
  else none

/-- The index entry of a frame found at `position` of the segment `segmentBase`. -/
def ScannedFrame.entryAt (frame : ScannedFrame) (segmentBase : Int) (position : Nat) :
    IndexEntry :=
  { baseOffset := frame.baseOffset
    lastOffset := frame.baseOffset + estimateRecordCount frame.records - 1
    segmentBase := segmentBase
    segmentPosition := position
    recordBytes := frame.recordBytes }

namespace PartitionLogShard

/-! ### The index file -/

/-- One entry read by `recover_from_index`. -/
def recoverIndexEntry (s : PartitionLogShard) (entry : IndexEntry) : PartitionLogShard :=
  let latest := max s.offsets.latest (entry.lastOffset + 1)
  { s.noteIndexEntry entry with
    offsets := { s.offsets with latest := latest, highWatermark := latest }
    indexPosition := s.indexPosition + indexEntrySize s.logFrameAlignment }

/-- The loop of `recover_from_index`; every turn moves on by an entry, so the length of
    the file is fuel enough. -/
def recoverIndexLoop (index : Bytes) :
    Nat → Nat → PartitionLogShard → Bool → PartitionLogShard × Bool
  | 0, _, s, recovered => (s, recovered)
  | fuel + 1, position, s, recovered =>
    if position + indexEntrySize s.logFrameAlignment ≤ index.length then
      match decodeIndexEntry (slice index position (indexEntrySize s.logFrameAlignment)) with
      | none => (s, recovered)
      | some entry =>
        recoverIndexLoop index fuel (position + indexEntrySize s.logFrameAlignment)
          (s.recoverIndexEntry entry) true
    else (s, recovered)

/-- The active segment is the last one noted. -/
def resumeLastSegment (s : PartitionLogShard) : PartitionLogShard :=
  match s.segments.getLast? with
  | some active =>
    { s with
      activeSegmentBaseOffset := active.baseOffset
      writePosition := active.writePosition }
  | none => s

def recoverFromIndex (s : PartitionLogShard) : PartitionLogShard × Bool :=
  match s.root.index with
  | none => (s, false)
  | some index =>
    match recoverIndexLoop index index.length 0 s false with
    | (s, true) => (s.resumeLastSegment, true)
    | (s, false) => (s, false)

/-- The segments noted from the index are the segment files, with their sizes. -/
def recoveredIndexCoversSegments (s : PartitionLogShard) : Bool :=
  s.segments.isEmpty ||
    decide (s.root.segments.map (fun file => (file.1, file.2.length)) =
      s.segments.map (fun segment => (segment.baseOffset, segment.writePosition)))

/-! ### The segment files -/

/-- One frame found by `recover_segment_file`.  `rebuilt_index_position` and
    `index_position_` advance together from zero. -/
def recoverFrame (s : PartitionLogShard) (segmentBase : Int) (position : Nat)
    (frame : ScannedFrame) : PartitionLogShard :=
  let entry := frame.entryAt segmentBase position
  let latest := frame.baseOffset + estimateRecordCount frame.records
  { s.noteIndexEntry entry with
    root := s.root.writeIndex s.indexPosition (encodeIndexEntry s.logFrameAlignment entry)
    indexPosition := s.indexPosition + indexEntrySize s.logFrameAlignment
    offsets := { s.offsets with latest := latest, highWatermark := latest } }

/-- The loop of `recover_segment_file`; a frame takes at least one byte of the file. -/
def recoverSegmentLoop (segmentBase : Int) (segment : Bytes) :
    Nat → Nat → PartitionLogShard → PartitionLogShard
  | 0, _, s => s
  | fuel + 1, position, s =>
    match readFrame s.logFrameAlignment segment position with
    | none => s
    | some frame =>
      recoverSegmentLoop segmentBase segment fuel
        (position + frameSize s.logFrameAlignment frame.recordBytes.toNat)
        (s.recoverFrame segmentBase position frame)

def recoverSegmentFile (s : PartitionLogShard) (segmentBase : Int) (segment : Bytes) :
    PartitionLogShard :=
  recoverSegmentLoop segmentBase segment segment.length 0 s

/-- The index file is opened with `open_flags::truncate`. -/
def truncateIndex (s : PartitionLogShard) : PartitionLogShard :=
  { s with root := { s.root with index := some [] } }

def recoverFromSegments (s : PartitionLogShard) : PartitionLogShard :=
  let files := s.root.segments
  let s := files.foldl (fun s file => s.recoverSegmentFile file.1 file.2) s.truncateIndex
  if files.isEmpty then { s with activeSegmentBaseOffset := s.offsets.latest, writePosition := 0 }
  else s.resumeLastSegment

/-! ### Starting -/

/-- What `recover` clears before it reads anything. -/
def cleared (s : PartitionLogShard) : PartitionLogShard :=
  { s with
    segments := []
    indexEntries := []
    offsets := {}
    activeSegmentBaseOffset := 0
    writePosition := 0
    indexPosition := 0 }

def recover (s : PartitionLogShard) : PartitionLogShard :=
  match s.cleared.recoverFromIndex with
  | (found, true) =>
    if found.recoveredIndexCoversSegments then found else found.cleared.recoverFromSegments
  | (found, false) => found.recoverFromSegments

def openIndex (s : PartitionLogShard) : PartitionLogShard :=
  { s with
    root := { s.root with index := some (s.root.index.getD []) }
    indexFile := true }

/-- A new shard started on the files `root`. -/
def start (config : PartitionConfig) (root : DataDir) (segmentBytes alignment : Nat)
    (h : 0 < alignment) : PartitionLogShard :=
  let s : PartitionLogShard :=
    { config := config
      segmentBytes := segmentBytes
      logFrameAlignment := alignment
      logFrameAlignment_pos := h
      root := root }
  let s := s.recover
  (s.openActiveSegment s.activeSegmentBaseOffset).openIndex

theorem start_empty (config : PartitionConfig) (segmentBytes alignment : Nat) (h : 0 < alignment) :
    start config {} segmentBytes alignment h = fresh config segmentBytes alignment h := rfl

/-- A clean stop, which waits for the index writes, and a start on the same files. -/
def restart (s : PartitionLogShard) : PartitionLogShard :=
  start s.config s.root s.segmentBytes s.logFrameAlignment s.logFrameAlignment_pos

end PartitionLogShard

/-! ### What the loops find -/

/-- The entries `recover_from_index` reads from `position` on. -/
def leadingEntries (alignment : Nat) (index : Bytes) : Nat → Nat → List IndexEntry
  | 0, _ => []
  | fuel + 1, position =>
    if position + indexEntrySize alignment ≤ index.length then
      match decodeIndexEntry (slice index position (indexEntrySize alignment)) with
      | none => []
      | some entry =>
        entry :: leadingEntries alignment index fuel (position + indexEntrySize alignment)
    else []

/-- The entries of the frames `recover_segment_file` recognises from `position` on. -/
def scanSegment (alignment : Nat) (segmentBase : Int) (segment : Bytes) :
    Nat → Nat → List IndexEntry
  | 0, _ => []
  | fuel + 1, position =>
    match readFrame alignment segment position with
    | none => []
    | some frame =>
      frame.entryAt segmentBase position ::
        scanSegment alignment segmentBase segment fuel
          (position + frameSize alignment frame.recordBytes.toNat)

/-- The entries of the frames in a list of segment files. -/
def scanFiles (alignment : Nat) (files : List (Int × Bytes)) : List IndexEntry :=
  files.flatMap fun file => scanSegment alignment file.1 file.2 file.2.length 0

/-- The entries of the index file that can be read. -/
def indexFound (alignment : Nat) (dir : DataDir) : List IndexEntry :=
  match dir.index with
  | none => []
  | some index => leadingEntries alignment index index.length 0

/-- The segments noted for a list of entries. -/
def notedSegments (alignment : Nat) (entries : List IndexEntry) : List SegmentInfo :=
  entries.foldl (PartitionLogShard.noteSegment alignment) []

/-- The index file describes the segment files. -/
def IndexCovers (alignment : Nat) (dir : DataDir) : Prop :=
  indexFound alignment dir ≠ [] ∧
    dir.segments.map (fun file => (file.1, file.2.length)) =
      (notedSegments alignment (indexFound alignment dir)).map
        (fun segment => (segment.baseOffset, segment.writePosition))

instance (alignment : Nat) (dir : DataDir) : Decidable (IndexCovers alignment dir) := by
  unfold IndexCovers
  infer_instance

namespace PartitionLogShard

theorem recoverIndexLoop_eq (index : Bytes) (fuel position : Nat) (s : PartitionLogShard)
    (recovered : Bool) :
    recoverIndexLoop index fuel position s recovered =
      ((leadingEntries s.logFrameAlignment index fuel position).foldl recoverIndexEntry s,
        recovered || !(leadingEntries s.logFrameAlignment index fuel position).isEmpty) := by
  induction fuel generalizing position s recovered with
  | zero => simp [recoverIndexLoop, leadingEntries]
  | succ fuel ih =>
    unfold recoverIndexLoop leadingEntries
    split
    · split
      · simp
      · next entry hentry =>
          rw [ih]
          simp [recoverIndexEntry, noteIndexEntry]
    · simp

/-- One recognised frame, in terms of its entry. -/
def recoverEntry (s : PartitionLogShard) (entry : IndexEntry) : PartitionLogShard :=
  { s.noteIndexEntry entry with
    root := s.root.writeIndex s.indexPosition (encodeIndexEntry s.logFrameAlignment entry)
    indexPosition := s.indexPosition + indexEntrySize s.logFrameAlignment
    offsets :=
      { s.offsets with latest := entry.lastOffset + 1, highWatermark := entry.lastOffset + 1 } }

theorem recoverFrame_eq (s : PartitionLogShard) (segmentBase : Int) (position : Nat)
    (frame : ScannedFrame) :
    s.recoverFrame segmentBase position frame =
      s.recoverEntry (frame.entryAt segmentBase position) := by
  have hlatest : (frame.entryAt segmentBase position).lastOffset + 1 =
      frame.baseOffset + estimateRecordCount frame.records := Int.sub_add_cancel _ _
  unfold recoverFrame recoverEntry
  rw [hlatest]

theorem recoverSegmentLoop_eq (segmentBase : Int) (segment : Bytes) (fuel position : Nat)
    (s : PartitionLogShard) :
    recoverSegmentLoop segmentBase segment fuel position s =
      (scanSegment s.logFrameAlignment segmentBase segment fuel position).foldl recoverEntry s := by
  induction fuel generalizing position s with
  | zero => rfl
  | succ fuel ih =>
    unfold recoverSegmentLoop scanSegment
    split
    · rfl
    · next frame hframe =>
        rw [recoverFrame_eq, ih, List.foldl_cons]
        rfl

section Folds

variable (f : PartitionLogShard → IndexEntry → PartitionLogShard)

/-- What no turn of a loop changes, the loop does not change. -/
theorem foldl_keeps {α : Type} (g : PartitionLogShard → α) (hf : ∀ s entry, g (f s entry) = g s)
    (s : PartitionLogShard) (entries : List IndexEntry) : g (entries.foldl f s) = g s := by
  induction entries generalizing s with
  | nil => rfl
  | cons entry rest ih => rw [List.foldl_cons, ih, hf]

theorem foldl_indexEntries (hf : ∀ s entry, (f s entry).indexEntries = s.indexEntries ++ [entry])
    (s : PartitionLogShard) (entries : List IndexEntry) :
    (entries.foldl f s).indexEntries = s.indexEntries ++ entries := by
  induction entries generalizing s with
  | nil => simp
  | cons entry rest ih => rw [List.foldl_cons, ih, hf, List.append_assoc, List.singleton_append]

theorem foldl_segments
    (hf : ∀ s entry, (f s entry).segments = noteSegment s.logFrameAlignment s.segments entry)
    (halign : ∀ s entry, (f s entry).logFrameAlignment = s.logFrameAlignment)
    (s : PartitionLogShard) (entries : List IndexEntry) :
    (entries.foldl f s).segments = entries.foldl (noteSegment s.logFrameAlignment) s.segments := by
  induction entries generalizing s with
  | nil => rfl
  | cons entry rest ih => rw [List.foldl_cons, ih, hf, halign, List.foldl_cons]

end Folds

theorem noteSegment_ne_nil (alignment : Nat) (segments : List SegmentInfo) (entry : IndexEntry) :
    noteSegment alignment segments entry ≠ [] := by
  unfold noteSegment
  split
  · exact List.cons_ne_nil _ _
  · split <;> simp

theorem notedSegments_ne_nil (alignment : Nat) {entries : List IndexEntry} (h : entries ≠ []) :
    notedSegments alignment entries ≠ [] := by
  obtain ⟨front, last, rfl⟩ := List.eq_nil_or_concat entries |>.resolve_left h
  unfold notedSegments
  rw [List.concat_eq_append, List.foldl_append]
  exact noteSegment_ne_nil _ _ _

theorem recoverFiles_eq (files : List (Int × Bytes)) (s : PartitionLogShard) :
    files.foldl (fun s file => s.recoverSegmentFile file.1 file.2) s =
      (scanFiles s.logFrameAlignment files).foldl recoverEntry s := by
  induction files generalizing s with
  | nil => rfl
  | cons file rest ih =>
    have halign : (s.recoverSegmentFile file.1 file.2).logFrameAlignment =
        s.logFrameAlignment := by
      unfold recoverSegmentFile
      rw [recoverSegmentLoop_eq]
      exact foldl_keeps recoverEntry logFrameAlignment (fun _ _ => rfl) _ _
    rw [List.foldl_cons, ih, halign]
    unfold scanFiles recoverSegmentFile
    rw [List.flatMap_cons, List.foldl_append, recoverSegmentLoop_eq]

/-! ### What a start restores -/

/-- The shard a start leaves: the index holds `entries`, everything up to `latest` counts
    as replicated, the files read as before, and both files are open. -/
structure Restored (s : PartitionLogShard) (config : PartitionConfig) (root : DataDir)
    (segmentBytes alignment : Nat) (entries : List IndexEntry) (latest : Int) : Prop where
  config : s.config = config
  segmentBytes : s.segmentBytes = segmentBytes
  alignment : s.logFrameAlignment = alignment
  entries : s.indexEntries = entries
  offsets : s.offsets = ⟨0, latest, latest⟩
  queueDepth : s.queueDepth = 0
  contents : ∀ base, s.root.contents base = root.contents base
  file : s.file = some s.activeSegmentBaseOffset
  indexFile : s.indexFile = true
  segmentCache : s.segmentCache = []

theorem resumeLastSegment_segments (s : PartitionLogShard) :
    s.resumeLastSegment.segments = s.segments := by
  unfold resumeLastSegment
  split <;> rfl

theorem cleared_resumeLastSegment (s : PartitionLogShard) :
    s.resumeLastSegment.cleared = s.cleared := by
  unfold resumeLastSegment
  split <;> rfl

/-- What recovery does not touch. -/
def kept (s : PartitionLogShard) :
    PartitionConfig × Nat × Nat × Nat × List (Int × Bytes) × List (Int × Int) :=
  (s.config, s.segmentBytes, s.logFrameAlignment, s.queueDepth, s.root.segments, s.segmentCache)

/-- The shard before its files are opened. -/
structure Scanned (s : PartitionLogShard) (config : PartitionConfig) (root : DataDir)
    (segmentBytes alignment : Nat) (entries : List IndexEntry) (latest : Int) : Prop where
  kept : s.kept = (config, segmentBytes, alignment, 0, root.segments, [])
  entries : s.indexEntries = entries
  offsets : s.offsets = ⟨0, latest, latest⟩

section

variable {s : PartitionLogShard} {config : PartitionConfig} {root : DataDir}
  {segmentBytes alignment : Nat} {entries : List IndexEntry} {latest : Int}
  (h : s.Scanned config root segmentBytes alignment entries latest)

include h

theorem Scanned.alignment_eq :
    s.logFrameAlignment = alignment := congrArg (fun kept => kept.2.2.1) h.kept

theorem Scanned.files :
    s.root.segments = root.segments := congrArg (fun kept => kept.2.2.2.2.1) h.kept

theorem Scanned.resumeLastSegment :
    s.resumeLastSegment.Scanned config root segmentBytes alignment entries latest := by
  unfold PartitionLogShard.resumeLastSegment
  split
  · exact ⟨h.kept, h.entries, h.offsets⟩
  · exact h

theorem Scanned.opened :
    (s.openActiveSegment s.activeSegmentBaseOffset).openIndex.Restored config root segmentBytes
      alignment entries latest where
  config := congrArg (fun kept => kept.1) h.kept
  segmentBytes := congrArg (fun kept => kept.2.1) h.kept
  alignment := h.alignment_eq
  entries := h.entries
  offsets := h.offsets
  queueDepth := congrArg (fun kept => kept.2.2.2.1) h.kept
  contents := by
    intro base
    have hcreated := DataDir.contents_createSegment s.root s.activeSegmentBaseOffset base
    have hfiles : s.root.contents base = root.contents base := by
      unfold DataDir.contents
      rw [h.files]
    exact hcreated.trans hfiles
  file := rfl
  indexFile := rfl
  segmentCache := congrArg (fun kept => kept.2.2.2.2.2) h.kept

end

/-- The log end after the entries of an index file. -/
def indexEnd (entries : List IndexEntry) : Int :=
  entries.foldl (fun latest entry => max latest (entry.lastOffset + 1)) 0

/-- The log end after the frames of the segment files. -/
def scanEnd (entries : List IndexEntry) : Int :=
  (entries.getLast?.map fun entry => entry.lastOffset + 1).getD 0

theorem foldl_recoverIndexEntry_offsets (entries : List IndexEntry) (s : PartitionLogShard)
    {latest : Int} (h : s.offsets = ⟨0, latest, latest⟩) :
    (entries.foldl recoverIndexEntry s).offsets =
      ⟨0, entries.foldl (fun latest entry => max latest (entry.lastOffset + 1)) latest,
        entries.foldl (fun latest entry => max latest (entry.lastOffset + 1)) latest⟩ := by
  induction entries generalizing s latest with
  | nil => exact h
  | cons entry rest ih =>
    rw [List.foldl_cons, List.foldl_cons]
    refine ih _ ?_
    simp only [recoverIndexEntry, h]

theorem foldl_recoverEntry_offsets (entries : List IndexEntry) (s : PartitionLogShard)
    {latest : Int} (h : s.offsets = ⟨0, latest, latest⟩) :
    (entries.foldl recoverEntry s).offsets =
      ⟨0, (entries.getLast?.map fun entry => entry.lastOffset + 1).getD latest,
        (entries.getLast?.map fun entry => entry.lastOffset + 1).getD latest⟩ := by
  rcases List.eq_nil_or_concat entries with rfl | ⟨front, last, rfl⟩
  · exact h
  · have hearliest : (front.foldl recoverEntry s).offsets.earliest = 0 := by
      rw [foldl_keeps recoverEntry (fun s => s.offsets.earliest) (fun _ _ => rfl), h]
    rw [List.concat_eq_append, List.foldl_append, List.foldl_cons, List.foldl_nil,
      List.getLast?_concat]
    simp only [recoverEntry, hearliest, Option.map_some, Option.getD_some]

section Starting

variable (config : PartitionConfig) (root : DataDir) (segmentBytes alignment : Nat)
  (h : 0 < alignment)

/-- The shard `start` recovers into. -/
def blank : PartitionLogShard where
  config := config
  segmentBytes := segmentBytes
  logFrameAlignment := alignment
  logFrameAlignment_pos := h
  root := root

theorem recoverFromIndex_blank :
    (blank config root segmentBytes alignment h).recoverFromIndex =
      if indexFound alignment root = [] then
        (blank config root segmentBytes alignment h, false)
      else
        (((indexFound alignment root).foldl recoverIndexEntry
          (blank config root segmentBytes alignment h)).resumeLastSegment, true) := by
  unfold recoverFromIndex indexFound
  cases hindex : root.index with
  | none => simp [blank, hindex]
  | some index =>
    simp only [blank, hindex, recoverIndexLoop_eq, Bool.false_or]
    by_cases hfound : leadingEntries alignment index index.length 0 = []
    · simp [hfound]
    · have hsome : (leadingEntries alignment index index.length 0).isEmpty = false := by
        simpa using hfound
      simp [hsome, hfound]

/-- Recovery by the index file. -/
theorem scanned_foldl_recoverIndexEntry (entries : List IndexEntry) :
    (entries.foldl recoverIndexEntry (blank config root segmentBytes alignment h)).Scanned
      config root segmentBytes alignment entries (indexEnd entries) where
  kept := foldl_keeps recoverIndexEntry PartitionLogShard.kept (fun _ _ => rfl) _ _
  entries := by
    rw [foldl_indexEntries recoverIndexEntry (fun _ _ => rfl)]
    rfl
  offsets := foldl_recoverIndexEntry_offsets entries _ rfl

/-- Recovery by the segment files. -/
theorem scanned_foldl_recoverEntry (entries : List IndexEntry) :
    (entries.foldl recoverEntry (blank config root segmentBytes alignment h).truncateIndex).Scanned
      config root segmentBytes alignment entries (scanEnd entries) where
  kept := foldl_keeps recoverEntry PartitionLogShard.kept (fun _ _ => rfl) _ _
  entries := by
    rw [foldl_indexEntries recoverEntry (fun _ _ => rfl)]
    rfl
  offsets := foldl_recoverEntry_offsets entries _ rfl

/-- Without segment files nothing is found, and writing starts at offset 0 either way. -/
theorem recoverFromSegments_blank :
    (blank config root segmentBytes alignment h).recoverFromSegments =
      ((scanFiles alignment root.segments).foldl recoverEntry
        (blank config root segmentBytes alignment h).truncateIndex).resumeLastSegment := by
  have hfiles : (blank config root segmentBytes alignment h).root.segments = root.segments := rfl
  have halign : (blank config root segmentBytes alignment h).truncateIndex.logFrameAlignment =
      alignment := rfl
  unfold recoverFromSegments
  simp only [hfiles, recoverFiles_eq, halign]
  split
  · next hempty =>
      have hnone : scanFiles alignment root.segments = [] := by
        rw [List.isEmpty_iff.mp hempty]
        rfl
      simp only [hnone, List.foldl_nil]
      rfl
  · rfl

/-- **What a start recovers.**  The index file is believed when it covers the segment
    files, and forgotten otherwise. -/
theorem recover_blank :
    (blank config root segmentBytes alignment h).recover =
      if IndexCovers alignment root then
        ((indexFound alignment root).foldl recoverIndexEntry
          (blank config root segmentBytes alignment h)).resumeLastSegment
      else (blank config root segmentBytes alignment h).recoverFromSegments := by
  have hcleared : (blank config root segmentBytes alignment h).cleared =
      blank config root segmentBytes alignment h := rfl
  unfold recover
  rw [hcleared, recoverFromIndex_blank]
  by_cases hfound : indexFound alignment root = []
  · have hcovers : ¬ IndexCovers alignment root := fun hc => hc.1 hfound
    rw [if_pos hfound, if_neg hcovers]
  · rw [if_neg hfound]
    have hindex := (scanned_foldl_recoverIndexEntry config root segmentBytes alignment h
      (indexFound alignment root)).resumeLastSegment
    set found := ((indexFound alignment root).foldl recoverIndexEntry
      (blank config root segmentBytes alignment h)).resumeLastSegment with hdef
    have hsegments : found.segments = notedSegments alignment (indexFound alignment root) := by
      rw [hdef, resumeLastSegment_segments]
      exact foldl_segments recoverIndexEntry (fun _ _ => rfl) (fun _ _ => rfl) _ _
    have hforgotten : found.cleared = blank config root segmentBytes alignment h := by
      rw [hdef, cleared_resumeLastSegment, foldl_keeps recoverIndexEntry cleared (fun _ _ => rfl)]
      exact hcleared
    have hne := notedSegments_ne_nil alignment hfound
    have hcovers : found.recoveredIndexCoversSegments = true ↔ IndexCovers alignment root := by
      unfold recoveredIndexCoversSegments IndexCovers
      rw [hsegments, hindex.files]
      simp [hne, hfound]
    simp only
    by_cases hc : IndexCovers alignment root
    · rw [if_pos (hcovers.mpr hc), if_pos hc]
    · rw [if_neg (fun ht => hc (hcovers.mp ht)), if_neg hc, hforgotten]

/-- The log end a start finds. -/
def recoveredEnd (alignment : Nat) (root : DataDir) : Int :=
  if IndexCovers alignment root then indexEnd (indexFound alignment root)
  else scanEnd (scanFiles alignment root.segments)

/-- The entries a start finds. -/
def recoveredEntries (alignment : Nat) (root : DataDir) : List IndexEntry :=
  if IndexCovers alignment root then indexFound alignment root
  else scanFiles alignment root.segments

/-- **A start** reads the index file when that covers the segment files, and scans the
    segment files otherwise. -/
theorem restored_start :
    (start config root segmentBytes alignment h).Restored config root segmentBytes alignment
      (recoveredEntries alignment root) (recoveredEnd alignment root) := by
  suffices hscan : (blank config root segmentBytes alignment h).recover.Scanned config root
      segmentBytes alignment (recoveredEntries alignment root) (recoveredEnd alignment root) from
    hscan.opened
  rw [recover_blank, recoveredEntries, recoveredEnd]
  split
  · exact (scanned_foldl_recoverIndexEntry config root segmentBytes alignment h
      _).resumeLastSegment
  · rw [recoverFromSegments_blank]
    exact (scanned_foldl_recoverEntry config root segmentBytes alignment h _).resumeLastSegment

/-! ### Where a start resumes writing -/

/-- The end of the last segment noted for a list of entries. -/
def lastNoted (alignment : Nat) (entries : List IndexEntry) : Int × Nat :=
  ((notedSegments alignment entries).getLast?.map fun segment =>
    (segment.baseOffset, segment.writePosition)).getD (0, 0)

/-- The index file that lists `entries`. -/
def indexOf (alignment : Nat) (entries : List IndexEntry) : Bytes :=
  (entries.map (encodeIndexEntry alignment)).flatten

/-- The shard writes on behind the last segment noted for `entries`, in the segment files
    and in the index file. -/
structure Resumed (s : PartitionLogShard) (alignment : Nat) (entries : List IndexEntry) :
    Prop where
  active : s.activeSegmentBaseOffset = (lastNoted alignment entries).1
  position : s.writePosition = (lastNoted alignment entries).2
  indexPosition : s.indexPosition = entries.length * indexEntrySize alignment

theorem foldl_indexPosition (f : PartitionLogShard → IndexEntry → PartitionLogShard)
    (hf : ∀ s entry, (f s entry).indexPosition =
      s.indexPosition + indexEntrySize s.logFrameAlignment)
    (halign : ∀ s entry, (f s entry).logFrameAlignment = s.logFrameAlignment)
    (s : PartitionLogShard) (entries : List IndexEntry) :
    (entries.foldl f s).indexPosition =
      s.indexPosition + entries.length * indexEntrySize s.logFrameAlignment := by
  induction entries generalizing s with
  | nil => simp
  | cons entry rest ih =>
    rw [List.foldl_cons, ih, hf, halign, List.length_cons, Nat.succ_mul]
    omega

theorem resumed_resumeLastSegment {s : PartitionLogShard} {alignment : Nat}
    {entries : List IndexEntry} (hsegments : s.segments = notedSegments alignment entries)
    (hactive : s.activeSegmentBaseOffset = 0) (hwrite : s.writePosition = 0)
    (hindex : s.indexPosition = entries.length * indexEntrySize alignment) :
    s.resumeLastSegment.Resumed alignment entries := by
  unfold resumeLastSegment
  rw [hsegments]
  cases hlast : (notedSegments alignment entries).getLast? with
  | none => exact ⟨by rw [lastNoted, hlast]; exact hactive, by rw [lastNoted, hlast]; exact hwrite,
      hindex⟩
  | some segment => exact ⟨by rw [lastNoted, hlast]; rfl, by rw [lastNoted, hlast]; rfl, hindex⟩

theorem resumed_start :
    (start config root segmentBytes alignment h).Resumed alignment
      (recoveredEntries alignment root) := by
  suffices hresumed : (blank config root segmentBytes alignment h).recover.Resumed alignment
      (recoveredEntries alignment root) from
    ⟨hresumed.active, hresumed.position, hresumed.indexPosition⟩
  rw [recover_blank, recoveredEntries]
  split
  · refine resumed_resumeLastSegment ?_ ?_ ?_ ?_
    · exact foldl_segments recoverIndexEntry (fun _ _ => rfl) (fun _ _ => rfl) _ _
    · exact foldl_keeps recoverIndexEntry activeSegmentBaseOffset (fun _ _ => rfl) _ _
    · exact foldl_keeps recoverIndexEntry writePosition (fun _ _ => rfl) _ _
    · rw [foldl_indexPosition recoverIndexEntry (fun _ _ => rfl) (fun _ _ => rfl)]
      exact Nat.zero_add _
  · rw [recoverFromSegments_blank]
    refine resumed_resumeLastSegment ?_ ?_ ?_ ?_
    · exact foldl_segments recoverEntry (fun _ _ => rfl) (fun _ _ => rfl) _ _
    · exact foldl_keeps recoverEntry activeSegmentBaseOffset (fun _ _ => rfl) _ _
    · exact foldl_keeps recoverEntry writePosition (fun _ _ => rfl) _ _
    · rw [foldl_indexPosition recoverEntry (fun _ _ => rfl) (fun _ _ => rfl)]
      exact Nat.zero_add _

theorem foldl_recoverEntry_index (entries : List IndexEntry) (s : PartitionLogShard)
    {index : Bytes} (hindex : s.root.index = some index) (hend : s.indexPosition = index.length) :
    (entries.foldl recoverEntry s).root.index =
      some (index ++ indexOf s.logFrameAlignment entries) := by
  induction entries generalizing s index with
  | nil => simp [hindex, indexOf]
  | cons entry rest ih =>
    have hwritten : (s.recoverEntry entry).root.index =
        some (index ++ encodeIndexEntry s.logFrameAlignment entry) := by
      simp only [recoverEntry, DataDir.writeIndex, hindex, Option.getD_some, hend, splice_end]
    have hposition : (s.recoverEntry entry).indexPosition =
        (index ++ encodeIndexEntry s.logFrameAlignment entry).length := by
      rw [List.length_append, length_encodeIndexEntry s.logFrameAlignment_pos, ← hend]
      rfl
    have hrest := ih (s.recoverEntry entry) hwritten hposition
    rw [List.foldl_cons, hrest, List.append_assoc]
    rfl

/-- The index file after a start. -/
theorem start_index :
    (start config root segmentBytes alignment h).root.index =
      some (if IndexCovers alignment root then root.index.getD []
        else indexOf alignment (scanFiles alignment root.segments)) := by
  have hopened : (start config root segmentBytes alignment h).root.index =
      some ((blank config root segmentBytes alignment h).recover.root.index.getD []) := by
    change some (DataDir.index (DataDir.createSegment _ _) |>.getD []) = _
    unfold DataDir.createSegment
    split <;> rfl
  have hkept : ∀ s : PartitionLogShard, s.resumeLastSegment.root = s.root := by
    intro s
    unfold resumeLastSegment
    split <;> rfl
  rw [hopened, recover_blank]
  split
  · rw [hkept, foldl_keeps recoverIndexEntry PartitionLogShard.root (fun _ _ => rfl)]
    rfl
  · rw [recoverFromSegments_blank, hkept, foldl_recoverEntry_index _ _ rfl rfl]
    rfl

/-- The segment files after a start: the one that is active has been created if missing. -/
theorem start_segments :
    (start config root segmentBytes alignment h).root.segments =
      (root.createSegment
        (start config root segmentBytes alignment h).activeSegmentBaseOffset).segments := by
  have hfiles : (blank config root segmentBytes alignment h).recover.root.segments =
      root.segments := by
    rw [recover_blank]
    split
    · exact (scanned_foldl_recoverIndexEntry config root segmentBytes alignment h
        _).resumeLastSegment.files
    · rw [recoverFromSegments_blank]
      exact (scanned_foldl_recoverEntry config root segmentBytes alignment h
        _).resumeLastSegment.files
  change ((blank config root segmentBytes alignment h).recover.root.createSegment
    (start config root segmentBytes alignment h).activeSegmentBaseOffset).segments = _
  rw [DataDir.segments_createSegment, DataDir.segments_createSegment, hfiles]

end Starting

end PartitionLogShard

end Mkmq
