import Mathlib.Data.List.Sort
import Mkmq.Extents
import Mkmq.SegmentLayout
import Mkmq.SegmentNames

/-!
# Recovery from arbitrary bytes

`recover_from_segments` (`src/partition_log_shard.cpp`) reads whatever stands in the segment
files.  The scan of a file ends, and what it has passed tiles the file from its beginning.
Reads need no more than that: the entries point at frames that are there, and those of one
segment are apart.  The offsets in the frames may be anything, in any order.
-/

namespace Mkmq

open ByteCodec PartitionLogShard Tiling

/-! ### The files of a directory -/

/-- The names that read as those of the partition's segments, sorted by base offset. -/
def listSegmentFiles (config : PartitionConfig) (directory : List (String × Bytes)) :
    Except String (List (Int × Bytes)) := do
  let segments ← directory.mapM fun entry => do
    let baseOffset ← segmentBaseOffsetFromName config entry.1
    return baseOffset.map fun base => (base, entry.2)
  return (segments.filterMap id).insertionSort fun a b => a.1 ≤ b.1

/-- The files of segments under the names they are given. -/
def segmentFiles (config : PartitionConfig) (files : List (Int × Bytes)) :
    List (String × Bytes) :=
  files.map fun file => (segmentName config file.1, file.2)

section Listing

variable {config : PartitionConfig} {files : List (Int × Bytes)}

theorem listSegmentFiles_segmentFiles (hnames : ∀ file ∈ files, IsOffset file.1) :
    listSegmentFiles config (segmentFiles config files) =
      .ok (files.insertionSort fun a b => a.1 ≤ b.1) := by
  have hread : (segmentFiles config files).mapM (fun entry => do
      let baseOffset ← segmentBaseOffsetFromName config entry.1
      return baseOffset.map fun base => (base, entry.2)) =
        (.ok (files.map some) : Except String (List (Option (Int × Bytes)))) := by
    unfold segmentFiles
    induction files with
    | nil => rfl
    | cons file rest ih =>
      have hfile := hnames file List.mem_cons_self
      have hname := segmentBaseOffsetFromName_segmentName config config hfile.1 hfile.2
      rw [if_pos rfl] at hname
      rw [List.map_cons, List.mapM_cons, ih fun f hf => hnames f (List.mem_cons_of_mem _ hf),
        hname]
      rfl
  unfold listSegmentFiles
  rw [hread]
  change Except.ok (((files.map some).filterMap id).insertionSort _) = _
  rw [List.filterMap_map]
  simp

theorem ascending_insertionSort (hdistinct : (files.map Prod.fst).Nodup) :
    OrderedStore.Ascending (files.insertionSort fun a b => a.1 ≤ b.1) := by
  have hsorted : (files.insertionSort fun a b => a.1 ≤ b.1).Pairwise fun a b => a.1 ≤ b.1 := by
    have : Std.Total fun a b : Int × Bytes => a.1 ≤ b.1 := ⟨fun a b => le_total a.1 b.1⟩
    have : IsTrans (Int × Bytes) fun a b => a.1 ≤ b.1 := ⟨fun _ _ _ => le_trans⟩
    exact List.pairwise_insertionSort _ files
  have hkeys : (files.insertionSort fun a b => a.1 ≤ b.1).Pairwise fun a b => a.1 ≠ b.1 := by
    have hperm := (List.perm_insertionSort (fun a b : Int × Bytes => a.1 ≤ b.1) files).map Prod.fst
    exact List.pairwise_map.mp (hperm.nodup_iff.mpr hdistinct)
  exact hsorted.imp₂ (fun _ _ => lt_of_le_of_ne) hkeys

end Listing

/-! ### What a scan installs -/

section Scan

variable {alignment : Nat} {segmentBase : Int} {segment : Bytes} {position stop : Nat}
  {entries : List IndexEntry}

/-- The frames a scan passes tile the file as far as it goes. -/
theorem Passes.tiles (hpos : 0 < alignment)
    (h : Passes alignment segmentBase segment position entries stop) :
    Tiles IndexEntry.segmentPosition (IndexEntry.frameEnd alignment) position entries stop := by
  induction entries generalizing position with
  | nil => exact h
  | cons entry rest ih =>
    obtain ⟨frame, -, rfl, hrest⟩ := h
    have hsize := lt_of_lt_of_le hpos (alignment_le_frameSize hpos frame.recordBytes.toNat)
    exact ⟨rfl, Nat.lt_add_of_pos_right hsize, ih hrest⟩

/-- What the scan took for a frame is one for the reads, and has bytes. -/
theorem Passes.frameAt (h20 : 20 ≤ alignment)
    (h : Passes alignment segmentBase segment position entries stop) {dir : DataDir}
    (hcontents : dir.contents segmentBase = segment) {entry : IndexEntry}
    (hentry : entry ∈ entries) :
    FrameAt dir alignment entry ∧ 0 < entry.recordBytes ∧ entry.segmentBase = segmentBase := by
  obtain ⟨frame, hread, heq, -⟩ := h.mem (by omega) hentry
  obtain ⟨hinside, hcount, hmagic, hbase, hbytes, -⟩ := (readFrame_eq_some_iff h20).mp hread
  have hsegment : entry.segmentBase = segmentBase := congrArg IndexEntry.segmentBase heq
  have hsize : entry.recordBytes = frame.recordBytes := congrArg IndexEntry.recordBytes heq
  refine ⟨⟨?_, ?_, ?_, ?_, ?_⟩, by rw [hsize]; exact hcount, hsegment⟩
  · rw [hsize]
    exact le_of_lt hcount
  · rw [hsegment, hcontents]
    exact hmagic
  · rw [hsegment, hcontents, hbase]
    exact (congrArg IndexEntry.baseOffset heq).symm
  · rw [hsegment, hcontents, hsize]
    exact hbytes
  · unfold IndexEntry.frameSize
    rw [hsegment, hcontents, hsize]
    exact hinside

/-- **The scan of a file**: it ends where no frame follows, at or before the end of the
    file. -/
theorem exists_scan (h20 : 20 ≤ alignment) (segmentBase : Int) (segment : Bytes) :
    ∃ stop ≤ segment.length,
      Passes alignment segmentBase segment 0
        (scanSegment alignment segmentBase segment segment.length 0) stop ∧
      readFrame alignment segment stop = none := by
  have hpos : 0 < alignment := by omega
  obtain ⟨stop, hpasses, hstops⟩ := exists_passes hpos segmentBase segment segment.length 0
  refine ⟨stop, ?_, hpasses, hstops (by omega)⟩
  by_cases hne : scanSegment alignment segmentBase segment segment.length 0 = []
  · rw [hne] at hpasses
    have hzero : 0 = stop := hpasses
    omega
  · exact hpasses.in_file h20 hne

/-- A scan that has ended finds nothing more, however many turns it is given. -/
theorem scanSegment_of_le (h20 : 20 ≤ alignment) (segmentBase : Int) (segment : Bytes)
    {fuel : Nat} (hfuel : segment.length ≤ fuel) :
    scanSegment alignment segmentBase segment fuel 0 =
      scanSegment alignment segmentBase segment segment.length 0 := by
  obtain ⟨stop, hstop, hpasses, hend⟩ := exists_scan h20 segmentBase segment
  have hlength := hpasses.length_le (by omega)
  obtain ⟨more, rfl⟩ := Nat.exists_eq_add_of_le
    (show (scanSegment alignment segmentBase segment segment.length 0).length ≤ fuel by omega)
  rw [hpasses.scanSegment_eq]
  cases more with
  | zero => exact List.append_nil _
  | succ more => rw [scanSegment, hend, List.append_nil]

end Scan

section Files

variable {alignment : Nat} {files : List (Int × Bytes)} {file : Int × Bytes}

theorem segmentBase_of_mem_scanSegment (h20 : 20 ≤ alignment) {entry : IndexEntry}
    (hentry : entry ∈ scanSegment alignment file.1 file.2 file.2.length 0) :
    entry.segmentBase = file.1 := by
  obtain ⟨stop, -, hpasses, -⟩ := exists_scan h20 file.1 file.2
  obtain ⟨frame, -, heq, -⟩ := hpasses.mem (by omega) hentry
  exact congrArg IndexEntry.segmentBase heq

/-- The entries of one file among those of all. -/
theorem entriesOf_scanFiles (h20 : 20 ≤ alignment) (hascending : OrderedStore.Ascending files)
    (hfile : file ∈ files) :
    entriesOf file.1 (scanFiles alignment files) =
      scanSegment alignment file.1 file.2 file.2.length 0 := by
  induction files with
  | nil => cases hfile
  | cons first rest ih =>
    obtain ⟨hfirst, hrest⟩ := List.pairwise_cons.mp hascending
    have hsplit : scanFiles alignment (first :: rest) =
        scanSegment alignment first.1 first.2 first.2.length 0 ++ scanFiles alignment rest :=
      List.flatMap_cons
    rw [hsplit, entriesOf_append]
    rcases List.mem_cons.mp hfile with rfl | hfile
    · -- no later file has the name of this one
      rw [entriesOf_eq_self fun _ => segmentBase_of_mem_scanSegment h20, entriesOf_eq_nil,
        List.append_nil]
      intro entry hentry
      obtain ⟨other, hother, hscan⟩ := List.mem_flatMap.mp hentry
      rw [segmentBase_of_mem_scanSegment h20 hscan]
      exact ne_of_gt (hfirst other hother)
    · rw [entriesOf_eq_nil, List.nil_append, ih hrest hfile]
      intro entry hentry
      rw [segmentBase_of_mem_scanSegment h20 hentry]
      exact ne_of_lt (hfirst file hfile)

/-- Frames of one file follow each other, and those of different files are in different
    segments. -/
theorem framesApart_scanFiles (h20 : 20 ≤ alignment) (hascending : OrderedStore.Ascending files) :
    (scanFiles alignment files).Pairwise (FramesApart alignment) := by
  refine List.pairwise_flatMap.mpr ⟨?_, ?_⟩
  · intro file _
    obtain ⟨stop, -, hpasses, -⟩ := exists_scan h20 file.1 file.2
    exact framesApart_of_tiles (hpasses.tiles (by omega))
  · refine hascending.imp ?_
    intro file later hlt entry hentry other hother hsame
    rw [segmentBase_of_mem_scanSegment h20 hentry, segmentBase_of_mem_scanSegment h20 hother]
      at hsame
    exact absurd hsame (ne_of_lt hlt)

end Files

/-! ### Reads, one after the other -/

/-- An entry without its last offset, of which the frame says nothing. -/
def IndexEntry.frameOnly (entry : IndexEntry) : IndexEntry := { entry with lastOffset := 0 }

section FrameOnly

variable {dir other : DataDir} {alignment : Nat} {entry : IndexEntry}

theorem FrameAt.frameOnly (h : FrameAt dir alignment entry) :
    FrameAt dir alignment entry.frameOnly := ⟨h.size, h.magic, h.base, h.bytes, h.in_file⟩

theorem FrameAt.of_contents (hcontents : ∀ base, other.contents base = dir.contents base)
    (h : FrameAt dir alignment entry.frameOnly) : FrameAt other alignment entry := by
  refine ⟨h.size, ?_, ?_, ?_, ?_⟩ <;> rw [hcontents]
  exacts [h.magic, h.base, h.bytes, h.in_file]

end FrameOnly

inductive ReadCall where
  | fetch (offset maxBytes : Int)
  | fetchForReplica (offset maxBytes : Int)
deriving DecidableEq, Repr

namespace PartitionLogShard

variable {s : PartitionLogShard}

def read (s : PartitionLogShard) : ReadCall → PartitionLogShard × Except String Bytes
  | .fetch offset maxBytes =>
    ((s.fetch offset maxBytes).1,
      (s.fetch offset maxBytes).2.map FetchPartitionResult.records)
  | .fetchForReplica offset maxBytes =>
    ((s.fetchForReplica offset maxBytes).1,
      (s.fetchForReplica offset maxBytes).2.map ReplicaFetchResult.records)

/-- What calls made one after the other are answered. -/
def answers (s : PartitionLogShard) : List ReadCall → List (Except String Bytes)
  | [] => []
  | call :: rest => (s.read call).2 :: (s.read call).1.answers rest

theorem Readable.fetch (h : s.Readable) (offset maxBytes : Int) :
    ∃ cache result, s.fetch offset maxBytes = ({ s with segmentCache := cache }, .ok result) ∧
      ∀ cached ∈ cache, cached.2 = cached.1 := by
  obtain ⟨cache, records, hread, hcache⟩ :=
    h.readRecordsFromIndex_ok offset s.visibleEnd (s.fetchLimit maxBytes)
  unfold PartitionLogShard.fetch
  simp only [hread]
  split
  · exact ⟨s.segmentCache, _, rfl, h.coherent.cache⟩
  · exact ⟨cache, _, rfl, hcache⟩

theorem Readable.fetchForReplica (h : s.Readable) (offset maxBytes : Int) :
    ∃ cache result,
      s.fetchForReplica offset maxBytes = ({ s with segmentCache := cache }, .ok result) ∧
      ∀ cached ∈ cache, cached.2 = cached.1 := by
  obtain ⟨cache, records, hread, hcache⟩ :=
    h.readRecordsFromIndex_ok offset s.offsets.latest (s.fetchLimit maxBytes)
  unfold PartitionLogShard.fetchForReplica
  simp only [hread]
  split
  · exact ⟨s.segmentCache, _, rfl, h.coherent.cache⟩
  · exact ⟨cache, _, rfl, hcache⟩

theorem Readable.read (h : s.Readable) (call : ReadCall) :
    (s.read call).1.Readable ∧ ∃ records, (s.read call).2 = .ok records := by
  cases call with
  | fetch offset maxBytes =>
    obtain ⟨cache, result, hfetch, hcache⟩ := h.fetch offset maxBytes
    simp only [PartitionLogShard.read, hfetch]
    exact ⟨h.withCache hcache, result.records, rfl⟩
  | fetchForReplica offset maxBytes =>
    obtain ⟨cache, result, hfetch, hcache⟩ := h.fetchForReplica offset maxBytes
    simp only [PartitionLogShard.read, hfetch]
    exact ⟨h.withCache hcache, result.records, rfl⟩

theorem Readable.answers (h : s.Readable) (calls : List ReadCall) :
    ∀ answer ∈ s.answers calls, ∃ records, answer = .ok records := by
  induction calls generalizing s with
  | nil => exact fun _ hmem => absurd hmem List.not_mem_nil
  | cons call rest ih =>
    obtain ⟨hnext, hanswer⟩ := h.read call
    intro answer hmem
    rcases List.mem_cons.mp hmem with rfl | hmem
    · exact hanswer
    · exact ih hnext answer hmem

/-- `t` reads the frames that `s` reads, through handles that are on the files they stand
    for.  Its log ends and the last offsets of its entries may be others: they are sums of
    what the files say, and may leave the range of an offset. -/
structure SameFrames (s t : PartitionLogShard) : Prop where
  alignment : t.logFrameAlignment = s.logFrameAlignment
  contents : ∀ base, t.root.contents base = s.root.contents base
  entries : t.indexEntries.map IndexEntry.frameOnly = s.indexEntries.map IndexEntry.frameOnly
  coherent : t.ReadCoherent

theorem Readable.of_sameFrames {t : PartitionLogShard} (h : s.Readable) (hsame : s.SameFrames t) :
    t.Readable where
  frames := by
    intro other hother
    have hmem : other.frameOnly ∈ s.indexEntries.map IndexEntry.frameOnly := by
      rw [← hsame.entries]
      exact List.mem_map_of_mem hother
    obtain ⟨entry, hentry, heq⟩ := List.mem_map.mp hmem
    have hframe := (h.frames entry hentry).frameOnly
    rw [heq, ← hsame.alignment] at hframe
    exact FrameAt.of_contents hsame.contents hframe
  apart := by
    have hpairs : (s.indexEntries.map IndexEntry.frameOnly).Pairwise
        (FramesApart t.logFrameAlignment) := by
      rw [hsame.alignment]
      exact List.pairwise_map.mpr h.apart
    rw [← hsame.entries] at hpairs
    have hback : t.indexEntries.Pairwise fun entry later =>
        FramesApart t.logFrameAlignment entry.frameOnly later.frameOnly :=
          List.pairwise_map.mp hpairs
    exact hback
  coherent := hsame.coherent

end PartitionLogShard

/-! ### Recovery -/

/-- A recovered shard that is safe to use.  `opened` is it once `start` has opened the active
    segment and the index. -/
structure RecoveredSafely (files : List (Int × Bytes)) (s : PartitionLogShard) : Prop where
  tiles : ∀ file ∈ files, ∃ stop ≤ file.2.length,
    Tiles IndexEntry.segmentPosition (IndexEntry.frameEnd s.logFrameAlignment) 0
      (entriesOf file.1 s.indexEntries) stop ∧
    readFrame s.logFrameAlignment file.2 stop = none
  frames : ∀ entry ∈ s.indexEntries, ∃ file ∈ files, entry.segmentBase = file.1 ∧
    0 < entry.recordBytes ∧ FrameAt s.root s.logFrameAlignment entry
  opened : s.SameFrames s ∧
    s.SameFrames (s.openActiveSegment s.activeSegmentBaseOffset).openIndex
  reads : ∀ t, s.SameFrames t → ∀ calls, ∀ answer ∈ t.answers calls, ∃ records, answer = .ok records

section Recovered

variable (config : PartitionConfig) (root : DataDir) (segmentBytes alignment : Nat)
  (hpos : 0 < alignment)

/-- No file is open during recovery. -/
theorem recoverFromSegments_file :
    (blank config root segmentBytes alignment hpos).recoverFromSegments.file = none := by
  have hresume : ∀ s : PartitionLogShard, s.resumeLastSegment.file = s.file := by
    intro s
    unfold resumeLastSegment
    split <;> rfl
  rw [recoverFromSegments_blank, hresume]
  exact foldl_keeps recoverEntry PartitionLogShard.file (fun _ _ => rfl) _ _

theorem scanned_recoverFromSegments :
    (blank config root segmentBytes alignment hpos).recoverFromSegments.Scanned config root
      segmentBytes alignment (scanFiles alignment root.segments)
      (scanEnd (scanFiles alignment root.segments)) := by
  rw [recoverFromSegments_blank]
  exact (scanned_foldl_recoverEntry config root segmentBytes alignment hpos _).resumeLastSegment

end Recovered

/-- **Recovery is safe**, whatever the files hold. -/
theorem recoverFromSegments_safe (config : PartitionConfig) (root : DataDir)
    (segmentBytes : Nat) {alignment : Nat} (hpos : 0 < alignment) (h20 : 20 ≤ alignment)
    (hascending : OrderedStore.Ascending root.segments) :
    RecoveredSafely root.segments
      (blank config root segmentBytes alignment hpos).recoverFromSegments := by
  have hscanned := scanned_recoverFromSegments config root segmentBytes alignment hpos
  have hfile := recoverFromSegments_file config root segmentBytes alignment hpos
  set s := (blank config root segmentBytes alignment hpos).recoverFromSegments
  have halign : s.logFrameAlignment = alignment := hscanned.alignment_eq
  have hcontents : ∀ base, s.root.contents base = root.contents base := by
    intro base
    unfold DataDir.contents
    rw [hscanned.files]
  have hcache : s.segmentCache = [] := congrArg (fun kept => kept.2.2.2.2.2) hscanned.kept
  have hcoherent : s.ReadCoherent :=
    ⟨fun f hf => absurd (hf.symm.trans hfile) (Option.some_ne_none f), by simp [hcache]⟩
  have hframes : ∀ entry ∈ s.indexEntries, ∃ file ∈ root.segments, entry.segmentBase = file.1 ∧
      0 < entry.recordBytes ∧ FrameAt s.root s.logFrameAlignment entry := by
    rw [hscanned.entries, halign]
    intro entry hentry
    obtain ⟨file, hmem, hscan⟩ := List.mem_flatMap.mp hentry
    obtain ⟨stop, -, hpasses, -⟩ := exists_scan h20 file.1 file.2
    obtain ⟨hframe, hcount, hbase⟩ := hpasses.frameAt h20
      ((hcontents file.1).trans (DataDir.contents_of_mem hascending hmem)) hscan
    exact ⟨file, hmem, hbase, hcount, hframe⟩
  have hreadable : s.Readable :=
    { frames := by
        intro entry hentry
        obtain ⟨_, _, _, _, hframe⟩ := hframes entry hentry
        exact hframe
      apart := by
        rw [hscanned.entries, halign]
        exact framesApart_scanFiles h20 hascending
      coherent := hcoherent }
  refine
    { tiles := ?_
      frames := hframes
      opened := ⟨⟨rfl, fun _ => rfl, rfl, hcoherent⟩, ⟨rfl, ?_, rfl, ?_⟩⟩
      reads := fun t hsame calls => (hreadable.of_sameFrames hsame).answers calls }
  · intro file hmem
    obtain ⟨stop, hstop, hpasses, hend⟩ := exists_scan h20 file.1 file.2
    refine ⟨stop, hstop, ?_, by rw [halign]; exact hend⟩
    rw [hscanned.entries, halign, entriesOf_scanFiles h20 hascending hmem]
    exact hpasses.tiles hpos
  · exact fun base => DataDir.contents_createSegment s.root s.activeSegmentBaseOffset base
  · exact ⟨fun f hf => (Option.some.inj hf).symm, hcoherent.cache⟩

/-- **Recovery from arbitrary bytes.**  The segment files of a directory, under the names
    they are given, are listed; the scan of each has ended after as many turns as the file
    has bytes, and no more of them change anything; the entries installed for a file are
    frames with records that tile it from its beginning, up to where the scan found none;
    and no later read fails. -/
theorem recovery_safe (config : PartitionConfig) (segmentBytes alignment : Nat)
    (hpos : 0 < alignment) (h20 : 20 ≤ alignment) (files : List (Int × Bytes))
    (hnames : ∀ file ∈ files, IsOffset file.1) (hdistinct : (files.map Prod.fst).Nodup)
    (index : Option Bytes) :
    ∃ segments, listSegmentFiles config (segmentFiles config files) = .ok segments ∧
      (∀ file ∈ files, ∀ fuel, file.2.length ≤ fuel → ∀ s : PartitionLogShard,
        s.logFrameAlignment = alignment →
          recoverSegmentLoop file.1 file.2 fuel 0 s = s.recoverSegmentFile file.1 file.2) ∧
      RecoveredSafely files
        (blank config ⟨segments, index⟩ segmentBytes alignment hpos).recoverFromSegments := by
  have hascending := ascending_insertionSort hdistinct
  refine ⟨_, listSegmentFiles_segmentFiles hnames, ?_, ?_⟩
  · intro file _ fuel hfuel s halign
    unfold recoverSegmentFile
    rw [recoverSegmentLoop_eq, recoverSegmentLoop_eq, halign,
      scanSegment_of_le h20 file.1 file.2 hfuel]
  · have hsafe := recoverFromSegments_safe config ⟨_, index⟩ segmentBytes hpos h20 hascending
    have hmem : ∀ file, file ∈ files.insertionSort (fun a b => a.1 ≤ b.1) ↔ file ∈ files :=
      fun _ => List.mem_insertionSort _
    refine { hsafe with tiles := ?_, frames := ?_ }
    · exact fun file hfile => hsafe.tiles file ((hmem file).mpr hfile)
    · intro entry hentry
      obtain ⟨file, hfile, hrest⟩ := hsafe.frames entry hentry
      exact ⟨file, (hmem file).mp hfile, hrest⟩

/-- Two frames whose offsets descend, with a byte behind them, and a file that holds none. -/
def strayBytes : List (Int × Bytes) :=
  [(7, [1, 2, 3]), (0, encodeFrame 32 100 [1] ++ encodeFrame 32 3 [2, 3] ++ [4])]

theorem recovery_safe_strayBytes :
    ∃ segments,
      listSegmentFiles defaultPartition (segmentFiles defaultPartition strayBytes) = .ok segments ∧
      RecoveredSafely strayBytes
        (blank defaultPartition ⟨segments, none⟩ 512 32 (by decide)).recoverFromSegments ∧
      (blank defaultPartition ⟨segments, none⟩ 512 32
        (by decide)).recoverFromSegments.indexEntries.map IndexEntry.baseOffset = [100, 3] := by
  have hnames : ∀ file ∈ strayBytes, IsOffset file.1 := by
    unfold IsOffset
    decide
  obtain ⟨segments, hlist, -, hsafe⟩ := recovery_safe defaultPartition 512 32 (by decide)
    (by decide) strayBytes hnames (by decide) none
  refine ⟨segments, hlist, hsafe, ?_⟩
  obtain rfl := Except.ok.inj (hlist.symm.trans (listSegmentFiles_segmentFiles hnames))
  decide +kernel

end Mkmq
