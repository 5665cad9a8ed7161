import Mkmq.SegmentPacks

/-!
# The layout of the segments

What calls with records, made one at a time on an empty partition, leave behind.  Offsets,
the write position, `segments_` and `index_entries_` are moved in different functions of
`src/partition_log_shard.cpp`; `LaidOut` says how they fit together, and with the files.

`Segmented` is what every write keeps.  Its heart is `Fills`: a segment is the frames of a
list of record sets, and its index entries are theirs.  A write adds a record set to the
list of the last segment, or starts a list of its own in a segment whose base offset no
other has.
-/

namespace Mkmq

open ByteCodec ListRules Tiling

variable {entries : List IndexEntry} {segmentBase : Int}

/-! ### Segments and their entries -/

/-- The entries of one segment. -/
def entriesOf (segmentBase : Int) (entries : List IndexEntry) : List IndexEntry :=
  entries.filter fun entry => decide (entry.segmentBase = segmentBase)

theorem entriesOf_append (segmentBase : Int) (front back : List IndexEntry) :
    entriesOf segmentBase (front ++ back) =
      entriesOf segmentBase front ++ entriesOf segmentBase back := List.filter_append ..

theorem entriesOf_eq_self (h : ∀ entry ∈ entries, entry.segmentBase = segmentBase) :
    entriesOf segmentBase entries = entries := by
  refine List.filter_eq_self.mpr ?_
  intro entry hentry
  simpa using h entry hentry

theorem entriesOf_eq_nil (h : ∀ entry ∈ entries, entry.segmentBase ≠ segmentBase) :
    entriesOf segmentBase entries = [] := by
  refine List.filter_eq_nil_iff.mpr ?_
  intro entry hentry
  simpa using h entry hentry

theorem entriesOf_concat (segmentBase : Int) (entries : List IndexEntry) (entry : IndexEntry) :
    entriesOf segmentBase (entries ++ [entry]) =
      entriesOf segmentBase entries ++ if entry.segmentBase = segmentBase then [entry] else [] := by
  rw [entriesOf_append]
  split
  · next hbase => rw [entriesOf_eq_self (List.forall_mem_singleton.mpr hbase)]
  · next hbase => rw [entriesOf_eq_nil (List.forall_mem_singleton.mpr hbase)]

/-- The first offset past an entry. -/
def IndexEntry.endOffset (entry : IndexEntry) : Int := entry.lastOffset + 1

/-! ### What is noted of a segment -/

namespace PartitionLogShard

variable {s : PartitionLogShard}

/-- An entry of a segment that was not the last one noted. -/
theorem noteSegment_new (alignment : Nat) {segments : List SegmentInfo} {entry : IndexEntry}
    (hnew : ∀ segment ∈ segments, segment.baseOffset ≠ entry.segmentBase) :
    noteSegment alignment segments entry =
      segments ++ [⟨entry.segmentBase, entry.lastOffset, entry.frameEnd alignment⟩] := by
  unfold noteSegment
  split
  · next hnil =>
      rw [List.getLast?_eq_none_iff.mp hnil]
      rfl
  · next last hlast =>
      rw [if_pos (hnew last (List.mem_of_getLast? hlast))]
      rfl

/-- An entry of the last segment noted. -/
theorem noteSegment_last (alignment : Nat) (front : List SegmentInfo) {last : SegmentInfo}
    (entry : IndexEntry) (hbase : last.baseOffset = entry.segmentBase) :
    noteSegment alignment (front ++ [last]) entry =
      front ++ [⟨last.baseOffset, max last.lastOffset entry.lastOffset,
        max last.writePosition (entry.frameEnd alignment)⟩] := by
  unfold noteSegment
  rw [List.getLast?_concat]
  simp only [ne_eq, hbase, not_true_eq_false, if_false, List.dropLast_concat]
  rfl

/-! ### Segments full of frames -/

/-- The file of a segment is the frames of `sets`, up to `stop`, and its entries are
    theirs. -/
structure Fills (s : PartitionLogShard) (segmentBase : Int) (stop : Nat)
    (sets : List RecordSet) : Prop where
  contents : s.root.contents segmentBase = framesOf s.logFrameAlignment sets
  entries : entriesOf segmentBase s.indexEntries = entriesAt s.logFrameAlignment segmentBase 0 sets
  stop_eq : stop = framesLength s.logFrameAlignment sets
  sizes : ∀ recordSet ∈ sets, recordSet.bytes.length < 2 ^ 31

section Written

variable {s : PartitionLogShard} {recordSet : RecordSet} {segmentBase : Int} {stop : Nat}
  {sets : List RecordSet}

/-- A write adds its record set to the active segment. -/
theorem Fills.written (h : s.Fills s.activeSegmentBaseOffset s.writePosition sets)
    (hsize : recordSet.bytes.length < 2 ^ 31) :
    (s.written recordSet).Fills s.activeSegmentBaseOffset
      (s.writePosition + recordSet.frameSize s.logFrameAlignment) (sets ++ [recordSet]) where
  contents := by
    have hend : s.writePosition = (framesOf s.logFrameAlignment sets).length := by
      rw [length_framesOf s.logFrameAlignment_pos, h.stop_eq]
    change (s.root.writeSegment s.activeSegmentBaseOffset s.writePosition
      (recordSet.frame s.logFrameAlignment)).contents s.activeSegmentBaseOffset = _
    rw [DataDir.contents_writeSegment, if_pos rfl, h.contents, hend, splice_end, framesOf_append,
      framesOf_cons, framesOf_nil, List.append_nil]
    rfl
  entries := by
    change entriesOf s.activeSegmentBaseOffset (s.indexEntries ++ [_]) = _
    rw [entriesOf_concat, h.entries, entriesAt_append, h.stop_eq, Nat.zero_add]
    exact congrArg _ (if_pos rfl)
  stop_eq := by
    rw [framesLength_append, framesLength_cons, framesLength_nil, Nat.add_zero, h.stop_eq]
    rfl
  sizes := forall_mem_concat.mpr ⟨h.sizes, hsize⟩

/-- It leaves the other segments alone. -/
theorem Fills.written_of_ne (h : s.Fills segmentBase stop sets)
    (hother : segmentBase ≠ s.activeSegmentBaseOffset) :
    (s.written recordSet).Fills segmentBase stop sets where
  contents := by
    change (s.root.writeSegment s.activeSegmentBaseOffset s.writePosition
      (recordSet.frame s.logFrameAlignment)).contents segmentBase = _
    rw [DataDir.contents_writeSegment, if_neg hother]
    exact h.contents
  entries := by
    change entriesOf segmentBase (s.indexEntries ++ [_]) = _
    rw [entriesOf_concat, if_neg fun hsame => hother hsame.symm, List.append_nil]
    exact h.entries
  stop_eq := h.stop_eq
  sizes := h.sizes

end Written

/-! ### What every write keeps -/

/-- A segment noted is filled from the record set that gave it its name on, and holds a
    second one only within `segment_bytes`. -/
def Complete (s : PartitionLogShard) (segment : SegmentInfo) : Prop :=
  ∃ sets, s.Fills segment.baseOffset segment.writePosition sets ∧
    sets.head?.map RecordSet.baseOffset = some segment.baseOffset ∧
    (1 < sets.length → segment.writePosition ≤ s.segmentBytes)

/-- The log up to `latest` is in the segments noted, and in no other file. -/
structure Stored (s : PartitionLogShard) (latest : Int) : Prop where
  file : s.file = some s.activeSegmentBaseOffset
  indexFile : s.indexFile = true
  offsets : Tiles IndexEntry.baseOffset IndexEntry.endOffset 0 s.indexEntries latest
  complete : ∀ segment ∈ s.segments, s.Complete segment
  noted : ∀ entry ∈ s.indexEntries, ∃ segment ∈ s.segments,
    segment.baseOffset = entry.segmentBase
  bases : s.segments.Pairwise fun segment later => segment.baseOffset < later.baseOffset
  unnoted : ∀ base, (∀ segment ∈ s.segments, segment.baseOffset ≠ base) →
    s.root.contents base = []

/-- Between calls the active segment is the last one noted, or the first one is still to
    be written. -/
structure Segmented (s : PartitionLogShard) (latest : Int) : Prop extends s.Stored latest where
  active : (s.segments = [] ∧ s.writePosition = 0 ∧ s.activeSegmentBaseOffset = latest) ∨
    ∃ front last, s.segments = front ++ [last] ∧
      last.baseOffset = s.activeSegmentBaseOffset ∧ last.writePosition = s.writePosition ∧
      last.baseOffset < latest

theorem Segmented.withHead {latest : Int} (h : s.Segmented latest) (head : LogHead) :
    { s with toLogHead := head }.Segmented latest :=
  { h with
    complete := by
      intro segment hsegment
      obtain ⟨sets, hfills, hrest⟩ := h.complete segment hsegment
      exact ⟨sets, { hfills with }, hrest⟩ }

theorem segmented_fresh (config : PartitionConfig) (segmentBytes alignment : Nat)
    (h : 0 < alignment) : (fresh config segmentBytes alignment h).Segmented 0 where
  file := rfl
  indexFile := rfl
  offsets := rfl
  complete := fun _ hs => absurd hs List.not_mem_nil
  noted := fun _ he => absurd he List.not_mem_nil
  bases := List.Pairwise.nil
  unnoted := by
    intro base _
    change (if (0 : Int) = base then _ else _ : Option Bytes).getD [] = []
    split <;> rfl
  active := Or.inl ⟨rfl, rfl, rfl⟩

section OneWrite

variable {s : PartitionLogShard} {recordSet : RecordSet} {front : List SegmentInfo}
  {last : SegmentInfo}

/-- The active segment has room for `recordSet`.  `sets` are the record sets already in it,
    none if the segment is new, and `front` are the segments before it. -/
structure Room (s : PartitionLogShard) (recordSet : RecordSet) (front : List SegmentInfo)
    (last : SegmentInfo) (sets : List RecordSet) : Prop where
  noted : noteSegment s.logFrameAlignment s.segments
    (recordSet.entryAt s.activeSegmentBaseOffset s.writePosition) = front ++ [last]
  base : last.baseOffset = s.activeSegmentBaseOffset
  stop : last.writePosition = s.writePosition + recordSet.frameSize s.logFrameAlignment
  front_mem : ∀ segment ∈ front, segment ∈ s.segments
  mem_front : ∀ segment ∈ s.segments, segment ∈ front ∨
    segment.baseOffset = s.activeSegmentBaseOffset
  bases : (front ++ [last]).Pairwise fun segment later => segment.baseOffset < later.baseOffset
  fills : s.Fills s.activeSegmentBaseOffset s.writePosition sets
  first : (sets ++ [recordSet]).head?.map RecordSet.baseOffset = some s.activeSegmentBaseOffset
  fits : 1 < (sets ++ [recordSet]).length →
    s.writePosition + recordSet.frameSize s.logFrameAlignment ≤ s.segmentBytes

/-- **A write into a segment that has room.** -/
theorem Stored.written (h : s.Stored recordSet.baseOffset) {sets : List RecordSet}
    (hroom : s.Room recordSet front last sets) (hsize : recordSet.bytes.length < 2 ^ 31)
    (hcount : recordSet.baseOffset ≤ recordSet.lastOffset)
    (hactive : s.activeSegmentBaseOffset ≤ recordSet.baseOffset) :
    (s.written recordSet).Segmented recordSet.endOffset := by
  have hnewSegments : (s.written recordSet).segments = front ++ [last] := hroom.noted
  have hend : recordSet.baseOffset < recordSet.endOffset := Int.lt_add_one_of_le hcount
  -- the segments noted are those of before and the active one
  have hstill : ∀ base, (∃ segment ∈ s.segments, segment.baseOffset = base) →
      ∃ segment ∈ front ++ [last], segment.baseOffset = base := by
    rintro base ⟨segment, hsegment, rfl⟩
    rcases hroom.mem_front segment hsegment with hmem | hsame
    · exact ⟨segment, List.mem_append_left _ hmem, rfl⟩
    · exact ⟨last, List.mem_append_right _ List.mem_cons_self, hroom.base.trans hsame.symm⟩
  have hother : ∀ segment ∈ front, segment.baseOffset ≠ s.activeSegmentBaseOffset := by
    intro segment hsegment
    rw [← hroom.base]
    exact ne_of_lt ((pairwise_concat.mp hroom.bases).2 segment hsegment)
  refine
    { file := h.file
      indexFile := h.indexFile
      offsets := h.offsets.concat rfl hend
      complete := ?_
      noted := ?_
      bases := by rw [hnewSegments]; exact hroom.bases
      unnoted := ?_
      active := Or.inr ⟨front, last, hnewSegments, hroom.base, hroom.stop, ?_⟩ }
  · rw [hnewSegments]
    refine forall_mem_concat.mpr ⟨?_, ?_⟩
    · intro segment hsegment
      obtain ⟨old, hold, hrest⟩ := h.complete segment (hroom.front_mem segment hsegment)
      exact ⟨old, hold.written_of_ne (hother segment hsegment), hrest⟩
    · refine ⟨sets ++ [recordSet], ?_, by rw [hroom.base]; exact hroom.first,
        by rw [hroom.stop]; exact hroom.fits⟩
      rw [hroom.base, hroom.stop]
      exact hroom.fills.written hsize
  · rw [hnewSegments]
    refine forall_mem_concat.mpr ⟨fun entry hentry => hstill _ (h.noted entry hentry), ?_⟩
    exact ⟨last, List.mem_append_right _ List.mem_cons_self, hroom.base⟩
  · rw [hnewSegments]
    intro base hout
    have hne : base ≠ s.activeSegmentBaseOffset := by
      rintro rfl
      exact hout last (List.mem_append_right _ List.mem_cons_self) hroom.base
    change (s.root.writeSegment s.activeSegmentBaseOffset s.writePosition
      (recordSet.frame s.logFrameAlignment)).contents base = []
    rw [DataDir.contents_writeSegment, if_neg hne]
    refine h.unnoted base ?_
    intro segment hsegment hsame
    obtain ⟨other, hmem, hbaseEq⟩ := hstill base ⟨segment, hsegment, hsame⟩
    exact hout other hmem hbaseEq
  · rw [hroom.base]
    exact lt_of_le_of_lt hactive hend

/-- The first write to a segment whose base offset is past those of all others. -/
theorem Stored.written_new (h : s.Stored recordSet.baseOffset)
    (hbefore : ∀ segment ∈ s.segments, segment.baseOffset < recordSet.baseOffset)
    (hactive : s.activeSegmentBaseOffset = recordSet.baseOffset) (hposition : s.writePosition = 0)
    (hsize : recordSet.bytes.length < 2 ^ 31)
    (hcount : recordSet.baseOffset ≤ recordSet.lastOffset) :
    (s.written recordSet).Segmented recordSet.endOffset := by
  have hnew : ∀ segment ∈ s.segments, segment.baseOffset ≠ s.activeSegmentBaseOffset := by
    intro segment hsegment
    rw [hactive]
    exact ne_of_lt (hbefore segment hsegment)
  have hend : (recordSet.entryAt s.activeSegmentBaseOffset s.writePosition).frameEnd
      s.logFrameAlignment = s.writePosition + recordSet.frameSize s.logFrameAlignment :=
    congrArg _ (RecordSet.frameSize_entryAt hsize _ _)
  refine h.written
    { noted := noteSegment_new s.logFrameAlignment hnew
      base := rfl
      stop := hend
      front_mem := fun _ hmem => hmem
      mem_front := fun _ hmem => Or.inl hmem
      bases := ?_
      fills := ?_
      first := (congrArg some hactive.symm : ([] ++ [recordSet]).head?.map _ = _)
      fits := fun hlt => absurd hlt (lt_irrefl 1) } hsize hcount (le_of_eq hactive)
  · refine pairwise_concat.mpr ⟨h.bases, ?_⟩
    intro segment hsegment
    exact lt_of_lt_of_eq (hbefore segment hsegment) hactive.symm
  · refine ⟨h.unnoted _ hnew, ?_, hposition, fun _ hmem => absurd hmem List.not_mem_nil⟩
    refine entriesOf_eq_nil ?_
    intro entry hentry
    obtain ⟨segment, hsegment, hbase⟩ := h.noted entry hentry
    rw [← hbase]
    exact hnew segment hsegment

/-- A further write to the last segment. -/
theorem Stored.written_last (h : s.Stored recordSet.baseOffset)
    (hsegments : s.segments = front ++ [last]) (hbase : last.baseOffset = s.activeSegmentBaseOffset)
    (hstop : last.writePosition = s.writePosition)
    (hfits : s.writePosition + recordSet.frameSize s.logFrameAlignment ≤ s.segmentBytes)
    (hsize : recordSet.bytes.length < 2 ^ 31) (hcount : recordSet.baseOffset ≤ recordSet.lastOffset)
    (hactive : s.activeSegmentBaseOffset ≤ recordSet.baseOffset) :
    (s.written recordSet).Segmented recordSet.endOffset := by
  have hlast : last ∈ s.segments := by
    rw [hsegments]
    exact List.mem_append_right _ List.mem_cons_self
  obtain ⟨sets, hfills, hfirst, -⟩ := h.complete last hlast
  have hend : (recordSet.entryAt s.activeSegmentBaseOffset s.writePosition).frameEnd
      s.logFrameAlignment = s.writePosition + recordSet.frameSize s.logFrameAlignment :=
    congrArg _ (RecordSet.frameSize_entryAt hsize _ _)
  have hnoted := noteSegment_last s.logFrameAlignment front
    (recordSet.entryAt s.activeSegmentBaseOffset s.writePosition) hbase
  rw [hend, hstop, max_eq_right (Nat.le_add_right _ _), ← hsegments] at hnoted
  rw [hbase] at hfirst
  rw [hbase, hstop] at hfills
  refine h.written
    { noted := hnoted
      base := hbase
      stop := rfl
      front_mem := ?_
      mem_front := ?_
      bases := ?_
      fills := hfills
      first := ?_
      fits := fun _ => hfits } hsize hcount hactive
  · intro segment hsegment
    rw [hsegments]
    exact List.mem_append_left _ hsegment
  · rw [hsegments]
    exact forall_mem_concat.mpr ⟨fun _ hmem => Or.inl hmem, Or.inr hbase⟩
  · have hbases := h.bases
    rw [hsegments] at hbases
    exact pairwise_concat.mpr ⟨(pairwise_concat.mp hbases).1, (pairwise_concat.mp hbases).2⟩
  · cases sets with
    | nil => cases hfirst
    | cons first rest => exact hfirst

/-- A rollover only opens a file. -/
theorem Stored.rollover {latest : Int} (h : s.Stored latest) (base : Int)
    (cache : List (Int × Int)) :
    { s with
      root := s.root.createSegment base
      file := some base
      segmentCache := cache
      activeSegmentBaseOffset := base
      writePosition := 0 }.Stored latest where
  file := rfl
  indexFile := h.indexFile
  offsets := h.offsets
  complete := by
    intro segment hsegment
    obtain ⟨sets, hfills, hrest⟩ := h.complete segment hsegment
    have hcontents := (DataDir.contents_createSegment s.root base segment.baseOffset).trans
      hfills.contents
    exact ⟨sets, { hfills with contents := hcontents }, hrest⟩
  noted := h.noted
  bases := h.bases
  unnoted := fun other hout => (DataDir.contents_createSegment _ _ _).trans (h.unnoted other hout)

/-- **One write**, wherever there is room for it. -/
theorem Segmented.place (h : s.Segmented recordSet.baseOffset)
    (hsize : recordSet.bytes.length < 2 ^ 31)
    (hcount : recordSet.baseOffset ≤ recordSet.lastOffset) :
    ((s.placeSegment recordSet.baseOffset
      (recordSet.frameSize s.logFrameAlignment)).written recordSet).Segmented
        recordSet.endOffset := by
  rcases h.active with ⟨hnone, hposition, hactive⟩ | ⟨front, last, hsegments, hbase, hstop, hlt⟩
  · -- nothing was written yet
    rw [placeSegment_of_fits h.file (Or.inl hposition)]
    refine h.written_new ?_ hactive hposition hsize hcount
    rw [hnone]
    exact fun _ hmem => absurd hmem List.not_mem_nil
  have hactive : s.activeSegmentBaseOffset ≤ recordSet.baseOffset := by
    rw [← hbase]
    exact le_of_lt hlt
  by_cases hfits : s.writePosition + recordSet.frameSize s.logFrameAlignment ≤ s.segmentBytes
  · rw [placeSegment_of_fits h.file (Or.inr hfits)]
    exact h.written_last hsegments hbase hstop hfits hsize hcount hactive
  · have hbefore : ∀ segment ∈ s.segments, segment.baseOffset < recordSet.baseOffset := by
      have hbases := h.bases
      rw [hsegments] at hbases ⊢
      refine forall_mem_concat.mpr ⟨?_, hlt⟩
      exact fun segment hmem => lt_trans ((pairwise_concat.mp hbases).2 segment hmem) hlt
    have hposition : s.writePosition ≠ 0 := by
      obtain ⟨sets, hfills, hfirst, -⟩ := h.complete last
        (by rw [hsegments]; exact List.mem_append_right _ List.mem_cons_self)
      cases sets with
      | nil => cases hfirst
      | cons first rest =>
        have hsize := first.frameSize_pos s.logFrameAlignment_pos
        rw [← hstop, hfills.stop_eq, framesLength_cons]
        omega
    rw [placeSegment_of_full h.file (not_or.mpr ⟨hposition, hfits⟩)]
    exact (h.toStored.rollover recordSet.baseOffset _).written_new hbefore rfl rfl hsize hcount

end OneWrite

/-! ### Whole runs -/

/-- The shard after calls made one at a time, whatever they were answered. -/
def afterCalls (s : PartitionLogShard) (calls : List LogCall) : PartitionLogShard :=
  calls.foldl (fun s call => (s.call call).1) s

theorem Segmented.call (h : s.Segmented s.offsets.latest) {call : LogCall} (hne : call.records ≠ [])
    (hsize : call.records.length < 2 ^ 31) :
    (s.call call).1.Segmented (s.call call).1.offsets.latest := by
  rcases call.admission_cases s.toLogHead with ⟨hset, hlatest, -, -⟩ | ⟨hnone, hhead, -⟩
  · have hend := recordSetAt_endOffset s.offsets.latest call.records
    have hcount := one_le_estimateRecordCount hne
    rw [call_written hset h.file h.indexFile]
    have hlog : s.Segmented (recordSetAt s.offsets.latest call.records).baseOffset := h
    have hwritten := hlog.place hsize
      (by
        unfold RecordSet.endOffset at hend
        change s.offsets.latest ≤ _
        omega)
    have hlog := hwritten.withHead (call.admission s.toLogHead).head.settle
    rw [hend, ← hlatest] at hlog
    exact hlog
  · rw [call_of_refused hnone hhead]
    exact h

theorem Segmented.afterCalls (h : s.Segmented s.offsets.latest) {calls : List LogCall}
    (hcalls : ∀ call ∈ calls, call.records ≠ [] ∧ call.records.length < 2 ^ 31) :
    (s.afterCalls calls).Segmented (s.afterCalls calls).offsets.latest := by
  induction calls generalizing s with
  | nil => exact h
  | cons call rest ih =>
    obtain ⟨hne, hsize⟩ := hcalls call List.mem_cons_self
    exact ih (h.call hne hsize) fun c hc => hcalls c (List.mem_cons_of_mem _ hc)

/-- **How the log is laid out.**  The index entries tile the offsets up to the log end.  The
    entries of each segment tile its bytes up to its write position, its file is the frames
    of their record sets and nothing else, and it is named after the first of them; the
    names ascend.  Only a frame that is alone may take a segment past `segment_bytes`.  The
    last segment noted is the one being written. -/
structure LaidOut (s : PartitionLogShard) : Prop where
  offsets : Tiles IndexEntry.baseOffset IndexEntry.endOffset 0 s.indexEntries s.offsets.latest
  frames : ∀ segment ∈ s.segments,
    Tiles IndexEntry.segmentPosition (IndexEntry.frameEnd s.logFrameAlignment) 0
      (entriesOf segment.baseOffset s.indexEntries) segment.writePosition
  files : ∀ segment ∈ s.segments, ∃ sets,
    entriesOf segment.baseOffset s.indexEntries =
        entriesAt s.logFrameAlignment segment.baseOffset 0 sets ∧
      s.root.contents segment.baseOffset = framesOf s.logFrameAlignment sets
  noted : ∀ entry ∈ s.indexEntries, ∃ segment ∈ s.segments,
    segment.baseOffset = entry.segmentBase
  named : ∀ segment ∈ s.segments,
    (entriesOf segment.baseOffset s.indexEntries).head?.map IndexEntry.baseOffset =
      some segment.baseOffset
  bases : s.segments.Pairwise fun segment later => segment.baseOffset < later.baseOffset
  bounded : ∀ segment ∈ s.segments,
    1 < (entriesOf segment.baseOffset s.indexEntries).length →
      segment.writePosition ≤ s.segmentBytes
  back : s.indexEntries ≠ [] → ∃ last, s.segments.getLast? = some last ∧
    last.baseOffset = s.activeSegmentBaseOffset ∧ last.writePosition = s.writePosition

theorem Segmented.laidOut (h : s.Segmented s.offsets.latest) :
    s.LaidOut where
  offsets := h.offsets
  frames := by
    intro segment hsegment
    obtain ⟨sets, hfills, -⟩ := h.complete segment hsegment
    have htiles := tiles_entriesAt s.logFrameAlignment_pos segment.baseOffset 0 hfills.sizes
    rw [Nat.zero_add, ← hfills.stop_eq, ← hfills.entries] at htiles
    exact htiles
  files := by
    intro segment hsegment
    obtain ⟨sets, hfills, -⟩ := h.complete segment hsegment
    exact ⟨sets, hfills.entries, hfills.contents⟩
  noted := h.noted
  named := by
    intro segment hsegment
    obtain ⟨sets, hfills, hfirst, -⟩ := h.complete segment hsegment
    rw [hfills.entries]
    cases sets with
    | nil => cases hfirst
    | cons first rest => exact hfirst
  bases := h.bases
  bounded := by
    intro segment hsegment hmany
    obtain ⟨sets, hfills, -, hfits⟩ := h.complete segment hsegment
    rw [hfills.entries, length_entriesAt] at hmany
    exact hfits hmany
  back := by
    intro hne
    rcases h.active with ⟨hnone, -, -⟩ | ⟨front, last, hsegments, hbase, hstop, -⟩
    · obtain ⟨entry, hentry⟩ := List.exists_mem_of_ne_nil _ hne
      obtain ⟨segment, hsegment, -⟩ := h.noted entry hentry
      rw [hnone] at hsegment
      cases hsegment
    · exact ⟨last, by rw [hsegments, List.getLast?_concat], hbase, hstop⟩

end PartitionLogShard

open PartitionLogShard

/-- **The segment layout**, after any calls with records made one at a time on an empty
    partition, for every segment size and alignment.  A record set that arrives in a request
    is shorter than `2 ^ 31` bytes. -/
theorem segments_laid_out (config : PartitionConfig) (segmentBytes alignment : Nat)
    (hpos : 0 < alignment) (calls : List LogCall)
    (hcalls : ∀ call ∈ calls, call.records ≠ [] ∧ call.records.length < 2 ^ 31) :
    ((fresh config segmentBytes alignment hpos).afterCalls calls).LaidOut :=
  ((segmented_fresh config segmentBytes alignment hpos).afterCalls hcalls).laidOut

/-- Two frames that fill a segment, one larger than a segment, a refused call and one more
    frame. -/
theorem segments_laid_out_oversized :
    ((fresh defaultPartition 64 32 (by decide)).afterCalls
        [.append [1, 2, 3] 1, .append [4] 1, .append (List.replicate 50 5) 1, .append [6] 2,
          .append [7] 1]).LaidOut ∧
      ((fresh defaultPartition 64 32 (by decide)).afterCalls
        [.append [1, 2, 3] 1, .append [4] 1, .append (List.replicate 50 5) 1, .append [6] 2,
          .append [7] 1]).segments = [⟨0, 1, 64⟩, ⟨2, 2, 96⟩, ⟨3, 3, 32⟩] :=
  ⟨segments_laid_out defaultPartition 64 32 (by decide) _ (by decide), by decide +kernel⟩

end Mkmq
