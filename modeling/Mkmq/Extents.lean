import Mkmq.FrameScan

/-!
# The parts of segment files that a scan passes

`recover_segment_file` reads a file frame by frame and leaves it at the first frame it
does not recognise.  An `Extent` is the part it has passed.  Whether a frame is read
depends only on its own bytes, so an extent survives any write behind it; the segments
noted for the entries of extents end where the extents end; and a scan of files that
hold extents finds their entries, followed by whatever reads as a frame behind them.
-/

namespace Mkmq

open ByteCodec PartitionLogShard

variable {alignment : Nat} {entries : List IndexEntry} {dir : DataDir} {segmentBase : Int}

/-! ### One frame -/

section ReadFrame

variable {alignment : Nat} {segment other : Bytes} {position : Nat} {frame : ScannedFrame}

/-- **What the scan takes for a frame**: the magic, a positive byte count, and as many
    bytes in the file as the frame of that count has. -/
theorem readFrame_eq_some_iff (h20 : 20 ≤ alignment) :
    readFrame alignment segment position = some frame ↔
      position + frameSize alignment frame.recordBytes.toNat ≤ segment.length ∧
        0 < frame.recordBytes ∧ slice segment position 8 = kLogMagic ∧
        getI64 segment (position + 8) = frame.baseOffset ∧
        getI32 segment (position + 16) = frame.recordBytes ∧
        slice segment (position + 20) frame.recordBytes.toNat = frame.records := by
  have hpos : 0 < alignment := by omega
  -- both buffers show the bytes of the file
  have hbuffer : ∀ n : Nat,
      slice (slice segment position (frameSize alignment n)) 0 8 = slice segment position 8 ∧
        getI64 (slice segment position (frameSize alignment n)) 8 =
          getI64 segment (position + 8) ∧
        getI32 (slice segment position (frameSize alignment n)) 16 =
          getI32 segment (position + 16) := by
    intro n
    have hsize := le_frameSize hpos n
    refine ⟨?_, (getI64_of_slice rfl (by omega)).symm, (getI32_of_slice rfl (by omega)).symm⟩
    rw [slice_slice (by omega), Nat.add_zero]
  have hpayload : ∀ n : Nat,
      slice (slice segment position (frameSize alignment n)) 20 n =
        slice segment (position + 20) n := by
    intro n
    have hsize := le_frameSize hpos n
    rw [slice_slice (by omega)]
  unfold readFrame
  simp only [slice_header_magic h20, getI64_header h20, getI32_header h20]
  constructor
  · intro hread
    split at hread <;> [skip; cases hread]
    split at hread <;> [cases hread; skip]
    split at hread <;> [cases hread; skip]
    split at hread <;> [cases hread; skip]
    next _ hmagic hcount hend =>
      have hmagic := not_not.mp hmagic
      obtain ⟨baseOffset, recordBytes, records⟩ := frame
      have hslice := hpayload (getI32 segment (position + 16)).toNat
      split at hread
      · next hone =>
          simp only [Option.some.injEq, ScannedFrame.mk.injEq] at hread
          obtain ⟨hbase, hbytes, hrecords⟩ := hread
          rw [hone, hrecords] at hslice
          rw [hbytes] at hslice hend hcount
          exact ⟨not_lt.mp hend, not_le.mp hcount, hmagic, hbase, hbytes, hslice.symm⟩
      · split at hread <;> [cases hread; skip]
        simp only [Option.some.injEq, ScannedFrame.mk.injEq] at hread
        obtain ⟨hbase, hbytes, hrecords⟩ := hread
        rw [hrecords] at hslice
        rw [hbytes] at hslice hend hcount
        exact ⟨not_lt.mp hend, not_le.mp hcount, hmagic, hbase, hbytes, hslice.symm⟩
  · rintro ⟨hend, hcount, hmagic, hbase, hbytes, hrecords⟩
    have hblock := alignment_le_frameSize hpos frame.recordBytes.toNat
    rw [if_pos (by omega)]
    simp only [hmagic, hbase, hbytes, ne_eq, not_true_eq_false, if_false,
      if_neg (not_le.mpr hcount),
      if_neg (not_lt.mpr hend :
        ¬ position + frameSize alignment frame.recordBytes.toNat > segment.length)]
    split
    · next hone =>
        have hslice := hpayload frame.recordBytes.toNat
        rw [hone, hrecords] at hslice
        rw [hslice]
    · obtain ⟨hmagic', hbase', hbytes'⟩ := hbuffer frame.recordBytes.toNat
      rw [if_neg (by simp [hmagic', hmagic, hbase', hbase, hbytes', hbytes])]
      rw [hpayload, hrecords]

/-- A frame is read again where its bytes are the same. -/
theorem readFrame_of_agree (h20 : 20 ≤ alignment)
    (h : readFrame alignment segment position = some frame) {stop : Nat}
    (hstop : position + frameSize alignment frame.recordBytes.toNat ≤ stop)
    (hagree : ∀ i < stop, other[i]? = segment[i]?) :
    readFrame alignment other position = some frame := by
  have hpos : 0 < alignment := by omega
  have hsize := le_frameSize hpos frame.recordBytes.toNat
  obtain ⟨hend, hcount, hmagic, hbase, hbytes, hrecords⟩ := (readFrame_eq_some_iff h20).mp h
  have hslice : ∀ at' n : Nat, at' + n ≤ stop → slice other at' n = slice segment at' n := by
    intro at' n hle
    apply slice_eq_of_getElem?
    intro i _ hi
    exact hagree i (by omega)
  apply (readFrame_eq_some_iff h20).mpr
  refine ⟨?_, hcount, ?_, ?_, ?_, ?_⟩
  · -- the last byte of the frame is there
    have hlast := hagree (position + frameSize alignment frame.recordBytes.toNat - 1) (by omega)
    rw [List.getElem?_eq_getElem (l := segment) (by omega)] at hlast
    obtain ⟨hlt, -⟩ := List.getElem?_eq_some_iff.mp hlast
    omega
  · rw [hslice position 8 (by omega), hmagic]
  · rw [← hbase]
    unfold getI64
    rw [hslice _ 8 (by omega)]
  · rw [← hbytes]
    unfold getI32
    rw [hslice _ 4 (by omega)]
  · rw [← hrecords]
    exact hslice _ _ (by omega)

/-- Only the bytes from its position on decide whether a frame is read. -/
theorem readFrame_drop (h20 : 20 ≤ alignment) (segment : Bytes) (position : Nat) :
    readFrame alignment segment position = readFrame alignment (segment.drop position) 0 := by
  apply Option.ext
  intro frame
  have hsize := le_frameSize (by omega : 0 < alignment) frame.recordBytes.toNat
  rw [readFrame_eq_some_iff h20, readFrame_eq_some_iff h20]
  unfold getI64 getI32
  simp only [slice_drop, List.length_drop, Nat.zero_add, Nat.add_zero]
  constructor
  · rintro ⟨hend, hrest⟩
    exact ⟨by omega, hrest⟩
  · rintro ⟨hend, hrest⟩
    exact ⟨by omega, hrest⟩

/-- The bytes that decide are the same. -/
theorem readFrame_of_drop (h20 : 20 ≤ alignment)
    (hdrop : other.drop position = segment.drop position) :
    readFrame alignment other position = readFrame alignment segment position := by
  rw [readFrame_drop h20, hdrop, ← readFrame_drop h20]

/-- A frame that is read holds records. -/
theorem records_of_readFrame (h20 : 20 ≤ alignment)
    (h : readFrame alignment segment position = some frame) : frame.records ≠ [] := by
  obtain ⟨hend, hcount, -, -, -, hrecords⟩ := (readFrame_eq_some_iff h20).mp h
  have hsize := le_frameSize (by omega : 0 < alignment) frame.recordBytes.toNat
  intro hnil
  have hslice := congrArg List.length hrecords
  rw [length_slice_of_le (by omega), hnil, List.length_nil] at hslice
  omega

/-- Its base offset is a 64-bit integer. -/
theorem fitsInt64_of_readFrame (h20 : 20 ≤ alignment)
    (h : readFrame alignment segment position = some frame) : FitsInt64 frame.baseOffset := by
  obtain ⟨-, -, -, hoffset, -, -⟩ := (readFrame_eq_some_iff h20).mp h
  obtain ⟨hlo, hhi⟩ := signed_bounds 64 (leNat (slice segment (position + 8) 8))
  rw [← hoffset]
  unfold FitsInt64 getI64
  constructor <;> omega

end ReadFrame

/-! ### A part of a file that a scan passes -/

/-- A scan of the file goes from `position` over the frames of the entries to `stop`. -/
def Passes (alignment : Nat) (segmentBase : Int) (segment : Bytes) :
    Nat → List IndexEntry → Nat → Prop
  | position, [], stop => position = stop
  | position, entry :: rest, stop =>
    ∃ frame, readFrame alignment segment position = some frame ∧
      entry = frame.entryAt segmentBase position ∧
      Passes alignment segmentBase segment
        (position + frameSize alignment frame.recordBytes.toNat) rest stop

section Passes

variable {alignment position mid stop : Nat} {segmentBase : Int} {segment other : Bytes}
  {entries more : List IndexEntry} {entry : IndexEntry}

theorem Passes.append (h : Passes alignment segmentBase segment position entries mid)
    (hmore : Passes alignment segmentBase segment mid more stop) :
    Passes alignment segmentBase segment position (entries ++ more) stop := by
  induction entries generalizing position with
  | nil =>
    cases h
    exact hmore
  | cons entry rest ih =>
    obtain ⟨frame, hread, hentry, hrest⟩ := h
    exact ⟨frame, hread, hentry, ih hrest⟩

theorem Passes.split (h : Passes alignment segmentBase segment position (entries ++ more) stop) :
    ∃ mid, Passes alignment segmentBase segment position entries mid ∧
      Passes alignment segmentBase segment mid more stop := by
  induction entries generalizing position with
  | nil => exact ⟨position, rfl, h⟩
  | cons entry rest ih =>
    obtain ⟨frame, hread, hentry, hrest⟩ := h
    obtain ⟨mid, hfirst, hsecond⟩ := ih hrest
    exact ⟨mid, ⟨frame, hread, hentry, hfirst⟩, hsecond⟩

theorem Passes.length_le (hpos : 0 < alignment)
    (h : Passes alignment segmentBase segment position entries stop) :
    position + entries.length ≤ stop := by
  induction entries generalizing position with
  | nil =>
    cases h
    simp
  | cons entry rest ih =>
    obtain ⟨frame, -, -, hrest⟩ := h
    have hnext := ih hrest
    have hsize := alignment_le_frameSize hpos frame.recordBytes.toNat
    simp only [List.length_cons]
    omega

/-- The last frame passed ends at `stop` and inside the file. -/
theorem Passes.last (h20 : 20 ≤ alignment)
    (h : Passes alignment segmentBase segment position entries stop)
    (hlast : entries.getLast? = some entry) :
    entry.segmentBase = segmentBase ∧
      entry.segmentPosition + entry.frameSize alignment = stop ∧ stop ≤ segment.length := by
  obtain ⟨front, rfl⟩ := List.getLast?_eq_some_iff.mp hlast
  obtain ⟨mid, -, frame, hread, rfl, hend⟩ := h.split
  obtain ⟨hinside, -⟩ := (readFrame_eq_some_iff h20).mp hread
  cases hend
  exact ⟨rfl, rfl, hinside⟩

theorem Passes.in_file (h20 : 20 ≤ alignment)
    (h : Passes alignment segmentBase segment position entries stop) (hne : entries ≠ []) :
    stop ≤ segment.length := by
  exact (h.last h20 (List.getLast?_eq_some_getLast hne)).2.2

/-- Every entry stands for a frame the scan read. -/
theorem Passes.mem (hpos : 0 < alignment)
    (h : Passes alignment segmentBase segment position entries stop) (hentry : entry ∈ entries) :
    ∃ frame, readFrame alignment segment entry.segmentPosition = some frame ∧
      entry = frame.entryAt segmentBase entry.segmentPosition ∧
      entry.segmentPosition + entry.frameSize alignment ≤ stop := by
  obtain ⟨front, back, rfl⟩ := List.append_of_mem hentry
  obtain ⟨mid, -, frame, hread, rfl, hrest⟩ := h.split
  have hle := hrest.length_le hpos
  exact ⟨frame, hread, rfl, le_trans (Nat.le_add_right _ _) hle⟩

/-- Only the last entry's frame ends at `stop`. -/
theorem Passes.eq_last (hpos : 0 < alignment)
    (h : Passes alignment segmentBase segment position (entries ++ more) stop) (hmore : more ≠ [])
    (hentry : entry ∈ entries) : entry.segmentPosition + entry.frameSize alignment < stop := by
  obtain ⟨mid, hfirst, hsecond⟩ := h.split
  obtain ⟨-, -, -, hle⟩ := hfirst.mem hpos hentry
  have hlater := hsecond.length_le hpos
  have hlength := List.length_pos_of_ne_nil hmore
  omega

theorem Passes.le_position (h : Passes alignment segmentBase segment position entries stop)
    (hentry : entry ∈ entries) : position ≤ entry.segmentPosition := by
  induction entries generalizing position with
  | nil => cases hentry
  | cons first rest ih =>
    obtain ⟨frame, -, rfl, hrest⟩ := h
    rcases List.mem_cons.mp hentry with rfl | hmem
    · exact le_refl _
    · exact le_trans (Nat.le_add_right _ _) (ih hrest hmem)

/-- Only the first entry's frame is at the beginning of the file. -/
theorem Passes.pairwise (hpos : 0 < alignment)
    (h : Passes alignment segmentBase segment position entries stop) :
    entries.Pairwise fun entry later =>
      entry.segmentBase = later.segmentBase ∧ 0 < later.segmentPosition := by
  induction entries generalizing position with
  | nil => exact List.Pairwise.nil
  | cons first rest ih =>
    obtain ⟨frame, -, rfl, hrest⟩ := h
    refine List.pairwise_cons.mpr ⟨?_, ih hrest⟩
    intro later hlater
    obtain ⟨frame', -, hlast, -⟩ := hrest.mem hpos hlater
    have hle := hrest.le_position hlater
    have hsize := le_frameSize hpos frame.recordBytes.toNat
    exact ⟨(congrArg IndexEntry.segmentBase hlast).symm, by omega⟩

theorem Passes.of_agree (h20 : 20 ≤ alignment)
    (h : Passes alignment segmentBase segment position entries stop)
    (hagree : ∀ i < stop, other[i]? = segment[i]?) :
    Passes alignment segmentBase other position entries stop := by
  induction entries generalizing position with
  | nil => exact h
  | cons entry rest ih =>
    obtain ⟨frame, hread, hentry, hrest⟩ := h
    have hle := hrest.length_le (by omega)
    exact ⟨frame, readFrame_of_agree h20 hread (by omega) hagree, hentry, ih hrest⟩

theorem Passes.scanSegment_eq (h : Passes alignment segmentBase segment position entries stop)
    (fuel : Nat) :
    scanSegment alignment segmentBase segment (entries.length + fuel) position =
      entries ++ scanSegment alignment segmentBase segment fuel stop := by
  induction entries generalizing position with
  | nil =>
    cases h
    simp
  | cons entry rest ih =>
    obtain ⟨frame, hread, rfl, hrest⟩ := h
    rw [List.length_cons, Nat.add_right_comm, scanSegment, hread]
    simp [ih hrest]

/-- What a scan finds, it passes; given enough turns it stops where no frame follows. -/
theorem exists_passes (hpos : 0 < alignment) (segmentBase : Int) (segment : Bytes)
    (fuel position : Nat) :
    ∃ stop, Passes alignment segmentBase segment position
        (scanSegment alignment segmentBase segment fuel position) stop ∧
      (segment.length ≤ position + fuel → readFrame alignment segment stop = none) := by
  induction fuel generalizing position with
  | zero =>
    refine ⟨position, rfl, ?_⟩
    intro hlength
    exact readFrame_of_end (by omega)
  | succ fuel ih =>
    rw [scanSegment]
    cases hread : readFrame alignment segment position with
    | none => exact ⟨position, rfl, fun _ => hread⟩
    | some frame =>
      have hsize := alignment_le_frameSize hpos frame.recordBytes.toNat
      obtain ⟨stop, hpasses, hstops⟩ :=
        ih (position + frameSize alignment frame.recordBytes.toNat)
      refine ⟨stop, ⟨frame, hread, rfl, hpasses⟩, ?_⟩
      intro hlength
      exact hstops (by omega)

/-- **A scan of the whole file** finds the entries passed and whatever follows them. -/
theorem Passes.scanFile (h20 : 20 ≤ alignment)
    (h : Passes alignment segmentBase segment 0 entries stop) :
    entries <+: scanSegment alignment segmentBase segment segment.length 0 ∧
      (scanSegment alignment segmentBase segment segment.length 0 = entries ↔
        readFrame alignment segment stop = none) := by
  have hle : entries.length ≤ segment.length := by
    by_cases hnil : entries = []
    · simp [hnil]
    · have hlength := h.length_le (by omega)
      have hfile := h.in_file h20 hnil
      omega
  obtain ⟨fuel, hfuel⟩ := Nat.exists_eq_add_of_le hle
  rw [hfuel, h.scanSegment_eq]
  refine ⟨List.prefix_append _ _, ?_⟩
  rw [List.append_right_eq_self]
  cases fuel with
  | zero =>
    -- the file ends with the entries, or before them
    have hlength := h.length_le (by omega)
    have hend : readFrame alignment segment stop = none := readFrame_of_end (by omega)
    simp [scanSegment, hend]
  | succ fuel =>
    rw [scanSegment]
    cases readFrame alignment segment stop <;> simp

end Passes

/-! ### Entries in the index file -/

/-- Encoded entries are read back up to the end of the file, or to a last slot that is
    not complete. -/
theorem leadingEntries_indexOf (hpos : 0 < alignment)
    (hdecodes : ∀ entry ∈ entries, decodeIndexEntry (encodeIndexEntry alignment entry) = some entry)
    {rest : Bytes} (hrest : rest.length < indexEntrySize alignment) (front : Bytes) {fuel : Nat}
    (hfuel : entries.length ≤ fuel) :
    leadingEntries alignment (front ++ indexOf alignment entries ++ rest) fuel front.length =
      entries := by
  induction entries generalizing front fuel with
  | nil =>
    cases fuel with
    | zero => rfl
    | succ fuel =>
      rw [leadingEntries, if_neg]
      simp [indexOf]
      omega
  | cons entry later ih =>
    obtain ⟨fuel, rfl⟩ := Nat.exists_eq_add_of_le' (Nat.one_le_iff_ne_zero.mpr
      (Nat.ne_of_gt (lt_of_lt_of_le (Nat.succ_pos _) hfuel)))
    have hlength := length_encodeIndexEntry hpos entry
    have hindex : front ++ indexOf alignment (entry :: later) ++ rest =
        front ++ encodeIndexEntry alignment entry ++ (indexOf alignment later ++ rest) := by
      simp [indexOf]
    have hslice := slice_append_exact front (encodeIndexEntry alignment entry)
      (indexOf alignment later ++ rest)
    have hnext := ih (fun e he => hdecodes e (List.mem_cons_of_mem _ he))
      (front ++ encodeIndexEntry alignment entry) (Nat.le_of_succ_le_succ hfuel)
    rw [List.length_append, hlength, List.append_assoc _ (indexOf alignment later)] at hnext
    rw [hlength] at hslice
    rw [hindex, leadingEntries, hslice, hdecodes entry List.mem_cons_self, if_pos]
    · simp only [hnext]
    · simp only [List.length_append, hlength]
      omega

theorem length_indexOf (hpos : 0 < alignment) (entries : List IndexEntry) :
    (indexOf alignment entries).length = entries.length * indexEntrySize alignment :=
  length_flatten_encodeIndexEntry hpos entries

/-- An index file of entries that decode is read back completely. -/
theorem indexFound_indexOf (hpos : 0 < alignment)
    (hdecodes : ∀ entry ∈ entries, decodeIndexEntry (encodeIndexEntry alignment entry) = some entry)
    {rest : Bytes} (hrest : rest.length < indexEntrySize alignment)
    (hindex : dir.index = some (indexOf alignment entries ++ rest)) :
    indexFound alignment dir = entries := by
  have hfuel : entries.length ≤ (indexOf alignment entries ++ rest).length := by
    rw [List.length_append, length_indexOf hpos]
    have hsize := le_indexEntrySize hpos
    have hle := Nat.le_mul_of_pos_right entries.length (by omega : 0 < indexEntrySize alignment)
    omega
  have hread := leadingEntries_indexOf hpos hdecodes hrest [] hfuel
  simpa [indexFound, hindex] using hread

/-- **The entry of a frame decodes** if its end can be stored. -/
theorem decode_entryAt (h20 : 20 ≤ alignment) {segment : Bytes} {position : Nat}
    {frame : ScannedFrame} (hread : readFrame alignment segment position = some frame)
    (hlength : segment.length < 2 ^ 64) (hbase : FitsInt64 segmentBase)
    (hlast : FitsInt64 (frame.entryAt segmentBase position).lastOffset) :
    decodeIndexEntry (encodeIndexEntry alignment (frame.entryAt segmentBase position)) =
      some (frame.entryAt segmentBase position) := by
  obtain ⟨hend, hcount, -, -, hbytes, -⟩ := (readFrame_eq_some_iff h20).mp hread
  have hsize := le_frameSize (by omega : 0 < alignment) frame.recordBytes.toNat
  have hfits := fitsInt64_of_readFrame h20 hread
  have hsigned : -2 ^ 31 ≤ frame.recordBytes ∧ frame.recordBytes < 2 ^ 31 := by
    obtain ⟨hlo, hhi⟩ := signed_bounds 32 (leNat (slice segment (position + 16) 4))
    rw [← hbytes]
    unfold getI32
    constructor <;> omega
  have hne := records_of_readFrame h20 hread
  have hone := one_le_estimateRecordCount hne
  have hstorable : (frame.entryAt segmentBase position).Storable :=
    { baseOffset := hfits
      lastOffset := hlast
      segmentBase := hbase
      segmentPosition := by
        change position < 2 ^ 64
        omega
      recordBytes := hsigned }
  rw [decodeIndexEntry_encode _ hstorable, if_neg]
  rintro (hzero | hrange)
  · exact absurd hcount (not_lt.mpr hzero)
  · simp only [ScannedFrame.entryAt] at hrange
    omega

/-- The entry noted for a record set decodes likewise. -/
theorem decode_recordSet (alignment : Nat) {recordSet : RecordSet} (hs : recordSet.Storable)
    (hcounted : recordSet.Counted) {position : Nat} (hlast : FitsInt64 recordSet.lastOffset)
    (hbase : FitsInt64 segmentBase) (hposition : position < 2 ^ 64) :
    decodeIndexEntry (encodeIndexEntry alignment (recordSet.entryAt segmentBase position)) =
      some (recordSet.entryAt segmentBase position) := by
  have hsize := hs.size
  have hlength := List.length_pos_of_ne_nil hs.ne_nil
  have hone := one_le_estimateRecordCount hs.ne_nil
  have hbytes := RecordSet.entryAt_recordBytes_of_lt hs.size segmentBase position
  have hstorable : (recordSet.entryAt segmentBase position).Storable :=
    { baseOffset := hs.base
      lastOffset := hlast
      segmentBase := hbase
      segmentPosition := hposition
      recordBytes := by
        rw [hbytes]
        constructor <;> omega }
  rw [decodeIndexEntry_encode _ hstorable, if_neg]
  rintro (hzero | hrange)
  · rw [hbytes] at hzero
    omega
  · have hrange' : recordSet.lastOffset < recordSet.baseOffset := hrange
    rw [hcounted] at hrange'
    omega

/-! ### Extents -/

/-- The part of the segment file `base` that a scan passes. -/
structure Extent where
  base : Int
  entries : List IndexEntry := []
  stop : Nat := 0

def Extent.In (alignment : Nat) (dir : DataDir) (extent : Extent) : Prop :=
  Passes alignment extent.base (dir.contents extent.base) 0 extent.entries extent.stop

section Noted

variable {alignment : Nat} {segmentBase : Int} {segment : Bytes} {position stop : Nat}
  {entries : List IndexEntry}

theorem foldl_noteSegment_last (h : Passes alignment segmentBase segment position entries stop)
    (front : List SegmentInfo) (last : Int) :
    ∃ last', entries.foldl (noteSegment alignment) (front ++ [⟨segmentBase, last, position⟩]) =
      front ++ [⟨segmentBase, last', stop⟩] := by
  induction entries generalizing position last with
  | nil =>
    cases h
    exact ⟨last, rfl⟩
  | cons entry rest ih =>
    obtain ⟨frame, -, rfl, hrest⟩ := h
    have hnote : noteSegment alignment (front ++ [⟨segmentBase, last, position⟩])
        (frame.entryAt segmentBase position) =
        front ++ [⟨segmentBase, max last (frame.entryAt segmentBase position).lastOffset,
          position + frameSize alignment frame.recordBytes.toNat⟩] := by
      simp [noteSegment, ScannedFrame.entryAt]
    rw [List.foldl_cons, hnote]
    exact ih hrest _

theorem foldl_noteSegment_new (h : Passes alignment segmentBase segment 0 entries stop)
    (hne : entries ≠ []) {segments : List SegmentInfo}
    (hnew : ∀ noted ∈ segments, noted.baseOffset ≠ segmentBase) :
    ∃ last, entries.foldl (noteSegment alignment) segments =
      segments ++ [⟨segmentBase, last, stop⟩] := by
  cases entries with
  | nil => exact absurd rfl hne
  | cons entry rest =>
    obtain ⟨frame, -, rfl, hrest⟩ := h
    have hnote : noteSegment alignment segments (frame.entryAt segmentBase 0) =
        segments ++ [⟨segmentBase, (frame.entryAt segmentBase 0).lastOffset,
          0 + frameSize alignment frame.recordBytes.toNat⟩] := by
      unfold noteSegment
      cases hlast : segments.getLast? with
      | none => simp [List.getLast?_eq_none_iff.mp hlast, ScannedFrame.entryAt]
      | some noted =>
        have hother := hnew noted (List.mem_of_getLast? hlast)
        simp [ScannedFrame.entryAt, hother]
    rw [List.foldl_cons, hnote]
    exact foldl_noteSegment_last hrest _ _

/-- **The segments noted for extents** are their files, up to where each one stops. -/
theorem notedSegments_extents {dir : DataDir} {extents : List Extent}
    (hin : ∀ extent ∈ extents, extent.In alignment dir)
    (hfilled : ∀ extent ∈ extents, extent.entries ≠ [])
    (hbases : extents.Pairwise fun extent later => extent.base < later.base) :
    (notedSegments alignment (extents.flatMap Extent.entries)).map
        (fun segment => (segment.baseOffset, segment.writePosition)) =
      extents.map fun extent => (extent.base, extent.stop) := by
  induction extents using List.reverseRecOn with
  | nil => rfl
  | append_singleton front last ih =>
    obtain ⟨hfront, -, hbefore⟩ := List.pairwise_append.mp hbases
    have hearlier := ih (fun e he => hin e (List.mem_append_left _ he))
      (fun e he => hfilled e (List.mem_append_left _ he)) hfront
    have hmem : last ∈ front ++ [last] := List.mem_append_right _ List.mem_cons_self
    have hnew : ∀ noted ∈ notedSegments alignment (front.flatMap Extent.entries),
        noted.baseOffset ≠ last.base := by
      intro noted hnoted heq
      have hpair := List.mem_map_of_mem
        (f := fun segment : SegmentInfo => (segment.baseOffset, segment.writePosition)) hnoted
      rw [hearlier] at hpair
      obtain ⟨extent, hextent, hsame⟩ := List.mem_map.mp hpair
      have hlt := hbefore extent hextent last List.mem_cons_self
      rw [(Prod.mk.inj hsame).1, heq] at hlt
      exact lt_irrefl _ hlt
    obtain ⟨offset, hfold⟩ := foldl_noteSegment_new (hin last hmem) (hfilled last hmem) hnew
    have hnoted : notedSegments alignment ((front ++ [last]).flatMap Extent.entries) =
        notedSegments alignment (front.flatMap Extent.entries) ++
          [⟨last.base, offset, last.stop⟩] := by
      rw [← hfold]
      simp [notedSegments]
    rw [hnoted, List.map_append, hearlier, List.map_append]
    rfl

theorem lastNoted_extents {dir : DataDir} {front : List Extent} {active : Extent}
    (hin : ∀ extent ∈ front ++ [active], extent.In alignment dir)
    (hfilled : ∀ extent ∈ front ++ [active], extent.entries ≠ [])
    (hbases : (front ++ [active]).Pairwise fun extent later => extent.base < later.base) :
    lastNoted alignment ((front ++ [active]).flatMap Extent.entries) =
      (active.base, active.stop) := by
  have hnoted := congrArg List.getLast? (notedSegments_extents hin hfilled hbases)
  rw [List.getLast?_map, List.getLast?_map, List.getLast?_concat] at hnoted
  unfold lastNoted
  rw [hnoted]
  rfl

end Noted

theorem length_flatMap_le_of_extends {α β : Type} {l : List α} {f g : α → List β}
    (h : ∀ x ∈ l, f x <+: g x) : (l.flatMap f).length ≤ (l.flatMap g).length := by
  induction l with
  | nil => simp
  | cons x rest ih =>
    have hx := (h x List.mem_cons_self).length_le
    have hrest := ih fun y hy => h y (List.mem_cons_of_mem _ hy)
    simp only [List.flatMap_cons, List.length_append]
    omega

/-- Lists that extend others give the same whole only if none extends. -/
theorem flatMap_eq_iff_of_extends {α β : Type} {l : List α} {f g : α → List β}
    (h : ∀ x ∈ l, f x <+: g x) : l.flatMap g = l.flatMap f ↔ ∀ x ∈ l, g x = f x := by
  constructor
  · intro heq
    induction l with
    | nil => exact fun _ hx => absurd hx List.not_mem_nil
    | cons x rest ih =>
      have hrest : ∀ y ∈ rest, f y <+: g y := fun y hy => h y (List.mem_cons_of_mem _ hy)
      have hx := h x List.mem_cons_self
      have hlengths := congrArg List.length heq
      have hrestLe := length_flatMap_le_of_extends hrest
      have hxLe := hx.length_le
      simp only [List.flatMap_cons, List.length_append] at hlengths
      have hsame : g x = f x := (hx.eq_of_length (by omega)).symm
      have htail : rest.flatMap g = rest.flatMap f := by
        simp only [List.flatMap_cons, hsame] at heq
        exact List.append_cancel_left heq
      intro y hy
      rcases List.mem_cons.mp hy with rfl | hy
      · exact hsame
      · exact ih hrest htail y hy
  · intro heq
    exact List.flatMap_congr heq

/-- **A scan of files that hold extents**: nothing is found in the others. -/
theorem scanFiles_extents {extents : List Extent} (hascending : OrderedStore.Ascending dir.segments)
    (hbases : extents.Pairwise fun extent later => extent.base < later.base)
    (hunread : ∀ file ∈ dir.segments, (∀ extent ∈ extents, extent.base ≠ file.1) →
      readFrame alignment file.2 0 = none) :
    scanFiles alignment dir.segments = extents.flatMap fun extent =>
      scanSegment alignment extent.base (dir.contents extent.base)
        (dir.contents extent.base).length 0 := by
  have hkeys : (extents.map Extent.base).Pairwise (· < ·) := List.pairwise_map.mpr hbases
  have hfound : ∀ file ∈ dir.segments,
      scanSegment alignment file.1 file.2 file.2.length 0 ≠ [] →
        file.1 ∈ extents.map Extent.base := by
    intro file hfile hne
    by_contra hout
    have hnone := hunread file hfile fun extent hextent heq =>
      hout (List.mem_map.mpr ⟨extent, hextent, heq⟩)
    apply hne
    cases hlength : file.2.length with
    | zero => rfl
    | succ fuel => rw [scanSegment, hnone]
  have hscan := hascending.flatMap_eq
    (g := fun base segment => scanSegment alignment base segment segment.length 0)
    (extents.map Extent.base) hkeys hfound
  unfold scanFiles
  rw [hscan, List.flatMap_map]
  apply List.flatMap_congr
  intro extent _
  unfold DataDir.contents
  cases OrderedStore.find extent.base dir.segments <;> rfl

/-- A scan finds the entries file by file, each from its beginning on. -/
theorem scanFiles_pairwise (hpos : 0 < alignment)
    (hascending : OrderedStore.Ascending dir.segments) :
    (scanFiles alignment dir.segments).Pairwise fun entry later =>
      entry.segmentBase < later.segmentBase ∨
        entry.segmentBase = later.segmentBase ∧ 0 < later.segmentPosition := by
  have hscan : ∀ file : Int × Bytes, ∃ stop, Passes alignment file.1 file.2 0
      (scanSegment alignment file.1 file.2 file.2.length 0) stop := fun file => by
    obtain ⟨stop, hpasses, -⟩ := exists_passes hpos file.1 file.2 file.2.length 0
    exact ⟨stop, hpasses⟩
  have hbase : ∀ (file : Int × Bytes) (entry : IndexEntry),
      entry ∈ scanSegment alignment file.1 file.2 file.2.length 0 → entry.segmentBase = file.1 := by
    intro file entry hentry
    obtain ⟨_, hpasses⟩ := hscan file
    obtain ⟨_, -, hframe, -⟩ := hpasses.mem hpos hentry
    exact congrArg IndexEntry.segmentBase hframe
  unfold scanFiles
  refine List.pairwise_flatMap.mpr ⟨?_, ?_⟩
  · intro file _
    obtain ⟨_, hpasses⟩ := hscan file
    exact (hpasses.pairwise hpos).imp Or.inr
  · refine hascending.imp ?_
    intro file later hlt entry hentry other hother
    rw [hbase file entry hentry, hbase later other hother]
    exact Or.inl hlt

end Mkmq
