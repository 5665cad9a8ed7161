import Mathlib.Data.List.Induction
import Mkmq.Recovery
import Mkmq.Tiling

/-!
# What recovery finds in files of known contents

A segment file that starts with whole frames is scanned to the entries of their record
sets, up to the first frame that is torn, unmarked or empty; an index file yields the
entries of its leading slots.  These are the facts about single files that the results
about restarts are assembled from.
-/

namespace Mkmq

open ByteCodec Tiling

variable {recordSet : RecordSet} {alignment position : Nat} {segment : Bytes}
  {sets : List RecordSet} {segmentBase : Int} {entry : IndexEntry} {entries : List IndexEntry}

/-! ### Frames in a file -/

/-- The scan computes the last offset from the records; admission did the same. -/
def RecordSet.Counted (recordSet : RecordSet) : Prop :=
  recordSet.lastOffset = recordSet.baseOffset + estimateRecordCount recordSet.bytes - 1

theorem recordSetAt_counted (baseOffset : Int) (records : Bytes) :
    (recordSetAt baseOffset records).Counted := by
  have hend := recordSetAt_endOffset baseOffset records
  unfold RecordSet.endOffset at hend
  unfold RecordSet.Counted
  have hbase : (recordSetAt baseOffset records).baseOffset = baseOffset := rfl
  have hbytes : (recordSetAt baseOffset records).bytes = records := rfl
  rw [hbase, hbytes]
  omega

theorem RecordSet.Counted.endOffset_eq (h : recordSet.Counted) :
    recordSet.endOffset = recordSet.baseOffset + estimateRecordCount recordSet.bytes := by
  unfold RecordSet.endOffset
  rw [h, Int.sub_add_cancel]

theorem RecordSet.Counted.le_endOffset (h : recordSet.Counted) :
    recordSet.baseOffset ≤ recordSet.endOffset := by
  have hnonneg := estimateRecordCount_nonneg recordSet.bytes
  rw [h.endOffset_eq]
  omega

/-- The file holds the frames of `sets` one after the other from `position` on. -/
def FramesAt (alignment : Nat) (segment : Bytes) : Nat → List RecordSet → Prop
  | _, [] => True
  | position, recordSet :: rest =>
    slice segment position (recordSet.frameSize alignment) = recordSet.frame alignment ∧
      FramesAt alignment segment (position + recordSet.frameSize alignment) rest

/-- The bytes the frames of `sets` take. -/
def framesLength (alignment : Nat) (sets : List RecordSet) : Nat :=
  (sets.map (RecordSet.frameSize alignment)).sum

/-- The index entries of `sets`, framed one after the other from `position` on. -/
def entriesAt (alignment : Nat) (segmentBase : Int) : Nat → List RecordSet → List IndexEntry
  | _, [] => []
  | position, recordSet :: rest =>
    recordSet.entryAt segmentBase position ::
      entriesAt alignment segmentBase (position + recordSet.frameSize alignment) rest

@[simp] theorem framesLength_nil (alignment : Nat) : framesLength alignment [] = 0 := rfl

@[simp] theorem framesLength_cons (alignment : Nat) (recordSet : RecordSet)
    (rest : List RecordSet) : framesLength alignment (recordSet :: rest) =
      recordSet.frameSize alignment + framesLength alignment rest := by
  simp [framesLength]

@[simp] theorem framesLength_append (alignment : Nat) (front back : List RecordSet) :
    framesLength alignment (front ++ back) =
      framesLength alignment front + framesLength alignment back := by
  simp [framesLength]

theorem entriesAt_append (alignment : Nat) (segmentBase : Int) (position : Nat)
    (front back : List RecordSet) :
    entriesAt alignment segmentBase position (front ++ back) =
      entriesAt alignment segmentBase position front ++
        entriesAt alignment segmentBase (position + framesLength alignment front) back := by
  induction front generalizing position with
  | nil => simp [entriesAt]
  | cons recordSet rest ih =>
    simp only [List.cons_append, entriesAt, ih, framesLength_cons, Nat.add_assoc]

theorem length_entriesAt (alignment : Nat) (segmentBase : Int) (position : Nat)
    (sets : List RecordSet) :
    (entriesAt alignment segmentBase position sets).length = sets.length := by
  induction sets generalizing position with
  | nil => rfl
  | cons recordSet rest ih => rw [entriesAt, List.length_cons, ih, List.length_cons]

section ReadFrame

variable {alignment position : Nat} {segment : Bytes} {recordSet : RecordSet}

theorem readFrame_of_end (h : segment.length < position + alignment) :
    readFrame alignment segment position = none := by
  unfold readFrame
  rw [if_neg (not_le.mpr h)]

theorem slice_header_magic (h20 : 20 ≤ alignment) :
    slice (slice segment position alignment) 0 8 = slice segment position 8 := by
  rw [slice_slice (by omega), Nat.add_zero]

theorem readFrame_of_magic (h20 : 20 ≤ alignment) (h : slice segment position 8 ≠ kLogMagic) :
    readFrame alignment segment position = none := by
  unfold readFrame
  simp only [slice_header_magic h20, if_pos h, ite_self]

/-- A frame of which the file holds only a part. -/
theorem readFrame_of_truncated {recordBytes : Nat}
    (hbytes : getI32 (slice segment position alignment) 16 = recordBytes)
    (hend : segment.length < position + frameSize alignment recordBytes) :
    readFrame alignment segment position = none := by
  unfold readFrame
  simp only [hbytes, Int.toNat_natCast, gt_iff_lt, if_pos hend, ite_self]

/-- A header field read from the aligned header block. -/
theorem getI32_header (h20 : 20 ≤ alignment) :
    getI32 (slice segment position alignment) 16 = getI32 segment (position + 16) :=
  (getI32_of_slice rfl (by omega)).symm

theorem getI64_header (h20 : 20 ≤ alignment) :
    getI64 (slice segment position alignment) 8 = getI64 segment (position + 8) :=
  (getI64_of_slice rfl (by omega)).symm

/-- A range of frame size inside the file. -/
theorem frame_in_file (hpos : 0 < alignment)
    (hframe : slice segment position (recordSet.frameSize alignment) = recordSet.frame alignment) :
    position + recordSet.frameSize alignment ≤ segment.length := by
  have hlen := congrArg List.length hframe
  rw [length_slice, RecordSet.length_frame hpos] at hlen
  have hsize := recordSet.frameSize_pos hpos
  omega

/-- The frame of an empty record set stops the scan. -/
theorem readFrame_of_empty (h20 : 20 ≤ alignment) (hempty : recordSet.bytes = [])
    (hframe : slice segment position (recordSet.frameSize alignment) = recordSet.frame alignment) :
    readFrame alignment segment position = none := by
  have hsize := le_frameSize (by omega : 0 < alignment) recordSet.bytes.length
  have hcount : getI32 segment (position + 16) = 0 := by
    rw [getI32_of_slice hframe (by unfold RecordSet.frameSize; omega)]
    have hzero := getI32_encodeFrame alignment recordSet.baseOffset recordSet.bytes
      (by rw [hempty]; decide)
    rw [hempty] at hzero
    unfold RecordSet.frame
    rw [hempty]
    exact hzero
  unfold readFrame
  simp only [getI32_header h20, hcount, le_refl, if_true, ite_self]

/-- **A whole frame is read back** as the record set it was written for. -/
theorem readFrame_whole (h20 : 20 ≤ alignment) (hs : recordSet.Storable)
    (hframe : slice segment position (recordSet.frameSize alignment) = recordSet.frame alignment) :
    readFrame alignment segment position =
      some ⟨recordSet.baseOffset, recordSet.bytes.length, recordSet.bytes⟩ := by
  have hpos : 0 < alignment := by omega
  have hfile := frame_in_file hpos hframe
  have hsize : recordSet.frameSize alignment = frameSize alignment recordSet.bytes.length := rfl
  have hheader := le_frameSize hpos recordSet.bytes.length
  have hblock := alignment_le_frameSize hpos recordSet.bytes.length
  have hne : ¬ ((recordSet.bytes.length : Int) ≤ 0) :=
    not_le.mpr (Int.natCast_pos.mpr (List.length_pos_of_ne_nil hs.ne_nil))
  have hmagic : slice (recordSet.frame alignment) 0 8 = kLogMagic := slice_encodeFrame_magic _ _ _
  have hbase : getI64 (recordSet.frame alignment) 8 = recordSet.baseOffset :=
    getI64_encodeFrame _ _ _ hs.base
  have hcount : getI32 (recordSet.frame alignment) 16 = recordSet.bytes.length :=
    getI32_encodeFrame _ _ _ hs.size
  have hpayload : slice (recordSet.frame alignment) 20 recordSet.bytes.length = recordSet.bytes :=
    slice_encodeFrame_payload _ _ _
  have hmagicFile : slice segment position 8 = kLogMagic := by
    rw [← hmagic, ← hframe, slice_slice (by omega), Nat.add_zero]
  have hbaseFile : getI64 segment (position + 8) = recordSet.baseOffset := by
    rw [getI64_of_slice hframe (by omega), hbase]
  have hcountFile : getI32 segment (position + 16) = recordSet.bytes.length := by
    rw [getI32_of_slice hframe (by omega), hcount]
  unfold readFrame
  rw [if_pos (by omega)]
  simp only [slice_header_magic h20, getI64_header h20, getI32_header h20, hmagicFile, hbaseFile,
    hcountFile, Int.toNat_natCast, ne_eq, not_true_eq_false, if_false, ← hsize, hframe, hmagic,
    hbase, hcount, hpayload, or_self, if_neg hne,
    if_neg (not_lt.mpr hfile : ¬ position + recordSet.frameSize alignment > segment.length)]
  split
  · next hone =>
      have hslice : slice (slice segment position alignment) 20 recordSet.bytes.length =
          recordSet.bytes := by
        rw [← hone, hframe, hpayload]
      rw [hslice]
  · rfl

end ReadFrame

/-- The entry the scan makes of a record set's frame is the one that was noted for it. -/
theorem scannedFrame_entryAt (hs : recordSet.Storable) (hcounted : recordSet.Counted)
    (segmentBase : Int) (position : Nat) :
    ScannedFrame.entryAt ⟨recordSet.baseOffset, recordSet.bytes.length, recordSet.bytes⟩
      segmentBase position = recordSet.entryAt segmentBase position := by
  have hsize : recordSet.bytes.length * 2 < 2 ^ 32 := by
    have := hs.size
    omega
  unfold ScannedFrame.entryAt RecordSet.entryAt
  rw [signed_eq_self hsize, hcounted]

/-- **A scan finds the frames a file starts with**, up to the first it does not recognise. -/
theorem scanSegment_frames (h20 : 20 ≤ alignment) (segmentBase : Int)
    (hs : ∀ recordSet ∈ sets, recordSet.Storable ∧ recordSet.Counted)
    (hframes : FramesAt alignment segment position sets)
    (hstop : readFrame alignment segment (position + framesLength alignment sets) = none)
    {fuel : Nat} (hfuel : sets.length < fuel) :
    scanSegment alignment segmentBase segment fuel position =
      entriesAt alignment segmentBase position sets := by
  induction sets generalizing position fuel with
  | nil =>
    obtain ⟨fuel, rfl⟩ := Nat.exists_eq_succ_of_ne_zero (Nat.ne_of_gt hfuel)
    rw [framesLength_nil, Nat.add_zero] at hstop
    rw [scanSegment, hstop]
    rfl
  | cons recordSet rest ih =>
    obtain ⟨fuel, rfl⟩ := Nat.exists_eq_succ_of_ne_zero (Nat.ne_of_gt (Nat.zero_lt_of_lt hfuel))
    obtain ⟨hframe, hrest⟩ := hframes
    obtain ⟨hstorable, hcounted⟩ := hs recordSet List.mem_cons_self
    rw [framesLength_cons, ← Nat.add_assoc] at hstop
    rw [scanSegment, readFrame_whole h20 hstorable hframe]
    simp only [scannedFrame_entryAt hstorable hcounted, Int.toNat_natCast]
    rw [entriesAt]
    refine congrArg _ (ih (fun r hr => hs r (List.mem_cons_of_mem _ hr)) hrest hstop ?_)
    exact Nat.lt_of_succ_lt_succ hfuel

/-- Frames take room, so the length of a file bounds their number. -/
theorem length_le_framesLength (hpos : 0 < alignment) (sets : List RecordSet) :
    sets.length ≤ framesLength alignment sets := by
  induction sets with
  | nil => exact Nat.le_refl 0
  | cons recordSet rest ih =>
    have hsize := recordSet.frameSize_pos hpos
    rw [List.length_cons, framesLength_cons]
    omega

theorem FramesAt.in_file (hpos : 0 < alignment) (h : FramesAt alignment segment position sets)
    (hne : sets ≠ []) : position + framesLength alignment sets ≤ segment.length := by
  induction sets generalizing position with
  | nil => exact absurd rfl hne
  | cons recordSet rest ih =>
    obtain ⟨hframe, hrest⟩ := h
    rw [framesLength_cons]
    by_cases hnil : rest = []
    · rw [hnil, framesLength_nil]
      exact frame_in_file hpos hframe
    · have := ih hrest hnil
      omega

/-- A file that starts with whole frames, scanned from its beginning. -/
theorem scanSegment_file (h20 : 20 ≤ alignment) (segmentBase : Int)
    (hs : ∀ recordSet ∈ sets, recordSet.Storable ∧ recordSet.Counted)
    (hframes : FramesAt alignment segment 0 sets)
    (hstop : readFrame alignment segment (framesLength alignment sets) = none) :
    scanSegment alignment segmentBase segment segment.length 0 =
      entriesAt alignment segmentBase 0 sets := by
  have hpos : 0 < alignment := by omega
  by_cases hnil : sets = []
  · subst hnil
    cases hlen : segment.length with
    | zero => rfl
    | succ fuel =>
      rw [framesLength_nil] at hstop
      rw [scanSegment, hstop]
      rfl
  · cases sets with
    | nil => exact absurd rfl hnil
    | cons recordSet rest =>
      have hfile := hframes.in_file hpos hnil
      have hcount := length_le_framesLength hpos rest
      have hfirst := le_frameSize hpos recordSet.bytes.length
      have hsize : recordSet.frameSize alignment =
          frameSize alignment recordSet.bytes.length := rfl
      refine scanSegment_frames h20 segmentBase hs hframes (by rwa [Nat.zero_add]) ?_
      rw [framesLength_cons] at hfile
      rw [List.length_cons]
      omega

/-! ### Entries of frames in a file -/

theorem locates_entriesAt {dir : DataDir}
    (h : FramesAt alignment (dir.contents segmentBase) position sets) :
    List.Forall₂ (Locates dir alignment) sets (entriesAt alignment segmentBase position sets) := by
  induction sets generalizing position with
  | nil => exact List.Forall₂.nil
  | cons recordSet rest ih => exact List.Forall₂.cons ⟨rfl, h.1⟩ (ih h.2)

theorem mem_entriesAt (h : entry ∈ entriesAt alignment segmentBase position sets) :
    entry.segmentBase = segmentBase ∧ position ≤ entry.segmentPosition ∧
      ∃ recordSet ∈ sets, entry = recordSet.entryAt segmentBase entry.segmentPosition ∧
        entry.segmentPosition + recordSet.frameSize alignment ≤
          position + framesLength alignment sets := by
  induction sets generalizing position with
  | nil => cases h
  | cons recordSet rest ih =>
    rw [framesLength_cons]
    rcases List.mem_cons.mp h with rfl | h
    · refine ⟨rfl, le_refl _, recordSet, List.mem_cons_self, rfl, ?_⟩
      exact Nat.add_le_add_left (Nat.le_add_right _ _) _
    · obtain ⟨hbase, hlo, other, hother, hentry, hhi⟩ := ih h
      exact ⟨hbase, by omega, other, List.mem_cons_of_mem _ hother, hentry, by omega⟩

/-- Where the frame of an entry ends. -/
def IndexEntry.frameEnd (alignment : Nat) (entry : IndexEntry) : Nat :=
  entry.segmentPosition + entry.frameSize alignment

/-- Frames one after the other tile the bytes they take. -/
theorem tiles_entriesAt (hpos : 0 < alignment) (segmentBase : Int) (position : Nat)
    (hsizes : ∀ recordSet ∈ sets, recordSet.bytes.length < 2 ^ 31) :
    Tiles IndexEntry.segmentPosition (IndexEntry.frameEnd alignment) position
      (entriesAt alignment segmentBase position sets) (position + framesLength alignment sets) := by
  induction sets generalizing position with
  | nil => rfl
  | cons recordSet rest ih =>
    have hend : (recordSet.entryAt segmentBase position).frameEnd alignment =
        position + recordSet.frameSize alignment :=
      congrArg _ (RecordSet.frameSize_entryAt (hsizes recordSet List.mem_cons_self) _ _)
    have hsize := recordSet.frameSize_pos hpos
    refine ⟨rfl, ?_, ?_⟩
    · rw [hend]
      exact Nat.lt_add_of_pos_right hsize
    · rw [hend, framesLength_cons, ← Nat.add_assoc]
      exact ih _ fun r hr => hsizes r (List.mem_cons_of_mem _ hr)

/-- Entries whose frames tile a part of a segment have their frames apart. -/
theorem framesApart_of_tiles {start stop : Nat}
    (h : Tiles IndexEntry.segmentPosition (IndexEntry.frameEnd alignment) start entries stop) :
    entries.Pairwise (FramesApart alignment) := by
  refine List.Pairwise.imp ?_ h.pairwise
  intro entry later hle _
  exact hle

/-! ### Entries of an index file -/

/-- Each entry found was decoded from its own slot. -/
theorem leadingEntries_getElem? {index : Bytes} {fuel n : Nat}
    (h : (leadingEntries alignment index fuel position)[n]? = some entry) :
    position + n * indexEntrySize alignment + indexEntrySize alignment ≤ index.length ∧
      decodeIndexEntry (slice index (position + n * indexEntrySize alignment)
        (indexEntrySize alignment)) = some entry := by
  induction fuel generalizing position n with
  | zero => simp [leadingEntries] at h
  | succ fuel ih =>
    unfold leadingEntries at h
    split at h
    · next hfits =>
        split at h
        · simp at h
        · next found hfound =>
            cases n with
            | zero =>
              rw [List.getElem?_cons_zero] at h
              rw [Nat.zero_mul, Nat.add_zero]
              exact ⟨hfits, hfound.trans h⟩
            | succ n =>
              rw [List.getElem?_cons_succ] at h
              have hnext := ih h
              rw [Nat.succ_mul, Nat.add_comm (n * _), ← Nat.add_assoc]
              exact hnext
    · simp at h

theorem length_flatten_encodeIndexEntry (hpos : 0 < alignment) (entries : List IndexEntry) :
    (entries.map (encodeIndexEntry alignment)).flatten.length =
      entries.length * indexEntrySize alignment := by
  induction entries with
  | nil => simp
  | cons entry rest ih =>
    rw [List.map_cons, List.flatten_cons, List.length_append, ih, length_encodeIndexEntry hpos,
      List.length_cons, Nat.succ_mul, Nat.add_comm]

/-! ### Segments noted for entries -/

/-- A noted segment ends where the frame of one of its entries ends. -/
theorem mem_notedSegments {segment : SegmentInfo} (h : segment ∈ notedSegments alignment entries) :
    ∃ entry ∈ entries, entry.segmentBase = segment.baseOffset ∧
      entry.segmentPosition + entry.frameSize alignment = segment.writePosition := by
  induction entries using List.reverseRecOn generalizing segment with
  | nil => cases h
  | append_singleton front last ih =>
    have hold : ∀ other ∈ notedSegments alignment front, ∃ entry ∈ front ++ [last],
        entry.segmentBase = other.baseOffset ∧
          entry.segmentPosition + entry.frameSize alignment = other.writePosition := by
      intro other hother
      obtain ⟨entry, hentry, hends⟩ := ih hother
      exact ⟨entry, List.mem_append_left _ hentry, hends⟩
    have hlast : last ∈ front ++ [last] := List.mem_append_right _ List.mem_cons_self
    unfold notedSegments at h hold
    rw [List.foldl_append, List.foldl_cons, List.foldl_nil] at h
    unfold PartitionLogShard.noteSegment at h
    split at h
    · obtain rfl := List.mem_singleton.mp h
      exact ⟨last, hlast, rfl, rfl⟩
    · next active hactive =>
        have hmem := List.mem_of_getLast? hactive
        split at h
        · rcases List.mem_append.mp h with h | h
          · exact hold segment h
          · obtain rfl := List.mem_singleton.mp h
            exact ⟨last, hlast, rfl, rfl⟩
        · next hsame =>
            rcases List.mem_append.mp h with h | h
            · exact hold segment ((List.dropLast_sublist _).subset h)
            · obtain rfl := List.mem_singleton.mp h
              simp only
              rcases max_choice active.writePosition
                  (last.segmentPosition + frameSize alignment last.recordBytes.toNat) with
                hmax | hmax
              · rw [hmax]
                exact hold active hmem
              · rw [hmax]
                exact ⟨last, hlast, (not_not.mp hsame).symm, rfl⟩

end Mkmq
