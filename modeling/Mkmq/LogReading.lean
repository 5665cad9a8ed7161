import Mkmq.ListRules
import Mkmq.MergedRead

/-!
# Reading record sets back

A log holds record sets when its index locates their frames.  What a read of it returns is
then a matter of the record sets alone: `takeWithin` is the plain loop over them.
-/

namespace Mkmq

open ByteCodec ListRules

variable {recordSet : RecordSet} {visibleEnd : Int} {sets : List RecordSet} {s : PartitionLogShard}

/-! ### Reading one entry at a time -/

/-- The per-entry loop: the first record set is always taken, a later one only if it still
    fits, and reading ends at `visibleEnd`. -/
def takeWithin (visibleEnd : Int) (limit : Nat) : Bytes → List RecordSet → Bytes
  | records, [] => records
  | records, recordSet :: rest =>
    if recordSet.baseOffset ≥ visibleEnd ∨ recordSet.lastOffset ≥ visibleEnd then records
    else if records ≠ [] ∧ records.length + recordSet.bytes.length > limit then records
    else takeWithin visibleEnd limit (records ++ recordSet.bytes) rest

/-- The payloads of record sets, one after the other. -/
def payload (sets : List RecordSet) : Bytes := (sets.map RecordSet.bytes).flatten

@[simp] theorem payload_nil : payload [] = [] := rfl

@[simp] theorem payload_cons (recordSet : RecordSet) (sets : List RecordSet) :
    payload (recordSet :: sets) = recordSet.bytes ++ payload sets := rfl

@[simp] theorem payload_append (front back : List RecordSet) :
    payload (front ++ back) = payload front ++ payload back := by
  simp [payload]

theorem takeWithin_cons_of_fits {limit : Nat} {records : Bytes} (rest : List RecordSet)
    (hvisible : ¬ (recordSet.baseOffset ≥ visibleEnd ∨ recordSet.lastOffset ≥ visibleEnd))
    (hfits : ¬ (records ≠ [] ∧ records.length + recordSet.bytes.length > limit)) :
    takeWithin visibleEnd limit records (recordSet :: rest) =
      takeWithin visibleEnd limit (records ++ recordSet.bytes) rest := by
  rw [takeWithin, if_neg hvisible, if_neg hfits]

/-- A full buffer takes no further non-empty record set. -/
theorem takeWithin_full {limit : Nat} {records : Bytes} (hne : records ≠ [])
    (hfull : limit ≤ records.length) (hsets : ∀ recordSet ∈ sets, recordSet.bytes ≠ []) :
    takeWithin visibleEnd limit records sets = records := by
  cases sets with
  | nil => rfl
  | cons recordSet rest =>
    have hpos := List.length_pos_of_ne_nil (hsets recordSet List.mem_cons_self)
    rw [takeWithin]
    split
    · rfl
    · rw [if_pos ⟨hne, by omega⟩]

/-- The result is a run of whole record sets from the first one on. -/
theorem takeWithin_eq_payload (visibleEnd : Int) (limit : Nat) (records : Bytes)
    (sets : List RecordSet) :
    ∃ n ≤ sets.length,
      takeWithin visibleEnd limit records sets = records ++ payload (sets.take n) := by
  induction sets generalizing records with
  | nil => exact ⟨0, le_refl 0, by simp [takeWithin]⟩
  | cons recordSet rest ih =>
    by_cases hvisible : recordSet.baseOffset ≥ visibleEnd ∨ recordSet.lastOffset ≥ visibleEnd
    · exact ⟨0, Nat.zero_le _, by rw [takeWithin, if_pos hvisible]; simp⟩
    by_cases hfits : records ≠ [] ∧ records.length + recordSet.bytes.length > limit
    · exact ⟨0, Nat.zero_le _, by rw [takeWithin, if_neg hvisible, if_pos hfits]; simp⟩
    · obtain ⟨n, hn, htake⟩ := ih (records ++ recordSet.bytes)
      refine ⟨n + 1, Nat.succ_le_succ hn, ?_⟩
      rw [takeWithin_cons_of_fits rest hvisible hfits, htake, List.take_succ_cons, payload_cons,
        List.append_assoc]

/-- A read that starts at a visible record set returns it, whatever the limit. -/
theorem takeWithin_progress (limit : Nat) (rest : List RecordSet)
    (hvisible : recordSet.baseOffset < visibleEnd ∧ recordSet.lastOffset < visibleEnd) :
    ∃ n ≤ (recordSet :: rest).length, 1 ≤ n ∧
      takeWithin visibleEnd limit [] (recordSet :: rest) =
        payload ((recordSet :: rest).take n) := by
  obtain ⟨n, hn, htake⟩ := takeWithin_eq_payload visibleEnd limit recordSet.bytes rest
  refine ⟨n + 1, Nat.succ_le_succ hn, Nat.succ_le_succ (Nat.zero_le n), ?_⟩
  rw [takeWithin_cons_of_fits rest
    (by rintro (h | h); exacts [absurd hvisible.1 (not_lt.mpr h), absurd hvisible.2 (not_lt.mpr h)])
    (fun h => h.1 rfl), List.nil_append, htake, List.take_succ_cons, payload_cons]

/-! ### Logs whose index locates their frames -/

/-- What a record set must satisfy to be read back: it is not empty and its header fields
    hold their values. -/
structure RecordSet.Storable (recordSet : RecordSet) : Prop where
  ne_nil : recordSet.bytes ≠ []
  size : recordSet.bytes.length < 2 ^ 31
  base : FitsInt64 recordSet.baseOffset

theorem RecordSet.entryAt_recordBytes_of_lt (hsize : recordSet.bytes.length < 2 ^ 31)
    (segmentBase : Int) (position : Nat) :
    (recordSet.entryAt segmentBase position).recordBytes = recordSet.bytes.length := by
  rw [RecordSet.entryAt_recordBytes]
  exact signed_eq_self (by omega)

theorem RecordSet.frameSize_entryAt {alignment : Nat} (hsize : recordSet.bytes.length < 2 ^ 31)
    (segmentBase : Int) (position : Nat) :
    (recordSet.entryAt segmentBase position).frameSize alignment =
      recordSet.frameSize alignment := by
  unfold IndexEntry.frameSize RecordSet.frameSize
  rw [RecordSet.entryAt_recordBytes_of_lt hsize, Int.toNat_natCast]

/-- `entry` is the index entry of `recordSet`, and the file it names holds the frame at
    the position it names. -/
structure Locates (dir : DataDir) (alignment : Nat) (recordSet : RecordSet)
    (entry : IndexEntry) : Prop where
  entry_eq : entry = recordSet.entryAt entry.segmentBase entry.segmentPosition
  frame : slice (dir.contents entry.segmentBase) entry.segmentPosition
    (recordSet.frameSize alignment) = recordSet.frame alignment

section Located

variable {dir : DataDir} {alignment : Nat} {recordSet : RecordSet} {entry : IndexEntry}

section

variable (h : Locates dir alignment recordSet entry)

include h

theorem Locates.baseOffset :
    entry.baseOffset = recordSet.baseOffset := congrArg IndexEntry.baseOffset h.entry_eq

theorem Locates.lastOffset :
    entry.lastOffset = recordSet.lastOffset := congrArg IndexEntry.lastOffset h.entry_eq

theorem Locates.recordBytes (hs : recordSet.Storable) :
    entry.recordBytes = recordSet.bytes.length := by
  rw [h.entry_eq, RecordSet.entryAt_recordBytes_of_lt hs.size]

theorem Locates.frameSize_eq (hs : recordSet.Storable) :
    entry.frameSize alignment = recordSet.frameSize alignment := by
  rw [h.entry_eq, RecordSet.frameSize_entryAt hs.size]

/-- A located frame lies inside its file. -/
theorem Locates.in_file (hpos : 0 < alignment) :
    entry.segmentPosition + recordSet.frameSize alignment ≤
      (dir.contents entry.segmentBase).length := by
  have hlen := congrArg List.length h.frame
  rw [length_slice, RecordSet.length_frame hpos] at hlen
  have hfs := recordSet.frameSize_pos hpos
  omega

/-- A located frame is one in the sense of the read path, and holds the record set. -/
theorem Locates.frameAt (hpos : 0 < alignment) (hs : recordSet.Storable) :
    FrameAt dir alignment entry ∧ entry.recordsIn dir = recordSet.bytes := by
  have hframe := h.frame
  have hsize := le_frameSize hpos recordSet.bytes.length
  have hbytes := h.recordBytes hs
  have hlen : recordSet.frameSize alignment = frameSize alignment recordSet.bytes.length := rfl
  refine ⟨⟨by rw [hbytes]; exact Int.natCast_nonneg _, ?_, ?_, ?_, ?_⟩, ?_⟩
  · rw [← slice_encodeFrame_magic alignment recordSet.baseOffset recordSet.bytes, ← RecordSet.frame,
      ← hframe, slice_slice (by omega), Nat.add_zero]
  · rw [getI64_of_slice hframe (by omega), h.baseOffset]
    exact getI64_encodeFrame _ _ _ hs.base
  · rw [getI32_of_slice hframe (by omega), hbytes]
    exact getI32_encodeFrame _ _ _ hs.size
  · rw [h.frameSize_eq hs]
    exact h.in_file hpos
  · unfold IndexEntry.recordsIn
    rw [hbytes, Int.toNat_natCast]
    calc slice (dir.contents entry.segmentBase) (entry.segmentPosition + 20) recordSet.bytes.length
        = slice (slice (dir.contents entry.segmentBase) entry.segmentPosition
            (recordSet.frameSize alignment)) 20 recordSet.bytes.length :=
          (slice_slice (by omega)).symm
      _ = slice (recordSet.frame alignment) 20 recordSet.bytes.length := by rw [hframe]
      _ = recordSet.bytes := slice_encodeFrame_payload _ _ _

/-- A write that stays clear of a frame leaves it located. -/
theorem Locates.writeSegment (hpos : 0 < alignment) {file : Int} {position : Nat} {bytes : Bytes}
    (hclear : entry.segmentBase = file →
      entry.segmentPosition + recordSet.frameSize alignment ≤ position ∨
        position + bytes.length ≤ entry.segmentPosition) :
    Locates (dir.writeSegment file position bytes) alignment recordSet entry := by
  refine ⟨h.entry_eq, ?_⟩
  rw [DataDir.contents_writeSegment]
  split
  · next hfile =>
      have hin := h.in_file hpos
      have hframe := h.frame
      rw [hfile] at hin hframe
      rw [slice_splice_of_disjoint hin (hclear hfile)]
      exact hframe
  · exact h.frame

theorem Locates.writeIndex (position : Nat) (bytes : Bytes) :
    Locates (dir.writeIndex position bytes) alignment recordSet entry :=
  ⟨h.entry_eq, h.frame⟩

theorem Locates.createSegment (base : Int) :
    Locates (dir.createSegment base) alignment recordSet entry :=
  ⟨h.entry_eq, by rw [DataDir.contents_createSegment]; exact h.frame⟩

end

/-- A frame that was just written is located by its entry. -/
theorem locates_written (hpos : 0 < alignment) (dir : DataDir) (recordSet : RecordSet)
    (base : Int) (position : Nat) :
    Locates (dir.writeSegment base position (recordSet.frame alignment)) alignment recordSet
      (recordSet.entryAt base position) := by
  have hframe := slice_splice_self (dir.contents base) position (recordSet.frame alignment)
  rw [RecordSet.length_frame hpos] at hframe
  refine ⟨rfl, ?_⟩
  simp only [RecordSet.entryAt, DataDir.contents_writeSegment, if_true]
  exact hframe

end Located

/-! ### The plain loop over located record sets -/

section Sets

variable {dir : DataDir} {alignment : Nat} {entries : List IndexEntry} {sets : List RecordSet}

theorem exists_locates (hloc : List.Forall₂ (Locates dir alignment) sets entries)
    {entry : IndexEntry} (h : entry ∈ entries) :
    ∃ recordSet ∈ sets, Locates dir alignment recordSet entry := by
  have hflip : List.Forall₂ (flip (Locates dir alignment)) entries sets := List.Forall₂.flip hloc
  exact forall₂_exists_of_mem hflip h

/-- Over record sets that are not empty the plain loop is `takeWithin`. -/
theorem readEach_eq_takeWithin (hpos : 0 < alignment) (visibleEnd : Int) (limit : Nat)
    (hloc : List.Forall₂ (Locates dir alignment) sets entries)
    (hs : ∀ recordSet ∈ sets, recordSet.Storable) (records : Bytes) :
    readEach dir visibleEnd limit records entries = takeWithin visibleEnd limit records sets := by
  induction hloc generalizing records with
  | nil => rfl
  | @cons recordSet entry sets entries hhead hrest ih =>
    have hset := hs recordSet List.mem_cons_self
    have hsets : ∀ r ∈ sets, r.Storable := fun r hr => hs r (List.mem_cons_of_mem _ hr)
    rw [readEach, takeWithin, hhead.baseOffset, hhead.lastOffset, hhead.recordBytes hset,
      Int.toNat_natCast, (hhead.frameAt hpos hset).2]
    split
    · rfl
    split
    · rfl
    simp only
    split
    · next hfull =>
        have hne : records ++ recordSet.bytes ≠ [] :=
          fun hnil => hset.ne_nil (List.append_eq_nil_iff.mp hnil).2
        rw [takeWithin_full hne hfull fun r hr => (hsets r hr).ne_nil]
    · exact ih hsets _

end Sets

/-- The shard holds exactly the record sets `sets`, in offset order. -/
structure PartitionLogShard.HoldsLog (s : PartitionLogShard) (sets : List RecordSet) : Prop where
  located : List.Forall₂ (Locates s.root s.logFrameAlignment) sets s.indexEntries
  apart : s.indexEntries.Pairwise (FramesApart s.logFrameAlignment)
  storable : ∀ recordSet ∈ sets, recordSet.Storable
  ascending : sets.Pairwise fun a b => a.lastOffset < b.lastOffset
  coherent : s.ReadCoherent

/-- The record sets from the one that covers `offset` on. -/
def setsFrom (offset : Int) (sets : List RecordSet) : List RecordSet :=
  sets.dropWhile fun recordSet => decide (recordSet.lastOffset < offset)

theorem setsFrom_append {offset : Int} {front back : List RecordSet}
    (hfront : ∀ recordSet ∈ front, recordSet.lastOffset < offset)
    (hback : ∀ recordSet ∈ back, offset ≤ recordSet.lastOffset) :
    setsFrom offset (front ++ back) = back := by
  unfold setsFrom
  rw [List.dropWhile_append_of_pos (fun r hr => decide_eq_true (hfront r hr))]
  cases back with
  | nil => rfl
  | cons first rest =>
    exact List.dropWhile_cons_of_neg
      (by simpa using hback first List.mem_cons_self)

/-- Both start at the same place. -/
theorem forall₂_from {dir : DataDir} {alignment : Nat} {entries : List IndexEntry}
    (h : List.Forall₂ (Locates dir alignment) sets entries) (offset : Int) :
    List.Forall₂ (Locates dir alignment) (setsFrom offset sets) (entriesFrom offset entries) := by
  induction h with
  | nil => exact .nil
  | @cons recordSet entry sets entries hhead hrest ih =>
    unfold setsFrom entriesFrom
    by_cases hlt : recordSet.lastOffset < offset
    · rw [List.dropWhile_cons_of_pos (by simpa using hlt),
        List.dropWhile_cons_of_pos (by simpa [hhead.lastOffset] using hlt)]
      exact ih
    · rw [List.dropWhile_cons_of_neg (by simpa using hlt),
        List.dropWhile_cons_of_neg (by simpa [hhead.lastOffset] using hlt)]
      exact .cons hhead hrest

theorem PartitionLogShard.HoldsLog.indexesFrames (h : s.HoldsLog sets) : s.IndexesFrames where
  sorted := by
    have hoffsets : sets.map RecordSet.lastOffset = s.indexEntries.map IndexEntry.lastOffset := by
      have hsame : List.Forall₂ (fun r e => r.lastOffset = e.lastOffset) sets s.indexEntries :=
        h.located.imp fun r e hlocated => hlocated.lastOffset.symm
      exact List.forall₂_eq_eq_eq ▸ List.forall₂_map_left_iff.mpr
        (List.forall₂_map_right_iff.mpr hsame)
    have hascending := List.pairwise_map.mpr (h.ascending.imp le_of_lt)
    rw [hoffsets] at hascending
    exact List.pairwise_map.mp hascending
  frames := by
    intro entry hentry
    obtain ⟨r, hr, hlocated⟩ := exists_locates h.located hentry
    exact (hlocated.frameAt s.logFrameAlignment_pos (h.storable r hr)).1
  apart := h.apart
  coherent := h.coherent

/-- **Reading a log that holds `sets`** returns what the per-entry loop returns. -/
theorem readRecordsFromIndex_eq (h : s.HoldsLog sets) (offset visibleEnd : Int) (limit : Nat) :
    ∃ cache, s.readRecordsFromIndex offset visibleEnd limit =
        ({ s with segmentCache := cache },
          .ok (takeWithin visibleEnd limit [] (setsFrom offset sets))) ∧
      ∀ cached ∈ cache, cached.2 = cached.1 := by
  obtain ⟨cache, hread, hcache⟩ :=
    readRecordsFromIndex_eq_readEach h.indexesFrames offset visibleEnd limit
  have hsets : ∀ recordSet ∈ setsFrom offset sets, recordSet.Storable :=
    fun r hr => h.storable r ((List.dropWhile_sublist _).subset hr)
  refine ⟨cache, ?_, hcache⟩
  rw [hread, readEach_eq_takeWithin s.logFrameAlignment_pos visibleEnd limit
    (forall₂_from h.located offset) hsets]

end Mkmq
