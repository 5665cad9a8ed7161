import Mkmq.LogReading
import Mkmq.Transition

/-!
# A log written one call at a time

When no two appends overlap, the shard between calls is always in the same shape: the
active file is open, it is the file its base offset names, every frame in it ends at or
before `writePosition`, and no segment is named past the log end.  `Appendable` is that
shape together with the record sets the log holds, and one write takes it from one log
to the log with one more record set.
-/

namespace Mkmq

open ByteCodec ListRules

variable {s s' : PartitionLogShard}

namespace PartitionLogShard

variable {s : PartitionLogShard} {sets : List RecordSet} {records : Bytes}

/-! ### What one write does to the shard -/

theorem placeSegment_of_fits {file : Int} (hfile : s.file = some file) {frameSize : Nat}
    (hfits : s.writePosition = 0 ∨ s.writePosition + frameSize ≤ s.segmentBytes)
    (baseOffset : Int) : s.placeSegment baseOffset frameSize = s := by
  simp only [placeSegment, ensureSegmentForWrite, hfile, if_pos hfits]

theorem placeSegment_of_full {file : Int} (hfile : s.file = some file) {frameSize : Nat}
    (hfull : ¬ (s.writePosition = 0 ∨ s.writePosition + frameSize ≤ s.segmentBytes))
    (baseOffset : Int) :
    s.placeSegment baseOffset frameSize =
      { s with
        root := s.root.createSegment baseOffset
        file := some baseOffset
        segmentCache :=
          (s.activeSegmentBaseOffset, file) :: s.segmentCache.take (kSegmentCacheMax - 1)
        activeSegmentBaseOffset := baseOffset
        writePosition := 0 } := by
  have hposition : ¬ s.writePosition = 0 := fun h => hfull (Or.inl h)
  simp only [placeSegment, ensureSegmentForWrite, hfile, if_neg hfull, afterFlushBarrier,
    if_neg hposition, openActiveSegment]

/-- A frame written to the open file at the write position, with the index open. -/
def written (s : PartitionLogShard) (recordSet : RecordSet) : PartitionLogShard :=
  let entry := recordSet.entryAt s.activeSegmentBaseOffset s.writePosition
  { s with
    root := (s.root.writeSegment s.activeSegmentBaseOffset s.writePosition
      (recordSet.frame s.logFrameAlignment)).writeIndex s.indexPosition
        (encodeIndexEntry s.logFrameAlignment entry)
    writePosition := s.writePosition + recordSet.frameSize s.logFrameAlignment
    indexPosition := s.indexPosition + indexEntrySize s.logFrameAlignment
    indexEntries := s.indexEntries ++ [entry]
    segments := noteSegment s.logFrameAlignment s.segments entry }

/-- The entry goes behind those the index file has. -/
theorem index_written {index : Bytes} (hindex : s.root.index = some index)
    (hend : s.indexPosition = index.length) (recordSet : RecordSet) :
    (s.written recordSet).root.index =
      some (index ++ encodeIndexEntry s.logFrameAlignment
        (recordSet.entryAt s.activeSegmentBaseOffset s.writePosition)) := by
  simp only [written, DataDir.writeIndex, DataDir.writeSegment, hindex, Option.getD_some, hend,
    splice_end]

theorem writeRecordSet_eq {placed : PartitionLogShard} {recordSet : RecordSet}
    (hplaced : s.placeSegment recordSet.baseOffset
      (recordSet.frameSize s.logFrameAlignment) = placed)
    (halign : placed.logFrameAlignment = s.logFrameAlignment)
    (hfile : placed.file = some placed.activeSegmentBaseOffset) (hindex : placed.indexFile = true) :
    s.writeRecordSet recordSet = (placed.written recordSet, .ok ()) := by
  unfold writeRecordSet
  simp only [hplaced, reserve, hfile, Option.map_some, commitFrame, dmaWrite,
    scheduleIndexEntryWrite, hindex, if_true, noteIndexEntry, writeIndexEntryAt, written, halign]

/-! ### The shape between calls -/

/-- The shard holds `sets`, nothing is running, and the next record set takes the offsets
    from `endOffset` on. -/
structure Appendable (s : PartitionLogShard) (sets : List RecordSet) (endOffset : Int) : Prop
    extends s.HoldsLog sets where
  file_open : s.file = some s.activeSegmentBaseOffset
  index_open : s.indexFile = true
  below_position : ∀ entry ∈ s.indexEntries, entry.segmentBase = s.activeSegmentBaseOffset →
    entry.segmentPosition + entry.frameSize s.logFrameAlignment ≤ s.writePosition
  segments_le : ∀ entry ∈ s.indexEntries, entry.segmentBase ≤ s.activeSegmentBaseOffset
  active_le : s.activeSegmentBaseOffset ≤ endOffset
  active_lt : s.writePosition ≠ 0 → s.activeSegmentBaseOffset < endOffset
  sets_lt : ∀ recordSet ∈ sets, recordSet.lastOffset < endOffset

/-- Nothing of the shape depends on the head. -/
theorem Appendable.withHead {endOffset : Int} (h : s.Appendable sets endOffset) (head : LogHead) :
    { s with toLogHead := head }.Appendable sets endOffset :=
  { h with coherent := ⟨h.coherent.file, h.coherent.cache⟩ }

/-- Reads only move the cache. -/
theorem Appendable.withCache {endOffset : Int} (h : s.Appendable sets endOffset)
    {cache : List (Int × Int)} (hcache : ∀ cached ∈ cache, cached.2 = cached.1) :
    { s with segmentCache := cache }.Appendable sets endOffset :=
  { h with coherent := h.coherent.withCache hcache }

theorem appendable_fresh (config : PartitionConfig) (segmentBytes alignment : Nat)
    (h : 0 < alignment) : (fresh config segmentBytes alignment h).Appendable [] 0 where
  located := List.Forall₂.nil
  apart := List.Pairwise.nil
  storable := fun _ hr => absurd hr List.not_mem_nil
  ascending := List.Pairwise.nil
  coherent := ⟨fun _ hf => (Option.some.inj hf).symm, fun _ hc => absurd hc List.not_mem_nil⟩
  file_open := rfl
  index_open := rfl
  below_position := fun _ he => absurd he List.not_mem_nil
  segments_le := fun _ he => absurd he List.not_mem_nil
  active_le := le_refl 0
  active_lt := fun hne => absurd rfl hne
  sets_lt := fun _ hr => absurd hr List.not_mem_nil

section OneWrite

variable {s : PartitionLogShard} {sets : List RecordSet} {recordSet : RecordSet}
  (h : s.Appendable sets recordSet.baseOffset)

include h

/-- Finding room for a frame keeps the shape: a rollover opens a segment no entry names. -/
theorem Appendable.placeSegment (frameSize : Nat) :
    (s.placeSegment recordSet.baseOffset frameSize).Appendable sets recordSet.baseOffset := by
  by_cases hfits : s.writePosition = 0 ∨ s.writePosition + frameSize ≤ s.segmentBytes
  · rw [placeSegment_of_fits h.file_open hfits]
    exact h
  rw [placeSegment_of_full h.file_open hfits]
  have hlt : s.activeSegmentBaseOffset < recordSet.baseOffset :=
    h.active_lt fun hzero => hfits (Or.inl hzero)
  have hold : ∀ entry ∈ s.indexEntries, entry.segmentBase < recordSet.baseOffset :=
    fun entry he => lt_of_le_of_lt (h.segments_le entry he) hlt
  exact
    { h with
      located := h.located.imp fun r e hlocated => hlocated.createSegment _
      coherent := by
        refine ⟨fun f hf => (Option.some.inj hf).symm, ?_⟩
        intro cached hcached
        rcases List.mem_cons.mp hcached with rfl | hcached
        · rfl
        · exact h.coherent.cache cached (List.mem_of_mem_take hcached)
      file_open := rfl
      below_position := fun entry he hsame => absurd hsame (ne_of_lt (hold entry he))
      segments_le := fun entry he => le_of_lt (hold entry he)
      active_le := le_refl _
      active_lt := fun hne => absurd rfl hne }

/-- Writing a frame at the write position adds its record set. -/
theorem Appendable.written (hs : recordSet.Storable)
    (hcount : recordSet.baseOffset ≤ recordSet.lastOffset) :
    (s.written recordSet).Appendable (sets ++ [recordSet]) recordSet.endOffset := by
  have hpos := s.logFrameAlignment_pos
  have hentry := locates_written hpos s.root recordSet s.activeSegmentBaseOffset s.writePosition
  have hsize : (recordSet.entryAt s.activeSegmentBaseOffset s.writePosition).frameSize
      s.logFrameAlignment = recordSet.frameSize s.logFrameAlignment := hentry.frameSize_eq hs
  have hactive : s.activeSegmentBaseOffset < recordSet.endOffset :=
    lt_of_le_of_lt (le_trans h.active_le hcount) (Int.lt_succ recordSet.lastOffset)
  -- the new frame starts where every frame of its file has ended
  have hold : ∀ entry ∈ s.indexEntries, entry.segmentBase = s.activeSegmentBaseOffset →
      entry.segmentPosition + entry.frameSize s.logFrameAlignment ≤ s.writePosition :=
    h.below_position
  refine
    { located := ?_
      apart := ?_
      storable := ?_
      ascending := ?_
      coherent := ⟨h.coherent.file, h.coherent.cache⟩
      file_open := h.file_open
      index_open := h.index_open
      below_position := ?_
      segments_le := ?_
      active_le := ?_
      active_lt := ?_
      sets_lt := ?_ }
  · refine List.rel_append ?_ (List.Forall₂.cons (hentry.writeIndex _ _) List.Forall₂.nil)
    refine forall₂_imp_of_mem h.located fun r hr e he hlocated => ?_
    refine (hlocated.writeSegment hpos fun hfile => Or.inl ?_).writeIndex _ _
    rw [← hlocated.frameSize_eq (h.storable r hr)]
    exact hold e he hfile
  · exact pairwise_concat.mpr ⟨h.apart, hold⟩
  · exact forall_mem_concat.mpr ⟨h.storable, hs⟩
  · refine pairwise_concat.mpr ⟨h.ascending, ?_⟩
    exact fun r hr => lt_of_lt_of_le (h.sets_lt r hr) hcount
  · refine forall_mem_concat.mpr ⟨?_, fun _ => le_of_eq (congrArg _ hsize)⟩
    exact fun entry he hsame => le_trans (hold entry he hsame) (Nat.le_add_right _ _)
  · exact forall_mem_concat.mpr ⟨h.segments_le, le_refl _⟩
  · exact le_of_lt hactive
  · exact fun _ => hactive
  · refine forall_mem_concat.mpr ⟨?_, Int.lt_succ _⟩
    exact fun r hr => lt_trans (lt_of_lt_of_le (h.sets_lt r hr) hcount) (Int.lt_succ _)

/-- **One write**: it succeeds, adds the record set and leaves the head alone. -/
theorem Appendable.writeRecordSet (hs : recordSet.Storable)
    (hcount : recordSet.baseOffset ≤ recordSet.lastOffset) :
    ∃ s', s.writeRecordSet recordSet = (s', .ok ()) ∧
      s'.Appendable (sets ++ [recordSet]) recordSet.endOffset ∧ s'.toLogHead = s.toLogHead := by
  set placed := s.placeSegment recordSet.baseOffset (recordSet.frameSize s.logFrameAlignment)
    with hplaced
  have hkept : placed.logFrameAlignment = s.logFrameAlignment ∧
      placed.toLogHead = s.toLogHead := by
    by_cases hfits : s.writePosition = 0 ∨
        s.writePosition + recordSet.frameSize s.logFrameAlignment ≤ s.segmentBytes
    · rw [hplaced, placeSegment_of_fits h.file_open hfits]
      exact ⟨rfl, rfl⟩
    · rw [hplaced, placeSegment_of_full h.file_open hfits]
      exact ⟨rfl, rfl⟩
  have hroom : placed.Appendable sets recordSet.baseOffset := h.placeSegment _
  refine ⟨placed.written recordSet, ?_, hroom.written hs hcount, hkept.2⟩
  exact writeRecordSet_eq rfl hkept.1 hroom.file_open hroom.index_open

/-- The second half of an admitted append. -/
theorem Appendable.complete (hs : recordSet.Storable)
    (hcount : recordSet.baseOffset ≤ recordSet.lastOffset) {admission : Admission}
    (hadmitted : admission.recordSet = some recordSet) :
    ∃ s', s.complete admission = (s', .ok admission.response) ∧
      s'.Appendable (sets ++ [recordSet]) recordSet.endOffset ∧
      s'.toLogHead = admission.head.settle := by
  obtain ⟨s', hwrite, happ, hhead⟩ := (h.withHead admission.head).writeRecordSet hs hcount
  refine ⟨{ s' with toLogHead := admission.head.settle }, ?_, happ.withHead _, rfl⟩
  have hflush : s'.maybeFlush = .ok () := by
    unfold maybeFlush
    split
    · rfl
    · rw [if_neg (by rw [happ.file_open]; simp)]
  unfold PartitionLogShard.complete
  simp only [hadmitted, hwrite, hflush, hhead, Except.map]

end OneWrite

/-- The record set an admitted, non-empty request is written as. -/
theorem recordSetAt_storable {baseOffset : Int} (hne : records ≠ [])
    (hsize : records.length < 2 ^ 31) (hbase : FitsInt64 baseOffset) :
    (recordSetAt baseOffset records).Storable ∧
      (recordSetAt baseOffset records).baseOffset ≤
        (recordSetAt baseOffset records).lastOffset := by
  refine ⟨⟨hne, hsize, hbase⟩, ?_⟩
  have hend := recordSetAt_endOffset baseOffset records
  have hcount := one_le_estimateRecordCount hne
  have hbase : (recordSetAt baseOffset records).baseOffset = baseOffset := rfl
  unfold RecordSet.endOffset at hend
  omega

/-- **An admitted append adds its record set** and moves the head as admission decided. -/
theorem Appendable.append (h : s.Appendable sets s.offsets.latest) {acks : Int}
    (hadmits : s.toLogHead.Admits records acks) (hne : records ≠ [])
    (hsize : records.length < 2 ^ 31) (hbase : FitsInt64 s.offsets.latest) :
    ∃ s', s.append records acks = (s', .ok (s.toLogHead.append records acks).response) ∧
      s'.Appendable (sets ++ [recordSetAt s.offsets.latest records])
        (s.offsets.latest + estimateRecordCount records) ∧
      s'.toLogHead = (s.toLogHead.appended records).settle := by
  obtain ⟨hs, hcount⟩ := recordSetAt_storable hne hsize hbase
  have hadmission := LogHead.append_of_admits hadmits
  obtain ⟨s', hdone, happ, hhead⟩ :=
    Appendable.complete h hs hcount (congrArg Admission.recordSet hadmission)
  refine ⟨s', hdone, ?_, ?_⟩
  · rw [← recordSetAt_endOffset]
    exact happ
  · rw [hhead, hadmission]

/-- A refused append changes nothing. -/
theorem append_of_not_admits {acks : Int} (h : ¬ s.toLogHead.Admits records acks) :
    s.append records acks = (s, .ok (s.toLogHead.append records acks).response) := by
  obtain ⟨hhead, hnone, -⟩ := LogHead.append_of_not_admits h
  unfold PartitionLogShard.append PartitionLogShard.complete
  simp only [hnone, hhead]

end PartitionLogShard

/-! ### Accepted calls -/

def PartitionLogShard.call (s : PartitionLogShard) :
    LogCall → PartitionLogShard × Except String ProducePartitionResult
  | .append records acks => s.append records acks
  | .appendReplica request => s.appendReplica request

/-- The shard after a call that is answered with error code 0. -/
def PartitionLogShard.accepted (s : PartitionLogShard) (call : LogCall) :
    Option PartitionLogShard :=
  match s.call call with
  | (s', .ok response) => if response.errorCode = .none then some s' else none
  | (_, .error _) => none

/-- The record sets of accepted requests, from the log end `base` on. -/
def recordSetsFrom : Int → List Bytes → List RecordSet
  | _, [] => []
  | base, records :: rest =>
    recordSetAt base records :: recordSetsFrom (base + estimateRecordCount records) rest

theorem PartitionLogShard.call_eq_complete (s : PartitionLogShard) (call : LogCall) :
    s.call call = s.complete (call.admission s.toLogHead) := by
  cases call <;> rfl

/-- What an accepted call was admitted as. -/
theorem accepted_admission {call : LogCall} (h : s.accepted call = some s') :
    (call.admission s.toLogHead).recordSet = some (recordSetAt s.offsets.latest call.records) ∧
      (call.admission s.toLogHead).head.offsets.latest =
        s.offsets.latest + estimateRecordCount call.records ∧
      s' = (s.call call).1 := by
  unfold PartitionLogShard.accepted at h
  rcases call.admission_cases s.toLogHead with ⟨hset, hlatest, -, -⟩ | ⟨hnone, -, herror⟩
  · refine ⟨hset, hlatest, ?_⟩
    split at h
    · next t response heq =>
        split at h
        · obtain rfl := Option.some.inj h
          rw [heq]
        · cases h
    · cases h
  · exfalso
    rw [s.call_eq_complete] at h
    simp only [PartitionLogShard.complete, hnone, if_neg herror] at h
    cases h

/-- Finding room does not look at the head. -/
theorem placeSegment_withHead {file : Int} (hfile : s.file = some file) (head : LogHead)
    (baseOffset : Int) (frameSize : Nat) :
    ({ s with toLogHead := head } : PartitionLogShard).placeSegment baseOffset frameSize =
      { s.placeSegment baseOffset frameSize with toLogHead := head } := by
  by_cases hfits : s.writePosition = 0 ∨ s.writePosition + frameSize ≤ s.segmentBytes
  · rw [PartitionLogShard.placeSegment_of_fits hfile hfits,
      PartitionLogShard.placeSegment_of_fits (s := { s with toLogHead := head }) hfile hfits]
  · rw [PartitionLogShard.placeSegment_of_full hfile hfits,
      PartitionLogShard.placeSegment_of_full (s := { s with toLogHead := head }) hfile hfits]

theorem placeSegment_file (hfile : s.file = some s.activeSegmentBaseOffset) (baseOffset : Int)
    (frameSize : Nat) :
    (s.placeSegment baseOffset frameSize).file =
      some (s.placeSegment baseOffset frameSize).activeSegmentBaseOffset := by
  by_cases hfits : s.writePosition = 0 ∨ s.writePosition + frameSize ≤ s.segmentBytes
  · rw [PartitionLogShard.placeSegment_of_fits hfile hfits]
    exact hfile
  · rw [PartitionLogShard.placeSegment_of_full hfile hfits]

/-- What finding room leaves as it is. -/
theorem placeSegment_kept {file : Int} (hfile : s.file = some file) (baseOffset : Int)
    (frameSize : Nat) :
    (s.placeSegment baseOffset frameSize).logFrameAlignment = s.logFrameAlignment ∧
      (s.placeSegment baseOffset frameSize).segmentBytes = s.segmentBytes ∧
      (s.placeSegment baseOffset frameSize).indexFile = s.indexFile := by
  by_cases hfits : s.writePosition = 0 ∨ s.writePosition + frameSize ≤ s.segmentBytes
  · rw [PartitionLogShard.placeSegment_of_fits hfile hfits]
    exact ⟨rfl, rfl, rfl⟩
  · rw [PartitionLogShard.placeSegment_of_full hfile hfits]
    exact ⟨rfl, rfl, rfl⟩

/-- **An admitted call**, with the files open, writes its record set at the log end where
    there is room for it. -/
theorem call_written {call : LogCall} (hset : (call.admission s.toLogHead).recordSet =
      some (recordSetAt s.offsets.latest call.records))
    (hfile : s.file = some s.activeSegmentBaseOffset) (hindex : s.indexFile = true) :
    (s.call call).1 =
      { (s.placeSegment s.offsets.latest
          (frameSize s.logFrameAlignment call.records.length)).written
            (recordSetAt s.offsets.latest call.records) with
        toLogHead := (call.admission s.toLogHead).head.settle } := by
  set head := (call.admission s.toLogHead).head
  set r := recordSetAt s.offsets.latest call.records
  set placed := s.placeSegment s.offsets.latest (frameSize s.logFrameAlignment call.records.length)
    with hplaced
  obtain ⟨halign, -, hkept⟩ := placeSegment_kept hfile s.offsets.latest
    (frameSize s.logFrameAlignment call.records.length)
  have hwrite : PartitionLogShard.writeRecordSet { s with toLogHead := head } r =
      (PartitionLogShard.written { placed with toLogHead := head } r, .ok ()) :=
    PartitionLogShard.writeRecordSet_eq (placeSegment_withHead hfile head _ _) halign
      (placeSegment_file hfile _ _) (hkept.trans hindex)
  rw [s.call_eq_complete]
  unfold PartitionLogShard.complete
  simp only [hset]
  rw [hwrite]
  rfl

/-- A call that is refused changes nothing. -/
theorem call_of_refused {call : LogCall} (hnone : (call.admission s.toLogHead).recordSet = none)
    (hhead : (call.admission s.toLogHead).head = s.toLogHead) : (s.call call).1 = s := by
  rw [s.call_eq_complete]
  simp only [PartitionLogShard.complete, hnone, hhead]

/-- **An accepted call**, with the files open, writes its record set at the log end where
    there is room for it. -/
theorem accepted_written {call : LogCall} (h : s.accepted call = some s')
    (hfile : s.file = some s.activeSegmentBaseOffset) (hindex : s.indexFile = true) :
    ∃ head : LogHead,
      s' = { (s.placeSegment s.offsets.latest
          (frameSize s.logFrameAlignment call.records.length)).written
            (recordSetAt s.offsets.latest call.records) with toLogHead := head } ∧
      head.offsets.latest = s.offsets.latest + estimateRecordCount call.records := by
  obtain ⟨hset, hlatest, rfl⟩ := accepted_admission h
  exact ⟨(call.admission s.toLogHead).head.settle, call_written hset hfile hindex, hlatest⟩

/-- The files stay open, and the log end never moves back. -/
theorem run_accepted_latest {calls : List LogCall}
    (hrun : Transition.run PartitionLogShard.accepted s calls = some s')
    (hfile : s.file = some s.activeSegmentBaseOffset) (hindex : s.indexFile = true) :
    s.offsets.latest ≤ s'.offsets.latest := by
  induction calls generalizing s with
  | nil =>
    obtain rfl := Option.some.inj hrun
    exact le_refl _
  | cons call calls ih =>
    rw [Transition.run] at hrun
    split at hrun
    · next t ht =>
        obtain ⟨head, rfl, hlatest⟩ := accepted_written ht hfile hindex
        have hcount := estimateRecordCount_nonneg call.records
        obtain ⟨-, -, hkept⟩ := placeSegment_kept hfile s.offsets.latest
          (frameSize s.logFrameAlignment call.records.length)
        have hrest := ih hrun (placeSegment_file hfile _ _) (hkept.trans hindex)
        have hstep : s.offsets.latest ≤ head.offsets.latest := by omega
        exact le_trans hstep hrest
    · cases hrun

end Mkmq
