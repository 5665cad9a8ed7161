import Mkmq.Extents
import Mkmq.SequentialLog
import Mkmq.Transition

/-!
# A log written on over what recovery left

After `recover_from_segments` writing resumes behind the last frame recognised, in the
last file that holds one.  The bytes behind that place stay on disk, and so do files in
which nothing was recognised; when a rollover reaches the name of such a file, the file
is opened and written over from its beginning.  `Continues` is the shape such a log keeps
through later calls, as long as no rollover leads back to a file that is not behind the
active one: behind every extent its file still has the bytes it was found with, and a scan
finds the index entries again exactly when none of those bytes read as a frame.  The index
file has the entries in any case, and is read instead of the files if it describes them.
-/

namespace Mkmq

open ByteCodec ListRules PartitionLogShard

/-- The files written to are open, and the index file has exactly the entries noted.  The
    next record set takes the offsets from `latest` on. -/
structure PartitionLogShard.Indexed (s : PartitionLogShard) (latest : Int) : Prop where
  file : s.file = some s.activeSegmentBaseOffset
  indexFile : s.indexFile = true
  active_fits : FitsInt64 s.activeSegmentBaseOffset
  index : s.root.index = some (indexOf s.logFrameAlignment s.indexEntries)
  indexPosition : s.indexPosition = s.indexEntries.length * indexEntrySize s.logFrameAlignment
  decodes : ∀ entry ∈ s.indexEntries,
    decodeIndexEntry (encodeIndexEntry s.logFrameAlignment entry) = some entry
  ascending : OrderedStore.Ascending s.root.segments
  latest_nonneg : 0 ≤ latest
  latest_eq : latest = scanEnd s.indexEntries

/-- The files hold extents, the last of them active, and nothing else that a scan would
    find at the beginning of a file; `origin` is what the files held when the log was
    started. -/
structure PartitionLogShard.Continues (s : PartitionLogShard) (origin : DataDir)
    (front : List Extent) (active : Extent) (latest : Int) : Prop extends s.Indexed latest where
  base : s.activeSegmentBaseOffset = active.base
  position : s.writePosition = active.stop
  entries : s.indexEntries = (front ++ [active]).flatMap Extent.entries
  known : ∀ file ∈ s.root.segments, (∀ extent ∈ front ++ [active], extent.base ≠ file.1) →
    file.1 ∈ origin.segments.map Prod.fst
  bases : (front ++ [active]).Pairwise fun extent later => extent.base < later.base
  passes : ∀ extent ∈ front ++ [active], extent.In s.logFrameAlignment s.root
  tails : ∀ extent ∈ front ++ [active],
    (s.root.contents extent.base).drop extent.stop =
      (origin.contents extent.base).drop extent.stop
  untouched : ∀ base, (∀ extent ∈ front ++ [active], extent.base ≠ base) →
    s.root.contents base = origin.contents base
  unread : ∀ base, (∀ extent ∈ front ++ [active], extent.base ≠ base) →
    readFrame s.logFrameAlignment (origin.contents base) 0 = none
  filled : ∀ extent ∈ front, extent.entries ≠ []

section Restart

variable {s : PartitionLogShard} {origin : DataDir} {front : List Extent} {active : Extent}
  {latest : Int}

theorem PartitionLogShard.Continues.active_mem (_ : s.Continues origin front active latest) :
    active ∈ front ++ [active] := List.mem_append_right _ List.mem_cons_self

theorem PartitionLogShard.Indexed.withHead (h : s.Indexed latest) (head : LogHead) :
    { s with toLogHead := head }.Indexed latest := { h with }

theorem PartitionLogShard.Continues.withHead (h : s.Continues origin front active latest)
    (head : LogHead) : { s with toLogHead := head }.Continues origin front active latest :=
  { h with }

/-! ### What a restart finds -/

/-- **What a scan finds**: the entries, if the bytes behind every extent are unreadable. -/
theorem PartitionLogShard.Continues.scan_iff (h : s.Continues origin front active latest)
    (h20 : 20 ≤ s.logFrameAlignment) :
    scanFiles s.logFrameAlignment s.root.segments = s.indexEntries ↔
      ∀ extent ∈ front ++ [active],
        readFrame s.logFrameAlignment (origin.contents extent.base) extent.stop = none := by
  have hothers : ∀ file ∈ s.root.segments, (∀ extent ∈ front ++ [active], extent.base ≠ file.1) →
      readFrame s.logFrameAlignment file.2 0 = none := by
    intro file hfile hout
    rw [← DataDir.contents_of_mem h.ascending hfile, h.untouched file.1 hout]
    exact h.unread file.1 hout
  rw [scanFiles_extents h.ascending h.bases hothers, h.entries, flatMap_eq_iff_of_extends
    fun extent hextent => ((h.passes extent hextent).scanFile h20).1]
  constructor
  · intro hall extent hextent
    rw [← readFrame_of_drop h20 (h.tails extent hextent)]
    exact ((h.passes extent hextent).scanFile h20).2.mp (hall extent hextent)
  · intro hall extent hextent
    apply ((h.passes extent hextent).scanFile h20).2.mpr
    rw [readFrame_of_drop h20 (h.tails extent hextent)]
    exact hall extent hextent

/-- Between calls the active extent is empty only in a log without entries. -/
def Settled (front : List Extent) (active : Extent) : Prop :=
  active.entries = [] → front = [] ∧ active.base = 0

theorem PartitionLogShard.Continues.filled_of_ne (h : s.Continues origin front active latest)
    (hsettled : Settled front active) (hne : s.indexEntries ≠ []) :
    ∀ extent ∈ front ++ [active], extent.entries ≠ [] := by
  refine forall_mem_concat.mpr ⟨h.filled, ?_⟩
  intro hnil
  obtain ⟨rfl, -⟩ := hsettled hnil
  apply hne
  rw [h.entries]
  simp [hnil]

/-- The segments noted from the whole index end where the extents end. -/
theorem PartitionLogShard.Continues.noted (h : s.Continues origin front active latest)
    (hsettled : Settled front active) (hne : s.indexEntries ≠ []) :
    (notedSegments s.logFrameAlignment s.indexEntries).map
        (fun segment => (segment.baseOffset, segment.writePosition)) =
      (front ++ [active]).map fun extent => (extent.base, extent.stop) := by
  rw [h.entries]
  exact notedSegments_extents h.passes (h.filled_of_ne hsettled hne) h.bases

/-- Writing would resume where it is. -/
theorem PartitionLogShard.Continues.lastNoted_eq (h : s.Continues origin front active latest)
    (hsettled : Settled front active) :
    lastNoted s.logFrameAlignment s.indexEntries = (active.base, active.stop) := by
  by_cases hne : s.indexEntries = []
  · have hnil : active.entries = [] := by
      have hempty := h.entries.symm.trans hne
      simp only [List.flatMap_append, List.append_eq_nil_iff] at hempty
      simpa using hempty.2
    have hstop : active.stop = 0 := by
      have hpasses := h.passes active h.active_mem
      unfold Extent.In at hpasses
      rw [hnil] at hpasses
      exact hpasses.symm
    rw [hne, (hsettled hnil).2, hstop]
    rfl
  · rw [h.entries]
    exact lastNoted_extents h.passes (h.filled_of_ne hsettled hne) h.bases

/-- The index file is read back completely. -/
theorem PartitionLogShard.Indexed.indexFound_eq (h : s.Indexed latest) :
    indexFound s.logFrameAlignment s.root = s.indexEntries := by
  have hsize := le_indexEntrySize s.logFrameAlignment_pos
  have hrest : ([] : Bytes).length < indexEntrySize s.logFrameAlignment := by
    simp only [List.length_nil]
    omega
  apply indexFound_indexOf s.logFrameAlignment_pos h.decodes hrest
  rw [List.append_nil]
  exact h.index

theorem foldl_lastOffset_le_iff (entries : List IndexEntry) (bound : Int) :
    entries.foldl (fun last entry => max last (entry.lastOffset + 1)) bound ≤ latest ↔
      bound ≤ latest ∧ ∀ entry ∈ entries, entry.lastOffset < latest := by
  induction entries generalizing bound with
  | nil => simp
  | cons entry rest ih =>
    rw [List.foldl_cons, ih, max_le_iff, List.forall_mem_cons, and_assoc, Int.add_one_le_iff]

theorem scanEnd_le_indexEnd (entries : List IndexEntry) : scanEnd entries ≤ indexEnd entries := by
  rcases List.eq_nil_or_concat entries with rfl | ⟨init, last, rfl⟩
  · exact le_refl _
  · rw [List.concat_eq_append, scanEnd, List.getLast?_concat, indexEnd, List.foldl_append]
    exact le_max_right _ _

/-- The index leads to the log end unless an entry ends past it. -/
theorem PartitionLogShard.Indexed.indexEnd_eq_iff (h : s.Indexed latest) :
    indexEnd s.indexEntries = latest ↔ ∀ entry ∈ s.indexEntries, entry.lastOffset < latest := by
  have hle : indexEnd s.indexEntries ≤ latest ↔ _ := foldl_lastOffset_le_iff s.indexEntries 0
  rw [and_iff_right h.latest_nonneg] at hle
  rw [← hle]
  constructor
  · exact fun heq => le_of_eq heq
  · intro hends
    have hscan := scanEnd_le_indexEnd s.indexEntries
    rw [← h.latest_eq] at hscan
    exact le_antisymm hends hscan

/-- **What a restart finds.**  An index that describes the files is believed: it has all
    entries, and the largest end among them becomes the log end.  Otherwise the files are
    scanned, and the end of the last frame becomes the log end. -/
theorem PartitionLogShard.Indexed.restart_iff (h : s.Indexed s.offsets.latest) :
    (s.restart.indexEntries = s.indexEntries ∧
        s.restart.offsets.latest = s.offsets.latest) ↔
      if IndexCovers s.logFrameAlignment s.root then
        ∀ entry ∈ s.indexEntries, entry.lastOffset < s.offsets.latest
      else scanFiles s.logFrameAlignment s.root.segments = s.indexEntries := by
  have hrestored := restored_start s.config s.root s.segmentBytes s.logFrameAlignment
    s.logFrameAlignment_pos
  have hentries : s.restart.indexEntries = recoveredEntries s.logFrameAlignment s.root :=
    hrestored.entries
  have hlatest : s.restart.offsets.latest = recoveredEnd s.logFrameAlignment s.root :=
    congrArg PartitionOffsets.latest hrestored.offsets
  rw [hentries, hlatest]
  unfold recoveredEntries recoveredEnd
  by_cases hcovers : IndexCovers s.logFrameAlignment s.root
  · rw [if_pos hcovers, if_pos hcovers, if_pos hcovers, h.indexFound_eq, h.indexEnd_eq_iff]
    exact and_iff_right rfl
  · rw [if_neg hcovers, if_neg hcovers, if_neg hcovers]
    constructor
    · exact fun hsame => hsame.1
    · intro hscan
      rw [hscan]
      exact ⟨rfl, h.latest_eq.symm⟩

end Restart

/-! ### One more record set -/

section Write

variable {s : PartitionLogShard} {origin : DataDir} {front : List Extent} {active : Extent}
  {latest : Int} {cache : List (Int × Int)} {recordSet : RecordSet}

theorem ascending_createSegment {dir : DataDir} (h : OrderedStore.Ascending dir.segments)
    (base : Int) : OrderedStore.Ascending (dir.createSegment base).segments := by
  rw [DataDir.segments_createSegment]
  split
  · exact h
  · exact h.put base []

theorem mem_createSegment {dir : DataDir} {base : Int} {file : Int × Bytes}
    (h : file ∈ (dir.createSegment base).segments) : file.1 = base ∨ file ∈ dir.segments := by
  rw [DataDir.segments_createSegment] at h
  split at h
  · exact Or.inr h
  · rcases OrderedStore.mem_put h with hnew | hold
    · exact Or.inl (Prod.mk.inj hnew).1
    · exact Or.inr hold

/-- A full active file is sealed, and the file of the log end is opened. -/
theorem PartitionLogShard.Indexed.rollover (h : s.Indexed latest) (hfits : FitsInt64 latest) :
    Indexed
      { s with
        root := s.root.createSegment latest
        file := some latest
        segmentCache := cache
        activeSegmentBaseOffset := latest
        writePosition := 0 }
      latest := by
  have hindex : (s.root.createSegment latest).index = s.root.index := by
    unfold DataDir.createSegment
    split <;> rfl
  exact
    { h with
      file := rfl
      active_fits := hfits
      index := hindex.trans h.index
      ascending := ascending_createSegment h.ascending latest }

theorem PartitionLogShard.Continues.rollover (h : s.Continues origin front active latest)
    (hfits : FitsInt64 latest) (hne : active.entries ≠ []) (hlt : active.base < latest) :
    Continues
      { s with
        root := s.root.createSegment latest
        file := some latest
        segmentCache := cache
        activeSegmentBaseOffset := latest
        writePosition := 0 }
      origin (front ++ [active]) ⟨latest, [], 0⟩ latest := by
  have hbefore : ∀ extent ∈ front ++ [active], extent.base < latest := by
    refine forall_mem_concat.mpr ⟨?_, hlt⟩
    intro extent hextent
    exact lt_trans ((pairwise_concat.mp h.bases).2 extent hextent) hlt
  have hout : ∀ extent ∈ front ++ [active], extent.base ≠ latest :=
    fun extent hextent => ne_of_lt (hbefore extent hextent)
  have hwithout : ∀ base, (∀ extent ∈ front ++ [active] ++ [⟨latest, [], 0⟩],
      extent.base ≠ base) → ∀ extent ∈ front ++ [active], extent.base ≠ base :=
    fun base hall extent hextent => hall extent (List.mem_append_left _ hextent)
  exact
    { h.toIndexed.rollover hfits with
      base := rfl
      position := rfl
      entries := by
        rw [List.flatMap_append, ← h.entries]
        simp
      known := by
        intro file hfile hall
        rcases mem_createSegment hfile with hnew | hold
        · exact absurd hnew.symm (hall ⟨latest, [], 0⟩ (List.mem_append_right _ List.mem_cons_self))
        · exact h.known file hold (hwithout _ hall)
      bases := pairwise_concat.mpr ⟨h.bases, hbefore⟩
      passes := by
        unfold Extent.In
        simp only [DataDir.contents_createSegment]
        exact forall_mem_concat.mpr ⟨h.passes, rfl⟩
      tails := by
        simp only [DataDir.contents_createSegment]
        exact forall_mem_concat.mpr ⟨h.tails, h.untouched latest hout⟩
      untouched := by
        intro base hall
        rw [DataDir.contents_createSegment]
        exact h.untouched base (hwithout base hall)
      unread := fun base hall => h.unread base (hwithout base hall)
      filled := forall_mem_concat.mpr ⟨h.filled, hne⟩ }

/-- The active extent after one more record set. -/
def Extent.extend (alignment : Nat) (extent : Extent) (recordSet : RecordSet) : Extent :=
  { base := extent.base
    entries := extent.entries ++ [recordSet.entryAt extent.base extent.stop]
    stop := extent.stop + recordSet.frameSize alignment }

/-- A frame written where the extent stops extends it, and what was behind the frame is
    behind it still. -/
theorem passes_splice {alignment : Nat} (h20 : 20 ≤ alignment) {segment : Bytes} {extent : Extent}
    (h : Passes alignment extent.base segment 0 extent.entries extent.stop)
    (hs : recordSet.Storable) (hcounted : recordSet.Counted) :
    Passes alignment extent.base
        (splice segment extent.stop (recordSet.frame alignment)) 0
        (extent.extend alignment recordSet).entries (extent.extend alignment recordSet).stop ∧
      (splice segment extent.stop (recordSet.frame alignment)).drop
          (extent.extend alignment recordSet).stop =
        segment.drop (extent.extend alignment recordSet).stop := by
  have hpos : 0 < alignment := by omega
  have hlength := RecordSet.length_frame hpos recordSet
  constructor
  · have hold : Passes alignment extent.base
        (splice segment extent.stop (recordSet.frame alignment)) 0 extent.entries extent.stop := by
      apply h.of_agree h20
      intro i hi
      have hinside : extent.stop ≤ segment.length := by
        apply h.in_file h20
        intro hnil
        rw [hnil] at h
        have hzero : 0 = extent.stop := h
        omega
      exact getElem?_splice_of_lt _ hi (by omega)
    have hframe := slice_splice_self segment extent.stop (recordSet.frame alignment)
    rw [hlength] at hframe
    have hread := readFrame_whole h20 hs hframe
    refine hold.append ⟨_, hread, ?_, ?_⟩
    · exact (scannedFrame_entryAt hs hcounted _ _).symm
    · simp only [Int.toNat_natCast]
      rfl
  · apply List.ext_getElem?
    intro i
    rw [List.getElem?_drop, List.getElem?_drop]
    apply getElem?_splice_of_ge
    rw [hlength]
    exact Nat.le_add_right _ _

theorem PartitionLogShard.indexEntries_written (s : PartitionLogShard) (recordSet : RecordSet) :
    (s.written recordSet).indexEntries =
      s.indexEntries ++ [recordSet.entryAt s.activeSegmentBaseOffset s.writePosition] := rfl

/-- **A record set that is written is noted**, at the end of the index file as well. -/
theorem PartitionLogShard.Indexed.written (h : s.Indexed latest)
    (hbase : recordSet.baseOffset = latest) (hcounted : recordSet.Counted) (hs : recordSet.Storable)
    (hend : FitsInt64 recordSet.endOffset) (hroom : s.writePosition < 2 ^ 64) :
    (s.written recordSet).Indexed recordSet.endOffset := by
  have hone := one_le_estimateRecordCount hs.ne_nil
  have hcount : recordSet.endOffset = latest + estimateRecordCount recordSet.bytes :=
    hbase ▸ hcounted.endOffset_eq
  have hendEq : recordSet.endOffset = recordSet.lastOffset + 1 := rfl
  have hnonneg := h.latest_nonneg
  have hposition : s.indexPosition = (indexOf s.logFrameAlignment s.indexEntries).length := by
    rw [length_indexOf s.logFrameAlignment_pos, h.indexPosition]
  have hkept : (s.written recordSet).logFrameAlignment = s.logFrameAlignment := rfl
  exact
    { file := h.file
      indexFile := h.indexFile
      active_fits := h.active_fits
      index := by
        rw [PartitionLogShard.index_written h.index hposition, s.indexEntries_written]
        simp [indexOf, hkept]
      indexPosition := by
        rw [s.indexEntries_written, List.length_append, List.length_singleton, Nat.succ_mul, hkept,
          ← h.indexPosition]
        rfl
      decodes := by
        rw [s.indexEntries_written]
        refine forall_mem_concat.mpr ⟨h.decodes, ?_⟩
        refine decode_recordSet _ hs hcounted ?_ h.active_fits hroom
        unfold FitsInt64 at hend ⊢
        constructor <;> omega
      ascending := h.ascending.put _ _
      latest_nonneg := by omega
      latest_eq := by
        rw [s.indexEntries_written, scanEnd, List.getLast?_concat]
        rfl }

theorem PartitionLogShard.Continues.contents_written (h : s.Continues origin front active latest)
    (recordSet : RecordSet) (base : Int) :
    (s.written recordSet).root.contents base =
      if base = active.base then
        splice (s.root.contents active.base) active.stop (recordSet.frame s.logFrameAlignment)
      else s.root.contents base := by
  have hwrite := DataDir.contents_writeSegment s.root s.activeSegmentBaseOffset base
    s.writePosition (recordSet.frame s.logFrameAlignment)
  rw [h.base, h.position] at hwrite
  rw [← hwrite]
  simp only [PartitionLogShard.written, h.base, h.position]
  rfl

/-- Every file holds its extent, and behind it what it held. -/
theorem PartitionLogShard.Continues.extents_written (h : s.Continues origin front active latest)
    (h20 : 20 ≤ s.logFrameAlignment) (hs : recordSet.Storable) (hcounted : recordSet.Counted)
    {extent : Extent} (hextent : extent ∈ front ++ [active.extend s.logFrameAlignment recordSet]) :
    extent.In s.logFrameAlignment (s.written recordSet).root ∧
      ((s.written recordSet).root.contents extent.base).drop extent.stop =
        (origin.contents extent.base).drop extent.stop := by
  unfold Extent.In
  rw [h.contents_written]
  rcases List.mem_append.mp hextent with hfront | hlast
  · have hother : extent.base ≠ active.base := ne_of_lt
      ((List.pairwise_append.mp h.bases).2.2 extent hfront active List.mem_cons_self)
    have hmem : extent ∈ front ++ [active] := List.mem_append_left _ hfront
    rw [if_neg hother]
    exact ⟨h.passes extent hmem, h.tails extent hmem⟩
  · have hextended : (active.extend s.logFrameAlignment recordSet).base = active.base := rfl
    obtain ⟨hpasses, hdrop⟩ := passes_splice h20 (h.passes active h.active_mem) hs hcounted
    rw [List.mem_singleton.mp hlast, if_pos hextended, hdrop]
    refine ⟨hpasses, ?_⟩
    have htail := congrArg (List.drop (recordSet.frameSize s.logFrameAlignment))
      (h.tails active h.active_mem)
    rw [List.drop_drop, List.drop_drop] at htail
    exact htail

theorem forall_base_ne_of_extend {alignment : Nat} {base : Int}
    (hall : ∀ extent ∈ front ++ [active.extend alignment recordSet], extent.base ≠ base) :
    ∀ extent ∈ front ++ [active], extent.base ≠ base := by
  obtain ⟨hfront, hlast⟩ := forall_mem_concat.mp hall
  exact forall_mem_concat.mpr ⟨hfront, hlast⟩

/-- **A frame is written behind the active extent.** -/
theorem PartitionLogShard.Continues.written (h : s.Continues origin front active latest)
    (h20 : 20 ≤ s.logFrameAlignment) (hbase : recordSet.baseOffset = latest)
    (hcounted : recordSet.Counted) (hs : recordSet.Storable) (hend : FitsInt64 recordSet.endOffset)
    (hroom : s.writePosition < 2 ^ 64) :
    (s.written recordSet).Continues origin front (active.extend s.logFrameAlignment recordSet)
      recordSet.endOffset :=
  { h.toIndexed.written hbase hcounted hs hend hroom with
    base := h.base
    position := by
      simp only [PartitionLogShard.written, h.position]
      rfl
    entries := by
      rw [s.indexEntries_written, h.base, h.position, h.entries]
      simp [Extent.extend]
    known := by
      intro file hfile hall
      rcases OrderedStore.mem_put hfile with hnew | hold
      · have hkey : file.1 = active.base := (Prod.mk.inj hnew).1.trans h.base
        exact absurd hkey.symm (hall (active.extend s.logFrameAlignment recordSet)
          (List.mem_append_right _ List.mem_cons_self))
      · exact h.known file hold (forall_base_ne_of_extend hall)
    bases := pairwise_concat.mpr ⟨(pairwise_concat.mp h.bases).1, (pairwise_concat.mp h.bases).2⟩
    passes := fun extent hextent => (h.extents_written h20 hs hcounted hextent).1
    tails := fun extent hextent => (h.extents_written h20 hs hcounted hextent).2
    untouched := by
      intro base hall
      have hout := forall_base_ne_of_extend hall
      rw [h.contents_written, if_neg (Ne.symm (hout active h.active_mem))]
      exact h.untouched base hout
    unread := fun base hall => h.unread base (forall_base_ne_of_extend hall)
    filled := h.filled }

end Write

/-! ### Calls -/

/-- Record sets are written from `position` of the segment `base` on.  Wherever the writing
    leaves a segment file, the bytes that were in the file do not read as a frame. -/
def TailsUnread (segmentBytes alignment : Nat) (origin : DataDir) :
    Int → Nat → Int → List Bytes → Prop
  | base, position, _, [] => readFrame alignment (origin.contents base) position = none
  | base, position, latest, records :: rest =>
    let size := frameSize alignment records.length
    let next := latest + estimateRecordCount records
    if position = 0 ∨ position + size ≤ segmentBytes then
      TailsUnread segmentBytes alignment origin base (position + size) next rest
    else
      readFrame alignment (origin.contents base) position = none ∧
        TailsUnread segmentBytes alignment origin latest size next rest

/-- Wherever the writing goes on in another file, that file is named after a larger offset
    than the one it leaves. -/
def RollsForward (segmentBytes alignment : Nat) : Int → Nat → Int → List Bytes → Prop
  | _, _, _, [] => True
  | base, position, latest, records :: rest =>
    let size := frameSize alignment records.length
    let next := latest + estimateRecordCount records
    if position = 0 ∨ position + size ≤ segmentBytes then
      RollsForward segmentBytes alignment base (position + size) next rest
    else base < latest ∧ RollsForward segmentBytes alignment latest size next rest

/-- It is so if the active file is named below the log end. -/
theorem rollsForward_of_lt {segmentBytes alignment : Nat} {base latest : Int} {position : Nat}
    {requests : List Bytes} (hne : ∀ records ∈ requests, records ≠ []) (hle : base ≤ latest)
    (hlt : position ≠ 0 → base < latest) :
    RollsForward segmentBytes alignment base position latest requests := by
  induction requests generalizing base position latest with
  | nil => trivial
  | cons records rest ih =>
    obtain ⟨hrecords, hrest⟩ := List.forall_mem_cons.mp hne
    have hone := one_le_estimateRecordCount hrecords
    rw [RollsForward]
    split
    · exact ih hrest (by omega) fun _ => by omega
    · next hfull =>
        exact ⟨hlt fun hzero => hfull (Or.inl hzero), ih hrest (by omega) fun _ => by omega⟩

/-- The files left so far, and those the remaining requests will leave. -/
def Discards (segmentBytes alignment : Nat) (origin : DataDir) (front : List Extent)
    (active : Extent) (latest : Int) (requests : List Bytes) : Prop :=
  (∀ extent ∈ front, readFrame alignment (origin.contents extent.base) extent.stop = none) ∧
    TailsUnread segmentBytes alignment origin active.base active.stop latest requests

section Calls

variable {s s' : PartitionLogShard} {origin : DataDir} {front : List Extent} {active : Extent}
  {call : LogCall} {calls : List LogCall}

/-- Finding room for a request. -/
theorem PartitionLogShard.Indexed.makeRoom (h : s.Indexed s.offsets.latest)
    (hfits : FitsInt64 s.offsets.latest) (hsegment : s.segmentBytes < 2 ^ 64) (size : Nat) :
    (s.placeSegment s.offsets.latest size).Indexed s.offsets.latest ∧
      (s.placeSegment s.offsets.latest size).writePosition < 2 ^ 64 ∧
      (s.placeSegment s.offsets.latest size).indexEntries = s.indexEntries := by
  by_cases hroom : s.writePosition = 0 ∨ s.writePosition + size ≤ s.segmentBytes
  · rw [placeSegment_of_fits h.file hroom]
    exact ⟨h, by omega, rfl⟩
  · rw [placeSegment_of_full h.file hroom]
    exact ⟨h.rollover hfits, Nat.two_pow_pos 64, rfl⟩

theorem PartitionLogShard.Continues.entries_ne
    (h : s.Continues origin front active s.offsets.latest) (hstop : active.stop ≠ 0) :
    active.entries ≠ [] := by
  intro hnil
  have hpasses := h.passes active h.active_mem
  unfold Extent.In at hpasses
  rw [hnil] at hpasses
  exact hstop hpasses.symm

theorem PartitionLogShard.Continues.makeRoom (h : s.Continues origin front active s.offsets.latest)
    (hfits : FitsInt64 s.offsets.latest) (records : Bytes) (hforward : (active.stop = 0 ∨
        active.stop + frameSize s.logFrameAlignment records.length ≤ s.segmentBytes) ∨
      active.base < s.offsets.latest) :
    ∃ front' active',
      (s.placeSegment s.offsets.latest
        (frameSize s.logFrameAlignment records.length)).Continues origin front' active'
          s.offsets.latest ∧
      (active'.stop = 0 ∨
        active'.stop + frameSize s.logFrameAlignment records.length ≤ s.segmentBytes) ∧
      ∀ rest,
        (Discards s.segmentBytes s.logFrameAlignment origin front active s.offsets.latest
            (records :: rest) ↔
          Discards s.segmentBytes s.logFrameAlignment origin front' active' s.offsets.latest
            (records :: rest)) ∧
        (RollsForward s.segmentBytes s.logFrameAlignment active.base active.stop s.offsets.latest
            (records :: rest) ↔
          RollsForward s.segmentBytes s.logFrameAlignment active'.base active'.stop
            s.offsets.latest (records :: rest)) := by
  by_cases hroom : active.stop = 0 ∨
      active.stop + frameSize s.logFrameAlignment records.length ≤ s.segmentBytes
  · rw [placeSegment_of_fits h.file (by rwa [h.position])]
    exact ⟨front, active, h, hroom, fun _ => ⟨Iff.rfl, Iff.rfl⟩⟩
  · have hne := h.entries_ne fun hzero => hroom (Or.inl hzero)
    rw [placeSegment_of_full h.file (by rwa [h.position])]
    refine ⟨front ++ [active], ⟨s.offsets.latest, [], 0⟩,
      h.rollover hfits hne (hforward.resolve_left hroom), Or.inl rfl, ?_⟩
    intro rest
    unfold Discards
    rw [TailsUnread, TailsUnread, RollsForward, RollsForward, if_neg hroom, if_neg hroom,
      if_pos (Or.inl rfl), if_pos (Or.inl rfl), Nat.zero_add, forall_mem_concat, and_assoc]
    exact ⟨Iff.rfl, and_iff_right (hforward.resolve_left hroom)⟩

theorem PartitionLogShard.Indexed.storable (h : s.Indexed s.offsets.latest) {records : Bytes}
    (hne : records ≠ []) (hsize : records.length < 2 ^ 31) {latest : Int}
    (hlatest : latest = s.offsets.latest + estimateRecordCount records) (hend : FitsInt64 latest) :
    FitsInt64 s.offsets.latest ∧ (recordSetAt s.offsets.latest records).Storable ∧
      latest = (recordSetAt s.offsets.latest records).endOffset := by
  have hone := one_le_estimateRecordCount hne
  have hnonneg := h.latest_nonneg
  have hfits : FitsInt64 s.offsets.latest := by
    unfold FitsInt64 at hend ⊢
    omega
  exact ⟨hfits, ⟨hne, hsize, hfits⟩, by rw [hlatest, recordSetAt_endOffset]⟩

/-- **An accepted call** notes one entry. -/
theorem PartitionLogShard.Indexed.accepted (h : s.Indexed s.offsets.latest)
    (hsegment : s.segmentBytes < 2 ^ 64) (hne : call.records ≠ [])
    (hsize : call.records.length < 2 ^ 31) (haccepted : s.accepted call = some s')
    (hend : FitsInt64 s'.offsets.latest) :
    s'.Indexed s'.offsets.latest ∧
      s'.indexEntries = s.indexEntries ++
        [(recordSetAt s.offsets.latest call.records).entryAt
          (s.placeSegment s.offsets.latest
            (frameSize s.logFrameAlignment call.records.length)).activeSegmentBaseOffset
          (s.placeSegment s.offsets.latest
            (frameSize s.logFrameAlignment call.records.length)).writePosition] ∧
      s'.offsets.latest = s.offsets.latest + estimateRecordCount call.records ∧
      s'.logFrameAlignment = s.logFrameAlignment ∧ s'.segmentBytes = s.segmentBytes := by
  obtain ⟨head, rfl, hlatest⟩ := accepted_written haccepted h.file h.indexFile
  obtain ⟨halign, hbytes, -⟩ := placeSegment_kept h.file s.offsets.latest
    (frameSize s.logFrameAlignment call.records.length)
  obtain ⟨hfits, hs, hends⟩ := h.storable hne hsize hlatest hend
  obtain ⟨hroom, hposition, hentries⟩ := h.makeRoom hfits hsegment
    (frameSize s.logFrameAlignment call.records.length)
  have hwritten := hroom.written rfl (recordSetAt_counted _ _) hs (hends ▸ hend) hposition
  refine ⟨?_, ?_, hlatest, halign, hbytes⟩
  · change Indexed _ head.offsets.latest
    rw [hends]
    exact hwritten.withHead head
  · change (PartitionLogShard.written _ _).indexEntries = _
    rw [PartitionLogShard.indexEntries_written, hentries]

/-- It extends the active extent, or starts one in a file behind. -/
theorem PartitionLogShard.Continues.accepted (h : s.Continues origin front active s.offsets.latest)
    (h20 : 20 ≤ s.logFrameAlignment) (hsegment : s.segmentBytes < 2 ^ 64) (hne : call.records ≠ [])
    (hsize : call.records.length < 2 ^ 31) (hforward : (active.stop = 0 ∨
        active.stop + frameSize s.logFrameAlignment call.records.length ≤ s.segmentBytes) ∨
      active.base < s.offsets.latest) (haccepted : s.accepted call = some s')
    (hend : FitsInt64 s'.offsets.latest) :
    ∃ front' active',
      s'.Continues origin front' active' s'.offsets.latest ∧ active'.entries ≠ [] ∧
      ∀ rest,
        (Discards s.segmentBytes s.logFrameAlignment origin front active s.offsets.latest
            (call.records :: rest) ↔
          Discards s.segmentBytes s.logFrameAlignment origin front' active' s'.offsets.latest
            rest) ∧
        (RollsForward s.segmentBytes s.logFrameAlignment active.base active.stop s.offsets.latest
            (call.records :: rest) ↔
          RollsForward s.segmentBytes s.logFrameAlignment active'.base active'.stop
            s'.offsets.latest rest) := by
  obtain ⟨head, rfl, hlatest⟩ := accepted_written haccepted h.file h.indexFile
  obtain ⟨halign, -⟩ := placeSegment_kept h.file s.offsets.latest
    (frameSize s.logFrameAlignment call.records.length)
  obtain ⟨hfits, hs, hends⟩ := h.storable hne hsize hlatest hend
  obtain ⟨-, hposition, -⟩ := h.toIndexed.makeRoom hfits hsegment
    (frameSize s.logFrameAlignment call.records.length)
  obtain ⟨front', active', hroom, hplace, hrest⟩ := h.makeRoom hfits call.records hforward
  have hwritten := hroom.written (by rw [halign]; exact h20) rfl (recordSetAt_counted _ _) hs
    (hends ▸ hend) hposition
  rw [halign] at hwritten
  refine ⟨front', active'.extend s.logFrameAlignment (recordSetAt s.offsets.latest call.records),
    ?_, ?_, ?_⟩
  · change Continues _ _ _ _ head.offsets.latest
    rw [hends]
    exact hwritten.withHead head
  · simp [Extent.extend]
  · intro rest
    rw [(hrest rest).1, (hrest rest).2]
    unfold Discards
    rw [TailsUnread, RollsForward, if_pos hplace, if_pos hplace, ← hlatest]
    exact ⟨Iff.rfl, Iff.rfl⟩

/-- The log end of every state in between fits, since the last one does. -/
theorem PartitionLogShard.Indexed.latest_fits (h : s.Indexed s.offsets.latest)
    {t : PartitionLogShard} (ht : s.accepted call = some t)
    (hrun : Transition.run PartitionLogShard.accepted t calls = some s')
    (hend : FitsInt64 s'.offsets.latest) :
    FitsInt64 t.offsets.latest ∧ t.offsets.latest ≤ s'.offsets.latest := by
  obtain ⟨head, rfl, hlatest⟩ := accepted_written ht h.file h.indexFile
  obtain ⟨-, -, hkept⟩ := placeSegment_kept h.file s.offsets.latest
    (frameSize s.logFrameAlignment call.records.length)
  have hle := run_accepted_latest hrun (placeSegment_file h.file _ _) (hkept.trans h.indexFile)
  have hnonneg := h.latest_nonneg
  have hcount := estimateRecordCount_nonneg call.records
  change head.offsets.latest ≤ s'.offsets.latest at hle
  change FitsInt64 head.offsets.latest ∧ head.offsets.latest ≤ s'.offsets.latest
  unfold FitsInt64 at hend ⊢
  omega

/-- **A run of accepted calls** notes one entry for each of its record sets. -/
theorem PartitionLogShard.Indexed.run
    (hcalls : ∀ call ∈ calls, call.records ≠ [] ∧ call.records.length < 2 ^ 31)
    (hrun : Transition.run PartitionLogShard.accepted s calls = some s')
    (h : s.Indexed s.offsets.latest) (hsegment : s.segmentBytes < 2 ^ 64)
    (hend : FitsInt64 s'.offsets.latest) :
    ∃ appended,
      s'.Indexed s'.offsets.latest ∧ s'.indexEntries = s.indexEntries ++ appended ∧
      (∀ entry ∈ appended, entry.lastOffset < s'.offsets.latest) ∧
      List.Forall₂ (fun r entry => entry = r.entryAt entry.segmentBase entry.segmentPosition)
        (recordSetsFrom s.offsets.latest (calls.map LogCall.records)) appended ∧
      s'.logFrameAlignment = s.logFrameAlignment ∧ s'.segmentBytes = s.segmentBytes := by
  induction calls generalizing s with
  | nil =>
    obtain rfl := Option.some.inj hrun
    exact ⟨[], h, (List.append_nil _).symm, fun _ hmem => absurd hmem List.not_mem_nil,
      List.Forall₂.nil, rfl, rfl⟩
  | cons call calls ih =>
    obtain ⟨⟨hne, hsize⟩, hrest⟩ := List.forall_mem_cons.mp hcalls
    rw [Transition.run] at hrun
    split at hrun
    · next t ht =>
        obtain ⟨hfits, hle⟩ := h.latest_fits ht hrun hend
        obtain ⟨hindexed, hentry, hlatest, halign, hbytes⟩ :=
          h.accepted hsegment hne hsize ht hfits
        obtain ⟨appended, hdone, hentries, hends, hnoted, halign', hbytes'⟩ :=
          ih hrest hrun hindexed (by rwa [hbytes])
        rw [hlatest] at hnoted
        rw [hentry, List.append_assoc] at hentries
        refine ⟨_, hdone, hentries, List.forall_mem_cons.mpr ⟨?_, hends⟩, .cons rfl hnoted,
          halign'.trans halign, hbytes'.trans hbytes⟩
        have hlast := recordSetAt_endOffset s.offsets.latest call.records
        rw [← hlatest] at hlast
        change RecordSet.lastOffset _ + 1 = _ at hlast
        change RecordSet.lastOffset _ < _
        omega
    · cases hrun

/-- A scan finds no frame at the beginning of a file behind another frame of that file or of
    a file named after a larger offset. -/
theorem scanFiles_ne_of_back {alignment : Nat} (hpos : 0 < alignment) {dir : DataDir}
    (hascending : OrderedStore.Ascending dir.segments) {entries more : List IndexEntry}
    {entry back : IndexEntry} (hentry : entry ∈ entries)
    (hle : back.segmentBase ≤ entry.segmentBase) (hzero : back.segmentPosition = 0) :
    scanFiles alignment dir.segments ≠ entries ++ back :: more := by
  intro hscan
  have hsorted := scanFiles_pairwise hpos hascending
  rw [hscan, List.pairwise_append] at hsorted
  rcases hsorted.2.2 entry hentry back List.mem_cons_self with hlt | hlater <;> omega

/-- **Where a run of accepted calls leaves the files.**  If every rollover has led forward
    they hold extents again; otherwise a frame stands before an earlier one, and no scan finds
    the entries. -/
theorem PartitionLogShard.Continues.run
    (hcalls : ∀ call ∈ calls, call.records ≠ [] ∧ call.records.length < 2 ^ 31)
    (hrun : Transition.run PartitionLogShard.accepted s calls = some s')
    (h : s.Continues origin front active s.offsets.latest) (h20 : 20 ≤ s.logFrameAlignment)
    (hsegment : s.segmentBytes < 2 ^ 64) (hsettled : Settled front active)
    (hend : FitsInt64 s'.offsets.latest) :
    (RollsForward s.segmentBytes s.logFrameAlignment active.base active.stop s.offsets.latest
        (calls.map LogCall.records) →
      ∃ front' active',
        s'.Continues origin front' active' s'.offsets.latest ∧ Settled front' active' ∧
        (Discards s.segmentBytes s.logFrameAlignment origin front active s.offsets.latest
            (calls.map LogCall.records) ↔
          ∀ extent ∈ front' ++ [active'],
            readFrame s.logFrameAlignment (origin.contents extent.base) extent.stop = none)) ∧
    (¬ RollsForward s.segmentBytes s.logFrameAlignment active.base active.stop s.offsets.latest
        (calls.map LogCall.records) →
      scanFiles s.logFrameAlignment s'.root.segments ≠ s'.indexEntries) := by
  induction calls generalizing s front active with
  | nil =>
    obtain rfl := Option.some.inj hrun
    refine ⟨fun _ => ⟨front, active, h, hsettled, ?_⟩, fun hback => absurd trivial hback⟩
    unfold Discards
    rw [List.map_nil, TailsUnread, List.forall_mem_append, List.forall_mem_singleton]
  | cons call calls ih =>
    obtain ⟨⟨hne, hsize⟩, hrest⟩ := List.forall_mem_cons.mp hcalls
    rw [Transition.run] at hrun
    split at hrun
    · next t ht =>
        obtain ⟨hfits, -⟩ := h.latest_fits ht hrun hend
        obtain ⟨hindexed, hentry, -, halign, hbytes⟩ :=
          h.toIndexed.accepted hsegment hne hsize ht hfits
        rw [List.map_cons]
        by_cases hforward : (active.stop = 0 ∨ active.stop +
            frameSize s.logFrameAlignment call.records.length ≤ s.segmentBytes) ∨
            active.base < s.offsets.latest
        · obtain ⟨front₁, active₁, hcontinues, hfilled, hiff⟩ :=
            h.accepted h20 hsegment hne hsize hforward ht hfits
          have hdone := ih hrest hrun hcontinues (by rwa [halign]) (by rwa [hbytes])
            fun hnil => absurd hnil hfilled
          rw [halign, hbytes] at hdone
          rwa [(hiff _).1, (hiff _).2]
        · -- the frame is at the beginning of a file that is not behind the active one
          obtain ⟨hfull, hback⟩ := not_or.mp hforward
          have hrolls : ¬ RollsForward s.segmentBytes s.logFrameAlignment active.base active.stop
              s.offsets.latest (call.records :: calls.map LogCall.records) := by
            rw [RollsForward, if_neg hfull]
            exact fun hboth => hback hboth.1
          refine ⟨fun hforward => absurd hforward hrolls, fun _ => ?_⟩
          obtain ⟨more, hdone, hentries, -⟩ := hindexed.run hrest hrun (by rwa [hbytes]) hend
          rw [hentry, placeSegment_of_full h.file (by rwa [h.position]), List.append_assoc]
            at hentries
          obtain ⟨entry, hmem⟩ := List.exists_mem_of_ne_nil _
            (h.entries_ne fun hzero => hfull (Or.inl hzero))
          obtain ⟨_, -, hframe, -⟩ := (h.passes active h.active_mem).mem
            s.logFrameAlignment_pos hmem
          have hbase : entry.segmentBase = active.base := congrArg IndexEntry.segmentBase hframe
          rw [hentries]
          have hnoted : entry ∈ s.indexEntries := by
            rw [h.entries]
            exact List.mem_flatMap.mpr ⟨active, h.active_mem, hmem⟩
          refine scanFiles_ne_of_back s.logFrameAlignment_pos hdone.ascending hnoted ?_ rfl
          change s.offsets.latest ≤ entry.segmentBase
          omega
    · cases hrun

end Calls

end Mkmq
