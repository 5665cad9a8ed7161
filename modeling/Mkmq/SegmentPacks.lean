import Mkmq.FrameScan
import Mkmq.SequentialLog

/-!
# Segment files as lists of record sets

Between calls that run one at a time, each segment file is a sequence of whole frames.
A `Pack` names the record sets of one file.  An empty record set takes no offset, so a
segment that holds nothing else has the base offset of the next record set too; when
such a segment is full, `ensure_segment_for_write` opens it again and writes over it from
the beginning.  What is left of the overwritten frames are empty ones, which `stale`
lists.
-/

namespace Mkmq

open ByteCodec ListRules

variable {sets : List RecordSet}

/-- The record sets of one segment file, and the empty ones left behind them. -/
structure Pack where
  base : Int
  sets : List RecordSet := []
  stale : List RecordSet := []

/-- The frames of record sets, one after the other. -/
def framesOf (alignment : Nat) (sets : List RecordSet) : Bytes :=
  (sets.map (RecordSet.frame alignment)).flatten

def Pack.file (alignment : Nat) (pack : Pack) : Int × Bytes :=
  (pack.base, framesOf alignment (pack.sets ++ pack.stale))

def Pack.entries (alignment : Nat) (pack : Pack) : List IndexEntry :=
  entriesAt alignment pack.base 0 pack.sets

/-- The record set takes no offset. -/
def RecordSet.isEmpty (recordSet : RecordSet) : Bool := recordSet.bytes.isEmpty

/-- The record sets that hold records. -/
def nonempty (sets : List RecordSet) : List RecordSet := sets.filter fun r => !r.isEmpty

/-! ### Frames and their bytes -/

section Frames

variable {alignment : Nat}

@[simp] theorem framesOf_nil : framesOf alignment [] = [] := rfl

@[simp] theorem framesOf_cons (recordSet : RecordSet) (rest : List RecordSet) :
    framesOf alignment (recordSet :: rest) =
      recordSet.frame alignment ++ framesOf alignment rest := rfl

@[simp] theorem framesOf_append (front back : List RecordSet) :
    framesOf alignment (front ++ back) = framesOf alignment front ++ framesOf alignment back := by
  simp [framesOf]

theorem length_framesOf (hpos : 0 < alignment) (sets : List RecordSet) :
    (framesOf alignment sets).length = framesLength alignment sets := by
  induction sets with
  | nil => rfl
  | cons recordSet rest ih =>
    rw [framesOf_cons, List.length_append, RecordSet.length_frame hpos, ih, framesLength_cons]

/-- The frames of a pack stand in its file. -/
theorem framesAt_framesOf (hpos : 0 < alignment) (front sets back : List RecordSet) :
    FramesAt alignment (framesOf alignment (front ++ sets ++ back))
      (framesLength alignment front) sets := by
  induction sets generalizing front with
  | nil => exact trivial
  | cons recordSet rest ih =>
    constructor
    · have hslice := slice_append_exact (framesOf alignment front) (recordSet.frame alignment)
        (framesOf alignment (rest ++ back))
      rw [length_framesOf hpos, RecordSet.length_frame hpos] at hslice
      simpa using hslice
    · have hnext := ih (front ++ [recordSet])
      rw [framesLength_append, framesLength_cons, framesLength_nil, Nat.add_zero] at hnext
      simpa using hnext

/-- The frame of an empty record set is one aligned block. -/
theorem frameSize_of_isEmpty (h20 : 20 ≤ alignment) {recordSet : RecordSet}
    (hempty : recordSet.isEmpty = true) : recordSet.frameSize alignment = alignment := by
  have hnil : recordSet.bytes = [] := List.isEmpty_iff.mp hempty
  unfold RecordSet.frameSize Mkmq.frameSize
  rw [hnil]
  exact roundUp_eq_alignment (by decide) h20

/-- Cutting whole blocks off a list of empty frames leaves the later ones. -/
theorem drop_framesOf_empty (h20 : 20 ≤ alignment) {sets : List RecordSet}
    (hempty : ∀ recordSet ∈ sets, recordSet.isEmpty = true) (n : Nat) :
    (framesOf alignment sets).drop (n * alignment) = framesOf alignment (sets.drop n) := by
  induction n generalizing sets with
  | zero => simp
  | succ n ih =>
    cases sets with
    | nil => simp
    | cons recordSet rest =>
      have hlength : (recordSet.frame alignment).length = alignment := by
        rw [RecordSet.length_frame (by omega),
          frameSize_of_isEmpty h20 (hempty recordSet List.mem_cons_self)]
      rw [framesOf_cons, List.drop_succ_cons,
        ← ih (fun r hr => hempty r (List.mem_cons_of_mem _ hr)), Nat.succ_mul,
        Nat.add_comm, ← List.drop_drop, List.drop_left' hlength]

/-- A frame written behind the frames of `sets` covers whole stale frames. -/
theorem splice_framesOf (h20 : 20 ≤ alignment) {stale : List RecordSet}
    (hempty : ∀ recordSet ∈ stale, recordSet.isEmpty = true) (sets : List RecordSet)
    (recordSet : RecordSet) :
    ∃ n, splice (framesOf alignment (sets ++ stale)) (framesLength alignment sets)
        (recordSet.frame alignment) =
      framesOf alignment ((sets ++ [recordSet]) ++ stale.drop n) := by
  have hpos : 0 < alignment := by omega
  obtain ⟨n, hn⟩ : alignment ∣ recordSet.frameSize alignment := dvd_roundUp _ _
  refine ⟨n, ?_⟩
  have hsplice := splice_append_right (framesOf alignment sets) (framesOf alignment stale)
    (recordSet.frame alignment)
  rw [length_framesOf hpos, RecordSet.length_frame hpos, hn, Nat.mul_comm,
    drop_framesOf_empty h20 hempty] at hsplice
  rw [framesOf_append, hsplice]
  simp

end Frames

/-! ### Entries of packs -/

/-- Frames of different packs are in different files, those of one pack follow each other. -/
theorem framesApart_flatMap {alignment : Nat} (hpos : 0 < alignment) {packs : List Pack}
    (hbases : packs.Pairwise fun pack later => pack.base < later.base)
    {sets : Pack → List RecordSet}
    (hs : ∀ pack ∈ packs, ∀ recordSet ∈ sets pack, recordSet.Storable) :
    (packs.flatMap fun pack => entriesAt alignment pack.base 0 (sets pack)).Pairwise
      (FramesApart alignment) := by
  refine List.pairwise_flatMap.mpr ⟨?_, ?_⟩
  · intro pack hpack
    exact framesApart_of_tiles
      (tiles_entriesAt hpos pack.base 0 fun r hr => (hs pack hpack r hr).size)
  · refine hbases.imp ?_
    intro pack later hlt entry hentry other hother hsame
    rw [(mem_entriesAt hentry).1, (mem_entriesAt hother).1] at hsame
    exact absurd hsame (ne_of_lt hlt)

/-! ### Scanning packs -/

/-- **What a scan finds of a pack**: its record sets before the first empty one. -/
theorem scanSegment_pack {alignment : Nat} (h20 : 20 ≤ alignment) {pack : Pack}
    (hs : ∀ recordSet ∈ nonempty pack.sets, recordSet.Storable ∧ recordSet.Counted)
    (hstale : ∀ recordSet ∈ pack.stale, recordSet.isEmpty = true) :
    scanSegment alignment pack.base (pack.file alignment).2 (pack.file alignment).2.length 0 =
      entriesAt alignment pack.base 0 (pack.sets.takeWhile fun r => !r.isEmpty) := by
  have hpos : 0 < alignment := by omega
  set lead := pack.sets.takeWhile fun r => !r.isEmpty with hlead
  obtain ⟨rest, hrest, hhead⟩ : ∃ rest, pack.sets ++ pack.stale = lead ++ rest ∧
      ∀ r ∈ rest.head?, r.isEmpty = true := by
    refine ⟨pack.sets.dropWhile (fun r => !r.isEmpty) ++ pack.stale, ?_, ?_⟩
    · rw [hlead, ← List.append_assoc, List.takeWhile_append_dropWhile]
    · intro r hr
      cases hdrop : pack.sets.dropWhile fun r => !r.isEmpty with
      | nil =>
        rw [hdrop, List.nil_append] at hr
        exact hstale r (List.mem_of_mem_head? hr)
      | cons first others =>
        rw [hdrop, List.cons_append, List.head?_cons] at hr
        obtain rfl := Option.some.inj hr
        have hnot := List.head?_dropWhile_not (fun r : RecordSet => !r.isEmpty) pack.sets
        rw [hdrop, List.head?_cons] at hnot
        simpa using hnot
  have hfile : (pack.file alignment).2 = framesOf alignment (lead ++ rest) := by
    unfold Pack.file
    rw [hrest]
  have hleadAt : FramesAt alignment (pack.file alignment).2 0 lead := by
    have hframes := framesAt_framesOf hpos [] lead rest
    rw [hfile]
    simpa using hframes
  refine scanSegment_file h20 pack.base ?_ hleadAt ?_
  · intro r hr
    refine hs r (List.mem_filter.mpr
      ⟨?_, List.mem_takeWhile_imp (p := fun r : RecordSet => !r.isEmpty) hr⟩)
    exact (List.takeWhile_sublist _).subset hr
  · cases rest with
    | nil =>
      rw [List.append_nil] at hfile
      refine readFrame_of_end ?_
      rw [hfile, length_framesOf hpos]
      omega
    | cons recordSet others =>
      have hempty := hhead recordSet rfl
      have hframes := framesAt_framesOf hpos lead [recordSet] others
      rw [hfile]
      refine readFrame_of_empty h20 (List.isEmpty_iff.mp hempty) ?_
      simpa using hframes.1

/-! ### The shard between calls -/

/-- The entry points at a frame with records. -/
def IndexEntry.holdsRecords (entry : IndexEntry) : Bool := decide (0 < entry.recordBytes)

theorem RecordSet.holdsRecords_entryAt {recordSet : RecordSet}
    (hsize : recordSet.bytes.length < 2 ^ 31) (segmentBase : Int) (position : Nat) :
    (recordSet.entryAt segmentBase position).holdsRecords = !recordSet.isEmpty := by
  unfold IndexEntry.holdsRecords RecordSet.isEmpty
  rw [RecordSet.entryAt_recordBytes_of_lt hsize]
  cases recordSet.bytes with
  | nil => rfl
  | cons byte rest =>
    simp only [List.isEmpty_cons, Bool.not_false, decide_eq_true_eq]
    exact Int.natCast_pos.mpr (List.length_pos_of_ne_nil (List.cons_ne_nil _ _))

@[simp] theorem nonempty_nil : nonempty [] = [] := rfl

@[simp] theorem nonempty_append (front back : List RecordSet) :
    nonempty (front ++ back) = nonempty front ++ nonempty back := List.filter_append ..

theorem mem_nonempty {r : RecordSet} : r ∈ nonempty sets ↔ r ∈ sets ∧ r.bytes ≠ [] := by
  unfold nonempty RecordSet.isEmpty
  rw [List.mem_filter, Bool.not_eq_true', List.isEmpty_eq_false_iff]

theorem nonempty_eq_nil (h : ∀ r ∈ sets, r.isEmpty = true) : nonempty sets = [] := by
  refine List.filter_eq_nil_iff.mpr ?_
  intro r hr
  rw [h r hr]
  exact Bool.false_ne_true

theorem filter_entriesAt_eq_nil (h : ∀ r ∈ sets, r.isEmpty = true) (alignment : Nat)
    (segmentBase : Int) (position : Nat) :
    (entriesAt alignment segmentBase position sets).filter IndexEntry.holdsRecords = [] := by
  refine List.filter_eq_nil_iff.mpr ?_
  intro entry hentry
  obtain ⟨-, -, r, hr, heq, -⟩ := mem_entriesAt hentry
  have hnil : r.bytes = [] := List.isEmpty_iff.mp (h r hr)
  rw [heq, RecordSet.holdsRecords_entryAt (by rw [hnil]; decide), h r hr]
  exact Bool.false_ne_true

/-- The log `all` has been written one call at a time, and its files are the packs
    `front` and `active`.  The next record set takes the offsets from `latest` on. -/
structure PartitionLogShard.Packed (s : PartitionLogShard) (front : List Pack) (active : Pack)
    (all : List RecordSet) (latest : Int) : Prop where
  file : s.file = some s.activeSegmentBaseOffset
  indexFile : s.indexFile = true
  base : s.activeSegmentBaseOffset = active.base
  position : s.writePosition = framesLength s.logFrameAlignment active.sets
  files : s.root.segments = (front ++ [active]).map (Pack.file s.logFrameAlignment)
  bases : (front ++ [active]).Pairwise fun pack later => pack.base < later.base
  base_nonneg : ∀ pack ∈ front ++ [active], 0 ≤ pack.base
  stale : ∀ pack ∈ front ++ [active], ∀ r ∈ pack.stale, r.isEmpty = true
  base_le : active.base ≤ latest
  base_lt : (∃ r ∈ active.sets, r.isEmpty = false) → active.base < latest
  members : ∀ pack ∈ front ++ [active], ∀ r ∈ pack.sets, r ∈ all
  appended : nonempty all = nonempty ((front ++ [active]).flatMap Pack.sets)
  entries : s.indexEntries.filter IndexEntry.holdsRecords =
    ((front ++ [active]).flatMap (Pack.entries s.logFrameAlignment)).filter IndexEntry.holdsRecords
  last : active.sets ≠ [] →
    s.indexEntries.getLast? = (active.entries s.logFrameAlignment).getLast?
  index : s.root.index =
    some (s.indexEntries.map (encodeIndexEntry s.logFrameAlignment)).flatten
  indexPosition : s.indexPosition = s.indexEntries.length * indexEntrySize s.logFrameAlignment
  noted : List.Forall₂ (fun r entry => entry = r.entryAt entry.segmentBase entry.segmentPosition)
    all s.indexEntries
  placed : ∀ entry ∈ s.indexEntries, 0 ≤ entry.segmentBase ∧ entry.segmentBase ≤ latest ∧
    entry.segmentPosition ≤ s.segmentBytes
  ordered : (nonempty all).Pairwise fun r later => r.lastOffset < later.baseOffset
  bounds : ∀ r ∈ all, 0 ≤ r.baseOffset ∧ r.baseOffset ≤ r.endOffset ∧ r.endOffset ≤ latest
  sound : ∀ r ∈ all, r.Counted ∧ r.bytes.length < 2 ^ 31
  latest_eq : latest = ((nonempty all).getLast?.map RecordSet.endOffset).getD 0

namespace PartitionLogShard

section PackedStep

variable {s : PartitionLogShard} {front : List Pack} {active : Pack} {all : List RecordSet}
  {latest : Int} {recordSet : RecordSet} (h : s.Packed front active all latest)

include h

theorem Packed.withHead (head : LogHead) :
    { s with toLogHead := head }.Packed front active all latest :=
  { h with }

theorem Packed.base_before : ∀ pack ∈ front, pack.base < active.base := by
  exact (pairwise_concat.mp h.bases).2

/-- The keys of the files before the active one. -/
theorem Packed.files_before :
    ∀ file ∈ front.map (Pack.file s.logFrameAlignment), file.1 < active.base := by
  intro file hfile
  obtain ⟨pack, hpack, rfl⟩ := List.mem_map.mp hfile
  exact h.base_before pack hpack

theorem Packed.files_eq :
    s.root.segments =
      front.map (Pack.file s.logFrameAlignment) ++ [active.file s.logFrameAlignment] := by
  rw [h.files, List.map_append, List.map_singleton]

theorem Packed.ascending : OrderedStore.Ascending s.root.segments := by
  rw [h.files]
  exact List.pairwise_map.mpr h.bases

theorem Packed.contents {pack : Pack} (hpack : pack ∈ front ++ [active]) :
    s.root.contents pack.base = (pack.file s.logFrameAlignment).2 := by
  have hmem : pack.file s.logFrameAlignment ∈ s.root.segments := by
    rw [h.files]
    exact List.mem_map_of_mem hpack
  exact DataDir.contents_of_mem h.ascending hmem

/-- All record sets of the active pack are empty when it would be opened again. -/
theorem Packed.active_empty (hbase : active.base = latest) :
    ∀ r ∈ active.sets, r.isEmpty = true := by
  intro r hr
  by_contra hne
  exact absurd (h.base_lt ⟨r, hr, Bool.not_eq_true _ ▸ hne⟩) (by rw [hbase]; exact lt_irrefl _)

/-- The full active segment has the base offset of the next record set: it holds only
    empty record sets and is opened again. -/
theorem Packed.reopen (hbase : active.base = latest) :
    Packed
      { s with
        root := s.root.createSegment latest
        file := some latest
        segmentCache := (s.activeSegmentBaseOffset, s.activeSegmentBaseOffset) ::
          s.segmentCache.take (kSegmentCacheMax - 1)
        activeSegmentBaseOffset := latest
        writePosition := 0 }
      front ⟨active.base, [], active.sets ++ active.stale⟩ all latest := by
  have hempty := h.active_empty hbase
  have hroot : s.root.createSegment latest = s.root := by
    have hfind : OrderedStore.find latest s.root.segments =
        some (active.file s.logFrameAlignment).2 := by
      refine h.ascending.find_of_mem ?_
      rw [h.files_eq, ← hbase]
      exact List.mem_append_right _ List.mem_cons_self
    unfold DataDir.createSegment
    rw [hfind]
  have hsets : nonempty active.sets = [] := nonempty_eq_nil hempty
  have hfiltered := filter_entriesAt_eq_nil hempty s.logFrameAlignment active.base 0
  rw [hroot]
  exact
    { h with
      file := rfl
      base := hbase.symm
      position := rfl
      files := by
        rw [h.files_eq, List.map_append, List.map_singleton]
        rfl
      bases := pairwise_concat.mpr ⟨(pairwise_concat.mp h.bases).1, h.base_before⟩
      base_nonneg := forall_mem_concat.mpr
        ⟨(forall_mem_concat.mp h.base_nonneg).1, (forall_mem_concat.mp h.base_nonneg).2⟩
      stale := by
        obtain ⟨hfront, hactive⟩ := forall_mem_concat.mp h.stale
        refine forall_mem_concat.mpr ⟨hfront, ?_⟩
        intro r hr
        exact (List.mem_append.mp hr).elim (hempty r) (hactive r)
      base_le := h.base_le
      base_lt := fun ⟨r, hr, _⟩ => absurd hr List.not_mem_nil
      members := forall_mem_concat.mpr
        ⟨(forall_mem_concat.mp h.members).1, fun r hr => absurd hr List.not_mem_nil⟩
      appended := by
        rw [h.appended, List.flatMap_append, List.flatMap_append, nonempty_append, nonempty_append]
        simp [hsets]
      entries := by
        rw [h.entries, List.flatMap_append, List.flatMap_append, List.filter_append,
          List.filter_append]
        simp [Pack.entries, hfiltered, entriesAt]
      last := fun hne => absurd rfl hne }

/-- A rollover into a new segment file. -/
theorem Packed.rollover (hbase : active.base < latest) :
    Packed
      { s with
        root := s.root.createSegment latest
        file := some latest
        segmentCache := (s.activeSegmentBaseOffset, s.activeSegmentBaseOffset) ::
          s.segmentCache.take (kSegmentCacheMax - 1)
        activeSegmentBaseOffset := latest
        writePosition := 0 }
      (front ++ [active]) ⟨latest, [], []⟩ all latest := by
  have hbefore : ∀ file ∈ s.root.segments, file.1 < latest := by
    rw [h.files_eq]
    refine forall_mem_concat.mpr ⟨?_, hbase⟩
    exact fun file hfile => lt_trans (h.files_before file hfile) hbase
  have hroot : s.root.createSegment latest =
      { s.root with segments := s.root.segments ++ [(latest, [])] } := by
    have hfind : OrderedStore.find latest s.root.segments = none :=
      OrderedStore.find_eq_none fun file hfile => ne_of_lt (hbefore file hfile)
    unfold DataDir.createSegment
    rw [hfind, OrderedStore.put_eq_append hbefore]
  rw [hroot]
  exact
    { h with
      file := rfl
      base := rfl
      position := rfl
      files := by
        rw [List.map_append, List.map_singleton]
        simp only [h.files]
        rfl
      bases := by
        refine pairwise_concat.mpr ⟨h.bases, forall_mem_concat.mpr ⟨?_, hbase⟩⟩
        exact fun pack hpack => lt_trans (h.base_before pack hpack) hbase
      base_nonneg := forall_mem_concat.mpr
        ⟨h.base_nonneg, le_trans (forall_mem_concat.mp h.base_nonneg).2 h.base_le⟩
      stale := forall_mem_concat.mpr ⟨h.stale, fun r hr => absurd hr List.not_mem_nil⟩
      base_le := le_refl _
      base_lt := fun ⟨r, hr, _⟩ => absurd hr List.not_mem_nil
      members := forall_mem_concat.mpr ⟨h.members, fun r hr => absurd hr List.not_mem_nil⟩
      appended := by
        rw [h.appended]
        conv_rhs => rw [List.flatMap_append, nonempty_append]
        simp
      entries := by
        rw [h.entries]
        conv_rhs => rw [List.flatMap_append, List.filter_append]
        simp [Pack.entries, entriesAt]
      index := h.index
      last := fun hne => absurd rfl hne }

/-- Finding room for a frame: the shard is as it was, or its active pack is new or has
    been emptied. -/
theorem Packed.placeSegment (frameSize : Nat) :
    (s.writePosition = 0 ∨ s.writePosition + frameSize ≤ s.segmentBytes) ∧
        s.placeSegment latest frameSize = s ∨
      ¬ (s.writePosition = 0 ∨ s.writePosition + frameSize ≤ s.segmentBytes) ∧
        ((∃ stale,
            (s.placeSegment latest frameSize).Packed front ⟨active.base, [], stale⟩ all latest ∧
            ∀ r ∈ active.sets, r.isEmpty = true) ∨
          (s.placeSegment latest frameSize).Packed (front ++ [active]) ⟨latest, [], []⟩ all
            latest) := by
  by_cases hfits : s.writePosition = 0 ∨ s.writePosition + frameSize ≤ s.segmentBytes
  · exact Or.inl ⟨hfits, placeSegment_of_fits h.file hfits latest⟩
  refine Or.inr ⟨hfits, ?_⟩
  rw [placeSegment_of_full h.file hfits latest]
  rcases h.base_le.eq_or_lt with hbase | hbase
  · exact Or.inl ⟨_, h.reopen hbase, h.active_empty hbase⟩
  · exact Or.inr (h.rollover hbase)

/-- The frame covers whole stale frames of the active file. -/
theorem Packed.files_written (h20 : 20 ≤ s.logFrameAlignment) (recordSet : RecordSet) :
    ∃ stale : List RecordSet, (∀ r ∈ stale, r.isEmpty = true) ∧
      (s.written recordSet).root.segments =
        (front ++ [(⟨active.base, active.sets ++ [recordSet], stale⟩ : Pack)]).map
          (Pack.file s.logFrameAlignment) := by
  have hactive : active ∈ front ++ [active] := List.mem_append_right _ List.mem_cons_self
  have hstale := h.stale active hactive
  obtain ⟨n, hsplice⟩ := splice_framesOf h20 hstale active.sets recordSet
  have hcontents : s.root.contents s.activeSegmentBaseOffset =
      framesOf s.logFrameAlignment (active.sets ++ active.stale) := by
    rw [h.base, h.contents hactive]
    rfl
  have hput := OrderedStore.put_last h.files_before (active.file s.logFrameAlignment).2
    (framesOf s.logFrameAlignment ((active.sets ++ [recordSet]) ++ active.stale.drop n))
  refine ⟨active.stale.drop n, fun r hr => hstale r (List.mem_of_mem_drop hr), ?_⟩
  rw [List.map_append, List.map_singleton]
  refine Eq.trans ?_ hput
  simp only [PartitionLogShard.written, DataDir.writeIndex, DataDir.writeSegment]
  rw [hcontents, h.position, hsplice, h.files_eq, h.base]
  rfl

/-- The log end follows the last record set that takes offsets. -/
theorem Packed.latest_concat (hbase : recordSet.baseOffset = latest)
    (hcounted : recordSet.Counted) :
    recordSet.endOffset =
      ((nonempty (all ++ [recordSet])).getLast?.map RecordSet.endOffset).getD 0 := by
  rw [nonempty_append]
  cases hempty : recordSet.isEmpty with
  | true =>
    have hnil : recordSet.bytes = [] := List.isEmpty_iff.mp hempty
    have hnone : nonempty [recordSet] = [] :=
      nonempty_eq_nil (List.forall_mem_singleton.mpr hempty)
    rw [hnone, List.append_nil, ← h.latest_eq, hcounted.endOffset_eq, hnil,
      estimateRecordCount_nil, hbase, add_zero]
  | false =>
    have hone : nonempty [recordSet] = [recordSet] := by simp [nonempty, hempty]
    rw [hone, List.getLast?_concat]
    rfl

theorem Packed.ordered_concat (hbase : recordSet.baseOffset = latest) :
    (nonempty (all ++ [recordSet])).Pairwise fun r later => r.lastOffset < later.baseOffset := by
  rw [nonempty_append]
  refine List.pairwise_append.mpr ⟨h.ordered, ?_, ?_⟩
  · exact (List.pairwise_singleton _ _).sublist List.filter_sublist
  · intro r hr later hlater
    obtain ⟨-, -, hend⟩ := h.bounds r (List.mem_of_mem_filter hr)
    rw [List.mem_singleton.mp (List.mem_of_mem_filter hlater), hbase]
    unfold RecordSet.endOffset at hend
    omega

theorem Packed.entries_concat (stale : List RecordSet) :
    Pack.entries s.logFrameAlignment ⟨active.base, active.sets ++ [recordSet], stale⟩ =
      active.entries s.logFrameAlignment ++
        [recordSet.entryAt s.activeSegmentBaseOffset s.writePosition] := by
  unfold Pack.entries
  rw [entriesAt_append, Nat.zero_add, h.base, h.position]
  rfl

section Grown

variable (hbase : recordSet.baseOffset = latest) (hcounted : recordSet.Counted)

include hbase hcounted

theorem Packed.base_lt_concat {r : RecordSet} (hr : r ∈ active.sets ++ [recordSet])
    (hne : r.isEmpty = false) : active.base < recordSet.endOffset := by
  rcases List.mem_append.mp hr with hr | hr
  · exact lt_of_lt_of_le (h.base_lt ⟨r, hr, hne⟩) (hbase ▸ hcounted.le_endOffset)
  · rw [List.mem_singleton.mp hr] at hne
    have hone := one_le_estimateRecordCount (List.isEmpty_eq_false_iff.mp hne)
    have hle := h.base_le
    rw [hcounted.endOffset_eq, hbase]
    omega

theorem Packed.placed_concat (hroom : s.writePosition ≤ s.segmentBytes) :
    ∀ entry ∈ (s.written recordSet).indexEntries, 0 ≤ entry.segmentBase ∧
      entry.segmentBase ≤ recordSet.endOffset ∧ entry.segmentPosition ≤ s.segmentBytes := by
  have hgrows : latest ≤ recordSet.endOffset := hbase ▸ hcounted.le_endOffset
  refine forall_mem_concat.mpr ⟨fun entry hentry => ?_, ?_, ?_, hroom⟩
  · obtain ⟨hlo, hhi, hposition⟩ := h.placed entry hentry
    exact ⟨hlo, le_trans hhi hgrows, hposition⟩
  · exact h.base ▸ (forall_mem_concat.mp h.base_nonneg).2
  · exact h.base ▸ le_trans h.base_le hgrows

theorem Packed.bounds_concat : ∀ r ∈ all ++ [recordSet],
    0 ≤ r.baseOffset ∧ r.baseOffset ≤ r.endOffset ∧ r.endOffset ≤ recordSet.endOffset := by
  have hgrows : latest ≤ recordSet.endOffset := hbase ▸ hcounted.le_endOffset
  refine forall_mem_concat.mpr ⟨fun r hr => ?_, ?_, ?_, le_refl _⟩
  · obtain ⟨hlo, hle, hend⟩ := h.bounds r hr
    exact ⟨hlo, hle, le_trans hend hgrows⟩
  · exact hbase ▸ le_trans (forall_mem_concat.mp h.base_nonneg).2 h.base_le
  · exact hbase ▸ hgrows

/-- A frame is written behind the record sets of the active pack. -/
theorem Packed.written (h20 : 20 ≤ s.logFrameAlignment) (hsize : recordSet.bytes.length < 2 ^ 31)
    (hfits : s.writePosition = 0 ∨
      s.writePosition + recordSet.frameSize s.logFrameAlignment ≤ s.segmentBytes) :
    ∃ stale, (s.written recordSet).Packed front ⟨active.base, active.sets ++ [recordSet], stale⟩
      (all ++ [recordSet]) recordSet.endOffset := by
  have hpos : 0 < s.logFrameAlignment := by omega
  obtain ⟨stale, hstale, hfiles⟩ := h.files_written h20 recordSet
  refine ⟨stale, ?_⟩
  exact
    { file := h.file
      indexFile := h.indexFile
      base := h.base
      position := by
        simp only [PartitionLogShard.written]
        rw [framesLength_append, framesLength_cons, framesLength_nil, Nat.add_zero, ← h.position]
      files := hfiles
      bases := pairwise_concat.mpr ⟨(pairwise_concat.mp h.bases).1, h.base_before⟩
      base_nonneg := forall_mem_concat.mpr
        ⟨(forall_mem_concat.mp h.base_nonneg).1, (forall_mem_concat.mp h.base_nonneg).2⟩
      stale := forall_mem_concat.mpr ⟨(forall_mem_concat.mp h.stale).1, hstale⟩
      base_le := le_trans h.base_le (hbase ▸ hcounted.le_endOffset)
      base_lt := fun ⟨_, hr, hne⟩ => h.base_lt_concat hbase hcounted hr hne
      members := by
        obtain ⟨hfront, hsets⟩ := forall_mem_concat.mp h.members
        refine forall_mem_concat.mpr ⟨?_, forall_mem_concat.mpr ⟨?_, ?_⟩⟩
        · exact fun pack hpack r hr => List.mem_append_left _ (hfront pack hpack r hr)
        · exact fun r hr => List.mem_append_left _ (hsets r hr)
        · exact List.mem_append_right _ List.mem_cons_self
      appended := by
        rw [nonempty_append, h.appended, List.flatMap_append, List.flatMap_append]
        simp
      entries := by
        have hold := h.entries
        rw [List.flatMap_append, List.flatMap_singleton, List.filter_append] at hold
        rw [List.flatMap_append, List.flatMap_singleton]
        simp only [PartitionLogShard.written]
        rw [h.entries_concat, List.filter_append, hold, List.filter_append, List.filter_append,
          List.append_assoc]
      last := by
        intro _
        simp only [PartitionLogShard.written]
        rw [h.entries_concat, List.getLast?_concat, List.getLast?_concat]
      index := by
        rw [index_written h.index
          (h.indexPosition.trans (length_flatten_encodeIndexEntry hpos _).symm)]
        simp [PartitionLogShard.written]
      indexPosition := by
        simp only [PartitionLogShard.written, h.indexPosition]
        rw [List.length_append, List.length_singleton, Nat.succ_mul]
      noted := List.rel_append h.noted (List.Forall₂.cons rfl List.Forall₂.nil)
      placed := h.placed_concat hbase hcounted (by omega)
      ordered := h.ordered_concat hbase
      bounds := h.bounds_concat hbase hcounted
      sound := forall_mem_concat.mpr ⟨h.sound, hcounted, hsize⟩
      latest_eq := h.latest_concat hbase hcounted }

end Grown

end PackedStep

end PartitionLogShard

end Mkmq
