import Mathlib.Data.List.TakeWhile
import Mkmq.ReadPath

/-!
# The merged read is the per-entry read

The comment of `read_records_from_index` promises the semantics of the loop it replaced,
which read one entry at a time (`src/partition_log_shard.cpp`).  `readEach` is that loop.
All that is asked of the files is that every index entry points at a frame with its base
offset and its byte count, and that the frames of a segment are apart; a frame may have
no bytes, and anything may stand in its padding.

One turn of the merged loop is some turns of the plain one.  The inner loop has no check
of its own for a full result, and takes empty frames where the plain loop has stopped; they
add nothing.
-/

namespace Mkmq

open ByteCodec

variable {entry : IndexEntry} {cache : List (Int × Int)} {s : PartitionLogShard}

/-! ### Index entries and frames -/

/-- The file an entry names holds, where it says, a frame with its base offset and its
    number of bytes. -/
structure FrameAt (dir : DataDir) (alignment : Nat) (entry : IndexEntry) : Prop where
  size : 0 ≤ entry.recordBytes
  magic : slice (dir.contents entry.segmentBase) entry.segmentPosition 8 = kLogMagic
  base : getI64 (dir.contents entry.segmentBase) (entry.segmentPosition + 8) = entry.baseOffset
  bytes : getI32 (dir.contents entry.segmentBase) (entry.segmentPosition + 16) = entry.recordBytes
  in_file : entry.segmentPosition + entry.frameSize alignment ≤
    (dir.contents entry.segmentBase).length

/-- Two frames in one segment are apart, the first before the second. -/
def FramesApart (alignment : Nat) (entry later : IndexEntry) : Prop :=
  entry.segmentBase = later.segmentBase →
    entry.segmentPosition + entry.frameSize alignment ≤ later.segmentPosition

/-- The record set in the frame of an entry. -/
def IndexEntry.recordsIn (dir : DataDir) (entry : IndexEntry) : Bytes :=
  slice (dir.contents entry.segmentBase) (entry.segmentPosition + 20) entry.recordBytes.toNat

def recordsOf (dir : DataDir) (entries : List IndexEntry) : Bytes :=
  entries.flatMap (IndexEntry.recordsIn dir)

@[simp] theorem recordsOf_nil (dir : DataDir) : recordsOf dir [] = [] := rfl

@[simp] theorem recordsOf_cons (dir : DataDir) (entry : IndexEntry) (entries : List IndexEntry) :
    recordsOf dir (entry :: entries) = entry.recordsIn dir ++ recordsOf dir entries := by
  rw [recordsOf, List.flatMap_cons, recordsOf]

theorem IndexEntry.le_frameSize {alignment : Nat} (hpos : 0 < alignment) (entry : IndexEntry) :
    20 + entry.recordBytes.toNat ≤ entry.frameSize alignment := Mkmq.le_frameSize hpos _

theorem FrameAt.length_recordsIn {dir : DataDir} {alignment : Nat} (h : FrameAt dir alignment entry)
    (hpos : 0 < alignment) : (entry.recordsIn dir).length = entry.recordBytes.toNat := by
  have hframe := entry.le_frameSize hpos
  have hin := h.in_file
  exact length_slice_of_le (by omega)

/-- A field of a frame reads the same in a buffer that holds the frame. -/
theorem getI64_slice {b : Bytes} {start total pos : Nat} (hlo : start ≤ pos)
    (hhi : pos + 8 ≤ start + total) :
    getI64 (slice b start total) (pos - start) = getI64 b pos := by
  unfold getI64
  rw [slice_slice (by omega), Nat.add_sub_cancel' hlo]

theorem getI32_slice {b : Bytes} {start total pos : Nat} (hlo : start ≤ pos)
    (hhi : pos + 4 ≤ start + total) :
    getI32 (slice b start total) (pos - start) = getI32 b pos := by
  unfold getI32
  rw [slice_slice (by omega), Nat.add_sub_cancel' hlo]

/-! ### The handles -/

/-- Handles are on the files they stand for. -/
structure PartitionLogShard.ReadCoherent (s : PartitionLogShard) : Prop where
  file : ∀ f, s.file = some f → f = s.activeSegmentBaseOffset
  cache : ∀ cached ∈ s.segmentCache, cached.2 = cached.1

theorem PartitionLogShard.ReadCoherent.withCache (h : s.ReadCoherent)
    (hcache : ∀ cached ∈ cache, cached.2 = cached.1) :
    { s with segmentCache := cache }.ReadCoherent :=
  ⟨h.file, hcache⟩

theorem getSegmentFileForRead_eq (h : s.ReadCoherent) {base : Int}
    (hne : s.root.contents base ≠ []) :
    ∃ cache, s.getSegmentFileForRead base = ({ s with segmentCache := cache }, some base) ∧
      ∀ cached ∈ cache, cached.2 = cached.1 := by
  unfold PartitionLogShard.getSegmentFileForRead
  by_cases hactive : base = s.activeSegmentBaseOffset ∧ s.file.isSome
  · rw [if_pos hactive]
    obtain ⟨f, hf⟩ := Option.isSome_iff_exists.mp hactive.2
    have hbase : s.file = some base := by rw [hf, h.file f hf, hactive.1]
    exact ⟨s.segmentCache, Prod.ext rfl hbase, h.cache⟩
  · rw [if_neg hactive]
    cases hfind : s.segmentCache.find? (fun cached => decide (cached.1 = base)) with
    | some cached =>
      have hmem := List.mem_of_find?_eq_some hfind
      have hkey : cached.1 = base := by simpa using List.find?_some hfind
      refine ⟨cached :: s.segmentCache.erase cached, ?_, ?_⟩
      · simp only [h.cache cached hmem, hkey]
      · intro c hc
        rcases List.mem_cons.mp hc with rfl | hc
        · exact h.cache _ hmem
        · exact h.cache _ (List.mem_of_mem_erase hc)
    | none =>
      have hexists : (OrderedStore.find base s.root.segments).isSome := by
        rw [Option.isSome_iff_ne_none]
        intro hnone
        exact hne (by rw [DataDir.contents, hnone]; rfl)
      refine ⟨(base, base) :: s.segmentCache.take (kSegmentCacheMax - 1), ?_, ?_⟩
      · simp only [if_pos hexists]
      · intro c hc
        rcases List.mem_cons.mp hc with rfl | hc
        · rfl
        · exact h.cache _ (List.mem_of_mem_take hc)

/-! ### The plain loop -/

/-- One entry at a time: reading ends at `visibleEnd`, before an entry that would take a
    result with bytes past `limit`, and once `limit` is reached. -/
def readEach (dir : DataDir) (visibleEnd : Int) (limit : Nat) : Bytes → List IndexEntry → Bytes
  | records, [] => records
  | records, entry :: rest =>
    if entry.baseOffset ≥ visibleEnd ∨ entry.lastOffset ≥ visibleEnd then records
    else if records ≠ [] ∧ records.length + entry.recordBytes.toNat > limit then records
    else
      let records := records ++ entry.recordsIn dir
      if records.length ≥ limit then records else readEach dir visibleEnd limit records rest

/-- The plain loop after an entry: it ends when the limit is reached. -/
def readOn (dir : DataDir) (visibleEnd : Int) (limit : Nat) (records : Bytes)
    (entries : List IndexEntry) : Bytes :=
  if records.length ≥ limit then records else readEach dir visibleEnd limit records entries

theorem readEach_cons_of_fits {dir : DataDir} {visibleEnd : Int} {limit : Nat} {records : Bytes}
    (rest : List IndexEntry)
    (hvisible : ¬ (entry.baseOffset ≥ visibleEnd ∨ entry.lastOffset ≥ visibleEnd))
    (hfits : ¬ (records ≠ [] ∧ records.length + entry.recordBytes.toNat > limit)) :
    readEach dir visibleEnd limit records (entry :: rest) =
      readOn dir visibleEnd limit (records ++ entry.recordsIn dir) rest := by
  rw [readEach, if_neg hvisible, if_neg hfits]
  rfl

section Frames

variable {dir : DataDir} {alignment limit : Nat} {visibleEnd offset : Int}
  {entries : List IndexEntry} {s : PartitionLogShard}

/-- An entry that leaves the result within the limit makes no difference to where the plain
    loop ends. -/
theorem readOn_cons_of_le {records : Bytes} {entry : IndexEntry} (rest : List IndexEntry)
    (hframe : FrameAt dir alignment entry) (hpos : 0 < alignment)
    (hvisible : ¬ (entry.baseOffset ≥ visibleEnd ∨ entry.lastOffset ≥ visibleEnd))
    (hfits : records.length + entry.recordBytes.toNat ≤ limit) :
    readOn dir visibleEnd limit records (entry :: rest) =
      readOn dir visibleEnd limit (records ++ entry.recordsIn dir) rest := by
  by_cases hfull : records.length ≥ limit
  · -- only an empty frame is taken into a full result
    have hempty : entry.recordsIn dir = [] := by
      refine List.length_eq_zero_iff.mp ?_
      rw [hframe.length_recordsIn hpos]
      omega
    rw [hempty, List.append_nil, readOn, readOn, if_pos hfull, if_pos hfull]
  · have hfits' : ¬ (records ≠ [] ∧ records.length + entry.recordBytes.toNat > limit) := by
      intro hover
      omega
    conv_lhs => rw [readOn, if_neg hfull]
    exact readEach_cons_of_fits rest hvisible hfits'

/-! ### One turn of the merged loop -/

/-- Parsing a run returns the records of its frames. -/
theorem parseRun_frames (hpos : 0 < alignment) {segmentBase : Int} {start total : Nat}
    (hframes : ∀ entry ∈ entries, FrameAt dir alignment entry)
    (hinside : ∀ entry ∈ entries, entry.segmentBase = segmentBase ∧
      start ≤ entry.segmentPosition ∧
      entry.segmentPosition + entry.frameSize alignment ≤ start + total) (records : Bytes) :
    PartitionLogShard.parseRun (slice (dir.contents segmentBase) start total) start entries
      records = .ok (records ++ recordsOf dir entries) := by
  induction entries generalizing records with
  | nil => rw [PartitionLogShard.parseRun, recordsOf_nil, List.append_nil]
  | cons entry entries ih =>
    have hframe := hframes entry List.mem_cons_self
    obtain ⟨hsegment, hlo, hhi⟩ := hinside entry List.mem_cons_self
    have hsize := entry.le_frameSize hpos
    have hmagic : slice (slice (dir.contents segmentBase) start total)
        (entry.segmentPosition - start) 8 = kLogMagic := by
      rw [slice_slice (by omega), Nat.add_sub_cancel' hlo, ← hsegment]
      exact hframe.magic
    have hbase : getI64 (slice (dir.contents segmentBase) start total)
        (entry.segmentPosition - start + 8) = entry.baseOffset := by
      rw [← Nat.sub_add_comm hlo, getI64_slice (by omega) (by omega), ← hsegment]
      exact hframe.base
    have hbytes : getI32 (slice (dir.contents segmentBase) start total)
        (entry.segmentPosition - start + 16) = entry.recordBytes := by
      rw [← Nat.sub_add_comm hlo, getI32_slice (by omega) (by omega), ← hsegment]
      exact hframe.bytes
    have hrecords : slice (slice (dir.contents segmentBase) start total)
        (entry.segmentPosition - start + 20) entry.recordBytes.toNat = entry.recordsIn dir := by
      rw [slice_slice (by omega), ← Nat.add_assoc, Nat.add_sub_cancel' hlo, ← hsegment]
      rfl
    rw [PartitionLogShard.parseRun]
    simp only [hmagic, hbase, hbytes, hrecords, ne_eq, not_true_eq_false, or_self, if_false]
    rw [ih (fun e he => hframes e (List.mem_cons_of_mem _ he))
      (fun e he => hinside e (List.mem_cons_of_mem _ he)), recordsOf_cons, List.append_assoc]

/-- What a run that was grown by `n` entries covers: every entry of it lies inside the
    bytes it will read, which end with a frame, and the plain loop is `n` turns further. -/
structure Extended (dir : DataDir) (alignment : Nat) (visibleEnd : Int) (limit : Nat)
    (segmentBase : Int) (start : Nat) (entries : List IndexEntry) (records : Bytes)
    (run result : PartitionLogShard.ReadRun) (n : Nat) : Prop where
  count : result.count = run.count + n
  le : run.totalBytes ≤ result.totalBytes
  inside : ∀ entry ∈ entries.take n, entry.segmentBase = segmentBase ∧
    start ≤ entry.segmentPosition ∧
    entry.segmentPosition + entry.frameSize alignment ≤ start + result.totalBytes
  ends : result.totalBytes = run.totalBytes ∨ ∃ entry ∈ entries.take n,
    start + result.totalBytes = entry.segmentPosition + entry.frameSize alignment
  plain : readOn dir visibleEnd limit records entries =
    readOn dir visibleEnd limit (records ++ recordsOf dir (entries.take n)) (entries.drop n)

theorem extended_zero (segmentBase : Int) (start : Nat) (entries : List IndexEntry)
    (records : Bytes) (run : PartitionLogShard.ReadRun) :
    Extended dir alignment visibleEnd limit segmentBase start entries records run run 0 where
  count := rfl
  le := le_refl _
  inside := fun _ h => absurd h (by rw [List.take_zero]; exact List.not_mem_nil)
  ends := Or.inl rfl
  plain := by rw [List.take_zero, List.drop_zero, recordsOf_nil, List.append_nil]

theorem exists_extended (hpos : 0 < alignment) (taken : Nat) (segmentBase : Int) (start : Nat)
    (hframes : ∀ entry ∈ entries, FrameAt dir alignment entry)
    (hapart : entries.Pairwise (FramesApart alignment)) (run : PartitionLogShard.ReadRun)
    (hstart : ∀ entry ∈ entries, entry.segmentBase = segmentBase →
      start + run.totalBytes ≤ entry.segmentPosition) (records : Bytes)
    (hlen : records.length = taken + run.recordBytes) :
    ∃ n, Extended dir alignment visibleEnd limit segmentBase start entries records run
      (PartitionLogShard.extendRun alignment visibleEnd limit taken segmentBase start entries run)
      n := by
  induction entries generalizing run records with
  | nil => exact ⟨0, extended_zero segmentBase start [] records run⟩
  | cons entry entries ih =>
    have hframe := hframes entry List.mem_cons_self
    rw [PartitionLogShard.extendRun]
    by_cases hvisible : entry.baseOffset ≥ visibleEnd ∨ entry.lastOffset ≥ visibleEnd
    · rw [if_pos hvisible]
      exact ⟨0, extended_zero segmentBase start _ records run⟩
    rw [if_neg hvisible]
    by_cases hother : entry.segmentBase ≠ segmentBase
    · rw [if_pos hother]
      exact ⟨0, extended_zero segmentBase start _ records run⟩
    rw [if_neg hother]
    by_cases hfull : taken + run.recordBytes + entry.recordBytes.toNat > limit
    · rw [if_pos hfull]
      exact ⟨0, extended_zero segmentBase start _ records run⟩
    rw [if_neg hfull]
    obtain ⟨hfirst, hpairs⟩ := List.pairwise_cons.mp hapart
    have hsegment : entry.segmentBase = segmentBase := not_not.mp hother
    have hbefore := hstart entry List.mem_cons_self hsegment
    -- the run now ends with this entry's frame
    obtain ⟨n, h⟩ := ih (fun e he => hframes e (List.mem_cons_of_mem _ he)) hpairs
      ⟨run.count + 1, run.recordBytes + entry.recordBytes.toNat,
        entry.segmentPosition - start + entry.frameSize alignment⟩
      (by
        intro later hlater hsame
        have hlater := hfirst later hlater (hsegment.trans hsame.symm)
        simp only
        omega)
      (records ++ entry.recordsIn dir)
      (by
        rw [List.length_append, hframe.length_recordsIn hpos, hlen]
        simp only
        omega)
    have hle := h.le
    have hends := h.ends
    simp only at hle hends
    refine ⟨n + 1, ?_, by omega, ?_, ?_, ?_⟩
    · rw [h.count]
      simp only
      omega
    · intro e he
      rw [List.take_succ_cons] at he
      rcases List.mem_cons.mp he with rfl | he
      · exact ⟨hsegment, by omega, by omega⟩
      · exact h.inside e he
    · right
      rw [List.take_succ_cons]
      rcases hends with hends | ⟨e, he, hends⟩
      · exact ⟨entry, List.mem_cons_self, by omega⟩
      · exact ⟨e, List.mem_cons_of_mem _ he, hends⟩
    · rw [readOn_cons_of_le entries hframe hpos hvisible (by omega), h.plain,
        List.take_succ_cons, List.drop_succ_cons, recordsOf_cons, List.append_assoc]

/-- A turn that starts with an entry that is read: it reads the entry and `n` more, without
    an error, and the plain loop is as far with them. -/
theorem readLoop_turn (fuel : Nat) (hcoh : s.ReadCoherent) {first : IndexEntry}
    {rest : List IndexEntry}
    (hframes : ∀ entry ∈ first :: rest, FrameAt s.root s.logFrameAlignment entry)
    (hapart : (first :: rest).Pairwise (FramesApart s.logFrameAlignment)) {records : Bytes}
    (hoffset : ¬ first.lastOffset < offset)
    (hvisible : ¬ (first.baseOffset ≥ visibleEnd ∨ first.lastOffset ≥ visibleEnd))
    (hfits : ¬ (records ≠ [] ∧ records.length + first.recordBytes.toNat > limit)) :
    ∃ n cache read, (∀ cached ∈ cache, cached.2 = cached.1) ∧
      PartitionLogShard.readLoop offset visibleEnd limit (fuel + 1) s (first :: rest) records =
        (if read.length ≥ limit then ({ s with segmentCache := cache }, .ok read)
        else PartitionLogShard.readLoop offset visibleEnd limit fuel
          { s with segmentCache := cache }
          (rest.drop n) read) ∧
      readEach s.root visibleEnd limit records (first :: rest) =
        readOn s.root visibleEnd limit read (rest.drop n) := by
  have hpos := s.logFrameAlignment_pos
  have hframe := hframes first List.mem_cons_self
  have hothers : ∀ entry ∈ rest, FrameAt s.root s.logFrameAlignment entry :=
    fun e he => hframes e (List.mem_cons_of_mem _ he)
  obtain ⟨hfirst, hpairs⟩ := List.pairwise_cons.mp hapart
  obtain ⟨n, hrun⟩ := exists_extended hpos records.length first.segmentBase first.segmentPosition
    hothers hpairs ⟨1, first.recordBytes.toNat, first.frameSize s.logFrameAlignment⟩
    (fun later hlater hsame => hfirst later hlater hsame.symm)
    (records ++ first.recordsIn s.root)
    (by rw [List.length_append, hframe.length_recordsIn hpos])
  have hin := hframe.in_file
  have hcontents : s.root.contents first.segmentBase ≠ [] := by
    intro hnil
    have hsize := first.le_frameSize hpos
    rw [hnil, List.length_nil] at hin
    omega
  obtain ⟨cache, hfile, hcache⟩ := getSegmentFileForRead_eq hcoh hcontents
  refine ⟨n, cache, records ++ first.recordsIn s.root ++ recordsOf s.root (rest.take n), hcache,
    ?_, by rw [readEach_cons_of_fits rest hvisible hfits, hrun.plain]⟩
  rw [PartitionLogShard.readLoop, if_neg hoffset, if_neg hvisible, if_neg hfits]
  simp only [hfile]
  generalize PartitionLogShard.extendRun s.logFrameAlignment visibleEnd limit records.length
    first.segmentBase first.segmentPosition rest
    ⟨1, first.recordBytes.toNat, first.frameSize s.logFrameAlignment⟩ = run at hrun ⊢
  have hend : first.segmentPosition + run.totalBytes ≤
      (s.root.contents first.segmentBase).length := by
    rcases hrun.ends with hends | ⟨e, he, hends⟩
    · rw [hends]
      exact hin
    · have hlast := (hothers e (List.mem_of_mem_take he)).in_file
      rw [(hrun.inside e he).1] at hlast
      omega
  have hinside : ∀ e ∈ (first :: rest).take run.count, e.segmentBase = first.segmentBase ∧
      first.segmentPosition ≤ e.segmentPosition ∧ e.segmentPosition +
        e.frameSize s.logFrameAlignment ≤ first.segmentPosition + run.totalBytes := by
    intro e he
    rw [hrun.count, Nat.add_comm, List.take_succ_cons] at he
    rcases List.mem_cons.mp he with rfl | he
    · exact ⟨rfl, le_refl _, Nat.add_le_add_left hrun.le _⟩
    · exact hrun.inside e he
  have hparse := parseRun_frames hpos (fun e he => hframes e (List.mem_of_mem_take he)) hinside
    records
  rw [if_neg (not_not.mpr (length_slice_of_le hend)), hparse, hrun.count, Nat.add_comm 1 n,
    List.take_succ_cons, List.drop_succ_cons, recordsOf_cons, List.append_assoc]

/-! ### Whole reads -/

/-- **A read of frames that are there never fails**, in whatever order the entries are. -/
theorem readLoop_ok (fuel : Nat) (hcoh : s.ReadCoherent)
    (hframes : ∀ entry ∈ entries, FrameAt s.root s.logFrameAlignment entry)
    (hapart : entries.Pairwise (FramesApart s.logFrameAlignment)) (records : Bytes) :
    ∃ cache read, PartitionLogShard.readLoop offset visibleEnd limit fuel s entries records =
        ({ s with segmentCache := cache }, .ok read) ∧
      ∀ cached ∈ cache, cached.2 = cached.1 := by
  induction fuel generalizing s entries records with
  | zero => cases entries <;> exact ⟨s.segmentCache, records, rfl, hcoh.cache⟩
  | succ fuel ih =>
    cases entries with
    | nil => exact ⟨s.segmentCache, records, rfl, hcoh.cache⟩
    | cons first rest =>
      by_cases hoffset : first.lastOffset < offset
      · rw [PartitionLogShard.readLoop, if_pos hoffset]
        exact ih hcoh (fun e he => hframes e (List.mem_cons_of_mem _ he)) hapart.of_cons records
      by_cases hvisible : first.baseOffset ≥ visibleEnd ∨ first.lastOffset ≥ visibleEnd
      · rw [PartitionLogShard.readLoop, if_neg hoffset, if_pos hvisible]
        exact ⟨s.segmentCache, records, rfl, hcoh.cache⟩
      by_cases hfull : records ≠ [] ∧ records.length + first.recordBytes.toNat > limit
      · rw [PartitionLogShard.readLoop, if_neg hoffset, if_neg hvisible, if_pos hfull]
        exact ⟨s.segmentCache, records, rfl, hcoh.cache⟩
      obtain ⟨n, cache, read, hcache, hturn, -⟩ :=
        readLoop_turn fuel hcoh hframes hapart hoffset hvisible hfull
      rw [hturn]
      split
      · exact ⟨cache, read, rfl, hcache⟩
      · exact ih (hcoh.withCache hcache)
          (fun e he => hframes e (List.mem_cons_of_mem _ (List.mem_of_mem_drop he)))
          (hapart.of_cons.sublist (List.drop_sublist n rest)) read

/-- **The merged loop reads what the plain loop reads**, and only moves the cache. -/
theorem readLoop_eq_readEach (fuel : Nat) (hcoh : s.ReadCoherent)
    (hframes : ∀ entry ∈ entries, FrameAt s.root s.logFrameAlignment entry)
    (hapart : entries.Pairwise (FramesApart s.logFrameAlignment))
    (hoffset : ∀ entry ∈ entries, offset ≤ entry.lastOffset) (hfuel : entries.length ≤ fuel)
    (records : Bytes) :
    ∃ cache, PartitionLogShard.readLoop offset visibleEnd limit fuel s entries records =
        ({ s with segmentCache := cache }, .ok (readEach s.root visibleEnd limit records entries)) ∧
      ∀ cached ∈ cache, cached.2 = cached.1 := by
  induction fuel generalizing s entries records with
  | zero =>
    obtain rfl := List.length_eq_zero_iff.mp (Nat.le_zero.mp hfuel)
    exact ⟨s.segmentCache, rfl, hcoh.cache⟩
  | succ fuel ih =>
    cases entries with
    | nil => exact ⟨s.segmentCache, rfl, hcoh.cache⟩
    | cons first rest =>
      have hfirst := not_lt.mpr (hoffset first List.mem_cons_self)
      by_cases hvisible : first.baseOffset ≥ visibleEnd ∨ first.lastOffset ≥ visibleEnd
      · rw [PartitionLogShard.readLoop, if_neg hfirst, if_pos hvisible, readEach,
          if_pos hvisible]
        exact ⟨s.segmentCache, rfl, hcoh.cache⟩
      by_cases hfull : records ≠ [] ∧ records.length + first.recordBytes.toNat > limit
      · rw [PartitionLogShard.readLoop, if_neg hfirst, if_neg hvisible, if_pos hfull, readEach,
          if_neg hvisible, if_pos hfull]
        exact ⟨s.segmentCache, rfl, hcoh.cache⟩
      obtain ⟨n, cache, read, hcache, hturn, hplain⟩ :=
        readLoop_turn fuel hcoh hframes hapart hfirst hvisible hfull
      rw [hturn, hplain, readOn]
      split
      · exact ⟨cache, rfl, hcache⟩
      · exact ih (hcoh.withCache hcache)
          (fun e he => hframes e (List.mem_cons_of_mem _ (List.mem_of_mem_drop he)))
          (hapart.of_cons.sublist (List.drop_sublist n rest))
          (fun e he => hoffset e (List.mem_cons_of_mem _ (List.mem_of_mem_drop he)))
          (by rw [List.length_drop]; rw [List.length_cons] at hfuel; omega) read

end Frames

/-! ### Where a read begins -/

/-- The entries from the first one on that reaches `offset`. -/
def entriesFrom (offset : Int) (entries : List IndexEntry) : List IndexEntry :=
  entries.dropWhile fun entry => decide (entry.lastOffset < offset)

theorem le_of_mem_entriesFrom {entries : List IndexEntry}
    (hsorted : entries.Pairwise fun a b => a.lastOffset ≤ b.lastOffset) (offset : Int) :
    ∀ entry ∈ entriesFrom offset entries, offset ≤ entry.lastOffset := by
  induction entries with
  | nil => exact fun _ h => absurd h List.not_mem_nil
  | cons first rest ih =>
    obtain ⟨hfirst, hrest⟩ := List.pairwise_cons.mp hsorted
    unfold entriesFrom
    by_cases hlt : first.lastOffset < offset
    · rw [List.dropWhile_cons_of_pos (by simpa using hlt)]
      exact ih hrest
    · rw [List.dropWhile_cons_of_neg (by simpa using hlt)]
      intro entry hentry
      rcases List.mem_cons.mp hentry with rfl | hentry
      · exact not_lt.mp hlt
      · exact le_trans (not_lt.mp hlt) (hfirst entry hentry)

/-- `find_index_for_offset` on a sorted index skips exactly the entries before `offset`. -/
theorem drop_findIndexForOffset
    (hsorted : s.indexEntries.Pairwise fun a b => a.lastOffset ≤ b.lastOffset) (offset : Int) :
    s.indexEntries.drop (s.findIndexForOffset offset) = entriesFrom offset s.indexEntries := by
  have hback := le_of_mem_entriesFrom hsorted offset
  unfold PartitionLogShard.findIndexForOffset
  obtain ⟨front, hsplit, hfront⟩ : ∃ front, front ++ entriesFrom offset s.indexEntries =
      s.indexEntries ∧ ∀ entry ∈ front, decide (entry.lastOffset < offset) = true :=
    ⟨s.indexEntries.takeWhile fun entry => decide (entry.lastOffset < offset),
      List.takeWhile_append_dropWhile, fun entry hentry => by
        simpa using List.mem_takeWhile_imp hentry⟩
  generalize entriesFrom offset s.indexEntries = back at hback hsplit ⊢
  rw [← hsplit, LowerBound.lowerBound_partitioned _ front back hfront
    (fun entry hentry => decide_eq_false (not_lt.mpr (hback entry hentry))), List.drop_left]

/-- An index over frames that are there, in file order within each segment. -/
structure PartitionLogShard.Readable (s : PartitionLogShard) : Prop where
  frames : ∀ entry ∈ s.indexEntries, FrameAt s.root s.logFrameAlignment entry
  apart : s.indexEntries.Pairwise (FramesApart s.logFrameAlignment)
  coherent : s.ReadCoherent

/-- And in offset order. -/
structure PartitionLogShard.IndexesFrames (s : PartitionLogShard) : Prop extends s.Readable where
  sorted : s.indexEntries.Pairwise fun a b => a.lastOffset ≤ b.lastOffset

theorem PartitionLogShard.Readable.withCache (h : s.Readable)
    (hcache : ∀ cached ∈ cache, cached.2 = cached.1) : { s with segmentCache := cache }.Readable :=
  ⟨h.frames, h.apart, h.coherent.withCache hcache⟩

/-- Wherever the search for the offset leads. -/
theorem PartitionLogShard.Readable.readRecordsFromIndex_ok (h : s.Readable)
    (offset visibleEnd : Int) (limit : Nat) :
    ∃ cache read, s.readRecordsFromIndex offset visibleEnd limit =
        ({ s with segmentCache := cache }, .ok read) ∧
      ∀ cached ∈ cache, cached.2 = cached.1 :=
  readLoop_ok _ h.coherent (fun entry hentry => h.frames entry (List.mem_of_mem_drop hentry))
    (h.apart.sublist (List.drop_sublist _ _)) []

/-- **Reading an index over frames** returns, without an error, what the plain loop returns
    from the first entry on that reaches `offset`. -/
theorem readRecordsFromIndex_eq_readEach (h : s.IndexesFrames) (offset visibleEnd : Int)
    (limit : Nat) :
    ∃ cache, s.readRecordsFromIndex offset visibleEnd limit =
        ({ s with segmentCache := cache },
          .ok (readEach s.root visibleEnd limit [] (entriesFrom offset s.indexEntries))) ∧
      ∀ cached ∈ cache, cached.2 = cached.1 := by
  have hdrop := drop_findIndexForOffset h.sorted offset
  have hsublist : (entriesFrom offset s.indexEntries).Sublist s.indexEntries :=
    List.dropWhile_sublist _
  unfold PartitionLogShard.readRecordsFromIndex
  rw [hdrop]
  exact readLoop_eq_readEach _ h.coherent
    (fun entry hentry => h.frames entry (hsublist.subset hentry)) (h.apart.sublist hsublist)
    (le_of_mem_entriesFrom h.sorted offset) hsublist.length_le []

/-- **The merged read is the per-entry read**, for every offset, visible end and limit, and
    it never fails. -/
theorem merged_read_eq_plain_read {s : PartitionLogShard} (h : s.IndexesFrames)
    (offset visibleEnd : Int) (limit : Nat) :
    (s.readRecordsFromIndex offset visibleEnd limit).2 =
      .ok (readEach s.root visibleEnd limit [] (entriesFrom offset s.indexEntries)) := by
  obtain ⟨cache, hread, -⟩ := readRecordsFromIndex_eq_readEach h offset visibleEnd limit
  rw [hread]

/-- Three frames in one segment, the second of them empty. -/
def emptyBetween : PartitionLogShard where
  config := defaultPartition
  segmentBytes := 512
  logFrameAlignment := 32
  logFrameAlignment_pos := by decide
  root :=
    { segments := [(0, encodeFrame 32 0 [7, 7, 7] ++ encodeFrame 32 1 [] ++ encodeFrame 32 1 [9])] }
  indexEntries := [⟨0, 0, 0, 0, 3⟩, ⟨1, 0, 0, 32, 0⟩, ⟨1, 1, 0, 64, 1⟩]

/-- A first frame past the limit, and an empty one where the limit is reached. -/
theorem merged_read_eq_plain_read_emptyBetween :
    (emptyBetween.readRecordsFromIndex 0 2 1).2 =
        .ok (readEach emptyBetween.root 2 1 [] (entriesFrom 0 emptyBetween.indexEntries)) ∧
      readEach emptyBetween.root 2 1 [] (entriesFrom 0 emptyBetween.indexEntries) = [7, 7, 7] ∧
      (emptyBetween.readRecordsFromIndex 0 2 4).2 =
        .ok (readEach emptyBetween.root 2 4 [] (entriesFrom 0 emptyBetween.indexEntries)) ∧
      readEach emptyBetween.root 2 4 [] (entriesFrom 0 emptyBetween.indexEntries) =
        [7, 7, 7, 9] := by
  have hframes : emptyBetween.IndexesFrames :=
    { sorted := by decide
      frames := by
        have hfirst : FrameAt emptyBetween.root 32 ⟨0, 0, 0, 0, 3⟩ := by
          constructor <;> decide +kernel
        have hsecond : FrameAt emptyBetween.root 32 ⟨1, 0, 0, 32, 0⟩ := by
          constructor <;> decide +kernel
        have hthird : FrameAt emptyBetween.root 32 ⟨1, 1, 0, 64, 1⟩ := by
          constructor <;> decide +kernel
        exact List.forall_mem_cons.mpr ⟨hfirst, List.forall_mem_cons.mpr ⟨hsecond,
          List.forall_mem_singleton.mpr hthird⟩⟩
      apart := by
        unfold FramesApart
        decide +kernel
      coherent := ⟨fun _ hf => (nomatch hf), fun _ hc => absurd hc List.not_mem_nil⟩ }
  exact ⟨merged_read_eq_plain_read hframes 0 2 1, by decide +kernel,
    merged_read_eq_plain_read hframes 0 2 4, by decide +kernel⟩

end Mkmq
