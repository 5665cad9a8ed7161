import Mkmq.ResumedLog

/-!
# Writing on after a crash

`recover_from_segments` takes what it recognises of the segment files, rebuilds the index
file from it and resumes writing behind it.  It does not shorten the segment files: what
was not recognised is left where it is, to be overwritten by later frames as far as they
reach.  Whether a discarded frame stays discarded is then a matter of what stands at the
place where the later frames end.  The frames recognised need not be in the order of their
offsets, since writes that overlap end in any order: a scan takes the end of the last one for
the log end, and the index, where it is believed, the largest end of all.
-/

namespace Mkmq

open ByteCodec PartitionLogShard

/-- What a crash may leave of the segment files of a partition.  The bytes in them are
    arbitrary, but names, sizes and the offsets that are recognised are those of the types. -/
structure DataDir.LeftByCrash (dir : DataDir) (alignment : Nat) : Prop where
  ascending : OrderedStore.Ascending dir.segments
  names : ∀ file ∈ dir.segments, 0 ≤ file.1 ∧ FitsInt64 file.1
  sizes : ∀ file ∈ dir.segments, file.2.length < 2 ^ 64
  offsets : ∀ entry ∈ scanFiles alignment dir.segments,
    0 ≤ entry.baseOffset ∧ FitsInt64 entry.lastOffset

/-- A partition that was never started has left nothing. -/
theorem leftByCrash_empty (alignment : Nat) : DataDir.LeftByCrash {} alignment :=
  { ascending := List.Pairwise.nil
    names := fun _ h => absurd h List.not_mem_nil
    sizes := fun _ h => absurd h List.not_mem_nil
    offsets := fun _ h => absurd h List.not_mem_nil }

/-! ### The extents a scan finds -/

/-- The part of a segment file that a scan passes. -/
def extentOf (alignment : Nat) (file : Int × Bytes) : Extent :=
  let entries := scanSegment alignment file.1 file.2 file.2.length 0
  { base := file.1
    entries := entries
    stop := (entries.getLast?.map fun entry =>
      entry.segmentPosition + entry.frameSize alignment).getD 0 }

/-- The files in which a scan finds something. -/
def readableExtents (alignment : Nat) (dir : DataDir) : List Extent :=
  (dir.segments.map (extentOf alignment)).filter fun extent => !extent.entries.isEmpty

section Extents

variable {alignment : Nat} {root : DataDir} {extent : Extent}

theorem extentOf_passes (h20 : 20 ≤ alignment) (file : Int × Bytes) :
    Passes alignment file.1 file.2 0 (extentOf alignment file).entries
        (extentOf alignment file).stop ∧
      readFrame alignment file.2 (extentOf alignment file).stop = none := by
  obtain ⟨stop, hpasses, hstops⟩ := exists_passes (by omega : 0 < alignment) file.1 file.2
    file.2.length 0
  have hstop : (extentOf alignment file).stop = stop := by
    unfold extentOf
    cases hlast : (scanSegment alignment file.1 file.2 file.2.length 0).getLast? with
    | none =>
      rw [List.getLast?_eq_none_iff.mp hlast] at hpasses
      have hzero : 0 = stop := hpasses
      simp only [hlast, Option.map_none, Option.getD_none]
      exact hzero
    | some entry => simp [hlast, (hpasses.last h20 hlast).2.1]
  rw [hstop]
  exact ⟨hpasses, hstops (by omega)⟩

theorem mem_readableExtents (h : extent ∈ readableExtents alignment root) :
    extent.entries ≠ [] ∧ ∃ file ∈ root.segments, extentOf alignment file = extent := by
  obtain ⟨hmem, hne⟩ := List.mem_filter.mp h
  obtain ⟨file, hfile, hextent⟩ := List.mem_map.mp hmem
  refine ⟨?_, file, hfile, hextent⟩
  simpa using hne

theorem flatMap_readableExtents (alignment : Nat) (root : DataDir) :
    (readableExtents alignment root).flatMap Extent.entries =
      scanFiles alignment root.segments := by
  unfold readableExtents scanFiles
  induction root.segments with
  | nil => rfl
  | cons file rest ih =>
    rw [List.map_cons, List.flatMap_cons]
    cases hentries : (extentOf alignment file).entries with
    | nil =>
      have hscan : scanSegment alignment file.1 file.2 file.2.length 0 = [] := hentries
      rw [List.filter_cons_of_neg (by simp [hentries]), ih, hscan, List.nil_append]
    | cons entry more =>
      rw [List.filter_cons_of_pos (by simp [hentries]), List.flatMap_cons, ih]
      rfl

theorem readableExtents_in (h20 : 20 ≤ alignment)
    (hascending : OrderedStore.Ascending root.segments)
    (h : extent ∈ readableExtents alignment root) : extent.In alignment root := by
  obtain ⟨-, file, hfile, rfl⟩ := mem_readableExtents h
  have hbase : (extentOf alignment file).base = file.1 := rfl
  unfold Extent.In
  rw [hbase, DataDir.contents_of_mem hascending hfile]
  exact (extentOf_passes h20 file).1

theorem readableExtents_stop (h20 : 20 ≤ alignment)
    (hascending : OrderedStore.Ascending root.segments)
    (h : extent ∈ readableExtents alignment root) :
    readFrame alignment (root.contents extent.base) extent.stop = none := by
  obtain ⟨-, file, hfile, rfl⟩ := mem_readableExtents h
  have hbase : (extentOf alignment file).base = file.1 := rfl
  rw [hbase, DataDir.contents_of_mem hascending hfile]
  exact (extentOf_passes h20 file).2

theorem readableExtents_bases (hascending : OrderedStore.Ascending root.segments) :
    (readableExtents alignment root).Pairwise fun extent later => extent.base < later.base := by
  apply List.Pairwise.sublist List.filter_sublist
  exact List.pairwise_map.mpr hascending

/-- A file outside the extents has nothing to read at its beginning. -/
theorem readFrame_outside (h20 : 20 ≤ alignment) (hascending : OrderedStore.Ascending root.segments)
    {base : Int} (hout : ∀ extent ∈ readableExtents alignment root, extent.base ≠ base) :
    readFrame alignment (root.contents base) 0 = none := by
  cases hfind : OrderedStore.find base root.segments with
  | none =>
    have hmissing : root.contents base = [] := by
      unfold DataDir.contents
      rw [hfind]
      rfl
    rw [hmissing]
    exact readFrame_of_end (by simp; omega)
  | some segment =>
    have hmem := OrderedStore.mem_of_find hfind
    have hnil : (extentOf alignment (base, segment)).entries = [] := by
      by_contra hne
      apply hout (extentOf alignment (base, segment)) _ rfl
      apply List.mem_filter.mpr
      exact ⟨List.mem_map_of_mem hmem, by simpa using hne⟩
    obtain ⟨hpasses, hstop⟩ := extentOf_passes h20 (base, segment)
    rw [hnil] at hpasses
    have hzero : 0 = (extentOf alignment (base, segment)).stop := hpasses
    rw [DataDir.contents_of_mem hascending hmem, hzero]
    exact hstop

/-- An entry of the scan is that of a frame in the file it names. -/
theorem mem_scanFiles (h20 : 20 ≤ alignment) {entry : IndexEntry}
    (hentry : entry ∈ scanFiles alignment root.segments) :
    ∃ file ∈ root.segments, ∃ frame,
      readFrame alignment file.2 entry.segmentPosition = some frame ∧
        entry = frame.entryAt file.1 entry.segmentPosition := by
  obtain ⟨file, hfile, hscan⟩ := List.mem_flatMap.mp hentry
  obtain ⟨frame, hread, hframe, -⟩ := (extentOf_passes h20 file).1.mem (by omega) hscan
  exact ⟨file, hfile, frame, hread, hframe⟩

/-- Where a start on the files puts the writer: the extents, the last of them active, or
    the beginning of the first segment if nothing was recognised. -/
theorem exists_extents (h20 : 20 ≤ alignment) (hascending : OrderedStore.Ascending root.segments) :
    ∃ front active,
      (front ++ [active]).flatMap Extent.entries = scanFiles alignment root.segments ∧
      (front ++ [active]).Pairwise (fun extent later => extent.base < later.base) ∧
      (∀ extent ∈ front ++ [active], extent.In alignment root) ∧
      (∀ base, (∀ extent ∈ front ++ [active], extent.base ≠ base) →
        readFrame alignment (root.contents base) 0 = none) ∧
      (∀ extent ∈ front, extent.entries ≠ [] ∧
        readFrame alignment (root.contents extent.base) extent.stop = none) ∧
      lastNoted alignment (scanFiles alignment root.segments) = (active.base, active.stop) ∧
      Settled front active := by
  have hall := flatMap_readableExtents alignment root
  have hbases : (readableExtents alignment root).Pairwise _ := readableExtents_bases hascending
  have hin : ∀ extent ∈ readableExtents alignment root, extent.In alignment root :=
    fun extent => readableExtents_in h20 hascending
  have hstop : ∀ extent ∈ readableExtents alignment root, _ :=
    fun extent => readableExtents_stop h20 hascending
  have hfilled : ∀ extent ∈ readableExtents alignment root, extent.entries ≠ [] :=
    fun extent h => (mem_readableExtents h).1
  have hout : ∀ base, (∀ extent ∈ readableExtents alignment root, extent.base ≠ base) → _ :=
    fun base => readFrame_outside h20 hascending
  rcases List.eq_nil_or_concat (readableExtents alignment root) with hnil | ⟨front, active, hcons⟩
  · rw [hnil] at hall hout
    refine ⟨[], ⟨0, [], 0⟩, hall, List.pairwise_singleton _ _, ?_, ?_, ?_, ?_, fun _ => ⟨rfl, rfl⟩⟩
    · intro extent hextent
      rw [List.mem_singleton.mp hextent]
      rfl
    · intro base _
      exact hout base fun _ hmem => absurd hmem List.not_mem_nil
    · exact fun _ hmem => absurd hmem List.not_mem_nil
    · rw [← hall]
      rfl
  · rw [List.concat_eq_append] at hcons
    rw [hcons] at hall hbases hin hstop hout hfilled
    refine ⟨front, active, hall, hbases, hin, hout, ?_, ?_, ?_⟩
    · intro extent hextent
      have hmem : extent ∈ front ++ [active] := List.mem_append_left _ hextent
      exact ⟨hfilled extent hmem, hstop extent hmem⟩
    · rw [← hall]
      exact lastNoted_extents hin hfilled hbases
    · intro hnil
      exact absurd hnil (hfilled active (List.mem_append_right _ List.mem_cons_self))

end Extents

/-! ### The start -/

section Start

variable {alignment : Nat} {root : DataDir}

/-- The entries a scan finds decode. -/
theorem DataDir.LeftByCrash.decodes (h : root.LeftByCrash alignment) (h20 : 20 ≤ alignment)
    {entry : IndexEntry} (hentry : entry ∈ scanFiles alignment root.segments) :
    decodeIndexEntry (encodeIndexEntry alignment entry) = some entry := by
  obtain ⟨-, hlast⟩ := h.offsets entry hentry
  obtain ⟨file, hfile, frame, hread, hframe⟩ := mem_scanFiles h20 hentry
  rw [hframe] at hlast ⊢
  exact decode_entryAt h20 hread (h.sizes file hfile) (h.names file hfile).2 hlast

/-- The log end is not negative. -/
theorem DataDir.LeftByCrash.scanEnd_nonneg (h : root.LeftByCrash alignment) (h20 : 20 ≤ alignment) :
    0 ≤ scanEnd (scanFiles alignment root.segments) := by
  cases hlast : (scanFiles alignment root.segments).getLast? with
  | none => simp [scanEnd, hlast]
  | some entry =>
    have hmem := List.mem_of_getLast? hlast
    obtain ⟨_, -, frame, hread, hframe⟩ := mem_scanFiles h20 hmem
    have hone := one_le_estimateRecordCount (records_of_readFrame h20 hread)
    have hbase : entry.baseOffset = frame.baseOffset := congrArg IndexEntry.baseOffset hframe
    have hcount : entry.lastOffset = frame.baseOffset + estimateRecordCount frame.records - 1 :=
      congrArg IndexEntry.lastOffset hframe
    have hlo := (h.offsets entry hmem).1
    rw [scanEnd, hlast, Option.map_some, Option.getD_some]
    omega

/-- Writing resumes in one of the files, or in the one named 0. -/
theorem DataDir.LeftByCrash.base_fits (h : root.LeftByCrash alignment) (h20 : 20 ≤ alignment)
    {front : List Extent} {active : Extent} (hin : active.In alignment root)
    (hsettled : Settled front active)
    (hsub : ∀ entry ∈ active.entries, entry ∈ scanFiles alignment root.segments) :
    FitsInt64 active.base := by
  by_cases hnil : active.entries = []
  · rw [(hsettled hnil).2]
    decide
  · obtain ⟨entry, hmem⟩ := List.exists_mem_of_ne_nil _ hnil
    obtain ⟨file, hfile, frame, -, hframe⟩ := mem_scanFiles h20 (hsub entry hmem)
    obtain ⟨frame', -, hframe', -⟩ := hin.mem (by omega) hmem
    have hkey : entry.segmentBase = file.1 := congrArg IndexEntry.segmentBase hframe
    have hbase : entry.segmentBase = active.base := congrArg IndexEntry.segmentBase hframe'
    rw [← hbase, hkey]
    exact (h.names file hfile).2

/-- **A start on what a crash left** puts the log behind the last frame recognised. -/
theorem continues_start (h : root.LeftByCrash alignment) (h20 : 20 ≤ alignment)
    (hcovers : ¬ IndexCovers alignment root) (config : PartitionConfig) (segmentBytes : Nat)
    (hpos : 0 < alignment) :
    ∃ front active,
      (start config root segmentBytes alignment hpos).Continues root front active
        (scanEnd (scanFiles alignment root.segments)) ∧
      Settled front active ∧
      (active.base, active.stop) = lastNoted alignment (scanFiles alignment root.segments) ∧
      ∀ extent ∈ front, readFrame alignment (root.contents extent.base) extent.stop = none := by
  obtain ⟨front, active, hextents, hbases, hin, hout, hfilled, hactive, hsettled⟩ :=
    exists_extents h20 h.ascending
  have hrestored := restored_start config root segmentBytes alignment hpos
  have hresumed := resumed_start config root segmentBytes alignment hpos
  have hindex := start_index config root segmentBytes alignment hpos
  have hsegments := start_segments config root segmentBytes alignment hpos
  have hfound : recoveredEntries alignment root = scanFiles alignment root.segments :=
    if_neg hcovers
  have hlast : recoveredEnd alignment root = scanEnd (scanFiles alignment root.segments) :=
    if_neg hcovers
  rw [if_neg hcovers] at hindex
  rw [hfound, hlast] at hrestored
  rw [hfound] at hresumed
  set s := start config root segmentBytes alignment hpos
  have hbase : s.activeSegmentBaseOffset = active.base :=
    hresumed.active.trans (congrArg Prod.fst hactive)
  have halign : s.logFrameAlignment = alignment := hrestored.alignment
  have hmem : active ∈ front ++ [active] := List.mem_append_right _ List.mem_cons_self
  have hfits : FitsInt64 active.base := by
    apply h.base_fits h20 (hin active hmem) hsettled
    intro entry hentry
    rw [← hextents]
    exact List.mem_flatMap.mpr ⟨active, hmem, hentry⟩
  refine ⟨front, active, ?_, hsettled, hactive.symm,
    fun extent hextent => (hfilled extent hextent).2⟩
  exact
    { file := hrestored.file
      indexFile := hrestored.indexFile
      active_fits := hbase ▸ hfits
      base := hbase
      position := hresumed.position.trans (congrArg Prod.snd hactive)
      entries := hrestored.entries.trans hextents.symm
      index := by
        rw [hindex, halign, hrestored.entries]
      indexPosition := by
        rw [hresumed.indexPosition, halign, hrestored.entries]
      decodes := by
        rw [halign, hrestored.entries]
        exact fun entry => h.decodes h20
      ascending := by
        rw [hsegments]
        exact ascending_createSegment h.ascending _
      known := by
        intro file hfile hothers
        rw [hsegments] at hfile
        rcases mem_createSegment hfile with hnew | hold
        · exact absurd (hbase.symm.trans hnew.symm) (hothers active hmem)
        · exact List.mem_map_of_mem hold
      bases := hbases
      passes := by
        intro extent hextent
        unfold Extent.In
        rw [halign, hrestored.contents]
        exact hin extent hextent
      tails := by
        intro extent _
        rw [hrestored.contents]
      untouched := fun base _ => hrestored.contents base
      unread := by
        rw [halign]
        exact hout
      filled := fun extent hextent => (hfilled extent hextent).1
      latest_nonneg := h.scanEnd_nonneg h20
      latest_eq := by
        rw [hrestored.entries] }

end Start

/-! ### The next restart -/

/-- **When discarded tails stay discarded.**  If the index describes the files at the next
    restart, the log comes back unless a frame recognised before ends past the log end.
    Otherwise it comes back exactly when no rollover has led to a file that is not behind the
    one it left, and nothing reads as a frame where the writing left a file, to go on in
    another or for good: there the bytes the crash left decide. -/
theorem tails_stay_discarded_iff (config : PartitionConfig) (root : DataDir)
    (segmentBytes alignment : Nat) (hpos : 0 < alignment) (h20 : 20 ≤ alignment)
    (hsegment : segmentBytes < 2 ^ 64) (hroot : root.LeftByCrash alignment)
    (hcovers : ¬ IndexCovers alignment root) (calls : List LogCall)
    (hcalls : ∀ call ∈ calls, call.records ≠ [] ∧ call.records.length < 2 ^ 31)
    (s : PartitionLogShard) (hrun : Transition.run PartitionLogShard.accepted
      (start config root segmentBytes alignment hpos) calls = some s)
    (hlatest : FitsInt64 s.offsets.latest) :
    ∃ appended,
      s.indexEntries = scanFiles alignment root.segments ++ appended ∧
      List.Forall₂ (fun r entry => entry = r.entryAt entry.segmentBase entry.segmentPosition)
        (recordSetsFrom (scanEnd (scanFiles alignment root.segments))
          (calls.map LogCall.records)) appended ∧
      ((s.restart.indexEntries = scanFiles alignment root.segments ++ appended ∧
          s.restart.offsets.latest = s.offsets.latest) ↔
        if IndexCovers alignment s.root then
          ∀ entry ∈ scanFiles alignment root.segments, entry.lastOffset < s.offsets.latest
        else
          RollsForward segmentBytes alignment
            (lastNoted alignment (scanFiles alignment root.segments)).1
            (lastNoted alignment (scanFiles alignment root.segments)).2
            (scanEnd (scanFiles alignment root.segments)) (calls.map LogCall.records) ∧
          TailsUnread segmentBytes alignment root
            (lastNoted alignment (scanFiles alignment root.segments)).1
            (lastNoted alignment (scanFiles alignment root.segments)).2
            (scanEnd (scanFiles alignment root.segments)) (calls.map LogCall.records)) := by
  have hrestored := restored_start config root segmentBytes alignment hpos
  have hstart : (start config root segmentBytes alignment hpos).offsets.latest =
      scanEnd (scanFiles alignment root.segments) := by
    rw [hrestored.offsets]
    exact if_neg hcovers
  have hfound : (start config root segmentBytes alignment hpos).indexEntries =
      scanFiles alignment root.segments := hrestored.entries.trans (if_neg hcovers)
  have halign : (start config root segmentBytes alignment hpos).logFrameAlignment = alignment :=
    hrestored.alignment
  have hbytes : (start config root segmentBytes alignment hpos).segmentBytes = segmentBytes :=
    hrestored.segmentBytes
  obtain ⟨front, active, hcontinues, hsettled, hactive, hfront⟩ :=
    continues_start hroot h20 hcovers config segmentBytes hpos
  rw [← hstart] at hcontinues
  obtain ⟨appended, hindexed, hentries, hends, hnoted, halign', -⟩ :=
    hcontinues.toIndexed.run hcalls hrun (by rw [hbytes]; exact hsegment) hlatest
  obtain ⟨hforward, hback⟩ := hcontinues.run hcalls hrun (by rw [halign]; exact h20)
    (by rw [hbytes]; exact hsegment) hsettled hlatest
  rw [hstart] at hnoted
  rw [halign, hbytes, hstart] at hforward
  rw [halign, hbytes, hstart] at hback
  rw [halign] at halign'
  have hiff := hindexed.restart_iff
  rw [hfound] at hentries
  rw [hentries, halign'] at hiff
  rw [hentries] at hback
  rw [← hactive]
  refine ⟨appended, hentries, hnoted, hiff.trans ?_⟩
  by_cases hcovered : IndexCovers alignment s.root
  · rw [if_pos hcovered, if_pos hcovered, List.forall_mem_append]
    exact and_iff_left hends
  · rw [if_neg hcovered, if_neg hcovered]
    by_cases hrolls : RollsForward segmentBytes alignment active.base active.stop
        (scanEnd (scanFiles alignment root.segments)) (calls.map LogCall.records)
    · obtain ⟨front', active', hdone, -, hdiscards⟩ := hforward hrolls
      have hscan := hdone.scan_iff (by rw [halign']; exact h20)
      rw [halign', ← hdiscards, hentries] at hscan
      rw [hscan, and_iff_right hrolls]
      exact and_iff_right hfront
    · exact iff_of_false (hback hrolls) fun hboth => hrolls hboth.1

/-- One whole frame, and what was written of a longer one. -/
def tornTail : DataDir :=
  { segments := [(0, (recordSetAt 0 [1]).frame 512 ++ kLogMagic ++ List.replicate 600 0)] }

theorem scanFiles_tornTail :
    scanFiles 512 tornTail.segments = [(recordSetAt 0 [1]).entryAt 0 0] := by
  decide +kernel

/-- Both images below have one file and one frame at its beginning. -/
theorem leftByCrash_firstFrame {dir : DataDir} {segment : Bytes}
    (hsegments : dir.segments = [(0, segment)]) (hlength : segment.length < 2 ^ 64)
    (hscan : scanFiles 512 dir.segments = [(recordSetAt 0 [1]).entryAt 0 0]) :
    dir.LeftByCrash 512 := by
  constructor
  · rw [hsegments]
    exact List.pairwise_singleton _ _
  · rw [hsegments]
    intro file hfile
    obtain rfl := List.mem_singleton.mp hfile
    change (0 : Int) ≤ 0 ∧ FitsInt64 0
    decide
  · rw [hsegments]
    intro file hfile
    obtain rfl := List.mem_singleton.mp hfile
    exact hlength
  · rw [hscan]
    decide

/-- A torn frame is overwritten in part by the next append, and the files are scanned. -/
theorem tails_stay_discarded_tornTail :
    ∃ s, Transition.run PartitionLogShard.accepted
        (start defaultPartition tornTail 4096 512 (by decide)) [.append [2] 1] = some s ∧
      ¬ IndexCovers 512 s.root ∧
      ∃ appended, s.restart.indexEntries = (recordSetAt 0 [1]).entryAt 0 0 :: appended ∧
        s.restart.offsets.latest = 2 := by
  have hrun : (Transition.run PartitionLogShard.accepted
      (start defaultPartition tornTail 4096 512 (by decide)) [.append [2] 1]).map
        (fun s => (s.offsets.latest, decide (IndexCovers 512 s.root))) = some (2, false) := by
    decide +kernel
  obtain ⟨s, hs, hfacts⟩ := Option.map_eq_some_iff.mp hrun
  obtain ⟨hlatest, hscanned⟩ := Prod.mk.inj hfacts
  have hcovers := of_decide_eq_false hscanned
  have hroot : tornTail.LeftByCrash 512 :=
    leftByCrash_firstFrame rfl (by decide +kernel) scanFiles_tornTail
  obtain ⟨appended, -, -, hiff⟩ := tails_stay_discarded_iff defaultPartition tornTail 4096 512
    (by decide) (by decide) (by decide) hroot (by decide +kernel) [.append [2] 1] (by decide) s hs
    (by rw [hlatest]; decide)
  refine ⟨s, hs, hcovers, appended, ?_⟩
  rw [scanFiles_tornTail, hlatest, if_neg hcovers] at hiff
  refine hiff.mpr ?_
  rw [List.map_singleton, RollsForward, TailsUnread, if_pos (by decide +kernel),
    if_pos (by decide +kernel), TailsUnread]
  exact ⟨trivial, readFrame_of_end (by decide +kernel)⟩

/-- One whole frame, a block that was not written, and a frame behind it. -/
def behindHole : DataDir :=
  { segments := [(0, (recordSetAt 0 [1]).frame 512 ++ List.replicate 512 0 ++
      (recordSetAt 2 [3]).frame 512)] }

theorem scanFiles_behindHole :
    scanFiles 512 behindHole.segments = [(recordSetAt 0 [1]).entryAt 0 0] := by
  decide +kernel

/-- An append that fills the hole exactly brings the frame behind it back. -/
theorem tails_not_always_discarded :
    ¬ ∀ (config : PartitionConfig) (root : DataDir) (segmentBytes alignment : Nat)
        (hpos : 0 < alignment), 20 ≤ alignment → segmentBytes < 2 ^ 64 →
        root.LeftByCrash alignment → ¬ IndexCovers alignment root → ∀ calls : List LogCall,
        (∀ call ∈ calls, call.records ≠ [] ∧ call.records.length < 2 ^ 31) →
        ∀ s : PartitionLogShard, Transition.run PartitionLogShard.accepted
          (start config root segmentBytes alignment hpos) calls = some s →
        FitsInt64 s.offsets.latest →
        s.restart.indexEntries = s.indexEntries ∧
          s.restart.offsets.latest = s.offsets.latest := by
  intro hall
  have hrun : (Transition.run PartitionLogShard.accepted
      (start defaultPartition behindHole 4096 512 (by decide)) [.append [2] 1]).map
        (fun s => (s.offsets.latest, s.restart.offsets.latest)) = some (2, 3) := by
    decide +kernel
  obtain ⟨s, hs, hoffsets⟩ := Option.map_eq_some_iff.mp hrun
  obtain ⟨hbefore, hafter⟩ := Prod.mk.inj hoffsets
  have hroot : behindHole.LeftByCrash 512 :=
    leftByCrash_firstFrame rfl (by decide +kernel) scanFiles_behindHole
  have hsame := (hall defaultPartition behindHole 4096 512 (by decide) (by decide) (by decide) hroot
    (by decide +kernel) [.append [2] 1] (by decide) s hs (by rw [hbefore]; decide)).2
  rw [hbefore, hafter] at hsame
  exact absurd hsame (by decide)

end Mkmq
