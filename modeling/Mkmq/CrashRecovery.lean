import Mkmq.FrameLayout

/-!
# What recovery finds after a crash

A crash leaves every acknowledged frame whole and any other frame in flight whole, torn
or missing.  Neither recovery path checks more of a frame than its header, and a segment
scan ends at the first header it does not recognise: an acknowledged frame behind a hole
is lost, and a torn frame behind a whole header is believed.  When appends take turns and
the frames reached the disk in their order, with the index file not ahead of them,
recovery finds exactly the record sets up to some point past every acknowledged one.
-/

namespace Mkmq

open ByteCodec PartitionLogShard

/-! ### Packs in a damaged file -/

section Packs

variable {alignment : Nat} {sets : List RecordSet} {recordSet : RecordSet} {entry : IndexEntry}
  {packs : List Pack}

theorem entriesAt_getElem? (segmentBase : Int) (position : Nat) (sets : List RecordSet) (n : Nat) :
    (entriesAt alignment segmentBase position sets)[n]? = sets[n]?.map fun recordSet =>
      recordSet.entryAt segmentBase (position + framesLength alignment (sets.take n)) := by
  induction sets generalizing position n with
  | nil => rfl
  | cons recordSet rest ih =>
    cases n with
    | zero => simp [entriesAt]
    | succ n => simp [entriesAt, ih, Nat.add_assoc]

theorem entriesAt_take (segmentBase : Int) (position : Nat) (sets : List RecordSet) (n : Nat) :
    (entriesAt alignment segmentBase position sets).take n =
      entriesAt alignment segmentBase position (sets.take n) := by
  induction sets generalizing position n with
  | nil => simp [entriesAt]
  | cons recordSet rest ih =>
    cases n with
    | zero => rfl
    | succ n => simp [entriesAt, ih]

theorem framesAt_iff {segment : Bytes} {position : Nat} :
    FramesAt alignment segment position sets ↔ ∀ (n : Nat) (recordSet : RecordSet),
      sets[n]? = some recordSet →
      slice segment (position + framesLength alignment (sets.take n))
        (recordSet.frameSize alignment) = recordSet.frame alignment := by
  induction sets generalizing position with
  | nil => simp [FramesAt]
  | cons first rest ih =>
    rw [FramesAt, ih]
    constructor
    · rintro ⟨hfirst, hrest⟩ n recordSet hn
      cases n with
      | zero =>
        rw [List.getElem?_cons_zero] at hn
        obtain rfl := Option.some.inj hn
        simpa using hfirst
      | succ n =>
        rw [List.getElem?_cons_succ] at hn
        simpa [Nat.add_assoc] using hrest n recordSet hn
    · intro hall
      refine ⟨by simpa using hall 0 first rfl, fun n recordSet hn => ?_⟩
      simpa [Nat.add_assoc] using hall (n + 1) recordSet (by rw [List.getElem?_cons_succ]; exact hn)

/-- The frames before one end where it starts, and it ends inside the whole. -/
theorem framesLength_take_add {n : Nat} (h : sets[n]? = some recordSet) :
    framesLength alignment (sets.take n) + recordSet.frameSize alignment ≤
      framesLength alignment sets := by
  obtain ⟨hlt, heq⟩ := List.getElem?_eq_some_iff.mp h
  have hsplit := List.take_append_drop n sets
  rw [List.drop_eq_getElem_cons hlt, heq] at hsplit
  have hlength := congrArg (framesLength alignment) hsplit
  rw [framesLength_append, framesLength_cons] at hlength
  omega

theorem packEntries_cons (pack : Pack) (rest : List Pack) :
    packEntries alignment (pack :: rest) =
      entriesAt alignment pack.base 0 pack.sets ++ packEntries alignment rest := rfl

theorem packSets_cons (pack : Pack) (rest : List Pack) :
    packSets (pack :: rest) = pack.sets ++ packSets rest := rfl

/-- The pack and the place in it of an entry. -/
theorem packEntries_locate {n : Nat} (hentry : (packEntries alignment packs)[n]? = some entry)
    (hset : (packSets packs)[n]? = some recordSet) :
    ∃ pack ∈ packs, ∃ j, pack.sets[j]? = some recordSet ∧
      entry = recordSet.entryAt pack.base (framesLength alignment (pack.sets.take j)) := by
  induction packs generalizing n with
  | nil => cases hentry
  | cons pack rest ih =>
    rw [packEntries_cons, List.getElem?_append, length_entriesAt] at hentry
    rw [packSets_cons, List.getElem?_append] at hset
    split at hentry
    · next hlt =>
        rw [if_pos hlt] at hset
        rw [entriesAt_getElem?, hset, Option.map_some, Nat.zero_add] at hentry
        exact ⟨pack, List.mem_cons_self, n, hset, (Option.some.inj hentry).symm⟩
    · next hge =>
        rw [if_neg hge] at hset
        obtain ⟨other, hother, j, hj⟩ := ih hentry hset
        exact ⟨other, List.mem_cons_of_mem _ hother, j, hj⟩

/-- The first frame of all starts its file. -/
theorem packEntries_first (h : (packEntries alignment packs)[0]? = some entry) :
    entry.segmentPosition = 0 := by
  induction packs with
  | nil => cases h
  | cons pack rest ih =>
    rw [packEntries_cons, List.getElem?_append] at h
    split at h
    · rw [entriesAt_getElem?] at h
      obtain ⟨recordSet, -, rfl⟩ := Option.map_eq_some_iff.mp h
      rfl
    · rw [Nat.zero_sub] at h
      exact ih h

/-- **A scan of packs of which the first `k` frames are whole**, and neither the next one
    nor any other that starts a file is taken for one, finds those frames. -/
theorem scan_packs (h20 : 20 ≤ alignment) {contents : Int → Bytes}
    (hs : ∀ recordSet ∈ packSets packs, recordSet.Storable ∧ recordSet.Counted) {k : Nat}
    (hwhole : ∀ (n : Nat) (entry : IndexEntry) (recordSet : RecordSet), n < k →
      (packEntries alignment packs)[n]? = some entry → (packSets packs)[n]? = some recordSet →
      slice (contents entry.segmentBase) entry.segmentPosition (recordSet.frameSize alignment) =
        recordSet.frame alignment)
    (htorn : ∀ (n : Nat) (entry : IndexEntry), k ≤ n → n = k ∨ entry.segmentPosition = 0 →
      (packEntries alignment packs)[n]? = some entry →
      readFrame alignment (contents entry.segmentBase) entry.segmentPosition = none)
    (hends : ∀ pack ∈ packs, (contents pack.base).length ≤ framesLength alignment pack.sets) :
    packs.flatMap (fun pack => scanSegment alignment pack.base (contents pack.base)
      (contents pack.base).length 0) = (packEntries alignment packs).take k := by
  induction packs generalizing k with
  | nil => simp [packEntries]
  | cons pack rest ih =>
    have hentries : packEntries alignment (pack :: rest) = _ := packEntries_cons pack rest
    have hsets := packSets_cons pack rest
    have hlength : (entriesAt alignment pack.base 0 pack.sets).length = pack.sets.length :=
      length_entriesAt _ _ _ _
    have hhere : scanSegment alignment pack.base (contents pack.base)
        (contents pack.base).length 0 = entriesAt alignment pack.base 0 (pack.sets.take k) := by
      refine scanSegment_file h20 pack.base ?_ ?_ ?_
      · intro recordSet hmem
        refine hs recordSet ?_
        rw [hsets]
        exact List.mem_append_left _ (List.mem_of_mem_take hmem)
      · refine framesAt_iff.mpr fun n recordSet hn => ?_
        rw [List.getElem?_take] at hn
        split at hn
        · next hlt =>
            obtain ⟨hn', -⟩ := List.getElem?_eq_some_iff.mp hn
            have hentry : (packEntries alignment (pack :: rest))[n]? = some
                (recordSet.entryAt pack.base (framesLength alignment (pack.sets.take n))) := by
              rw [hentries, List.getElem?_append_left (by rw [hlength]; exact hn'),
                entriesAt_getElem?, hn, Option.map_some, Nat.zero_add]
            have hframe := hwhole n _ recordSet hlt hentry
              (by rw [hsets, List.getElem?_append_left hn', hn])
            rw [List.take_take, Nat.min_eq_left (le_of_lt hlt), Nat.zero_add]
            exact hframe
        · cases hn
      · by_cases hlt : k < pack.sets.length
        · have hget := List.getElem?_eq_getElem hlt
          refine htorn k (pack.sets[k].entryAt pack.base
            (framesLength alignment (pack.sets.take k))) (le_refl _) (Or.inl rfl) ?_
          rw [hentries, List.getElem?_append_left (by rw [hlength]; exact hlt),
            entriesAt_getElem?, hget, Option.map_some, Nat.zero_add]
        · rw [List.take_of_length_le (not_lt.mp hlt)]
          refine readFrame_of_end (lt_of_le_of_lt (hends pack List.mem_cons_self) ?_)
          omega
    rw [List.flatMap_cons, hhere, hentries, List.take_append, hlength, entriesAt_take]
    refine congrArg _ (ih (fun r hr => hs r (by rw [hsets]; exact List.mem_append_right _ hr))
      ?_ ?_ fun p hp => hends p (List.mem_cons_of_mem _ hp))
    · intro n entry recordSet hn hentry hset
      refine hwhole (pack.sets.length + n) entry recordSet (by omega) ?_ ?_
      · rw [hentries, List.getElem?_append_right (by omega), hlength, Nat.add_sub_cancel_left,
          hentry]
      · rw [hsets, List.getElem?_append_right (by omega), Nat.add_sub_cancel_left, hset]
    · intro n entry hn hwhere hentry
      refine htorn (pack.sets.length + n) entry (by omega) ?_ ?_
      · rcases hwhere with rfl | hstart
        · by_cases hle : pack.sets.length ≤ k
          · exact Or.inl (by omega)
          · rw [Nat.sub_eq_zero_of_le (by omega)] at hentry
            exact Or.inr (packEntries_first hentry)
        · exact Or.inr hstart
      · rw [hentries, List.getElem?_append_right (by omega), hlength, Nat.add_sub_cancel_left,
          hentry]

end Packs

/-! ### After the crash -/

/-- The frame of a record set stands where it was placed. -/
def HoldsFrame (image : DataDir) (alignment : Nat) (recordSet : RecordSet)
    (placement : Placement) : Prop :=
  slice (image.contents placement.file) placement.position (recordSet.frameSize alignment) =
    recordSet.frame alignment

instance (image : DataDir) (alignment : Nat) (recordSet : RecordSet) (placement : Placement) :
    Decidable (HoldsFrame image alignment recordSet placement) := by
  unfold HoldsFrame
  infer_instance

/-- What is left of a frame does not read as one: its magic is missing, or its header is
    there and the file ends inside the frame. -/
def Unreadable (image : DataDir) (alignment : Nat) (recordSet : RecordSet)
    (placement : Placement) : Prop :=
  slice (image.contents placement.file) placement.position 8 ≠ kLogMagic ∨
    (getI32 (image.contents placement.file) (placement.position + 16) = recordSet.bytes.length ∧
      (image.contents placement.file).length <
        placement.position + recordSet.frameSize alignment)

namespace Reactor

/-- The files a crash may leave: every acknowledged frame is whole, and each byte is zero
    or belongs to a write that was issued. -/
structure CrashImage (r : Reactor) (image : DataDir) : Prop where
  listed : OrderedStore.Ascending image.segments
  acknowledged : ∀ op ∈ r.ops, op.phase = .done → ∀ placement ∈ op.placement,
    HoldsFrame image r.shard.logFrameAlignment op.recordSet placement
  segments : ∀ file ∈ image.segments, ∀ (i : Nat) (byte : UInt8), file.2[i]? = some byte →
    ∃ op ∈ r.ops, ∃ placement ∈ op.placement, placement.file = file.1 ∧ placement.position ≤ i ∧
      i < placement.position + op.recordSet.frameSize r.shard.logFrameAlignment ∧
      (byte = 0 ∨
        (op.recordSet.frame r.shard.logFrameAlignment)[i - placement.position]? = some byte)
  index : ∀ (i : Nat) (byte : UInt8), (image.index.getD [])[i]? = some byte →
    ∃ issued, ((r.shard.indexEntries.map
      (encodeIndexEntry r.shard.logFrameAlignment)).flatten)[i]? = some issued ∧
      (byte = 0 ∨ byte = issued)

/-- The partition started on the files `image`. -/
def recovered (r : Reactor) (image : DataDir) : PartitionLogShard :=
  start r.shard.config image r.shard.segmentBytes r.shard.logFrameAlignment
    r.shard.logFrameAlignment_pos

/-- Recovery finds the record sets up to some point, with their bytes, and all the
    acknowledged ones. -/
def RecoversAcknowledged (r : Reactor) (image : DataDir) : Prop :=
  ∃ k, List.Forall₂ (Locates (r.recovered image).root r.shard.logFrameAlignment)
      (r.recordSets.take k) (r.recovered image).indexEntries ∧
    ∀ (n : Nat) (op : AppendOp), r.ops[n]? = some op → op.phase = .done → n < k

/-- The first `k` frames, acknowledged ones among them, reached the disk; the next one and
    any later one that starts a file do not read as frames; and the index file has no
    entry but theirs. -/
structure PersistedInOrder (r : Reactor) (image : DataDir) (k : Nat) : Prop where
  whole : ∀ (n : Nat) (op : AppendOp), r.ops[n]? = some op → n < k →
    ∃ placement, op.placement = some placement ∧
      HoldsFrame image r.shard.logFrameAlignment op.recordSet placement
  acknowledged : ∀ (n : Nat) (op : AppendOp), r.ops[n]? = some op → op.phase = .done → n < k
  torn : ∀ (n : Nat) (op : AppendOp) (placement : Placement), r.ops[n]? = some op →
    op.placement = some placement → k ≤ n → n = k ∨ placement.position = 0 →
    Unreadable image r.shard.logFrameAlignment op.recordSet placement
  index : ∀ (n : Nat) (entry : IndexEntry),
    n * indexEntrySize r.shard.logFrameAlignment + indexEntrySize r.shard.logFrameAlignment ≤
      (image.index.getD []).length →
    decodeIndexEntry (slice (image.index.getD []) (n * indexEntrySize r.shard.logFrameAlignment)
      (indexEntrySize r.shard.logFrameAlignment)) = some entry →
    r.shard.indexEntries[n]? = some entry ∧ n < k

/-- The records of every request have a 32-bit length. -/
def SizedRequests (_ : Reactor) (a : ReactorAction) : Prop :=
  ∀ call ∈ a.call, call.records.length < 2 ^ 31

instance (r : Reactor) (a : ReactorAction) : Decidable (r.SizedRequests a) := by
  unfold SizedRequests
  infer_instance

section Image

variable {r : Reactor} {front : List Pack} {active : Pack} {image : DataDir} {k n : Nat}
  {entry : IndexEntry} (h : r.Laid front active)

include h

/-- The append an entry of the packs belongs to. -/
theorem Laid.exists_op
    (hentry : (packEntries r.shard.logFrameAlignment (front ++ [active]))[n]? = some entry) :
    ∃ op, r.ops[n]? = some op ∧ (packSets (front ++ [active]))[n]? = some op.recordSet ∧
      op.placement = some entry.placement := by
  obtain ⟨recordSet, hset, -⟩ := packEntries_getElem? hentry
  obtain ⟨hlt, -⟩ := List.getElem?_eq_some_iff.mp hset
  obtain ⟨more, hmore⟩ := h.sets
  have hadmitted : r.recordSets[n]? = some recordSet := by
    rw [← hmore, List.getElem?_append_left hlt, hset]
  unfold recordSets at hadmitted
  rw [List.getElem?_map] at hadmitted
  obtain ⟨op, hop, rfl⟩ := Option.map_eq_some_iff.mp hadmitted
  refine ⟨op, hop, hset, ?_⟩
  rw [h.placement n op hop, hentry, Option.map_some]

/-- Where the frame of an append lies in the packs. -/
theorem Laid.exists_pack {op : AppendOp} (hop : r.ops[n]? = some op) {placement : Placement}
    (hplacement : op.placement = some placement) :
    ∃ pack ∈ front ++ [active], pack.base = placement.file ∧
      placement.position + op.recordSet.frameSize r.shard.logFrameAlignment ≤
        framesLength r.shard.logFrameAlignment pack.sets := by
  have hplace := h.placement n op hop
  rw [hplacement] at hplace
  obtain ⟨entry, hentry, hentryPlace⟩ := Option.map_eq_some_iff.mp hplace.symm
  obtain ⟨again, hagain, hset, -⟩ := h.exists_op hentry
  obtain rfl := Option.some.inj (hop.symm.trans hagain)
  obtain ⟨pack, hpack, j, hj, hentryEq⟩ := packEntries_locate hentry hset
  refine ⟨pack, hpack, ?_, ?_⟩
  · rw [← hentryPlace, hentryEq]
    rfl
  · rw [← hentryPlace, hentryEq]
    exact framesLength_take_add hj

/-- No file of the image is longer than the frames issued to it. -/
theorem CrashImage.ends (hi : r.CrashImage image) {pack : Pack} (hpack : pack ∈ front ++ [active]) :
    (image.contents pack.base).length ≤ framesLength r.shard.logFrameAlignment pack.sets := by
  cases hfind : OrderedStore.find pack.base image.segments with
  | none =>
    have hempty : image.contents pack.base = [] := by
      unfold DataDir.contents
      rw [hfind]
      rfl
    rw [hempty]
    exact Nat.zero_le _
  | some contents =>
    have hcontents : image.contents pack.base = contents := by
      unfold DataDir.contents
      rw [hfind]
      rfl
    rw [hcontents]
    rcases Nat.eq_zero_or_pos contents.length with hzero | hpositive
    · rw [hzero]
      exact Nat.zero_le _
    · have hlast := List.getElem?_eq_getElem (Nat.sub_lt hpositive Nat.one_pos)
      obtain ⟨op, hmem, placement, hplacement, hfile, -, hlt, -⟩ :=
        hi.segments _ (OrderedStore.mem_of_find hfind) _ _ hlast
      obtain ⟨n, hop⟩ := List.getElem?_of_mem hmem
      obtain ⟨other, hother, hbase, hend⟩ := h.exists_pack hop hplacement
      have hsame : other = pack := by
        obtain ⟨i, hi, rfl⟩ := List.getElem_of_mem hother
        obtain ⟨j, hj, rfl⟩ := List.getElem_of_mem hpack
        have hbases : (front ++ [active])[i].base = (front ++ [active])[j].base :=
          hbase.trans hfile
        rcases lt_trichotomy i j with hij | rfl | hij
        · exact absurd hbases (ne_of_lt (List.pairwise_iff_getElem.mp h.bases i j hi hj hij))
        · rfl
        · exact absurd hbases (ne_of_gt (List.pairwise_iff_getElem.mp h.bases j i hj hi hij))
      rw [hsame] at hend
      omega

/-- The files are scanned pack by pack. -/
theorem CrashImage.scanFiles_eq (hi : r.CrashImage image) :
    scanFiles r.shard.logFrameAlignment image.segments =
      (front ++ [active]).flatMap fun pack =>
        scanSegment r.shard.logFrameAlignment pack.base (image.contents pack.base)
          (image.contents pack.base).length 0 := by
  have hlisting := hi.listed.flatMap_eq
    (g := fun base contents => scanSegment r.shard.logFrameAlignment base contents
      contents.length 0)
    ((front ++ [active]).map Pack.base) (List.pairwise_map.mpr h.bases) ?_
  · unfold scanFiles
    rw [hlisting, List.flatMap_map]
    refine List.flatMap_congr fun pack _ => ?_
    unfold DataDir.contents
    cases OrderedStore.find pack.base image.segments with
    | none => rfl
    | some contents => rfl
  · intro file hfile hfound
    have hpositive : 0 < file.2.length := by
      rcases Nat.eq_zero_or_pos file.2.length with hzero | hpositive
      · rw [hzero] at hfound
        exact absurd rfl hfound
      · exact hpositive
    obtain ⟨op, hmem, placement, hplacement, hbase, -⟩ :=
      hi.segments file hfile 0 _ (List.getElem?_eq_getElem hpositive)
    obtain ⟨n, hop⟩ := List.getElem?_of_mem hmem
    obtain ⟨pack, hpack, hpackBase, -⟩ := h.exists_pack hop hplacement
    exact List.mem_map.mpr ⟨pack, hpack, hpackBase.trans hbase⟩

variable (hk : r.PersistedInOrder image k)

include hk

theorem PersistedInOrder.whole_entry {recordSet : RecordSet} (hn : n < k)
    (hentry : (packEntries r.shard.logFrameAlignment (front ++ [active]))[n]? = some entry)
    (hset : (packSets (front ++ [active]))[n]? = some recordSet) :
    slice (image.contents entry.segmentBase) entry.segmentPosition
      (recordSet.frameSize r.shard.logFrameAlignment) =
        recordSet.frame r.shard.logFrameAlignment := by
  obtain ⟨op, hop, hopSet, hplacement⟩ := h.exists_op hentry
  obtain rfl := Option.some.inj (hset.symm.trans hopSet)
  obtain ⟨placement, hplaced, hframe⟩ := hk.whole n op hop hn
  obtain rfl := Option.some.inj (hplaced.symm.trans hplacement)
  exact hframe

theorem PersistedInOrder.torn_entry (h20 : 20 ≤ r.shard.logFrameAlignment) (hn : k ≤ n)
    (hwhere : n = k ∨ entry.segmentPosition = 0)
    (hentry : (packEntries r.shard.logFrameAlignment (front ++ [active]))[n]? = some entry) :
    readFrame r.shard.logFrameAlignment (image.contents entry.segmentBase)
      entry.segmentPosition = none := by
  obtain ⟨op, hop, -, hplacement⟩ := h.exists_op hentry
  rcases hk.torn n op entry.placement hop hplacement hn hwhere with hmagic | ⟨hheader, hends⟩
  · exact readFrame_of_magic h20 hmagic
  · refine readFrame_of_truncated ?_ hends
    rw [getI32_header h20]
    exact hheader

/-- The index file yields the entries of leading frames, at most the first `k`. -/
theorem PersistedInOrder.indexFound_eq :
    ∃ j ≤ k, indexFound r.shard.logFrameAlignment image =
      (packEntries r.shard.logFrameAlignment (front ++ [active])).take j := by
  have hslot : ∀ (n : Nat) (entry : IndexEntry),
      (indexFound r.shard.logFrameAlignment image)[n]? = some entry →
        (packEntries r.shard.logFrameAlignment (front ++ [active]))[n]? = some entry ∧ n < k := by
    intro n entry hn
    unfold indexFound at hn
    cases hindex : image.index with
    | none =>
      rw [hindex] at hn
      cases hn
    | some index =>
      rw [hindex] at hn
      obtain ⟨hfits, hdecoded⟩ := leadingEntries_getElem? hn
      rw [Nat.zero_add] at hfits hdecoded
      have hgetD : image.index.getD [] = index := by rw [hindex]; rfl
      obtain ⟨hentry, hlt⟩ := hk.index n entry (by rw [hgetD]; exact hfits)
        (by rw [hgetD]; exact hdecoded)
      rw [h.index, List.getElem?_take] at hentry
      split at hentry
      · exact ⟨hentry, hlt⟩
      · cases hentry
  refine ⟨(indexFound r.shard.logFrameAlignment image).length, ?_, ?_⟩
  · by_contra hlt
    have hget := List.getElem?_eq_getElem (not_le.mp hlt)
    exact lt_irrefl _ (hslot k _ hget).2
  · apply List.ext_getElem?
    intro n
    rw [List.getElem?_take]
    split
    · next hlt =>
        have hget := List.getElem?_eq_getElem hlt
        rw [hget, (hslot n _ hget).1]
    · next hge => exact List.getElem?_eq_none (not_lt.mp hge)

/-- An index file that covers the segment files has all the first `k` entries: the frame
    of a missing one would make its file longer than the entries say. -/
theorem PersistedInOrder.covers
    (hs : ∀ recordSet ∈ packSets (front ++ [active]), recordSet.Storable)
    (hcovers : IndexCovers r.shard.logFrameAlignment image) :
    indexFound r.shard.logFrameAlignment image =
      (packEntries r.shard.logFrameAlignment (front ++ [active])).take k := by
  have hpos := r.shard.logFrameAlignment_pos
  obtain ⟨j, hjk, hfound⟩ := hk.indexFound_eq h
  set entries := packEntries r.shard.logFrameAlignment (front ++ [active]) with hentries
  by_cases hshort : j < k ∧ j < entries.length
  · exfalso
    obtain ⟨hlt, hjlt⟩ := hshort
    have hentry := List.getElem?_eq_getElem hjlt
    obtain ⟨recordSet, hset, hentryEq⟩ := packEntries_getElem? hentry
    have hframe := hk.whole_entry h hlt hentry hset
    have hinside := frame_in_file hpos hframe
    have hsize := recordSet.frameSize_pos hpos
    -- the file of that frame is listed, so some entry found ends where it ends
    obtain ⟨contents, hfind⟩ : ∃ contents,
        OrderedStore.find entries[j].segmentBase image.segments = some contents := by
      cases hfind : OrderedStore.find entries[j].segmentBase image.segments with
      | none =>
        have hempty : image.contents entries[j].segmentBase = [] := by
          unfold DataDir.contents
          rw [hfind]
          rfl
        rw [hempty, List.length_nil] at hinside
        omega
      | some contents => exact ⟨contents, rfl⟩
    have hcontents : image.contents entries[j].segmentBase = contents := by
      unfold DataDir.contents
      rw [hfind]
      rfl
    have hlisted : (entries[j].segmentBase, contents.length) ∈
        (notedSegments r.shard.logFrameAlignment
          (indexFound r.shard.logFrameAlignment image)).map
            fun segment => (segment.baseOffset, segment.writePosition) := by
      rw [← hcovers.2]
      exact List.mem_map.mpr ⟨_, OrderedStore.mem_of_find hfind, rfl⟩
    obtain ⟨segment, hsegment, hsegmentEq⟩ := List.mem_map.mp hlisted
    obtain ⟨hsegmentBase, hsegmentEnd⟩ := Prod.mk.inj hsegmentEq
    obtain ⟨earlier, hearlier, hbase, hend⟩ := mem_notedSegments hsegment
    rw [hfound] at hearlier
    obtain ⟨i, hi, hiEq⟩ := List.getElem_of_mem hearlier
    rw [List.length_take] at hi
    rw [List.getElem_take] at hiEq
    have hpairs : entries.Pairwise (FramesApart r.shard.logFrameAlignment) :=
      framesApart_flatMap hpos h.bases fun pack hpack recordSet hmem =>
        hs recordSet (List.mem_flatMap.mpr ⟨pack, hpack, hmem⟩)
    have hapart := List.pairwise_iff_getElem.mp hpairs i j (by omega) hjlt (by omega)
    have hafter := hapart (by rw [hiEq, hbase, hsegmentBase])
    rw [hiEq, hend, hsegmentEnd, ← hcontents] at hafter
    omega
  · rw [hfound]
    rcases Nat.lt_or_ge j k with hlt | hge
    · have hle : entries.length ≤ j := by
        by_contra hgt
        exact hshort ⟨hlt, not_le.mp hgt⟩
      rw [List.take_of_length_le hle, List.take_of_length_le (le_trans hle (le_of_lt hlt))]
    · rw [le_antisymm hjk hge]

/-- The record sets admitted, as far as they reached the disk. -/
theorem PersistedInOrder.take_recordSets :
    r.recordSets.take k = (packSets (front ++ [active])).take k := by
  obtain ⟨more, hmore⟩ := h.sets
  rw [← hmore]
  rcases Nat.lt_or_ge (packSets (front ++ [active])).length k with hlt | hge
  · -- every append among the first `k` has a placement, so there are no others
    cases more with
    | nil => rw [List.append_nil]
    | cons next rest =>
      have hlength : (packSets (front ++ [active])).length < r.ops.length := by
        have hlengths := congrArg List.length hmore
        unfold recordSets at hlengths
        rw [List.length_append, List.length_cons, List.length_map] at hlengths
        omega
      have hop := List.getElem?_eq_getElem hlength
      obtain ⟨placement, hplacement, -⟩ := hk.whole _ _ hop hlt
      have hplaced := (h.placement_ne_none hop).mp
        (by rw [hplacement]; exact Option.some_ne_none _)
      exact absurd hplaced (lt_irrefl _)
  · exact List.take_append_of_le_length hge

/-- **Recovery of frames that reached the disk in order.** -/
theorem PersistedInOrder.recovers (hi : r.CrashImage image) (h20 : 20 ≤ r.shard.logFrameAlignment)
    (hs : ∀ recordSet ∈ packSets (front ++ [active]), recordSet.Storable ∧ recordSet.Counted) :
    r.RecoversAcknowledged image := by
  have hentries : recoveredEntries r.shard.logFrameAlignment image =
      (packEntries r.shard.logFrameAlignment (front ++ [active])).take k := by
    unfold recoveredEntries
    split
    · next hcovers => exact hk.covers h (fun recordSet hmem => (hs recordSet hmem).1) hcovers
    · rw [hi.scanFiles_eq h]
      exact scan_packs h20 hs
        (fun _ _ _ hn hentry hset => hk.whole_entry h hn hentry hset)
        (fun _ _ hn hwhere hentry => hk.torn_entry h h20 hn hwhere hentry)
        (fun _ hpack => hi.ends h hpack)
  have hrestored := restored_start r.shard.config image r.shard.segmentBytes
    r.shard.logFrameAlignment r.shard.logFrameAlignment_pos
  refine ⟨k, ?_, hk.acknowledged⟩
  unfold recovered
  rw [hrestored.entries, hentries, hk.take_recordSets h]
  refine List.forall₂_iff_get.mpr ⟨by simp, fun n hn hn' => ?_⟩
  rw [List.length_take] at hn hn'
  have hentry := List.getElem?_eq_getElem (lt_of_lt_of_le hn' (Nat.min_le_right _ _))
  obtain ⟨recordSet, hset, hentryEq⟩ := packEntries_getElem? hentry
  obtain ⟨_, hsetEq⟩ := List.getElem?_eq_some_iff.mp hset
  simp only [List.get_eq_getElem, List.getElem_take]
  rw [hsetEq]
  refine ⟨hentryEq, ?_⟩
  rw [hrestored.contents]
  exact hk.whole_entry h (lt_of_lt_of_le hn' (Nat.min_le_left _ _)) hentry hset

end Image

/-! ### The main result -/

/-- What the theorem assumes of every step of a run. -/
def OrderlyAppends (r : Reactor) (a : ReactorAction) : Prop :=
  r.AppendsRecords a ∧ r.SizedRequests a ∧ r.TakesTurns a

instance (r : Reactor) (a : ReactorAction) : Decidable (r.OrderlyAppends a) := by
  unfold OrderlyAppends
  infer_instance

/-- What holds in every state of such a run. -/
structure OrderlyInv (alignment : Nat) (r : Reactor) : Prop where
  log : r.LogInv
  laid : ∃ front active, r.Laid front active
  records : ∀ recordSet ∈ r.recordSets, recordSet.bytes ≠ []
  sizes : ∀ recordSet ∈ r.recordSets, recordSet.bytes.length < 2 ^ 31
  alignment_eq : r.shard.logFrameAlignment = alignment

theorem OrderlyInv.step {alignment : Nat} {r r' : Reactor} {a : ReactorAction}
    (h : r.OrderlyInv alignment) (hguard : r.OrderlyAppends a) (hstep : r.step a = some r') :
    r'.OrderlyInv alignment := by
  obtain ⟨hrecords, hsized, hturn⟩ := hguard
  obtain ⟨front, active, hlaid⟩ := h.laid
  exact
    { log := h.log.step hrecords hstep
      laid := hlaid.step h.log hturn hstep
      records := recordSets_forall (P := fun bytes => bytes ≠ []) h.records hrecords hstep
      sizes := recordSets_forall (P := fun bytes => bytes.length < 2 ^ 31) h.sizes hsized hstep
      alignment_eq := (alignment_step hstep).trans h.alignment_eq }

theorem orderlyInv_init (config : PartitionConfig) (segmentBytes alignment : Nat)
    (halign : 0 < alignment) :
    (init config segmentBytes alignment halign).OrderlyInv alignment where
  log := logInv_init config segmentBytes alignment halign
  laid := ⟨[], { base := 0 }, laid_init config segmentBytes alignment halign⟩
  records := fun _ hmem => absurd hmem List.not_mem_nil
  sizes := fun _ hmem => absurd hmem List.not_mem_nil
  alignment_eq := rfl

/-- **Acknowledged records survive a crash** in every run of appends that take turns, from
    every state, if the frames reached the disk in order. -/
theorem recovers_of_persistedInOrder (config : PartitionConfig) (segmentBytes alignment : Nat)
    (halign : 0 < alignment) (h20 : 20 ≤ alignment) (r : Reactor)
    (h : Transition.Reachable (fun r => r = init config segmentBytes alignment halign) step
      OrderlyAppends r) (hlatest : FitsInt64 r.shard.offsets.latest) (image : DataDir)
    (himage : r.CrashImage image) (k : Nat) (hk : r.PersistedInOrder image k) :
    r.RecoversAcknowledged image := by
  have hinv : r.OrderlyInv alignment := h.invariant
    (fun s hs => hs ▸ orderlyInv_init config segmentBytes alignment halign)
    (fun s a s' hs hguard hstep => hs.step hguard hstep)
  obtain ⟨front, active, hlaid⟩ := hinv.laid
  refine hk.recovers hlaid himage (by rw [hinv.alignment_eq]; exact h20) fun recordSet hmem => ?_
  have hadmitted := hlaid.sets.subset hmem
  obtain ⟨hlo, hle, hlt⟩ := hinv.log.bounds recordSet hadmitted
  unfold FitsInt64 at hlatest
  refine ⟨⟨hinv.records recordSet hadmitted, hinv.sizes recordSet hadmitted,
    ⟨by omega, by omega⟩⟩, ?_⟩
  rw [hinv.log.shape recordSet hadmitted]
  exact recordSetAt_counted _ _

/-- Two writes in flight; the first is acknowledged. -/
def acknowledgedFirst : List ReactorAction :=
  [.append [1] 1, .append [2] 1, .startWrite 0, .startWrite 1, .writeDone 0, .flush 0, .yielded 0,
    .flushDone 0, .resolve 0]

/-- Nothing of the second write is on disk. -/
def firstOnly : DataDir := { segments := [(0, (recordSetAt 0 [1]).frame 512)] }

/-- The appends of a state, as far as the images below are compared with them. -/
def frames (r : Reactor) : List (RecordSet × AppendPhase × Option Placement) × Nat × Int :=
  (r.ops.map fun op => (op.recordSet, op.phase, op.placement), r.shard.logFrameAlignment,
    r.shard.offsets.latest)

theorem ops_of_frames {r : Reactor} {s₁ s₂ : RecordSet} {a₁ a₂ : AppendPhase}
    {p₁ p₂ : Option Placement} {alignment : Nat} {latest : Int}
    (h : r.frames = ([(s₁, a₁, p₁), (s₂, a₂, p₂)], alignment, latest)) :
    (∃ w₁ w₂, r.ops = [⟨s₁, a₁, p₁, w₁⟩, ⟨s₂, a₂, p₂, w₂⟩]) ∧
      r.shard.logFrameAlignment = alignment ∧ r.shard.offsets.latest = latest := by
  obtain ⟨hops, hrest⟩ := Prod.mk.inj h
  refine ⟨?_, Prod.mk.inj hrest⟩
  obtain ⟨first, rest, hcons, hfirst, hsecond⟩ := List.map_eq_cons_iff.mp hops
  obtain ⟨second, rest, rfl, hsecond, hnil⟩ := List.map_eq_cons_iff.mp hsecond
  obtain rfl := List.map_eq_nil_iff.mp hnil
  obtain ⟨s, a, p, w₁⟩ := first
  obtain ⟨s', a', p', w₂⟩ := second
  cases hfirst
  cases hsecond
  exact ⟨w₁, w₂, hcons⟩

theorem recovers_acknowledgedFirst :
    ∃ r, Transition.guardedRun step OrderlyAppends (init syncedPartition 4096 512 (by decide))
        acknowledgedFirst = some r ∧ r.RecoversAcknowledged firstOnly := by
  have hrun : (Transition.guardedRun step OrderlyAppends
      (init syncedPartition 4096 512 (by decide)) acknowledgedFirst).map frames =
        some ([(recordSetAt 0 [1], .done, some ⟨0, 0, 0⟩),
          (recordSetAt 1 [2], .writing, some ⟨0, 0, 512⟩)], 512, 2) := by
    decide +kernel
  obtain ⟨r, hr, hframes⟩ := Option.map_eq_some_iff.mp hrun
  obtain ⟨⟨w₁, w₂, hops⟩, halign, hlatest⟩ := ops_of_frames hframes
  have hframe : HoldsFrame firstOnly 512 (recordSetAt 0 [1]) ⟨0, 0, 0⟩ := by decide +kernel
  refine ⟨r, hr, recovers_of_persistedInOrder syncedPartition 4096 512 (by decide) (by decide) r
    (.of_guardedRun (.start rfl) _ hr) (by rw [hlatest]; decide) firstOnly ?_ 1 ?_⟩
  · constructor
    · exact List.pairwise_singleton _ _
    · rw [hops, halign]
      intro op hmem hdone placement hplacement
      rcases List.mem_pair.mp hmem with rfl | rfl
      · obtain rfl := Option.some.inj hplacement
        exact hframe
      · cases hdone
    · rw [hops, halign]
      intro file hfile i byte hbyte
      obtain rfl := List.mem_singleton.mp hfile
      obtain ⟨hlt, -⟩ := List.getElem?_eq_some_iff.mp hbyte
      rw [RecordSet.length_frame (by decide)] at hlt
      exact ⟨_, List.mem_cons_self, _, rfl, rfl, Nat.zero_le _, by rwa [Nat.zero_add],
        Or.inr hbyte⟩
    · intro i byte hbyte
      cases hbyte
  · constructor
    · rw [hops, halign]
      intro n op hn hlt
      obtain rfl := Nat.lt_one_iff.mp hlt
      obtain rfl := Option.some.inj hn
      exact ⟨_, rfl, hframe⟩
    · rw [hops]
      intro n op hn hdone
      match n, hn with
      | 0, _ => exact Nat.one_pos
      | 1, hn =>
        obtain rfl := Option.some.inj hn
        cases hdone
    · rw [hops, halign]
      intro n op placement hn hplacement hle _
      match n, hn with
      | 1, hn =>
        obtain rfl := Option.some.inj hn
        obtain rfl := Option.some.inj hplacement
        left
        decide +kernel
    · intro n entry hfits
      have hsize := le_indexEntrySize r.shard.logFrameAlignment_pos
      have hlength : (firstOnly.index.getD []).length = 0 := rfl
      omega

/-- Two writes in flight; the second is acknowledged. -/
def acknowledgedSecond : List ReactorAction :=
  [.append [1] 1, .append [2] 1, .startWrite 0, .startWrite 1, .writeDone 1, .flush 1, .yielded 0,
    .flushDone 0, .resolve 1]

/-- Nothing of the first write is on disk: its place in the file reads as zero. -/
def secondOnly : DataDir :=
  { segments := [(0, List.replicate 512 0 ++ (recordSetAt 1 [2]).frame 512)] }

/-- A frame acknowledged behind a hole is lost. -/
theorem acknowledged_not_always_recovered :
    ¬ ∀ (config : PartitionConfig) (segmentBytes alignment : Nat) (halign : 0 < alignment),
        config.durability = .fsync → 20 ≤ alignment → ∀ r : Reactor,
        Transition.Reachable (fun r => r = init config segmentBytes alignment halign) step
          (fun r a => r.AppendsRecords a ∧ r.SizedRequests a) r →
        FitsInt64 r.shard.offsets.latest → ∀ image : DataDir, r.CrashImage image →
        r.RecoversAcknowledged image := by
  intro hall
  have hrun : (Transition.guardedRun step (fun r a => r.AppendsRecords a ∧ r.SizedRequests a)
      (init syncedPartition 4096 512 (by decide)) acknowledgedSecond).map frames =
        some ([(recordSetAt 0 [1], .writing, some ⟨0, 0, 0⟩),
          (recordSetAt 1 [2], .done, some ⟨0, 0, 512⟩)], 512, 2) := by
    decide +kernel
  have hstart : (Transition.guardedRun step (fun r a => r.AppendsRecords a ∧ r.SizedRequests a)
      (init syncedPartition 4096 512 (by decide)) acknowledgedSecond).map
        (fun r => (r.recovered secondOnly).indexEntries) = some [] := by
    decide +kernel
  obtain ⟨r, hr, hframes⟩ := Option.map_eq_some_iff.mp hrun
  obtain ⟨⟨w₁, w₂, hops⟩, halign, hlatest⟩ := ops_of_frames hframes
  have hfound : (r.recovered secondOnly).indexEntries = [] := by
    rw [hr] at hstart
    exact Option.some.inj hstart
  have hframe : HoldsFrame secondOnly 512 (recordSetAt 1 [2]) ⟨0, 0, 512⟩ := by decide +kernel
  have himage : r.CrashImage secondOnly := by
    constructor
    · exact List.pairwise_singleton _ _
    · rw [hops, halign]
      intro op hmem hdone placement hplacement
      rcases List.mem_pair.mp hmem with rfl | rfl
      · cases hdone
      · obtain rfl := Option.some.inj hplacement
        exact hframe
    · rw [hops, halign]
      intro file hfile i byte hbyte
      obtain rfl := List.mem_singleton.mp hfile
      simp only [List.getElem?_append, List.length_replicate] at hbyte
      split at hbyte
      · next hlt =>
          rw [List.getElem?_replicate, if_pos hlt] at hbyte
          refine ⟨_, List.mem_cons_self, _, rfl, rfl, Nat.zero_le _, ?_,
            Or.inl (Option.some.inj hbyte).symm⟩
          rw [Nat.zero_add]
          exact lt_of_lt_of_le hlt (alignment_le_frameSize (by decide) _)
      · next hge =>
          obtain ⟨hlt, -⟩ := List.getElem?_eq_some_iff.mp hbyte
          rw [RecordSet.length_frame (by decide)] at hlt
          refine ⟨_, List.mem_cons_of_mem _ List.mem_cons_self, _, rfl, rfl, not_lt.mp hge, ?_,
            Or.inr hbyte⟩
          simp only
          omega
    · intro i byte hbyte
      cases hbyte
  obtain ⟨k, hlocated, hacknowledged⟩ := hall syncedPartition 4096 512 (by decide) rfl (by decide) r
    (.of_guardedRun (.start rfl) _ hr) (by rw [hlatest]; decide) secondOnly himage
  have hk := hacknowledged 1 _ (by rw [hops]; rfl) rfl
  rw [hfound] at hlocated
  have hlength := hlocated.length_eq
  unfold recordSets at hlength
  rw [hops, List.length_take, List.length_map, List.length_cons, List.length_singleton,
    List.length_nil] at hlength
  omega

end Reactor

end Mkmq
