import Mathlib.Data.List.Perm.Subperm
import Mkmq.SegmentPacks
import Mkmq.Transition

/-!
# What a restart keeps

Calls of `append` and `append_replica` run one at a time on a fresh partition and are all
answered without error; then the partition is stopped and started again.  The readers
of a restart refuse a frame without records, and one refused frame hides the rest of its
segment file, so the restart keeps every record exactly when no segment has a non-empty
record set behind an empty one.
-/

namespace Mkmq

open ByteCodec ListRules PartitionLogShard

variable {sets : List RecordSet}

/-! ### What should survive, and when it does -/

/-- Every non-empty record set is present at its offsets and returned by a fetch from its
    base offset, and the log end is unchanged. -/
structure Survives (before after : PartitionLogShard) (sets : List RecordSet) : Prop where
  latest : after.offsets.latest = before.offsets.latest
  present : ∀ r ∈ nonempty sets, ∃ entry ∈ after.indexEntries,
    Locates after.root after.logFrameAlignment r entry
  fetched : ∀ r ∈ nonempty sets, ∀ maxBytes, ∃ result,
    (after.fetch r.baseOffset maxBytes).2 = .ok result ∧ result.errorCode = .none ∧
      r.bytes <+: result.records

/-- Requests are framed into segments of `segmentBytes` bytes one after the other, a new
    segment being begun when a frame does not fit into a segment already begun; `position`
    bytes of the current segment are taken, and `sawEmpty` tells whether it has a frame
    without records.  No request with records is framed behind such a frame. -/
def EmptyOnesLast (segmentBytes alignment : Nat) : Nat → Bool → List Bytes → Prop
  | _, _, [] => True
  | position, sawEmpty, records :: rest =>
    let size := frameSize alignment records.length
    if position = 0 ∨ position + size ≤ segmentBytes then
      (sawEmpty = true → records = []) ∧
        EmptyOnesLast segmentBytes alignment (position + size) (sawEmpty || records.isEmpty) rest
    else EmptyOnesLast segmentBytes alignment size records.isEmpty rest

/-! ### Packs a scan reads completely -/

/-- The record sets before the first empty one. -/
def leading (sets : List RecordSet) : List RecordSet := sets.takeWhile fun r => !r.isEmpty

/-- No record set with records is behind an empty one. -/
def Pack.Clean (pack : Pack) : Prop := leading pack.sets = nonempty pack.sets

theorem leading_sublist (sets : List RecordSet) : (leading sets).Sublist (nonempty sets) := by
  induction sets with
  | nil => exact List.Sublist.refl _
  | cons r rest ih =>
    unfold leading nonempty
    cases hempty : r.isEmpty with
    | true =>
      rw [List.takeWhile_cons_of_neg (by simp [hempty])]
      exact List.nil_sublist _
    | false =>
      rw [List.takeWhile_cons_of_pos (by simp [hempty]),
        List.filter_cons_of_pos (by simp [hempty])]
      exact ih.cons_cons r

theorem leading_eq_self (h : ∀ r ∈ sets, r.isEmpty = false) : leading sets = sets := by
  refine List.takeWhile_eq_self_iff.mpr ?_
  intro r hr
  simp [h r hr]

theorem nonempty_eq_self (h : ∀ r ∈ sets, r.isEmpty = false) : nonempty sets = sets := by
  refine List.filter_eq_self.mpr ?_
  intro r hr
  simp [h r hr]

theorem leading_append_of_any (h : sets.any RecordSet.isEmpty = true) (more : List RecordSet) :
    leading (sets ++ more) = leading sets := by
  induction sets with
  | nil => cases h
  | cons r rest ih =>
    unfold leading at ih ⊢
    cases hempty : r.isEmpty with
    | true => simp [hempty]
    | false =>
      have hrest : rest.any RecordSet.isEmpty = true := by simpa [hempty] using h
      simp [hempty, ih hrest]

/-- One more record set keeps a pack clean unless it has records and an empty one is
    before it. -/
theorem clean_concat {base : Int} {stale' : List RecordSet} {r : RecordSet}
    (stale : List RecordSet) :
    Pack.Clean ⟨base, sets ++ [r], stale'⟩ ↔
      Pack.Clean ⟨base, sets, stale⟩ ∧ (sets.any RecordSet.isEmpty = true → r.isEmpty = true) := by
  unfold Pack.Clean
  simp only [nonempty_append]
  cases hany : sets.any RecordSet.isEmpty with
  | true =>
    rw [leading_append_of_any hany]
    constructor
    · intro heq
      have hlength := congrArg List.length heq
      have hle := (leading_sublist sets).length_le
      rw [List.length_append] at hlength
      have hnone : nonempty [r] = [] := List.length_eq_zero_iff.mp (by omega)
      rw [hnone, List.append_nil] at heq
      refine ⟨heq, fun _ => ?_⟩
      by_contra hne
      simp [nonempty, hne] at hnone
    · rintro ⟨heq, hempty⟩
      rw [nonempty_eq_nil (List.forall_mem_singleton.mpr (hempty rfl)), List.append_nil]
      exact heq
  | false =>
    have hall : ∀ x ∈ sets, x.isEmpty = false := by
      intro x hx
      by_contra hne
      have : sets.any RecordSet.isEmpty = true := List.any_eq_true.mpr ⟨x, hx, by simpa using hne⟩
      rw [hany] at this
      cases this
    have hone : leading (sets ++ [r]) = sets ++ leading [r] := by
      unfold leading
      rw [List.takeWhile_append_of_pos (by intro x hx; simp [hall x hx])]
    have hsingle : leading [r] = nonempty [r] := by
      cases hempty : r.isEmpty <;> simp [leading, nonempty, hempty]
    rw [hone, hsingle, leading_eq_self hall, nonempty_eq_self hall]
    simp

theorem clean_of_empty {pack : Pack} (h : ∀ r ∈ pack.sets, r.isEmpty = true) : pack.Clean := by
  unfold Pack.Clean
  have hnone := nonempty_eq_nil h
  have hlength := (leading_sublist pack.sets).length_le
  rw [hnone, List.length_nil] at hlength
  rw [hnone, List.length_eq_zero_iff.mp (Nat.le_zero.mp hlength)]

/-! ### One accepted call -/

section AcceptedCall

variable {s s' : PartitionLogShard} {front : List Pack} {active : Pack} {all : List RecordSet}
  {latest : Int}

/-- The packs are clean and no request with records will come behind an empty one. -/
def StaysClean (segmentBytes alignment : Nat) (front : List Pack) (active : Pack)
    (requests : List Bytes) : Prop :=
  (∀ pack ∈ front ++ [active], pack.Clean) ∧
    EmptyOnesLast segmentBytes alignment (framesLength alignment active.sets)
      (active.sets.any RecordSet.isEmpty) requests

/-- Finding room for a request, seen from the condition. -/
theorem PartitionLogShard.Packed.makeRoom (h : s.Packed front active all latest) (records : Bytes) :
    ∃ front' active', (s.placeSegment latest
          (frameSize s.logFrameAlignment records.length)).Packed front' active' all latest ∧
      (framesLength s.logFrameAlignment active'.sets = 0 ∨
        framesLength s.logFrameAlignment active'.sets +
          frameSize s.logFrameAlignment records.length ≤ s.segmentBytes) ∧
      ∀ rest, StaysClean s.segmentBytes s.logFrameAlignment front active (records :: rest) ↔
        StaysClean s.segmentBytes s.logFrameAlignment front' active' (records :: rest) := by
  rcases h.placeSegment (frameSize s.logFrameAlignment records.length) with
    ⟨hfits, hsame⟩ | ⟨hfull, ⟨stale, hpacked, hempty⟩ | hpacked⟩
  · rw [hsame]
    rw [h.position] at hfits
    exact ⟨front, active, h, hfits, fun _ => Iff.rfl⟩
  · refine ⟨front, _, hpacked, Or.inl rfl, fun rest => ?_⟩
    rw [h.position] at hfull
    unfold StaysClean
    rw [EmptyOnesLast, EmptyOnesLast, if_neg hfull, forall_mem_concat, forall_mem_concat]
    have hactive : active.Clean := clean_of_empty hempty
    have hnew : Pack.Clean ⟨active.base, [], stale⟩ := rfl
    simp [hactive, hnew]
  · refine ⟨front ++ [active], _, hpacked, Or.inl rfl, fun rest => ?_⟩
    rw [h.position] at hfull
    unfold StaysClean
    have hnew : Pack.Clean ⟨latest, [], []⟩ := rfl
    rw [EmptyOnesLast, EmptyOnesLast, if_neg hfull]
    conv_rhs => rw [forall_mem_concat]
    simp [hnew]

/-- **An accepted call** writes its record set into the active pack, and leaves the packs
    clean exactly as the condition says. -/
theorem PartitionLogShard.Packed.accepted (h : s.Packed front active all s.offsets.latest)
    (h20 : 20 ≤ s.logFrameAlignment) {call : LogCall} (hsize : call.records.length < 2 ^ 31)
    (haccepted : s.accepted call = some s') :
    ∃ front' active',
      s'.Packed front' active' (all ++ [recordSetAt s.offsets.latest call.records])
        s'.offsets.latest ∧
      s'.offsets.latest = s.offsets.latest + estimateRecordCount call.records ∧
      s'.logFrameAlignment = s.logFrameAlignment ∧ s'.segmentBytes = s.segmentBytes ∧
      ∀ rest, StaysClean s.segmentBytes s.logFrameAlignment front active (call.records :: rest) ↔
        StaysClean s.segmentBytes s.logFrameAlignment front' active' rest := by
  obtain ⟨head, rfl, hlatest⟩ := accepted_written haccepted h.file h.indexFile
  obtain ⟨halign, hbytes, -⟩ := placeSegment_kept h.file s.offsets.latest
    (frameSize s.logFrameAlignment call.records.length)
  obtain ⟨front', active', hroom, hfits, hclean⟩ := h.makeRoom call.records
  set placed := s.placeSegment s.offsets.latest
    (frameSize s.logFrameAlignment call.records.length)
  set r := recordSetAt s.offsets.latest call.records with hr
  have hframe : r.frameSize s.logFrameAlignment =
      frameSize s.logFrameAlignment call.records.length := rfl
  obtain ⟨stale, hwritten⟩ := hroom.written rfl (recordSetAt_counted _ _)
    (by rw [halign]; exact h20) hsize (by rw [halign, hbytes, hroom.position, halign]; exact hfits)
  have hend : head.offsets.latest = r.endOffset := by
    rw [hlatest, hr, recordSetAt_endOffset]
  refine ⟨front', ⟨active'.base, active'.sets ++ [r], stale⟩, ?_, hlatest, halign, hbytes, ?_⟩
  · change PartitionLogShard.Packed _ _ _ _ head.offsets.latest
    rw [hend]
    exact hwritten.withHead head
  · intro rest
    refine (hclean rest).trans ?_
    unfold StaysClean
    rw [EmptyOnesLast, forall_mem_concat, forall_mem_concat, clean_concat active'.stale]
    have hrempty : r.isEmpty = call.records.isEmpty := rfl
    simp only [List.any_append, List.any_cons, List.any_nil, Bool.or_false, framesLength_append,
      framesLength_cons, framesLength_nil, Nat.add_zero, hframe, hrempty, List.isEmpty_iff]
    rw [if_pos hfits]
    constructor
    · rintro ⟨⟨hfront, hactive⟩, hempty, hrest⟩
      exact ⟨⟨hfront, hactive, hempty⟩, hrest⟩
    · rintro ⟨⟨hfront, hactive, hempty⟩, hrest⟩
      exact ⟨⟨hfront, hactive⟩, hempty, hrest⟩

/-- **A run of accepted calls.** -/
theorem PartitionLogShard.Packed.run {calls : List LogCall}
    (hsizes : ∀ call ∈ calls, call.records.length < 2 ^ 31)
    (hrun : Transition.run PartitionLogShard.accepted s calls = some s')
    (h : s.Packed front active all s.offsets.latest) (h20 : 20 ≤ s.logFrameAlignment) :
    ∃ front' active',
      s'.Packed front' active'
        (all ++ recordSetsFrom s.offsets.latest (calls.map LogCall.records)) s'.offsets.latest ∧
      s'.logFrameAlignment = s.logFrameAlignment ∧ s'.segmentBytes = s.segmentBytes ∧
      (StaysClean s.segmentBytes s.logFrameAlignment front active (calls.map LogCall.records) ↔
        ∀ pack ∈ front' ++ [active'], pack.Clean) := by
  induction calls generalizing s front active all with
  | nil =>
    obtain rfl := Option.some.inj hrun
    refine ⟨front, active, ?_, rfl, rfl, ?_⟩
    · rw [List.map_nil, recordSetsFrom, List.append_nil]
      exact h
    · unfold StaysClean
      rw [List.map_nil, EmptyOnesLast]
      exact and_iff_left trivial
  | cons call calls ih =>
    rw [Transition.run] at hrun
    split at hrun
    · next t ht =>
        obtain ⟨front₁, active₁, hpacked, hlatest, halign, hbytes, hclean⟩ :=
          h.accepted h20 (hsizes call List.mem_cons_self) ht
        obtain ⟨front', active', hdone, halign', hbytes', hclean'⟩ :=
          ih (fun c hc => hsizes c (List.mem_cons_of_mem _ hc)) hrun hpacked
            (by rw [halign]; exact h20)
        rw [halign, hbytes] at hclean'
        refine ⟨front', active', ?_, halign'.trans halign, hbytes'.trans hbytes, ?_⟩
        · rw [hlatest, List.append_assoc] at hdone
          exact hdone
        · rw [List.map_cons]
          exact (hclean _).trans hclean'
    · cases hrun

end AcceptedCall

theorem packed_fresh (config : PartitionConfig) (segmentBytes alignment : Nat) (h : 0 < alignment) :
    (fresh config segmentBytes alignment h).Packed [] ⟨0, [], []⟩ [] 0 where
  file := rfl
  indexFile := rfl
  base := rfl
  position := rfl
  files := rfl
  bases := List.pairwise_singleton _ _
  base_nonneg := List.forall_mem_singleton.mpr (le_refl _)
  stale := List.forall_mem_singleton.mpr fun _ hr => absurd hr List.not_mem_nil
  base_le := le_refl _
  base_lt := fun ⟨_, hr, _⟩ => absurd hr List.not_mem_nil
  members := List.forall_mem_singleton.mpr fun _ hr => absurd hr List.not_mem_nil
  appended := rfl
  entries := rfl
  last := fun hne => absurd rfl hne
  index := rfl
  indexPosition := (Nat.zero_mul _).symm
  noted := List.Forall₂.nil
  placed := fun _ hentry => absurd hentry List.not_mem_nil
  ordered := List.Pairwise.nil
  bounds := fun _ hr => absurd hr List.not_mem_nil
  sound := fun _ hr => absurd hr List.not_mem_nil
  latest_eq := rfl

/-! ### What the restart finds -/

/-- The record sets a scan of the packs finds. -/
def recoveredSets (packs : List Pack) : List RecordSet := packs.flatMap fun p => leading p.sets

/-- Their index entries. -/
def scannedEntries (alignment : Nat) (packs : List Pack) : List IndexEntry :=
  packs.flatMap fun p => entriesAt alignment p.base 0 (leading p.sets)

/-- The slot of an entry in an index file. -/
theorem slice_indexFile {alignment : Nat} (hpos : 0 < alignment) {entries : List IndexEntry}
    {n : Nat} {entry : IndexEntry} (h : entries[n]? = some entry) :
    slice (entries.map (encodeIndexEntry alignment)).flatten (n * indexEntrySize alignment)
      (indexEntrySize alignment) = encodeIndexEntry alignment entry := by
  obtain ⟨hlt, hentry⟩ := List.getElem?_eq_some_iff.mp h
  have hsplit : entries = entries.take n ++ entry :: entries.drop (n + 1) := by
    rw [← hentry, List.getElem_cons_drop, List.take_append_drop]
  have hfront := length_flatten_encodeIndexEntry hpos (entries.take n)
  rw [List.length_take, Nat.min_eq_left (le_of_lt hlt)] at hfront
  have hslice := slice_append_exact ((entries.take n).map (encodeIndexEntry alignment)).flatten
    (encodeIndexEntry alignment entry)
    ((entries.drop (n + 1)).map (encodeIndexEntry alignment)).flatten
  rw [hfront, length_encodeIndexEntry hpos] at hslice
  conv_lhs => rw [hsplit]
  rw [List.map_append, List.map_cons, List.flatten_append, List.flatten_cons, ← List.append_assoc]
  exact hslice

section Restart

variable {s : PartitionLogShard} {front packs : List Pack} {active : Pack}
  {all sets : List RecordSet} {latest : Int} {entry : IndexEntry}

/-- The record set an entry was noted for. -/
theorem PartitionLogShard.Packed.exists_noted (h : s.Packed front active all latest)
    (hentry : entry ∈ s.indexEntries) :
    ∃ r ∈ all, entry = r.entryAt entry.segmentBase entry.segmentPosition := by
  obtain ⟨n, hn, heq⟩ := List.getElem_of_mem hentry
  obtain ⟨hlength, hrel⟩ := List.forall₂_iff_get.mp h.noted
  have hn' : n < all.length := by rw [hlength]; exact hn
  have hnoted := hrel n hn' hn
  simp only [List.get_eq_getElem, heq] at hnoted
  exact ⟨_, List.getElem_mem hn', hnoted⟩

/-- A noted entry reads back from the index file if its frame has records. -/
theorem PartitionLogShard.Packed.decode_noted (h : s.Packed front active all latest)
    (hsegment : s.segmentBytes < 2 ^ 64) (hlatest : FitsInt64 latest)
    (hentry : entry ∈ s.indexEntries) :
    decodeIndexEntry (encodeIndexEntry s.logFrameAlignment entry) =
      if entry.holdsRecords then some entry else none := by
  obtain ⟨r, hr, heq⟩ := h.exists_noted hentry
  obtain ⟨hlo, hle, hend⟩ := h.bounds r hr
  obtain ⟨hcounted, hsize⟩ := h.sound r hr
  obtain ⟨hbaseLo, hbaseHi, hposition⟩ := h.placed entry hentry
  have hbase : entry.baseOffset = r.baseOffset := congrArg IndexEntry.baseOffset heq
  have hlast : entry.lastOffset = r.lastOffset := congrArg IndexEntry.lastOffset heq
  have hbytes : entry.recordBytes = r.bytes.length := by
    rw [heq, RecordSet.entryAt_recordBytes_of_lt hsize]
  have hholds : entry.holdsRecords = !r.isEmpty := by
    rw [heq, RecordSet.holdsRecords_entryAt hsize]
  unfold RecordSet.endOffset at hle hend
  unfold FitsInt64 at hlatest
  have hstorable : entry.Storable :=
    { baseOffset := by rw [hbase]; exact ⟨by omega, by omega⟩
      lastOffset := by rw [hlast]; exact ⟨by omega, by omega⟩
      segmentBase := ⟨by omega, by omega⟩
      segmentPosition := by omega
      recordBytes := by rw [hbytes]; exact ⟨by omega, by omega⟩ }
  rw [decodeIndexEntry_encode _ hstorable, hholds]
  cases hempty : r.isEmpty with
  | true =>
    have hnil : r.bytes = [] := List.isEmpty_iff.mp hempty
    rw [if_pos (Or.inl (by rw [hbytes, hnil]; exact le_refl _))]
    rfl
  | false =>
    have hne : r.bytes ≠ [] := List.isEmpty_eq_false_iff.mp hempty
    have hpositive := List.length_pos_of_ne_nil hne
    have hcount := one_le_estimateRecordCount hne
    have hrange : r.baseOffset ≤ r.lastOffset := by rw [hcounted]; omega
    rw [if_neg]
    · rfl
    · rintro (hzero | hrev)
      · rw [hbytes] at hzero
        omega
      · rw [hbase, hlast] at hrev
        omega

/-- What `recover_from_index` reads: leading entries, each of a frame with records. -/
theorem PartitionLogShard.Packed.indexFound_take (h : s.Packed front active all latest)
    (hsegment : s.segmentBytes < 2 ^ 64) (hlatest : FitsInt64 latest) :
    indexFound s.logFrameAlignment s.root =
        s.indexEntries.take (indexFound s.logFrameAlignment s.root).length ∧
      ∀ entry ∈ indexFound s.logFrameAlignment s.root, entry.holdsRecords = true := by
  have hpos := s.logFrameAlignment_pos
  have hslot : ∀ (n : Nat) (entry : IndexEntry),
      (indexFound s.logFrameAlignment s.root)[n]? = some entry →
        s.indexEntries[n]? = some entry ∧ entry.holdsRecords = true := by
    intro n entry hn
    unfold indexFound at hn
    simp only [h.index] at hn
    obtain ⟨hfits, hdecoded⟩ := leadingEntries_getElem? hn
    rw [Nat.zero_add, length_flatten_encodeIndexEntry hpos, ← Nat.succ_mul] at hfits
    have hlt : n < s.indexEntries.length :=
      Nat.lt_of_succ_le (Nat.le_of_mul_le_mul_right hfits
        (lt_of_lt_of_le (by decide) (le_indexEntrySize hpos)))
    have hget := List.getElem?_eq_getElem hlt
    rw [Nat.zero_add, slice_indexFile hpos hget,
      h.decode_noted hsegment hlatest (List.getElem_mem hlt)] at hdecoded
    split at hdecoded
    · next hholds =>
        obtain rfl := Option.some.inj hdecoded
        exact ⟨hget, hholds⟩
    · cases hdecoded
  constructor
  · apply List.ext_getElem?
    intro n
    rw [List.getElem?_take]
    split
    · next hlt =>
        have hget := List.getElem?_eq_getElem hlt
        rw [hget, (hslot n _ hget).1]
    · next hge => exact List.getElem?_eq_none (not_lt.mp hge)
  · intro entry hentry
    obtain ⟨n, hn⟩ := List.getElem?_of_mem hentry
    exact (hslot n entry hn).2

/-- Two entries with records noted for different record sets differ. -/
theorem PartitionLogShard.Packed.noted_injective (h : s.Packed front active all latest) {n m : Nat}
    (hnm : n < m) (hn : s.indexEntries[n]? = some entry) (hm : s.indexEntries[m]? = some entry) :
    entry.holdsRecords = false := by
  obtain ⟨hlength, hrel⟩ := List.forall₂_iff_get.mp h.noted
  obtain ⟨hnlt, hnEq⟩ := List.getElem?_eq_some_iff.mp hn
  obtain ⟨hmlt, hmEq⟩ := List.getElem?_eq_some_iff.mp hm
  have hn' : n < all.length := by rw [hlength]; exact hnlt
  have hm' : m < all.length := by rw [hlength]; exact hmlt
  have hfirst := hrel n hn' hnlt
  have hsecond := hrel m hm' hmlt
  simp only [List.get_eq_getElem, hnEq, hmEq] at hfirst hsecond
  obtain ⟨hcounted, hsize⟩ := h.sound _ (List.getElem_mem hn')
  obtain ⟨-, hsize'⟩ := h.sound _ (List.getElem_mem hm')
  have hholds : entry.holdsRecords = !(all.get ⟨n, hn'⟩).isEmpty := by
    rw [hfirst]
    exact RecordSet.holdsRecords_entryAt hsize _ _
  have hholds' : entry.holdsRecords = !(all.get ⟨m, hm'⟩).isEmpty := by
    rw [hsecond]
    exact RecordSet.holdsRecords_entryAt hsize' _ _
  by_contra hne
  have hyes : entry.holdsRecords = true := by simpa using hne
  have hempty : (all.get ⟨n, hn'⟩).isEmpty = false := by
    rw [hyes] at hholds
    simpa using hholds.symm
  have hempty' : (all.get ⟨m, hm'⟩).isEmpty = false := by
    rw [hyes] at hholds'
    simpa using hholds'.symm
  -- the offsets of the later record set are greater
  have hordered := List.pairwise_iff_getElem.mp (List.pairwise_filter.mp h.ordered) n m hn' hm' hnm
    (by simpa using hempty) (by simpa using hempty')
  have hcount := one_le_estimateRecordCount (List.isEmpty_eq_false_iff.mp hempty)
  have hbase := congrArg IndexEntry.baseOffset (hfirst.symm.trans hsecond)
  unfold RecordSet.Counted at hcounted
  simp only [RecordSet.entryAt, List.get_eq_getElem] at hbase hcount hordered
  omega

/-- The frame that ends where its pack's file ends is the last of the pack. -/
theorem last_of_ends {alignment : Nat} (hpos : 0 < alignment) {segmentBase : Int}
    (hs : ∀ r ∈ sets, r.bytes.length < 2 ^ 31)
    (hentry : entry ∈ entriesAt alignment segmentBase 0 sets)
    (hends : framesLength alignment sets ≤ entry.segmentPosition + entry.frameSize alignment) :
    (entriesAt alignment segmentBase 0 sets).getLast? = some entry := by
  obtain ⟨init, last, rfl⟩ := List.eq_nil_or_concat sets |>.resolve_left
    (by rintro rfl; cases hentry)
  simp only [List.concat_eq_append] at hs hentry hends ⊢
  rw [entriesAt_append] at hentry ⊢
  rw [framesLength_append] at hends
  rcases List.mem_append.mp hentry with hentry | hentry
  · exfalso
    obtain ⟨-, -, r, hr, heq, hinside⟩ := mem_entriesAt hentry
    have hsize := hs r (List.mem_append_left _ hr)
    have hframe : entry.frameSize alignment = r.frameSize alignment := by
      unfold IndexEntry.frameSize RecordSet.frameSize
      rw [heq, RecordSet.entryAt_recordBytes_of_lt hsize, Int.toNat_natCast]
    have hlast := last.frameSize_pos hpos
    rw [framesLength_cons, framesLength_nil] at hends
    omega
  · rw [entriesAt, entriesAt] at hentry ⊢
    rw [List.getLast?_concat, List.mem_singleton.mp hentry]

/-- A noted entry with records is that of a frame in its pack. -/
theorem PartitionLogShard.Packed.mem_entries (h : s.Packed front active all latest)
    (hentry : entry ∈ s.indexEntries) (hholds : entry.holdsRecords = true) :
    ∃ pack ∈ front ++ [active], entry ∈ pack.entries s.logFrameAlignment ∧
      entry.segmentBase = pack.base := by
  have hfilter : entry ∈ s.indexEntries.filter IndexEntry.holdsRecords :=
    List.mem_filter.mpr ⟨hentry, hholds⟩
  rw [h.entries] at hfilter
  obtain ⟨pack, hpack, hmem⟩ := List.mem_flatMap.mp (List.mem_of_mem_filter hfilter)
  exact ⟨pack, hpack, hmem, (mem_entriesAt hmem).1⟩

/-- **An index file that covers the segment files belongs to a log without empty record
    sets**: an empty one ends what is read of the index, and its frame is part of a file. -/
theorem PartitionLogShard.Packed.covers (h : s.Packed front active all latest)
    (hsegment : s.segmentBytes < 2 ^ 64) (hlatest : FitsInt64 latest)
    (hcovers : IndexCovers s.logFrameAlignment s.root) :
    indexFound s.logFrameAlignment s.root = s.indexEntries ∧ ∀ r ∈ all, r.isEmpty = false := by
  have hpos := s.logFrameAlignment_pos
  obtain ⟨htake, hholds⟩ := h.indexFound_take hsegment hlatest
  set found := indexFound s.logFrameAlignment s.root with hfound
  -- the file of the active pack ends where the frame of some entry read ends
  have hactive : (active.base, (active.file s.logFrameAlignment).2.length) ∈
      (notedSegments s.logFrameAlignment found).map
        fun segment => (segment.baseOffset, segment.writePosition) := by
    rw [← hcovers.2, h.files_eq]
    exact List.mem_map.mpr ⟨_, List.mem_append_right _ List.mem_cons_self, rfl⟩
  obtain ⟨segment, hsegmentMem, hsegmentEq⟩ := List.mem_map.mp hactive
  obtain ⟨hsegmentBase, hsegmentEnd⟩ := Prod.mk.inj hsegmentEq
  obtain ⟨entry, hentry, hentryBase, hentryEnd⟩ := mem_notedSegments hsegmentMem
  have hnoted : entry ∈ s.indexEntries := by
    rw [htake] at hentry
    exact List.mem_of_mem_take hentry
  obtain ⟨pack, hpack, hmem, hbase⟩ := h.mem_entries hnoted (hholds entry hentry)
  have hsame : pack = active := by
    rcases List.mem_append.mp hpack with hpack | hpack
    · have hlt := h.base_before pack hpack
      rw [← hbase, hentryBase, hsegmentBase] at hlt
      exact absurd hlt (lt_irrefl _)
    · exact List.mem_singleton.mp hpack
  subst hsame
  have hne : pack.sets ≠ [] := by
    intro hnil
    unfold Pack.entries at hmem
    rw [hnil] at hmem
    cases hmem
  have hends : framesLength s.logFrameAlignment pack.sets ≤
      entry.segmentPosition + entry.frameSize s.logFrameAlignment := by
    rw [hentryEnd, hsegmentEnd]
    unfold Pack.file
    rw [length_framesOf hpos, framesLength_append]
    exact Nat.le_add_right _ _
  have hsizes : ∀ r ∈ pack.sets, r.bytes.length < 2 ^ 31 :=
    fun r hr => (h.sound r (h.members pack hpack r hr)).2
  -- so that entry is the last one noted, and everything noted has been read
  have hlast : s.indexEntries.getLast? = some entry :=
    (h.last hne).trans (last_of_ends hpos hsizes hmem hends)
  have hall : found = s.indexEntries := by
    by_contra hshort
    obtain ⟨n, hn⟩ := List.getElem?_of_mem hentry
    obtain ⟨hnlt, -⟩ := List.getElem?_eq_some_iff.mp hn
    have hlt : found.length < s.indexEntries.length := by
      by_contra hge
      rw [List.take_of_length_le (not_lt.mp hge)] at htake
      exact hshort htake
    rw [htake, List.getElem?_take, if_pos hnlt] at hn
    rw [List.getLast?_eq_getElem?] at hlast
    have hfalse := h.noted_injective (by omega : n < s.indexEntries.length - 1) hn hlast
    rw [hholds entry hentry] at hfalse
    cases hfalse
  refine ⟨hall, ?_⟩
  intro r hr
  obtain ⟨n, hn, hrn⟩ := List.getElem_of_mem hr
  obtain ⟨hlength, hrel⟩ := List.forall₂_iff_get.mp h.noted
  have hn' : n < s.indexEntries.length := by rw [← hlength]; exact hn
  have hnotedN := hrel n hn hn'
  simp only [List.get_eq_getElem, hrn] at hnotedN
  have hyes := hholds _ (by rw [hall]; exact List.getElem_mem hn')
  rw [hnotedN, RecordSet.holdsRecords_entryAt (h.sound r hr).2] at hyes
  simpa using hyes

/-- **What the restart finds**: of every pack the record sets before the first empty one. -/
theorem PartitionLogShard.Packed.recoveredEntries_eq (h : s.Packed front active all latest)
    (h20 : 20 ≤ s.logFrameAlignment) (hsegment : s.segmentBytes < 2 ^ 64)
    (hlatest : FitsInt64 latest) (hstorable : ∀ r ∈ nonempty all, r.Storable) :
    recoveredEntries s.logFrameAlignment s.root =
      scannedEntries s.logFrameAlignment (front ++ [active]) := by
  unfold recoveredEntries
  split
  · next hcovers =>
      obtain ⟨hfound, hnone⟩ := h.covers hsegment hlatest hcovers
      have hfull : ∀ pack ∈ front ++ [active], leading pack.sets = pack.sets :=
        fun pack hpack => leading_eq_self fun r hr => hnone r (h.members pack hpack r hr)
      have hentries :
          s.indexEntries = (front ++ [active]).flatMap (Pack.entries s.logFrameAlignment) := by
        have hleft : s.indexEntries.filter IndexEntry.holdsRecords = s.indexEntries := by
          refine List.filter_eq_self.mpr fun entry hentry => ?_
          exact (h.indexFound_take hsegment hlatest).2 entry (by rw [hfound]; exact hentry)
        have hright : ((front ++ [active]).flatMap (Pack.entries s.logFrameAlignment)).filter
            IndexEntry.holdsRecords =
              (front ++ [active]).flatMap (Pack.entries s.logFrameAlignment) := by
          refine List.filter_eq_self.mpr fun entry hentry => ?_
          obtain ⟨pack, hpack, hmem⟩ := List.mem_flatMap.mp hentry
          obtain ⟨-, -, r, hr, heq, -⟩ := mem_entriesAt hmem
          have hmember := h.members pack hpack r hr
          rw [heq, RecordSet.holdsRecords_entryAt (h.sound r hmember).2, hnone r hmember]
          rfl
        have := h.entries
        rwa [hleft, hright] at this
      rw [hfound, hentries]
      unfold scannedEntries
      refine List.flatMap_congr fun pack hpack => ?_
      unfold Pack.entries
      rw [hfull pack hpack]
  · unfold scanFiles scannedEntries
    rw [h.files, List.flatMap_map]
    refine List.flatMap_congr fun pack hpack => ?_
    refine scanSegment_pack h20 ?_ (h.stale pack hpack)
    intro r hr
    have hmember := h.members pack hpack r (List.mem_of_mem_filter hr)
    exact ⟨hstorable r (List.mem_filter.mpr ⟨hmember, (List.mem_filter.mp hr).2⟩),
      (h.sound r hmember).1⟩

/-! ### The restarted shard -/

theorem map_lastOffset_entriesAt (alignment : Nat) (segmentBase : Int) (position : Nat)
    (sets : List RecordSet) :
    (entriesAt alignment segmentBase position sets).map IndexEntry.lastOffset =
      sets.map RecordSet.lastOffset := by
  induction sets generalizing position with
  | nil => rfl
  | cons r rest ih => rw [entriesAt, List.map_cons, List.map_cons, ih]; rfl

theorem map_lastOffset_scannedEntries (alignment : Nat) (packs : List Pack) :
    (scannedEntries alignment packs).map IndexEntry.lastOffset =
      (recoveredSets packs).map RecordSet.lastOffset := by
  unfold scannedEntries recoveredSets
  rw [List.map_flatMap, List.map_flatMap]
  exact List.flatMap_congr fun pack _ => map_lastOffset_entriesAt _ _ _ _

/-- On ascending entries both recovery paths end at the same offset. -/
theorem indexEnd_eq_scanEnd {entries : List IndexEntry}
    (hascending : (entries.map IndexEntry.lastOffset).Pairwise (· < ·))
    (hnonneg : ∀ entry ∈ entries, 0 ≤ entry.lastOffset) : indexEnd entries = scanEnd entries := by
  induction entries using List.reverseRecOn with
  | nil => rfl
  | append_singleton front last ih =>
    rw [List.map_append, List.map_singleton] at hascending
    obtain ⟨hfront, -, hbefore⟩ := List.pairwise_append.mp hascending
    have hearlier := ih hfront fun entry hentry => hnonneg entry (List.mem_append_left _ hentry)
    have hlast := hnonneg last (List.mem_append_right _ List.mem_cons_self)
    have hle : indexEnd front ≤ last.lastOffset + 1 := by
      rw [hearlier]
      unfold scanEnd
      cases hfrontLast : front.getLast? with
      | none =>
        simp only [Option.map_none, Option.getD_none]
        omega
      | some entry =>
        have hlt := hbefore entry.lastOffset
          (List.mem_map_of_mem (List.mem_of_getLast? hfrontLast)) last.lastOffset
          List.mem_cons_self
        simp only [Option.map_some, Option.getD_some]
        omega
    have hstep : indexEnd (front ++ [last]) = max (indexEnd front) (last.lastOffset + 1) := by
      unfold indexEnd
      rw [List.foldl_append, List.foldl_cons, List.foldl_nil]
    rw [hstep, max_eq_right hle]
    unfold scanEnd
    rw [List.getLast?_concat]
    rfl

theorem framesAt_leading {alignment : Nat} (hpos : 0 < alignment) (pack : Pack) :
    FramesAt alignment (pack.file alignment).2 0 (leading pack.sets) := by
  have hframes := framesAt_framesOf hpos [] (leading pack.sets)
    (pack.sets.dropWhile (fun r => !r.isEmpty) ++ pack.stale)
  rw [List.nil_append, ← List.append_assoc] at hframes
  unfold leading at hframes
  rw [List.takeWhile_append_dropWhile] at hframes
  exact hframes

theorem recoveredSets_sublist (packs : List Pack) :
    (recoveredSets packs).Sublist (nonempty (packs.flatMap Pack.sets)) := by
  unfold recoveredSets nonempty
  rw [List.filter_flatMap]
  induction packs with
  | nil => exact List.Sublist.refl _
  | cons pack rest ih =>
    rw [List.flatMap_cons, List.flatMap_cons]
    exact (leading_sublist pack.sets).append ih

/-- A record set with records has its base offset at or below its last. -/
theorem PartitionLogShard.Packed.base_le_last (h : s.Packed front active all latest)
    {r : RecordSet} (hr : r ∈ nonempty all) : r.baseOffset ≤ r.lastOffset := by
  obtain ⟨hmem, hne⟩ := mem_nonempty.mp hr
  have hcount := one_le_estimateRecordCount hne
  have hcounted := (h.sound r hmem).1
  unfold RecordSet.Counted at hcounted
  omega

theorem PartitionLogShard.Packed.storable (h : s.Packed front active all latest)
    (hlatest : FitsInt64 latest) : ∀ r ∈ nonempty all, r.Storable := by
  intro r hr
  obtain ⟨hmem, hne⟩ := mem_nonempty.mp hr
  obtain ⟨hlo, hle, hend⟩ := h.bounds r hmem
  unfold FitsInt64 at hlatest
  exact ⟨hne, (h.sound r hmem).2, ⟨by omega, by omega⟩⟩

theorem PartitionLogShard.Packed.recoveredSets_sublist (h : s.Packed front active all latest) :
    (recoveredSets (front ++ [active])).Sublist (nonempty all) := by
  rw [h.appended]
  exact Mkmq.recoveredSets_sublist _

/-- **The restarted shard** holds the record sets found, up to the end of the last one. -/
theorem PartitionLogShard.Packed.holdsLog_restart (h : s.Packed front active all latest)
    (h20 : 20 ≤ s.logFrameAlignment) (hsegment : s.segmentBytes < 2 ^ 64)
    (hlatest : FitsInt64 latest) :
    s.restart.HoldsLog (recoveredSets (front ++ [active])) ∧
      s.restart.offsets =
        ⟨0, ((recoveredSets (front ++ [active])).getLast?.map RecordSet.endOffset).getD 0,
          ((recoveredSets (front ++ [active])).getLast?.map RecordSet.endOffset).getD 0⟩ := by
  have hpos := s.logFrameAlignment_pos
  have hstorable := h.storable hlatest
  have hsublist := h.recoveredSets_sublist
  have hfound : ∀ r ∈ recoveredSets (front ++ [active]), r ∈ nonempty all :=
    fun r hr => hsublist.subset hr
  have hrestored := restored_start s.config s.root s.segmentBytes s.logFrameAlignment hpos
  have hentries := h.recoveredEntries_eq h20 hsegment hlatest hstorable
  have hascending : (recoveredSets (front ++ [active])).Pairwise
      fun r later => r.lastOffset < later.lastOffset := by
    refine List.Pairwise.imp_of_mem ?_ (h.ordered.sublist hsublist)
    intro r later _ hlater hlt
    exact lt_of_lt_of_le hlt (h.base_le_last (hfound later hlater))
  constructor
  · refine ⟨?_, ?_, fun r hr => hstorable r (hfound r hr), hascending, ?_⟩
    · unfold restart
      rw [hrestored.entries, hentries, hrestored.alignment]
      refine forall₂_flatMap fun pack hpack => locates_entriesAt ?_
      rw [hrestored.contents, h.contents hpack]
      exact framesAt_leading hpos pack
    · unfold restart
      rw [hrestored.entries, hentries, hrestored.alignment]
      refine framesApart_flatMap hpos h.bases fun pack hpack r hr => hstorable r (hfound r ?_)
      exact List.mem_flatMap.mpr ⟨pack, hpack, hr⟩
    · unfold restart
      refine ⟨?_, ?_⟩
      · intro f hf
        rw [hrestored.file] at hf
        exact (Option.some.inj hf).symm
      · rw [hrestored.segmentCache]
        exact fun _ hcached => absurd hcached List.not_mem_nil
  · have hend : scanEnd (scannedEntries s.logFrameAlignment (front ++ [active])) =
        ((recoveredSets (front ++ [active])).getLast?.map RecordSet.endOffset).getD 0 := by
      have hmaps := map_lastOffset_scannedEntries s.logFrameAlignment (front ++ [active])
      have hlasts := congrArg List.getLast? hmaps
      rw [List.getLast?_map, List.getLast?_map] at hlasts
      have hends := congrArg (fun last => (Option.map (fun offset : Int => offset + 1) last).getD 0)
        hlasts
      simp only [Option.map_map] at hends
      exact hends
    have hrecovered : recoveredEnd s.logFrameAlignment s.root =
        scanEnd (scannedEntries s.logFrameAlignment (front ++ [active])) := by
      have hfoundEntries := hentries
      unfold recoveredEntries at hfoundEntries
      unfold recoveredEnd
      split
      · next hcovers =>
          rw [if_pos hcovers] at hfoundEntries
          rw [hfoundEntries]
          refine indexEnd_eq_scanEnd ?_ ?_
          · rw [map_lastOffset_scannedEntries]
            exact List.pairwise_map.mpr hascending
          · intro entry hentry
            have hmem : entry.lastOffset ∈
                (recoveredSets (front ++ [active])).map RecordSet.lastOffset := by
              rw [← map_lastOffset_scannedEntries s.logFrameAlignment]
              exact List.mem_map_of_mem hentry
            obtain ⟨r, hr, heq⟩ := List.mem_map.mp hmem
            rw [← heq]
            exact le_trans (h.bounds r (List.mem_of_mem_filter (hfound r hr))).1
              (h.base_le_last (hfound r hr))
      · next hcovers =>
          rw [if_neg hcovers] at hfoundEntries
          rw [hfoundEntries]
    unfold restart
    rw [hrestored.offsets, hrecovered, hend]

/-! ### When everything survives -/

/-- A fetch from the base offset of a record set in a log returns that record set first. -/
theorem fetch_of_holdsLog {t : PartitionLogShard} (h : t.HoldsLog sets) {e : Int}
    (hoffsets : t.offsets = ⟨0, e, e⟩)
    (hordered : sets.Pairwise fun r later => r.lastOffset < later.baseOffset) {r : RecordSet}
    (hr : r ∈ sets) (hlo : 0 ≤ r.baseOffset) (hle : r.baseOffset ≤ r.lastOffset)
    (hend : r.lastOffset < e) (maxBytes : Int) :
    ∃ result, (t.fetch r.baseOffset maxBytes).2 = .ok result ∧ result.errorCode = .none ∧
      r.bytes <+: result.records := by
  obtain ⟨before, after, rfl⟩ := List.append_of_mem hr
  have hvisible : t.visibleEnd = e := by
    unfold PartitionLogShard.visibleEnd
    rw [hoffsets]
    cases t.config.fetchVisibility <;> rfl
  have hfrom : setsFrom r.baseOffset (before ++ r :: after) = r :: after := by
    obtain ⟨-, hrest, hbefore⟩ := List.pairwise_append.mp hordered
    obtain ⟨hafter, -⟩ := List.pairwise_cons.mp (List.pairwise_append.mp h.ascending).2.1
    refine setsFrom_append (fun x hx => hbefore x hx r List.mem_cons_self) ?_
    intro x hx
    rcases List.mem_cons.mp hx with rfl | hx
    · exact hle
    · exact le_trans hle (le_of_lt (hafter x hx))
  obtain ⟨cache, hread, -⟩ :=
    readRecordsFromIndex_eq h r.baseOffset t.visibleEnd (t.fetchLimit maxBytes)
  have hinside : r.baseOffset < t.visibleEnd ∧ r.lastOffset < t.visibleEnd := by
    rw [hvisible]
    exact ⟨by omega, hend⟩
  obtain ⟨n, -, hn, htake⟩ := takeWithin_progress (t.fetchLimit maxBytes) after hinside
  obtain ⟨n, rfl⟩ := Nat.exists_eq_add_of_le' hn
  have hrange : ¬ (r.baseOffset < t.offsets.earliest ∨ r.baseOffset > t.offsets.latest) := by
    rw [hoffsets]
    simp only
    omega
  unfold PartitionLogShard.fetch
  simp only [if_neg hrange, hread, hfrom, htake, Except.map]
  refine ⟨_, rfl, rfl, ?_⟩
  rw [List.take_succ_cons, payload_cons]
  exact List.prefix_append _ _

/-- Lists that lose nothing on the whole lose nothing anywhere. -/
theorem clean_of_recoveredSets
    (h : (nonempty (packs.flatMap Pack.sets)).length ≤ (recoveredSets packs).length) :
    ∀ pack ∈ packs, pack.Clean := by
  induction packs with
  | nil => exact fun _ hpack => absurd hpack List.not_mem_nil
  | cons pack rest ih =>
    unfold recoveredSets at h ih
    rw [List.flatMap_cons, List.flatMap_cons, nonempty_append, List.length_append,
      List.length_append] at h
    have hpack := (leading_sublist pack.sets).length_le
    have hrest := (recoveredSets_sublist rest).length_le
    unfold recoveredSets at hrest
    intro p hp
    rcases List.mem_cons.mp hp with rfl | hp
    · exact (leading_sublist _).eq_of_length_le (by omega)
    · exact ih (by omega) p hp

theorem recoveredSets_of_clean (h : ∀ pack ∈ packs, pack.Clean) :
    recoveredSets packs = nonempty (packs.flatMap Pack.sets) := by
  unfold recoveredSets nonempty
  rw [List.filter_flatMap]
  exact List.flatMap_congr h

/-- **A restart keeps everything exactly when every pack is clean.** -/
theorem PartitionLogShard.Packed.survives_iff (h : s.Packed front active all s.offsets.latest)
    (h20 : 20 ≤ s.logFrameAlignment) (hsegment : s.segmentBytes < 2 ^ 64)
    (hlatest : FitsInt64 s.offsets.latest) :
    Survives s s.restart all ↔ ∀ pack ∈ front ++ [active], pack.Clean := by
  obtain ⟨hholds, hoffsets⟩ := h.holdsLog_restart h20 hsegment hlatest
  have hsublist := h.recoveredSets_sublist
  constructor
  · intro hsurvives
    -- every record set with records is among those found
    have hsubset : nonempty all ⊆ recoveredSets (front ++ [active]) := by
      intro r hr
      obtain ⟨entry, hentry, hlocates⟩ := hsurvives.present r hr
      obtain ⟨found, hfound, hlocated⟩ := exists_locates hholds.located hentry
      have hbase : r.baseOffset = found.baseOffset :=
        hlocates.baseOffset.symm.trans hlocated.baseOffset
      have hmem := hsublist.subset hfound
      obtain ⟨n, hn, rfl⟩ := List.getElem_of_mem hr
      obtain ⟨m, hm, rfl⟩ := List.getElem_of_mem hmem
      have hnle := h.base_le_last (List.getElem_mem hn)
      have hmle := h.base_le_last (List.getElem_mem hm)
      rcases lt_trichotomy n m with hlt | rfl | hlt
      · have := List.pairwise_iff_getElem.mp h.ordered n m hn hm hlt
        omega
      · exact hfound
      · have := List.pairwise_iff_getElem.mp h.ordered m n hm hn hlt
        omega
    have hnodup : (nonempty all).Nodup := by
      refine List.Pairwise.imp_of_mem ?_ h.ordered
      rintro r later hr _ hlt rfl
      exact absurd (h.base_le_last hr) (not_le.mpr hlt)
    refine clean_of_recoveredSets ?_
    rw [← h.appended]
    exact (hnodup.subperm hsubset).length_le
  · intro hclean
    have hall : recoveredSets (front ++ [active]) = nonempty all := by
      rw [recoveredSets_of_clean hclean, h.appended]
    rw [hall, ← h.latest_eq] at hoffsets
    rw [hall] at hholds
    refine ⟨by rw [hoffsets], ?_, ?_⟩
    · intro r hr
      exact forall₂_exists_of_mem hholds.located hr
    · intro r hr maxBytes
      obtain ⟨hlo, -, hend⟩ := h.bounds r (List.mem_of_mem_filter hr)
      unfold RecordSet.endOffset at hend
      exact fetch_of_holdsLog hholds hoffsets h.ordered hr hlo (h.base_le_last hr) (by omega)
        maxBytes

end Restart

/-- **Calls answered without error survive a restart exactly when no request with records
    was framed behind an empty one in the same segment.** -/
theorem restart_keeps_records_iff (config : PartitionConfig) (segmentBytes alignment : Nat)
    (halign : 0 < alignment) (h20 : 20 ≤ alignment) (hsegment : segmentBytes < 2 ^ 64)
    (calls : List LogCall) (hsizes : ∀ call ∈ calls, call.records.length < 2 ^ 31)
    (s : PartitionLogShard) (hrun : Transition.run PartitionLogShard.accepted
      (fresh config segmentBytes alignment halign) calls = some s)
    (hlatest : FitsInt64 s.offsets.latest) :
    Survives s s.restart (recordSetsFrom 0 (calls.map LogCall.records)) ↔
      EmptyOnesLast segmentBytes alignment 0 false (calls.map LogCall.records) := by
  obtain ⟨front, active, hpacked, halignEq, hbytesEq, hclean⟩ :=
    (packed_fresh config segmentBytes alignment halign).run hsizes hrun h20
  rw [List.nil_append] at hpacked
  have hiff := hpacked.survives_iff (by rw [halignEq]; exact h20) (by rw [hbytesEq]; exact hsegment)
    hlatest
  refine (hiff.trans hclean.symm).trans ?_
  have hnew : Pack.Clean ⟨0, [], []⟩ := rfl
  unfold StaysClean
  rw [List.nil_append, List.forall_mem_singleton]
  exact and_iff_right hnew

/-- An empty request behind one with records is harmless. -/
theorem restart_keeps_records_before_empty :
    ∃ s, Transition.run PartitionLogShard.accepted (fresh defaultPartition 4096 512 (by decide))
        [.append [1] 1, .append [] 1] = some s ∧
      Survives s s.restart [recordSetAt 0 [1], recordSetAt 1 []] := by
  have hrun : (Transition.run PartitionLogShard.accepted
      (fresh defaultPartition 4096 512 (by decide)) [.append [1] 1, .append [] 1]).map
        (fun s => s.offsets.latest) = some 1 := by
    decide +kernel
  obtain ⟨s, hs, hlatest⟩ := Option.map_eq_some_iff.mp hrun
  refine ⟨s, hs, ?_⟩
  refine (restart_keeps_records_iff defaultPartition 4096 512 (by decide) (by decide) (by decide)
    [.append [1] 1, .append [] 1] (by decide) s hs ?_).mpr ?_
  · rw [hlatest]
    decide
  · simp [EmptyOnesLast, LogCall.records]

/-- An empty request ahead of one with records in the same segment: the restart finds
    nothing of the log. -/
theorem restart_not_always_keeps_records :
    ¬ ∀ (config : PartitionConfig) (segmentBytes alignment : Nat) (halign : 0 < alignment),
      20 ≤ alignment → segmentBytes < 2 ^ 64 → ∀ calls : List LogCall,
      (∀ call ∈ calls, call.records.length < 2 ^ 31) → ∀ s : PartitionLogShard,
      Transition.run PartitionLogShard.accepted (fresh config segmentBytes alignment halign)
        calls = some s → FitsInt64 s.offsets.latest →
      Survives s s.restart (recordSetsFrom 0 (calls.map LogCall.records)) := by
  intro hall
  have hrun : (Transition.run PartitionLogShard.accepted
      (fresh defaultPartition 4096 512 (by decide)) [.append [] 1, .append [1] 1]).map
        (fun s => (s.offsets.latest, s.restart.offsets.latest)) = some (1, 0) := by
    decide +kernel
  obtain ⟨s, hs, hoffsets⟩ := Option.map_eq_some_iff.mp hrun
  obtain ⟨hbefore, hafter⟩ := Prod.mk.inj hoffsets
  have hsame := (hall defaultPartition 4096 512 (by decide) (by decide) (by decide)
    [.append [] 1, .append [1] 1] (by decide) s hs (by rw [hbefore]; decide)).latest
  rw [hbefore, hafter] at hsame
  exact absurd hsame (by decide)

end Mkmq
