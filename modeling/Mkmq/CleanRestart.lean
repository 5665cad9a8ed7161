import Mkmq.CrashedFiles

/-!
# A clean restart

A partition that was started without files holds its extents and nothing else: the files
end where the extents end, and the index file has the entries of all of them.  Both ways
of recovery then lead back to the same log.  Which one is taken depends on the index
file: with all of its entries it describes the files, without the last one it does not.
-/

namespace Mkmq

open ByteCodec PartitionLogShard

section Fresh

variable {s : PartitionLogShard} {front : List Extent} {active : Extent} {latest : Int}
  {index : Option Bytes}

/-- An extent that holds entries ends with its file. -/
theorem PartitionLogShard.Continues.length_contents (h : s.Continues {} front active latest)
    (h20 : 20 ≤ s.logFrameAlignment) {extent : Extent} (hmem : extent ∈ front ++ [active])
    (hne : extent.entries ≠ []) : (s.root.contents extent.base).length = extent.stop := by
  have hinside := (h.passes extent hmem).in_file h20 hne
  have htail := congrArg List.length (h.tails extent hmem)
  have hnone : DataDir.contents {} extent.base = [] := rfl
  rw [hnone, List.length_drop, List.length_drop, List.length_nil] at htail
  omega

/-- The segment files are those of the extents. -/
theorem PartitionLogShard.Continues.files (h : s.Continues {} front active latest)
    (h20 : 20 ≤ s.logFrameAlignment) (hsettled : Settled front active) (hne : s.indexEntries ≠ []) :
    s.root.segments.map (fun file => (file.1, file.2.length)) =
      (front ++ [active]).map fun extent => (extent.base, extent.stop) := by
  have hkeys : ((front ++ [active]).map Extent.base).Pairwise (· < ·) :=
    List.pairwise_map.mpr h.bases
  have hfound : ∀ file ∈ s.root.segments, [(file.1, file.2.length)] ≠ [] →
      file.1 ∈ (front ++ [active]).map Extent.base := by
    intro file hfile _
    by_contra hout
    have hknown := h.known file hfile fun extent hextent heq =>
      hout (List.mem_map.mpr ⟨extent, hextent, heq⟩)
    exact absurd hknown List.not_mem_nil
  have hpass := h.ascending.flatMap_eq (g := fun base segment => [(base, segment.length)])
    ((front ++ [active]).map Extent.base) hkeys hfound
  rw [List.map_eq_flatMap, hpass, List.flatMap_map, List.map_eq_flatMap]
  apply List.flatMap_congr
  intro extent hextent
  have hfilled := h.filled_of_ne hsettled hne extent hextent
  have hlength := h.length_contents h20 hextent hfilled
  unfold DataDir.contents at hlength
  cases hfind : OrderedStore.find extent.base s.root.segments with
  | none =>
    -- an extent with entries is not that of a missing file
    have hstop := (h.passes extent hextent).length_le s.logFrameAlignment_pos
    have hcount := List.length_pos_of_ne_nil hfilled
    rw [hfind, Option.getD_none, List.length_nil] at hlength
    omega
  | some segment =>
    rw [hfind, Option.getD_some] at hlength
    simp [hlength]

/-- What is left of the index file: all of it, nothing, or less than all of its bytes. -/
def IndexLeft (s : PartitionLogShard) (index : Option Bytes) : Prop :=
  index = s.root.index ∨ index = none ∨
    ∃ bytes n, s.root.index = some bytes ∧ n < bytes.length ∧ index = some (bytes.take n)

/-- An index file cut short has the entries whose slots are complete. -/
theorem PartitionLogShard.Continues.indexFound_take (h : s.Continues {} front active latest)
    {n : Nat} (hn : n < (indexOf s.logFrameAlignment s.indexEntries).length) :
    ∃ k, k < s.indexEntries.length ∧
      indexFound s.logFrameAlignment
          { s.root with
            index := some ((indexOf s.logFrameAlignment s.indexEntries).take n) } =
        s.indexEntries.take k := by
  have hsize := le_indexEntrySize s.logFrameAlignment_pos
  have hpos : 0 < indexEntrySize s.logFrameAlignment := by omega
  rw [length_indexOf s.logFrameAlignment_pos] at hn
  refine ⟨n / indexEntrySize s.logFrameAlignment, Nat.div_lt_of_lt_mul (by rwa [Nat.mul_comm]), ?_⟩
  set k := n / indexEntrySize s.logFrameAlignment with hk
  have hmod := Nat.div_add_mod n (indexEntrySize s.logFrameAlignment)
  rw [← hk, Nat.mul_comm] at hmod
  have hrest := Nat.mod_lt n hpos
  have hkle : k ≤ s.indexEntries.length := by
    apply le_of_lt
    rw [hk]
    exact Nat.div_lt_of_lt_mul (by rwa [Nat.mul_comm])
  have hfront : (indexOf s.logFrameAlignment (s.indexEntries.take k)).length =
      k * indexEntrySize s.logFrameAlignment := by
    rw [length_indexOf s.logFrameAlignment_pos, List.length_take, Nat.min_eq_left hkle]
  have hsplit : indexOf s.logFrameAlignment s.indexEntries =
      indexOf s.logFrameAlignment (s.indexEntries.take k) ++
        indexOf s.logFrameAlignment (s.indexEntries.drop k) := by
    nth_rewrite 1 [← List.take_append_drop k s.indexEntries]
    simp only [indexOf, List.map_append, List.flatten_append]
  have hshort : ((indexOf s.logFrameAlignment (s.indexEntries.drop k)).take
      (n % indexEntrySize s.logFrameAlignment)).length < indexEntrySize s.logFrameAlignment := by
    rw [List.length_take]
    omega
  refine indexFound_indexOf s.logFrameAlignment_pos
    (fun entry hentry => h.decodes entry (List.mem_of_mem_take hentry)) hshort ?_
  have hover : n - k * indexEntrySize s.logFrameAlignment =
      n % indexEntrySize s.logFrameAlignment := by
    omega
  rw [hsplit, List.take_append, hfront, hover, List.take_of_length_le (by omega)]

/-- Without the last entry the index does not describe the files. -/
theorem PartitionLogShard.Continues.not_covers_take (h : s.Continues {} front active latest)
    (h20 : 20 ≤ s.logFrameAlignment) (hsettled : Settled front active) {dir : DataDir}
    (hsegments : dir.segments = s.root.segments) {k : Nat} (hk : k < s.indexEntries.length)
    (hfound : indexFound s.logFrameAlignment dir = s.indexEntries.take k) :
    ¬ IndexCovers s.logFrameAlignment dir := by
  rintro ⟨-, hcovers⟩
  have hne : s.indexEntries ≠ [] := List.ne_nil_of_length_pos (by omega)
  have hfilled := h.filled_of_ne hsettled hne active h.active_mem
  rw [hsegments, h.files h20 hsettled hne, hfound] at hcovers
  have hmem : (active.base, active.stop) ∈
      (notedSegments s.logFrameAlignment (s.indexEntries.take k)).map
        fun segment => (segment.baseOffset, segment.writePosition) := by
    rw [← hcovers]
    exact List.mem_map.mpr ⟨active, h.active_mem, rfl⟩
  obtain ⟨segment, hsegment, hsame⟩ := List.mem_map.mp hmem
  obtain ⟨entry, hentry, hbase, hends⟩ := mem_notedSegments hsegment
  rw [(Prod.mk.inj hsame).1] at hbase
  rw [(Prod.mk.inj hsame).2] at hends
  -- an entry before the last one is in another file or ends earlier
  obtain ⟨init, last, hactive⟩ := (List.eq_nil_or_concat active.entries).resolve_left hfilled
  rw [List.concat_eq_append] at hactive
  have hentries : s.indexEntries = front.flatMap Extent.entries ++ init ++ [last] := by
    rw [h.entries, List.flatMap_append, List.append_assoc, ← hactive]
    simp
  have hbefore : entry ∈ front.flatMap Extent.entries ++ init := by
    rw [hentries, List.length_append, List.length_singleton] at hk
    rw [hentries, List.take_append_of_le_length (by omega)] at hentry
    exact List.mem_of_mem_take hentry
  rcases List.mem_append.mp hbefore with hfront | hinit
  · obtain ⟨extent, hextent, hin⟩ := List.mem_flatMap.mp hfront
    obtain ⟨frame, -, hframe, -⟩ := (h.passes extent (List.mem_append_left _ hextent)).mem
      s.logFrameAlignment_pos hin
    have hother : entry.segmentBase = extent.base := congrArg IndexEntry.segmentBase hframe
    have hlt := (List.pairwise_append.mp h.bases).2.2 extent hextent active List.mem_cons_self
    omega
  · have hpasses := h.passes active h.active_mem
    unfold Extent.In at hpasses
    rw [hactive] at hpasses
    have hlt := hpasses.eq_last s.logFrameAlignment_pos (List.cons_ne_nil _ _) hinit
    omega

/-- **Which way recovery takes**: the index describes the files if all of it is there. -/
theorem PartitionLogShard.Continues.covers_iff (h : s.Continues {} front active latest)
    (h20 : 20 ≤ s.logFrameAlignment) (hsettled : Settled front active) (hleft : IndexLeft s index) :
    IndexCovers s.logFrameAlignment { s.root with index := index } ↔
      index = s.root.index ∧ s.indexEntries ≠ [] := by
  constructor
  · intro hcovers
    rcases hleft with rfl | rfl | ⟨bytes, n, hbytes, hn, rfl⟩
    · refine ⟨rfl, ?_⟩
      rw [← h.indexFound_eq]
      exact hcovers.1
    · exact absurd rfl hcovers.1
    · rw [h.index] at hbytes
      obtain rfl := Option.some.inj hbytes
      obtain ⟨k, hk, hfound⟩ := h.indexFound_take hn
      exact absurd hcovers (h.not_covers_take h20 hsettled rfl hk hfound)
  · rintro ⟨rfl, hne⟩
    constructor
    · rw [← h.indexFound_eq] at hne
      exact hne
    · have hfiles := h.files h20 hsettled hne
      rw [← h.noted hsettled hne, ← h.indexFound_eq] at hfiles
      exact hfiles

/-- The log of `r` is that of `s`, and the index file of `r` has its entries. -/
structure SameLog (s r : PartitionLogShard) : Prop where
  entries : r.indexEntries = s.indexEntries
  latest : r.offsets.latest = s.offsets.latest
  active : r.activeSegmentBaseOffset = s.activeSegmentBaseOffset
  position : r.writePosition = s.writePosition
  index : r.root.index = some (r.indexEntries.map (encodeIndexEntry r.logFrameAlignment)).flatten
  decodes : ∀ entry ∈ r.indexEntries,
    decodeIndexEntry (encodeIndexEntry r.logFrameAlignment entry) = some entry

/-- **A start on the files of a log and what is left of its index** is the same log. -/
theorem PartitionLogShard.Continues.sameLog (h : s.Continues {} front active s.offsets.latest)
    (h20 : 20 ≤ s.logFrameAlignment) (hsettled : Settled front active)
    (hends : ∀ entry ∈ s.indexEntries, entry.lastOffset < s.offsets.latest)
    (hleft : IndexLeft s index) :
    SameLog s (start s.config { s.root with index := index } s.segmentBytes s.logFrameAlignment
      s.logFrameAlignment_pos) := by
  have hrestored := restored_start s.config { s.root with index := index } s.segmentBytes
    s.logFrameAlignment s.logFrameAlignment_pos
  have hresumed := resumed_start s.config { s.root with index := index } s.segmentBytes
    s.logFrameAlignment s.logFrameAlignment_pos
  have hindex := start_index s.config { s.root with index := index } s.segmentBytes
    s.logFrameAlignment s.logFrameAlignment_pos
  set r := start s.config { s.root with index := index } s.segmentBytes s.logFrameAlignment
    s.logFrameAlignment_pos
  -- both ways lead to the entries, the log end and the index file of the log
  obtain ⟨hentries, hlatest, hfile⟩ :
      recoveredEntries s.logFrameAlignment { s.root with index := index } = s.indexEntries ∧
      recoveredEnd s.logFrameAlignment { s.root with index := index } = s.offsets.latest ∧
      r.root.index = some (indexOf s.logFrameAlignment s.indexEntries) := by
    unfold recoveredEntries recoveredEnd
    by_cases hcovers : IndexCovers s.logFrameAlignment { s.root with index := index }
    · rw [if_pos hcovers] at hindex
      rw [if_pos hcovers, if_pos hcovers]
      obtain ⟨rfl, -⟩ := (h.covers_iff h20 hsettled hleft).mp hcovers
      have hfound : indexFound s.logFrameAlignment { s.root with index := s.root.index } =
          s.indexEntries := h.indexFound_eq
      rw [hfound]
      refine ⟨rfl, h.indexEnd_eq_iff.mpr hends, hindex.trans ?_⟩
      rw [h.index, Option.getD_some]
    · rw [if_neg hcovers] at hindex
      rw [if_neg hcovers, if_neg hcovers]
      have hscan : scanFiles s.logFrameAlignment s.root.segments = s.indexEntries := by
        apply (h.scan_iff h20).mpr
        intro extent _
        apply readFrame_of_end
        change 0 < extent.stop + s.logFrameAlignment
        omega
      rw [hscan] at hindex ⊢
      exact ⟨rfl, h.latest_eq.symm, hindex⟩
  have hsame : r.indexEntries = s.indexEntries := hrestored.entries.trans hentries
  have halign : r.logFrameAlignment = s.logFrameAlignment := hrestored.alignment
  rw [hentries] at hresumed
  have hnoted := h.lastNoted_eq hsettled
  constructor
  · exact hsame
  · rw [hrestored.offsets]
    exact hlatest
  · rw [hresumed.active, hnoted]
    exact h.base.symm
  · rw [hresumed.position, hnoted]
    exact h.position.symm
  · rw [hsame, halign]
    exact hfile
  · rw [hsame, halign]
    exact h.decodes

end Fresh

theorem notCovers_empty (alignment : Nat) : ¬ IndexCovers alignment {} :=
  fun hcovers => hcovers.1 rfl

/-- **A clean restart is the identity on the log**, whatever is left of the index file. -/
theorem clean_restart_sameLog (config : PartitionConfig) (segmentBytes alignment : Nat)
    (hpos : 0 < alignment) (h48 : 48 ≤ alignment) (hsegment : segmentBytes < 2 ^ 64)
    (calls : List LogCall)
    (hcalls : ∀ call ∈ calls, call.records ≠ [] ∧ call.records.length < 2 ^ 31)
    (s : PartitionLogShard) (hrun : Transition.run PartitionLogShard.accepted
      (fresh config segmentBytes alignment hpos) calls = some s)
    (hlatest : FitsInt64 s.offsets.latest) (index : Option Bytes) (hleft : IndexLeft s index) :
    (IndexCovers s.logFrameAlignment { s.root with index := index } ↔
        index = s.root.index ∧ s.indexEntries ≠ []) ∧
      SameLog s (start s.config { s.root with index := index } s.segmentBytes s.logFrameAlignment
        s.logFrameAlignment_pos) := by
  obtain ⟨front, active, hcontinues, hsettled, hactive, -⟩ := continues_start
    (leftByCrash_empty alignment) (by omega) (notCovers_empty alignment) config segmentBytes hpos
  rw [start_empty] at hcontinues
  obtain ⟨appended, -, hentries, hends, -, halign, -⟩ :=
    hcontinues.toIndexed.run hcalls hrun hsegment hlatest
  have hforward :=
    (hcontinues.run hcalls hrun (le_trans (by omega) h48) hsegment hsettled hlatest).1
  obtain ⟨hbase, hstop⟩ := Prod.mk.inj hactive
  obtain ⟨front', active', hdone, hsettled', -⟩ := hforward <| by
    rw [hbase, hstop]
    refine rollsForward_of_lt ?_ (le_refl _) fun hzero => absurd rfl hzero
    rw [List.forall_mem_map]
    exact fun call hcall => (hcalls call hcall).1
  have h20 : 20 ≤ s.logFrameAlignment := by
    rw [halign]
    exact le_trans (by omega) h48
  have hall : ∀ entry ∈ s.indexEntries, entry.lastOffset < s.offsets.latest := by
    rw [hentries]
    exact hends
  exact ⟨hdone.covers_iff h20 hsettled' hleft, hdone.sameLog h20 hsettled' hall hleft⟩

/-- Two segments, and an index file that lost its last byte. -/
theorem clean_restart_sameLog_cut :
    ∃ s index, Transition.run PartitionLogShard.accepted
        (fresh defaultPartition 512 512 (by decide)) [.append [1] 1, .append [2] 1] = some s ∧
      IndexLeft s index ∧ index ≠ s.root.index ∧
      SameLog s (start s.config { s.root with index := index } s.segmentBytes s.logFrameAlignment
        s.logFrameAlignment_pos) := by
  have hrun : (Transition.run PartitionLogShard.accepted
      (fresh defaultPartition 512 512 (by decide)) [.append [1] 1, .append [2] 1]).map
        (fun s => (s.offsets.latest, s.root.index.map List.length)) = some (2, some 1024) := by
    decide +kernel
  obtain ⟨s, hs, hfacts⟩ := Option.map_eq_some_iff.mp hrun
  obtain ⟨hlatest, hindex⟩ := Prod.mk.inj hfacts
  obtain ⟨bytes, hbytes, hlength⟩ := Option.map_eq_some_iff.mp hindex
  have hleft : IndexLeft s (some (bytes.take 1023)) :=
    Or.inr (Or.inr ⟨bytes, 1023, hbytes, by omega, rfl⟩)
  refine ⟨s, some (bytes.take 1023), hs, hleft, ?_, ?_⟩
  · rw [hbytes]
    intro hsame
    have hshort := congrArg List.length (Option.some.inj hsame)
    rw [List.length_take] at hshort
    omega
  · exact (clean_restart_sameLog defaultPartition 512 512 (by decide) (by decide) (by decide)
      [.append [1] 1, .append [2] 1] (by decide) s hs (by rw [hlatest]; decide) _ hleft).2

end Mkmq
