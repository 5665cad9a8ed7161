import Mkmq.PartitionReactor

/-!
# The order of the in-memory index

`find_index_for_offset` searches `index_entries_` as a list that ascends in both
offsets, because "append order == offset order".  Offsets are given out when an append
is admitted; entries are noted when its write completes.  The two orders agree in every
run whose writes complete in the order of their offsets, and in no run in which two
complete the other way round.
-/

namespace Mkmq

open ByteCodec ListRules PartitionLogShard

namespace Reactor

variable {r : Reactor}

/-- What `std::lower_bound` and the merged read rely on. -/
def IndexAscending (r : Reactor) : Prop :=
  r.shard.indexEntries.Pairwise fun entry later =>
    entry.baseOffset < later.baseOffset ∧ entry.lastOffset < later.lastOffset

/-- A write completes only before those of all later appends. -/
def CompletesInOrder (r : Reactor) : ReactorAction → Prop
  | .writeDone n => ∀ m ∈ r.noted, m < n
  | _ => True

instance (r : Reactor) (a : ReactorAction) : Decidable (r.CompletesInOrder a) := by
  unfold CompletesInOrder
  split <;> infer_instance

/-! ### The invariant -/

/-- The admitted record sets ascend, and the index lists some of them in their order. -/
structure OrderInv (r : Reactor) : Prop where
  log : r.LogInv
  noted : List.Forall₂ (fun n entry => ∃ recordSet, r.recordSets[n]? = some recordSet ∧
    entry.baseOffset = recordSet.baseOffset ∧ entry.lastOffset = recordSet.lastOffset)
    r.noted r.shard.indexEntries
  sorted : r.noted.Pairwise (· < ·)

/-- Later admitted sets have greater offsets. -/
theorem OrderInv.offsets_lt (h : r.OrderInv) {n m : Nat} (hnm : n < m) {recordSet later : RecordSet}
    (hn : r.recordSets[n]? = some recordSet) (hm : r.recordSets[m]? = some later) :
    recordSet.baseOffset < later.baseOffset ∧ recordSet.lastOffset < later.lastOffset := by
  obtain ⟨hnlt, hnEq⟩ := List.getElem?_eq_some_iff.mp hn
  obtain ⟨hmlt, hmEq⟩ := List.getElem?_eq_some_iff.mp hm
  have hlt := List.pairwise_iff_getElem.mp h.log.ascending n m hnlt hmlt hnm
  rw [hnEq, hmEq] at hlt
  have hfirst := (h.log.bounds recordSet (List.mem_of_getElem? hn)).2.1
  have hsecond := (h.log.bounds later (List.mem_of_getElem? hm)).2.1
  exact ⟨lt_of_le_of_lt hfirst hlt, lt_of_lt_of_le hlt hsecond⟩

theorem OrderInv.indexAscending (h : r.OrderInv) : r.IndexAscending := by
  obtain ⟨hlength, hentry⟩ := List.forall₂_iff_get.mp h.noted
  refine List.pairwise_iff_getElem.mpr ?_
  intro i j hi hj hij
  have hi' : i < r.noted.length := by rw [hlength]; exact hi
  have hj' : j < r.noted.length := by rw [hlength]; exact hj
  obtain ⟨recordSet, hset, hbase, hlast⟩ := hentry i hi' hi
  obtain ⟨later, hlater, hlaterBase, hlaterLast⟩ := hentry j hj' hj
  have hnoted := List.pairwise_iff_getElem.mp h.sorted i j hi' hj' hij
  have hlt := h.offsets_lt hnoted hset hlater
  rw [← hbase, ← hlast, ← hlaterBase, ← hlaterLast] at hlt
  exact hlt

theorem OrderInv.step {r' : Reactor} {a : ReactorAction} (h : r.OrderInv)
    (hrecords : r.AppendsRecords a) (horder : r.CompletesInOrder a) (hstep : r.step a = some r') :
    r'.OrderInv := by
  have hlog := h.log.step hrecords hstep
  cases logStep_of_step hstep with
  | quiet hsets _ hnoted hentries =>
    exact ⟨hlog, by rw [hsets, hnoted, hentries]; exact h.noted, by rw [hnoted]; exact h.sorted⟩
  | admitted admission recordSet _ _ hsets _ hnoted hentries =>
    refine ⟨hlog, ?_, by rw [hnoted]; exact h.sorted⟩
    rw [hsets, hnoted, hentries]
    refine h.noted.imp ?_
    rintro n entry ⟨other, hother, hoffsets⟩
    obtain ⟨hlt, -⟩ := List.getElem?_eq_some_iff.mp hother
    exact ⟨other, by rw [List.getElem?_append_left hlt, hother], hoffsets⟩
  | indexed n recordSet segmentBase position haction hset hsets _ hnoted hentries =>
    subst haction
    refine ⟨hlog, ?_, ?_⟩
    · rw [hsets, hnoted, hentries]
      exact List.rel_append h.noted
        (List.Forall₂.cons ⟨recordSet, hset, rfl, rfl⟩ List.Forall₂.nil)
    · rw [hnoted]
      exact pairwise_concat.mpr ⟨h.sorted, horder⟩

theorem orderInv_init (config : PartitionConfig) (segmentBytes alignment : Nat)
    (halign : 0 < alignment) : (init config segmentBytes alignment halign).OrderInv where
  log := logInv_init config segmentBytes alignment halign
  noted := List.Forall₂.nil
  sorted := List.Pairwise.nil

/-! ### The main result -/

/-- **The index ascends in both offsets** in every state that appends of non-empty record
    sets reach when their writes complete in the order of their offsets. -/
theorem indexAscending_of_completesInOrder (config : PartitionConfig)
    (segmentBytes alignment : Nat) (halign : 0 < alignment) (r : Reactor)
    (h : Transition.Reachable (fun r => r = init config segmentBytes alignment halign) step
      (fun r a => r.AppendsRecords a ∧ r.CompletesInOrder a) r) : r.IndexAscending := by
  have hinv : r.OrderInv := h.invariant
    (fun s hs => hs ▸ orderInv_init config segmentBytes alignment halign)
    (fun s a s' hs hguard hstep => hs.step hguard.1 hguard.2 hstep)
  exact hinv.indexAscending

/-- Two writes in flight at once that complete in the order they started in. -/
def overlappingWrites : List ReactorAction :=
  [.append [1] 1, .append [2] 1, .startWrite 0, .startWrite 1, .writeDone 0, .writeDone 1]

theorem indexAscending_of_overlappingWrites :
    ∃ r, Transition.guardedRun step (fun r a => r.AppendsRecords a ∧ r.CompletesInOrder a)
        (init defaultPartition 4096 512 (by decide)) overlappingWrites = some r ∧
      r.shard.indexEntries.map IndexEntry.baseOffset = [0, 1] ∧ r.IndexAscending := by
  have hrun : (Transition.guardedRun step (fun r a => r.AppendsRecords a ∧ r.CompletesInOrder a)
      (init defaultPartition 4096 512 (by decide)) overlappingWrites).map
        (fun r => r.shard.indexEntries.map IndexEntry.baseOffset) = some [0, 1] := by
    decide +kernel
  obtain ⟨r, hr, hentries⟩ := Option.map_eq_some_iff.mp hrun
  exact ⟨r, hr, hentries, indexAscending_of_completesInOrder defaultPartition 4096 512 (by decide) r
    (.of_guardedRun (.start rfl) _ hr)⟩

/-- The same two writes, the second of which completes first. -/
def overtakingWrite : List ReactorAction :=
  [.append [1] 1, .append [2] 1, .startWrite 0, .startWrite 1, .writeDone 1, .writeDone 0]

theorem index_not_always_ascending :
    ¬ ∀ (config : PartitionConfig) (segmentBytes alignment : Nat) (halign : 0 < alignment)
        (r : Reactor),
        Transition.Reachable (fun r => r = init config segmentBytes alignment halign) step
          (fun r a => r.AppendsRecords a) r → r.IndexAscending := by
  intro hall
  have hrun : (Transition.guardedRun step (fun r a => r.AppendsRecords a)
      (init defaultPartition 4096 512 (by decide)) overtakingWrite).map
        (fun r => r.shard.indexEntries.map IndexEntry.baseOffset) = some [1, 0] := by
    decide +kernel
  obtain ⟨r, hr, hbases⟩ := Option.map_eq_some_iff.mp hrun
  have hascending :=
    hall defaultPartition 4096 512 (by decide) r (.of_guardedRun (.start rfl) _ hr)
  have hsorted : (r.shard.indexEntries.map IndexEntry.baseOffset).Pairwise (· < ·) :=
    List.pairwise_map.mpr (hascending.imp fun hlt => hlt.1)
  rw [hbases] at hsorted
  exact absurd hsorted (by decide)

end Reactor

end Mkmq
