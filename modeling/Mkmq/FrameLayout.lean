import Mkmq.SegmentPacks
import Mkmq.SegmentPlacement

/-!
# Where appends that take turns put their frames

Appends take turns when each opens its segment and issues its write after all earlier
ones have issued theirs, and completes its write after all earlier ones have completed
theirs; they still overlap.  The frames issued in such a run form packs: they fill one
segment file after the other in offset order, without gaps, and the index lists them in
that order.
-/

namespace Mkmq

open ByteCodec ListRules PartitionLogShard

/-! ### Packs in a row -/

/-- The record sets of packs, in file order. -/
def packSets (packs : List Pack) : List RecordSet := packs.flatMap Pack.sets

/-- Their index entries. -/
def packEntries (alignment : Nat) (packs : List Pack) : List IndexEntry :=
  packs.flatMap (Pack.entries alignment)

/-- Where the frame of an entry is written. -/
def IndexEntry.placement (entry : IndexEntry) : Placement :=
  ⟨entry.segmentBase, entry.segmentBase, entry.segmentPosition⟩

section Packs

variable {alignment : Nat} {front : List Pack} {active : Pack}

theorem forall₂_entriesAt (segmentBase : Int) (position : Nat) (sets : List RecordSet) :
    List.Forall₂ (fun recordSet entry =>
      entry = recordSet.entryAt entry.segmentBase entry.segmentPosition) sets
      (entriesAt alignment segmentBase position sets) := by
  induction sets generalizing position with
  | nil => exact List.Forall₂.nil
  | cons recordSet rest ih => exact List.Forall₂.cons rfl (ih _)

theorem forall₂_packEntries (alignment : Nat) (packs : List Pack) :
    List.Forall₂ (fun recordSet entry =>
      entry = recordSet.entryAt entry.segmentBase entry.segmentPosition) (packSets packs)
      (packEntries alignment packs) :=
  forall₂_flatMap fun pack _ => forall₂_entriesAt pack.base 0 pack.sets

@[simp] theorem length_packEntries (alignment : Nat) (packs : List Pack) :
    (packEntries alignment packs).length = (packSets packs).length :=
  (forall₂_packEntries alignment packs).length_eq.symm

/-- The record set an entry belongs to. -/
theorem packEntries_getElem? {packs : List Pack} {n : Nat} {entry : IndexEntry}
    (h : (packEntries alignment packs)[n]? = some entry) :
    ∃ recordSet, (packSets packs)[n]? = some recordSet ∧
      entry = recordSet.entryAt entry.segmentBase entry.segmentPosition := by
  obtain ⟨hlt, rfl⟩ := List.getElem?_eq_some_iff.mp h
  have hlt' : n < (packSets packs).length := by rwa [length_packEntries] at hlt
  have hrel := (List.forall₂_iff_get.mp (forall₂_packEntries alignment packs)).2 n hlt' hlt
  exact ⟨_, List.getElem?_eq_getElem hlt', hrel⟩

/-- A frame more in the last pack. -/
theorem packEntries_concat (recordSet : RecordSet) :
    packEntries alignment (front ++ [{ active with sets := active.sets ++ [recordSet] }]) =
      packEntries alignment (front ++ [active]) ++
        [recordSet.entryAt active.base (framesLength alignment active.sets)] := by
  unfold packEntries Pack.entries
  simp only [List.flatMap_append, List.flatMap_cons, List.flatMap_nil, List.append_nil,
    entriesAt_append, Nat.zero_add, List.append_assoc]
  rfl

theorem packSets_concat (recordSet : RecordSet) :
    packSets (front ++ [{ active with sets := active.sets ++ [recordSet] }]) =
      packSets (front ++ [active]) ++ [recordSet] := by
  unfold packSets
  simp only [List.flatMap_append, List.flatMap_cons, List.flatMap_nil, List.append_nil,
    List.append_assoc]

/-- A pack without frames changes nothing. -/
theorem packSets_new (packs : List Pack) (base : Int) :
    packSets (packs ++ [{ base := base }]) = packSets packs := by
  simp [packSets]

theorem packEntries_new (packs : List Pack) (base : Int) :
    packEntries alignment (packs ++ [{ base := base }]) = packEntries alignment packs := by
  simp [packEntries, Pack.entries, entriesAt]

end Packs

namespace Reactor

/-! ### Taking turns -/

/-- Every append admitted before append `n` has issued its write. -/
def IssuedBefore (r : Reactor) (n : Nat) : Prop := ∀ op ∈ r.ops.take n, op.placement ≠ none

instance (r : Reactor) (n : Nat) : Decidable (r.IssuedBefore n) := by
  unfold IssuedBefore
  infer_instance

/-- An append starts to open a segment, issues its write and completes it only after all
    earlier ones have issued, or completed, theirs. -/
def TakesTurns (r : Reactor) : ReactorAction → Prop
  | .startWrite n => r.IssuedBefore n
  | .writeDone n => ∀ m < n, m ∈ r.noted
  | .barrierPassed n => r.startsOpening (.barrierPassed n) ≠ none → r.IssuedBefore n
  | a => r.startsOpening a ≠ none → r.IssuedBefore r.ops.length

instance (r : Reactor) : (a : ReactorAction) → Decidable (r.TakesTurns a)
  | .startWrite n => inferInstanceAs (Decidable (r.IssuedBefore n))
  | .writeDone n => inferInstanceAs (Decidable (∀ m < n, m ∈ r.noted))
  | .barrierPassed n =>
    inferInstanceAs (Decidable (r.startsOpening (.barrierPassed n) ≠ none → r.IssuedBefore n))
  | .append .. | .appendReplica _ | .opened _ | .openFailed _ | .writeFailed _ | .flush _
  | .yielded _ | .flushDone _ | .flushFailed _ | .resolve _ | .indexWritten _ =>
    inferInstanceAs (Decidable (r.startsOpening _ ≠ none → r.IssuedBefore r.ops.length))

/-! ### The invariant -/

/-- The frames issued form the packs `front` and, in the active segment, `active`. -/
structure Laid (r : Reactor) (front : List Pack) (active : Pack) : Prop where
  sets : packSets (front ++ [active]) <+: r.recordSets
  placement : ∀ (n : Nat) (op : AppendOp), r.ops[n]? = some op → op.placement =
    (packEntries r.shard.logFrameAlignment (front ++ [active]))[n]?.map IndexEntry.placement
  bases : (front ++ [active]).Pairwise fun pack later => pack.base < later.base
  members : ∀ recordSet ∈ active.sets, active.base ≤ recordSet.baseOffset
  waiting : ∀ (n : Nat) (recordSet : RecordSet), (packSets (front ++ [active])).length ≤ n →
    r.recordSets[n]? = some recordSet → active.base ≤ recordSet.baseOffset
  base_le : active.base ≤ r.shard.offsets.latest
  base : r.shard.activeSegmentBaseOffset = active.base
  position : r.shard.writePosition = framesLength r.shard.logFrameAlignment active.sets
  file : ∀ f, r.shard.file = some f → f = active.base
  closed : r.shard.file = none → ∃ op, r.ops[(packSets (front ++ [active])).length]? = some op ∧
    (op.phase.isOpening = true ∨ op.phase = .failed)
  opening : ∀ (n : Nat) (op : AppendOp) (base : Int), r.ops[n]? = some op →
    op.phase = .opening base →
    base = active.base ∧ r.shard.file = none ∧ n = (packSets (front ++ [active])).length
  issued : ∀ (n : Nat) (op : AppendOp), r.ops[n]? = some op → op.placement ≠ none →
    op.phase = .writing ∨ op.phase.Late
  noted : r.noted = List.range r.noted.length
  late : ∀ n ∈ r.noted, ∃ op, r.ops[n]? = some op ∧ op.placement ≠ none ∧ op.phase.Late
  index : r.shard.indexEntries =
    (packEntries r.shard.logFrameAlignment (front ++ [active])).take r.noted.length
  indexFile : r.shard.indexFile = true

section Laid

variable {r r' : Reactor} {front : List Pack} {active : Pack} {k n : Nat} {phase : AppendPhase}
  {op : AppendOp} {shard : PartitionLogShard} {recordSet : RecordSet} {a : ReactorAction}

/-- Exactly the appends with a frame in the packs have a placement. -/
theorem Laid.placement_ne_none (h : r.Laid front active) (hop : r.ops[n]? = some op) :
    op.placement ≠ none ↔ n < (packSets (front ++ [active])).length := by
  rw [h.placement n op hop, ne_eq, Option.map_eq_none_iff, List.getElem?_eq_none_iff,
    length_packEntries, not_le]

theorem Laid.unplaced (h : r.Laid front active) (hop : r.ops[n]? = some op)
    (hn : n = (packSets (front ++ [active])).length) : op.placement = none := by
  by_contra hplaced
  exact absurd ((h.placement_ne_none hop).mp hplaced) (by omega)

theorem Laid.issued_le (h : r.Laid front active) (hn : n ≤ r.ops.length)
    (hissued : r.IssuedBefore n) : n ≤ (packSets (front ++ [active])).length := by
  cases n with
  | zero => exact Nat.zero_le _
  | succ m =>
    have hget := List.getElem?_eq_getElem (Nat.lt_of_succ_le hn)
    have hmem : r.ops[m] ∈ r.ops.take (m + 1) := by
      refine List.mem_of_getElem? (i := m) ?_
      rw [List.getElem?_take, if_pos (Nat.lt_succ_self m), hget]
    exact (h.placement_ne_none hget).mp (hissued _ hmem)

/-- An append that may issue its write now is the first without a placement. -/
theorem Laid.turn (h : r.Laid front active) (hop : r.ops[n]? = some op)
    (hphase : ¬ (op.phase = .writing ∨ op.phase.Late)) (hissued : r.IssuedBefore n) :
    n = (packSets (front ++ [active])).length := by
  obtain ⟨hlt, -⟩ := List.getElem?_eq_some_iff.mp hop
  refine le_antisymm (h.issued_le (le_of_lt hlt) hissued) ?_
  by_contra hlt'
  exact hphase (h.issued n op hop ((h.placement_ne_none hop).mpr (not_le.mp hlt')))

theorem Laid.noted_le (h : r.Laid front active) :
    r.noted.length ≤ (packSets (front ++ [active])).length := by
  cases hlength : r.noted.length with
  | zero => exact Nat.zero_le _
  | succ m =>
    have hmem : m ∈ r.noted := by
      rw [h.noted, hlength]
      exact List.mem_range.mpr (Nat.lt_succ_self m)
    obtain ⟨op, hop, hplaced, -⟩ := h.late m hmem
    exact (h.placement_ne_none hop).mp hplaced

/-- What the invariant reads of the shard. -/
structure SameSegments (s s' : PartitionLogShard) : Prop where
  active : s'.activeSegmentBaseOffset = s.activeSegmentBaseOffset
  position : s'.writePosition = s.writePosition
  file : s'.file = s.file
  alignment : s'.logFrameAlignment = s.logFrameAlignment
  entries : s'.indexEntries = s.indexEntries
  indexFile : s'.indexFile = s.indexFile
  latest : s.offsets.latest ≤ s'.offsets.latest

/-- Steps that leave the appends alone. -/
theorem Laid.congr (h : r.Laid front active) (hops : r'.ops = r.ops) (hnoted : r'.noted = r.noted)
    (hsame : SameSegments r.shard r'.shard) : r'.Laid front active := by
  have hsets : r'.recordSets = r.recordSets := by
    unfold recordSets
    rw [hops]
  obtain ⟨hactive, hposition, hfile, halign, hentries, hindexFile, hlatest⟩ := hsame
  exact
    { sets := by rw [hsets]; exact h.sets
      placement := by rw [hops, halign]; exact h.placement
      bases := h.bases
      members := h.members
      waiting := by rw [hsets]; exact h.waiting
      base_le := le_trans h.base_le hlatest
      base := by rw [hactive]; exact h.base
      position := by rw [hposition, halign]; exact h.position
      file := by rw [hfile]; exact h.file
      closed := by rw [hfile, hops]; exact h.closed
      opening := by rw [hfile, hops]; exact h.opening
      issued := by rw [hops]; exact h.issued
      noted := by rw [hnoted]; exact h.noted
      late := by rw [hnoted, hops]; exact h.late
      index := by rw [hentries, hnoted, halign]; exact h.index
      indexFile := by rw [hindexFile]; exact h.indexFile }

/-- What the invariant says of the appends, after one of them has moved on or a new one
    has arrived. -/
structure Moves (r r' : Reactor) (front : List Pack) (active : Pack) (k : Nat)
    (phase : AppendPhase) : Prop where
  moved : OpsMoved r.ops r'.ops k phase
  noted : r'.noted = r.noted
  unplaced : r.ops[k]? = none → (packSets (front ++ [active])).length ≤ k
  late : phase.Late ∨ ∀ op, r.ops[k]? = some op → op.placement = none

theorem Moves.placement (hm : Moves r r' front active k phase) (h : r.Laid front active)
    (hop : r'.ops[n]? = some op) : op.placement =
      (packEntries r.shard.logFrameAlignment (front ++ [active]))[n]?.map
        IndexEntry.placement := by
  rcases hm.moved.back n op hop with ⟨before, hbefore, -, hplace, -, -⟩ | ⟨rfl, hnone, hplace, -, -⟩
  · rw [hplace]
    exact h.placement n before hbefore
  · have hle := hm.unplaced hnone
    rw [← length_packEntries r.shard.logFrameAlignment] at hle
    rw [hplace, List.getElem?_eq_none hle, Option.map_none]

theorem Moves.issued (hm : Moves r r' front active k phase) (h : r.Laid front active)
    (hop : r'.ops[n]? = some op) (hplaced : op.placement ≠ none) :
    op.phase = .writing ∨ op.phase.Late := by
  rcases hm.moved.back n op hop with
    ⟨before, hbefore, -, hplace, -, hsame | ⟨rfl, hnew⟩⟩ | ⟨-, -, hnone, -, -⟩
  · rw [hsame]
    exact h.issued n before hbefore (hplace ▸ hplaced)
  · rcases hm.late with hlate | hnone
    · rw [hnew]
      exact Or.inr hlate
    · exact absurd (hplace.trans (hnone before hbefore)) hplaced
  · exact absurd hnone hplaced

theorem Moves.stays_late (hm : Moves r r' front active k phase) (h : r.Laid front active) :
    ∀ n ∈ r'.noted, ∃ op, r'.ops[n]? = some op ∧ op.placement ≠ none ∧ op.phase.Late := by
  intro n hn
  rw [hm.noted] at hn
  obtain ⟨before, hbefore, hplaced, hlate⟩ := h.late n hn
  obtain ⟨op, hop, -, hplace, -⟩ := hm.moved.forth n before hbefore
  refine ⟨op, hop, hplace ▸ hplaced, ?_⟩
  rcases hm.moved.back n op hop with
    ⟨again, hagain, -, -, -, hsame | ⟨rfl, hnew⟩⟩ | ⟨-, hnone, -, -, -⟩
  · rw [hsame, Option.some.inj (hagain.symm.trans hbefore)]
    exact hlate
  · rw [hnew]
    rcases hm.late with hphase | hnone
    · exact hphase
    · exact absurd (hnone before hbefore) hplaced
  · rw [hnone] at hbefore
    cases hbefore

/-- An append moves on, or arrives, without opening a segment or issuing its write. -/
theorem Laid.move (h : r.Laid front active) (hm : Moves r r' front active k phase)
    (hsets : r.recordSets <+: r'.recordSets)
    (hnew : ∀ recordSet, r'.recordSets[r.recordSets.length]? = some recordSet →
      active.base ≤ recordSet.baseOffset) (hlength : r'.recordSets.length ≤ r.recordSets.length + 1)
    (hphase : ∀ base, phase ≠ .opening base)
    (hclosed : r.shard.file = none → k ≠ (packSets (front ++ [active])).length ∨ phase = .failed)
    (hsame : SameSegments r.shard r'.shard) : r'.Laid front active := by
  obtain ⟨hactive, hposition, hfile, halign, hentries, hindexFile, hlatest⟩ := hsame
  exact
    { sets := h.sets.trans hsets
      placement := by rw [halign]; exact fun n op hop => hm.placement h hop
      bases := h.bases
      members := h.members
      waiting := by
        intro n recordSet hn hset
        obtain ⟨hlt, -⟩ := List.getElem?_eq_some_iff.mp hset
        by_cases hold : n < r.recordSets.length
        · obtain ⟨more, hmore⟩ := hsets
          rw [← hmore, List.getElem?_append_left hold] at hset
          exact h.waiting n recordSet hn hset
        · have hnEq : n = r.recordSets.length := by omega
          rw [hnEq] at hset
          exact hnew recordSet hset
      base_le := le_trans h.base_le hlatest
      base := by rw [hactive]; exact h.base
      position := by rw [hposition, halign]; exact h.position
      file := by rw [hfile]; exact h.file
      closed := by
        intro hnone
        rw [hfile] at hnone
        obtain ⟨before, hbefore, hwas⟩ := h.closed hnone
        obtain ⟨op, hop, -, -, -⟩ := hm.moved.forth _ before hbefore
        refine ⟨op, hop, ?_⟩
        rcases hm.moved.back _ op hop with
          ⟨again, hagain, -, -, -, hsame | ⟨hk, hnewPhase⟩⟩ | ⟨-, hgone, -, -, -⟩
        · rw [hsame, Option.some.inj (hagain.symm.trans hbefore)]
          exact hwas
        · rcases hclosed hnone with hne | hfailed
          · exact absurd hk.symm hne
          · exact Or.inr (hnewPhase.trans hfailed)
        · rw [hgone] at hbefore
          cases hbefore
      opening := by
        intro n op base hop hopening
        rw [hfile]
        rcases hm.moved.back n op hop with
          ⟨before, hbefore, -, -, -, hsame | ⟨-, hnewPhase⟩⟩ | ⟨-, -, -, -, hnewPhase⟩
        · exact h.opening n before base hbefore (hsame ▸ hopening)
        · exact absurd (hnewPhase.symm.trans hopening) (hphase base)
        · exact absurd (hnewPhase.symm.trans hopening) (hphase base)
      issued := fun n op hop hplaced => hm.issued h hop hplaced
      noted := by rw [hm.noted]; exact h.noted
      late := hm.stays_late h
      index := by rw [hentries, hm.noted, halign]; exact h.index
      indexFile := by rw [hindexFile]; exact h.indexFile }

/-- An append already admitted changes its phase. -/
theorem moves_set (hop : r.ops[n]? = some op) (hlate : phase.Late ∨ op.placement = none)
    (shard : PartitionLogShard) :
    Moves r (r.update n { op with phase := phase } shard) front active n phase := by
  refine ⟨opsMoved_set hop phase, rfl, fun hgone => ?_, hlate.imp id fun hnone other hother => ?_⟩
  · rw [hop] at hgone
    cases hgone
  · rw [← Option.some.inj (hop.symm.trans hother)]
    exact hnone

/-- It does so without opening a segment or issuing its write. -/
theorem Laid.advance (h : r.Laid front active) (hop : r.ops[n]? = some op)
    (hphase : ∀ base, phase ≠ .opening base) (hlate : phase.Late ∨ op.placement = none)
    (hclosed : r.shard.file = none → n ≠ (packSets (front ++ [active])).length ∨ phase = .failed)
    (hsame : SameSegments r.shard shard) :
    (r.update n { op with phase := phase } shard).Laid front active := by
  have hsets : (r.update n { op with phase := phase } shard).recordSets = r.recordSets :=
    recordSets_set hop rfl
  refine h.move (moves_set hop hlate shard) ?_ ?_ ?_ hphase hclosed hsame
  · exact ⟨[], by rw [hsets, List.append_nil]⟩
  · intro recordSet hset
    rw [hsets, List.getElem?_eq_none (le_refl _)] at hset
    cases hset
  · rw [hsets]
    exact Nat.le_succ _

/-- The active segment, when it has a frame, is named below the oldest append without one. -/
theorem Laid.base_lt (h : r.Laid front active) (hlog : r.LogInv) (hop : r.ops[n]? = some op)
    (hn : n = (packSets (front ++ [active])).length) (hposition : r.shard.writePosition ≠ 0) :
    active.base < op.recordSet.baseOffset := by
  have hne : active.sets ≠ [] := by
    intro hnil
    rw [h.position, hnil, framesLength_nil] at hposition
    exact hposition rfl
  obtain ⟨first, hfirst⟩ := List.exists_mem_of_ne_nil _ hne
  have hmem : first ∈ packSets (front ++ [active]) :=
    List.mem_flatMap.mpr ⟨active, List.mem_append_right _ List.mem_cons_self, hfirst⟩
  obtain ⟨m, hm, hget⟩ := List.getElem_of_mem hmem
  obtain ⟨more, hmore⟩ := h.sets
  have hfirstAt : r.recordSets[m]? = some first := by
    rw [← hmore, List.getElem?_append_left hm, List.getElem?_eq_getElem hm, hget]
  obtain ⟨hm', hfirstEq⟩ := List.getElem?_eq_some_iff.mp hfirstAt
  obtain ⟨hn', hsetEq⟩ := List.getElem?_eq_some_iff.mp (recordSets_getElem? hop)
  have hlt := List.pairwise_iff_getElem.mp hlog.ascending m n hm' hn' (by omega)
  rw [hfirstEq, hsetEq] at hlt
  have hle := h.members first hfirst
  have hbounds := hlog.bounds first (List.mem_of_getElem? hfirstAt)
  omega

/-- Appends from this one on have its base offset or a larger one. -/
theorem LogInv.baseOffset_le (hlog : r.LogInv) {m : Nat} (hop : r.ops[n]? = some op) (hle : n ≤ m)
    (hset : r.recordSets[m]? = some recordSet) :
    op.recordSet.baseOffset ≤ recordSet.baseOffset := by
  have hbounds := hlog.bounds _ (List.mem_of_getElem? (recordSets_getElem? hop))
  obtain ⟨hm, hmEq⟩ := List.getElem?_eq_some_iff.mp hset
  obtain ⟨hn, hnEq⟩ := List.getElem?_eq_some_iff.mp (recordSets_getElem? hop)
  rcases Nat.lt_or_eq_of_le hle with hlt | rfl
  · have hasc := List.pairwise_iff_getElem.mp hlog.ascending n m hn hm hlt
    rw [hmEq, hnEq] at hasc
    omega
  · rw [← hmEq, hnEq]

variable (h : r.Laid front active)

include h

/-- The oldest append without a placement starts to open the segment of its own base
    offset, the active one being in use. -/
theorem Laid.rollover (hlog : r.LogInv) (hop : r.ops[n]? = some op)
    (hn : n = (packSets (front ++ [active])).length) (hposition : r.shard.writePosition ≠ 0)
    {file : Int} (hfile : r.shard.file = some file)
    (hactive' : shard.activeSegmentBaseOffset = op.recordSet.baseOffset)
    (hposition' : shard.writePosition = 0) (hfile' : shard.file = none)
    (halign' : shard.logFrameAlignment = r.shard.logFrameAlignment)
    (hentries' : shard.indexEntries = r.shard.indexEntries)
    (hindexFile' : shard.indexFile = r.shard.indexFile)
    (hlatest' : shard.offsets.latest = r.shard.offsets.latest) :
    (r.update n { op with phase := .opening op.recordSet.baseOffset } shard).Laid
      (front ++ [active]) { base := op.recordSet.baseOffset } := by
  have hsets : (r.update n { op with phase := .opening op.recordSet.baseOffset } shard).recordSets =
      r.recordSets := recordSets_set hop rfl
  have hm : Moves r (r.update n { op with phase := .opening op.recordSet.baseOffset } shard)
      front active n (.opening op.recordSet.baseOffset) :=
    moves_set hop (Or.inr (h.unplaced hop hn)) shard
  have hbounds := hlog.bounds _ (List.mem_of_getElem? (recordSets_getElem? hop))
  have hbase := h.base_lt hlog hop hn hposition
  have hlengthSets :=
    congrArg List.length (packSets_new (front ++ [active]) op.recordSet.baseOffset)
  exact
    { sets := by rw [packSets_new, hsets]; exact h.sets
      placement := by
        simp only [update]
        rw [packEntries_new, halign']
        exact fun m other hother => hm.placement h hother
      bases := by
        refine pairwise_concat.mpr ⟨h.bases, forall_mem_concat.mpr ⟨?_, hbase⟩⟩
        exact fun pack hpack => lt_trans ((pairwise_concat.mp h.bases).2 pack hpack) hbase
      members := fun _ hmem => absurd hmem List.not_mem_nil
      waiting := by
        intro m recordSet hle hm
        rw [hlengthSets, ← hn] at hle
        rw [hsets] at hm
        exact hlog.baseOffset_le hop hle hm
      base_le := by
        simp only [update]
        rw [hlatest']
        omega
      base := hactive'
      position := hposition'
      file := by
        intro f hf
        simp only [update] at hf
        rw [hfile'] at hf
        cases hf
      closed := by
        intro _
        rw [hlengthSets, ← hn]
        exact ⟨_, set_ops_self hop _, Or.inl rfl⟩
      opening := by
        intro m other base hm hopening
        rw [hlengthSets, ← hn]
        rcases set_ops hm with ⟨rfl, rfl⟩ | ⟨-, hm⟩
        · exact ⟨(AppendPhase.opening.inj hopening).symm, hfile', rfl⟩
        · obtain ⟨-, hclosed, -⟩ := h.opening m other base hm hopening
          rw [hfile] at hclosed
          cases hclosed
      issued := fun m other hother hplaced => hm.issued h hother hplaced
      noted := h.noted
      late := hm.stays_late h
      index := by
        simp only [update]
        rw [packEntries_new, halign', hentries']
        exact h.index
      indexFile := by
        simp only [update]
        rw [hindexFile']
        exact h.indexFile }

/-- The open completes. -/
theorem Laid.opened {base : Int} (hop : r.ops[n]? = some op) (hphase : op.phase = .opening base) :
    (r.update n { op with phase := .ready } (r.shard.openActiveSegment base)).Laid
      front active := by
  obtain ⟨hbase, -, hn⟩ := h.opening n op base hop hphase
  have hsets : (r.update n { op with phase := .ready }
      (r.shard.openActiveSegment base)).recordSets = r.recordSets := recordSets_set hop rfl
  have hm : Moves r (r.update n { op with phase := .ready } (r.shard.openActiveSegment base))
      front active n .ready := moves_set hop (Or.inr (h.unplaced hop hn)) _
  exact
    { h with
      sets := by rw [hsets]; exact h.sets
      placement := fun m other hother => hm.placement h hother
      waiting := by rw [hsets]; exact h.waiting
      file := fun f hf => (Option.some.inj hf).symm.trans hbase
      closed := fun hclosed => absurd hclosed (Option.some_ne_none _)
      opening := by
        intro m other b hm hopening
        rcases set_ops hm with ⟨-, rfl⟩ | ⟨hne, hm⟩
        · cases hopening
        · exact absurd ((h.opening m other b hm hopening).2.2.trans hn.symm) hne
      issued := fun m other hother hplaced => hm.issued h hother hplaced
      late := hm.stays_late h }

/-- The record set of the oldest append without a placement is the next one. -/
theorem Laid.sets_concat (hop : r.ops[n]? = some op)
    (hn : n = (packSets (front ++ [active])).length) :
    packSets (front ++ [active]) ++ [op.recordSet] <+: r.recordSets := by
  have hset := recordSets_getElem? hop
  obtain ⟨more, hmore⟩ := h.sets
  rw [← hmore, hn, List.getElem?_append_right (le_refl _), Nat.sub_self] at hset
  cases more with
  | nil => cases hset
  | cons next rest =>
    rw [List.getElem?_cons_zero] at hset
    refine ⟨rest, ?_⟩
    rw [← hmore, ← Option.some.inj hset, List.append_assoc, List.singleton_append]

/-- With a placement behind the frames of the active segment, every append has the placement
    of its entry. -/
theorem Laid.placement_concat {issued : AppendOp} (hn : n = (packSets (front ++ [active])).length)
    (hissued : issued.placement = some
      ⟨active.base, active.base, framesLength r.shard.logFrameAlignment active.sets⟩) {m : Nat}
    {other : AppendOp} (hother : (r.ops.set n issued)[m]? = some other) :
    other.placement = (packEntries r.shard.logFrameAlignment
      (front ++ [{ active with sets := active.sets ++ [op.recordSet] }]))[m]?.map
        IndexEntry.placement := by
  have hlength : (packEntries r.shard.logFrameAlignment (front ++ [active])).length = n := by
    rw [length_packEntries, hn]
  rw [packEntries_concat]
  rcases set_ops hother with ⟨rfl, rfl⟩ | ⟨hne, hm⟩
  · rw [← hlength, List.getElem?_concat_length, Option.map_some, hissued]
    rfl
  · rw [h.placement m other hm, List.getElem?_append]
    split
    · rfl
    · next hge =>
        rw [List.getElem?_eq_none (not_lt.mp hge), List.getElem?_eq_none]
        rw [List.length_singleton]
        omega

/-- The oldest append without a placement issues its write behind the frames of the active
    segment. -/
theorem Laid.startWrite (hop : r.ops[n]? = some op) (hn : n = (packSets (front ++ [active])).length)
    {file : Int} (hfile : r.shard.file = some file) :
    (r.update n
      { op with
        phase := .writing
        placement := some ⟨file, r.shard.activeSegmentBaseOffset, r.shard.writePosition⟩ }
      { r.shard with
        writePosition := r.shard.writePosition +
          op.recordSet.frameSize r.shard.logFrameAlignment }).Laid
      front { active with sets := active.sets ++ [op.recordSet] } := by
  have hset := recordSets_getElem? hop
  have hbase := h.file file hfile
  set issued : AppendOp :=
    { op with
      phase := .writing
      placement := some ⟨file, r.shard.activeSegmentBaseOffset, r.shard.writePosition⟩ }
  set shard : PartitionLogShard :=
    { r.shard with
      writePosition := r.shard.writePosition +
        op.recordSet.frameSize r.shard.logFrameAlignment }
  have hsets : (r.update n issued shard).recordSets = r.recordSets := recordSets_set hop rfl
  have hplacement : issued.placement = some
      ⟨active.base, active.base, framesLength r.shard.logFrameAlignment active.sets⟩ := by
    have hissued : issued.placement =
      some ⟨file, r.shard.activeSegmentBaseOffset, r.shard.writePosition⟩ := rfl
    rw [hissued, hbase, h.base, h.position]
  exact
    { h with
      sets := by
        rw [packSets_concat, hsets]
        exact h.sets_concat hop hn
      placement := fun m other hm => h.placement_concat hn hplacement hm
      bases := pairwise_concat.mpr ⟨(pairwise_concat.mp h.bases).1, (pairwise_concat.mp h.bases).2⟩
      members := forall_mem_concat.mpr
        ⟨h.members, h.waiting n op.recordSet (le_of_eq hn.symm) hset⟩
      waiting := by
        intro m recordSet hle hm
        rw [packSets_concat, List.length_append] at hle
        rw [hsets] at hm
        exact h.waiting m recordSet (by omega) hm
      position := by
        rw [framesLength_append, framesLength_cons, framesLength_nil, Nat.add_zero]
        exact congrArg (· + op.recordSet.frameSize r.shard.logFrameAlignment) h.position
      closed := by
        intro hclosed
        simp only [update] at hclosed
        rw [hfile] at hclosed
        cases hclosed
      opening := by
        intro m other base hm hopening
        rcases set_ops hm with ⟨-, rfl⟩ | ⟨-, hm⟩
        · cases hopening
        · obtain ⟨-, hclosed, -⟩ := h.opening m other base hm hopening
          rw [hfile] at hclosed
          cases hclosed
      issued := by
        intro m other hm hplaced
        rcases set_ops hm with ⟨-, rfl⟩ | ⟨-, hm⟩
        · exact Or.inl rfl
        · exact h.issued m other hm hplaced
      late := by
        intro m hm
        obtain ⟨other, hother, hplaced, hlate⟩ := h.late m hm
        have hne : m ≠ n := by
          rintro rfl
          rw [← Option.some.inj (hop.symm.trans hother)] at hplaced
          exact hplaced (h.unplaced hop hn)
        exact ⟨other, (set_ops_ne hne _).trans hother, hplaced, hlate⟩
      index := by
        simp only [update]
        rw [packEntries_concat, List.take_append_of_le_length]
        · exact h.index
        · rw [length_packEntries]
          exact h.noted_le }

/-- The oldest write in flight is the first that is not noted. -/
theorem Laid.next_noted (hop : r.ops[n]? = some op) (hphase : op.phase = .writing)
    (hturn : ∀ m < n, m ∈ r.noted) : n ∉ r.noted ∧ n = r.noted.length := by
  have hfresh : n ∉ r.noted := by
    intro hmem
    obtain ⟨other, hother, -, hlate⟩ := h.late n hmem
    rw [← Option.some.inj (hop.symm.trans hother), hphase] at hlate
    exact hlate
  refine ⟨hfresh, le_antisymm ?_ ?_⟩
  · by_contra hlt
    have hmem := hturn _ (not_le.mp hlt)
    rw [h.noted] at hmem
    simp at hmem
  · by_contra hlt
    rw [h.noted] at hfresh
    exact hfresh (List.mem_range.mpr (not_le.mp hlt))

/-- The entry noted for a write is the one its frame has in the packs. -/
theorem Laid.entry_of_placement {placement : Placement} (hop : r.ops[n]? = some op)
    (hplacement : op.placement = some placement) :
    (packEntries r.shard.logFrameAlignment (front ++ [active]))[n]? =
      some (op.recordSet.entryAt placement.segmentBase placement.position) := by
  have hlt := (h.placement_ne_none hop).mp (by rw [hplacement]; exact Option.some_ne_none _)
  obtain ⟨entry, hentry⟩ : ∃ entry,
      (packEntries r.shard.logFrameAlignment (front ++ [active]))[n]? = some entry :=
    ⟨_, List.getElem?_eq_getElem (by rw [length_packEntries]; exact hlt)⟩
  obtain ⟨recordSet, hrecordSet, heq⟩ := packEntries_getElem? hentry
  obtain ⟨more, hmore⟩ := h.sets
  have hset := recordSets_getElem? hop
  rw [← hmore, List.getElem?_append_left hlt, hrecordSet] at hset
  have hplace := h.placement n op hop
  rw [hplacement, hentry, Option.map_some] at hplace
  rw [hentry, Option.some.inj hplace, ← Option.some.inj hset]
  exact congrArg some heq

/-- The oldest write in flight completes, and its entry is the next one of the index. -/
theorem Laid.writeDone {placement : Placement} (hop : r.ops[n]? = some op)
    (hphase : op.phase = .writing) (hplacement : op.placement = some placement)
    (hturn : ∀ m < n, m ∈ r.noted) : (r.writeDone n op placement).Laid front active := by
  have hspec := writeDone_spec r n op placement
  set r' := r.writeDone n op placement
  have hsets : r'.recordSets = r.recordSets := by
    unfold recordSets
    rw [hspec.ops]
    exact recordSets_set hop rfl
  obtain ⟨hfresh, hn⟩ := h.next_noted hop hphase hturn
  have hplaced : op.placement ≠ none := by rw [hplacement]; exact Option.some_ne_none _
  have hlt := (h.placement_ne_none hop).mp hplaced
  have hindexed : r'.noted = r.noted ++ [n] ∧ r'.shard.indexEntries = r.shard.indexEntries ++
      [op.recordSet.entryAt placement.segmentBase placement.position] := by
    rcases hspec.indexed with ⟨-, hnoted, hentries⟩ | ⟨hclosed, -, -⟩
    · exact ⟨hnoted, hentries⟩
    · rw [h.indexFile] at hclosed
      cases hclosed
  obtain ⟨hnoted, hentries⟩ := hindexed
  have hnotedLength : r'.noted.length = n + 1 := by
    rw [hnoted, List.length_append, List.length_singleton, ← hn]
  have hwritten : ∀ (m : Nat) (other : AppendOp), r'.ops[m]? = some other →
      (m = n ∧ other = { op with phase := .written, writtenAt := some r.now }) ∨
        (m ≠ n ∧ r.ops[m]? = some other) := by
    intro m other hm
    rw [hspec.ops] at hm
    exact set_ops hm
  exact
    { sets := by rw [hsets]; exact h.sets
      placement := by
        intro m other hm
        rw [hspec.alignment]
        rcases hwritten m other hm with ⟨rfl, rfl⟩ | ⟨-, hm⟩
        · exact h.placement m op hop
        · exact h.placement m other hm
      bases := h.bases
      members := h.members
      waiting := by rw [hsets]; exact h.waiting
      base_le := by rw [hspec.head]; exact h.base_le
      base := by rw [hspec.active]; exact h.base
      position := by rw [hspec.position, hspec.alignment]; exact h.position
      file := by rw [hspec.file]; exact h.file
      closed := by
        intro hclosed
        rw [hspec.file] at hclosed
        obtain ⟨other, hother, hwas⟩ := h.closed hclosed
        refine ⟨other, ?_, hwas⟩
        rw [hspec.ops, set_ops_ne (by omega), hother]
      opening := by
        intro m other base hm hopening
        rw [hspec.file]
        rcases hwritten m other hm with ⟨-, rfl⟩ | ⟨-, hm⟩
        · cases hopening
        · exact h.opening m other base hm hopening
      issued := by
        intro m other hm hother
        rcases hwritten m other hm with ⟨-, rfl⟩ | ⟨-, hm⟩
        · exact Or.inr trivial
        · exact h.issued m other hm hother
      noted := by
        rw [hnotedLength, hnoted, List.range_succ]
        exact congrArg (· ++ [n]) (hn ▸ h.noted)
      late := by
        intro m hm
        rw [hnoted] at hm
        rcases List.mem_append.mp hm with hm | hm
        · obtain ⟨other, hother, hfound, hlate⟩ := h.late m hm
          refine ⟨other, ?_, hfound, hlate⟩
          have hne : m ≠ n := fun hmn => hfresh (hmn ▸ hm)
          rw [hspec.ops, set_ops_ne hne, hother]
        · obtain rfl := List.mem_singleton.mp hm
          refine ⟨{ op with phase := .written, writtenAt := some r.now }, ?_, hplaced, trivial⟩
          rw [hspec.ops]
          exact set_ops_self hop _
      index := by
        rw [hentries, hspec.alignment, hnotedLength, List.take_add_one,
          h.entry_of_placement hop hplacement, h.index, ← hn]
        rfl
      indexFile := by rw [hspec.indexFile]; exact h.indexFile }

/-- While the segment file is closed, the oldest append without a placement opens one. -/
theorem Laid.ne_placed (hclosed : r.shard.file = none) (hop : r.ops[n]? = some op)
    (hphase : ¬ (op.phase.isOpening = true ∨ op.phase = .failed)) :
    n ≠ (packSets (front ++ [active])).length := by
  rintro rfl
  obtain ⟨other, hother, hwas⟩ := h.closed hclosed
  rw [← Option.some.inj (hop.symm.trans hother)] at hwas
  exact hphase hwas

/-- An append never finds the segment file closed when it arrives in its turn. -/
theorem Laid.file_of_admission {admission : Admission} (hadmission : r.admission a = some admission)
    (hset : admission.recordSet = some recordSet) (hturn : r.TakesTurns a) :
    r.shard.file ≠ none := by
  intro hfile
  have hopens := startsOpening_of_admission hadmission hfile hset
  have hissued : r.IssuedBefore r.ops.length := by
    cases a with
    | append records acks => exact hturn (by rw [hopens]; exact Option.some_ne_none _)
    | appendReplica request => exact hturn (by rw [hopens]; exact Option.some_ne_none _)
    | _ => cases hadmission
  obtain ⟨op, hop, -⟩ := h.closed hfile
  obtain ⟨hlt, -⟩ := List.getElem?_eq_some_iff.mp hop
  exact absurd (h.issued_le (le_refl _) hissued) (not_le.mpr hlt)

/-- **A step of appends that take turns keeps the frames in packs.** -/
theorem Laid.step (hlog : r.LogInv) (hturn : r.TakesTurns a) (hstep : r.step a = some r') :
    ∃ front' active', r'.Laid front' active' := by
  cases steps_of_step hstep with
  | refused hadmission hset =>
    refine ⟨front, active, h.congr rfl rfl ⟨rfl, rfl, rfl, rfl, rfl, rfl, ?_⟩⟩
    rw [admission_refused hadmission hset]
  | @admitted _ admission recordSet _ wait hadmission hset hensure =>
    obtain ⟨hat, hend, -⟩ := admission_recordSet hadmission hset
    have hbase : recordSet.baseOffset = r.shard.offsets.latest := by rw [hat]; rfl
    rcases ensureSegmentForWrite_cases hensure with ⟨hfile, -, -⟩ | ⟨file, hfile, rfl, hphase⟩
    · exact absurd hfile (h.file_of_admission hadmission hset hturn)
    simp only at hfile
    have hsets : (r.ops ++ [(⟨recordSet, wait.phase, none, none⟩ : AppendOp)]).map
        AppendOp.recordSet = r.ops.map AppendOp.recordSet ++ [recordSet] := List.map_append
    refine ⟨front, active, h.move ⟨opsMoved_append r.ops recordSet wait.phase, rfl, ?_, ?_⟩
      ?_ ?_ ?_ hphase ?_ ⟨rfl, rfl, rfl, rfl, rfl, rfl, ?_⟩⟩
    · intro _
      obtain ⟨more, hmore⟩ := h.sets
      have hlength := congrArg List.length hmore
      unfold recordSets at hlength
      rw [List.length_append, List.length_map] at hlength
      omega
    · refine Or.inr fun op hop => ?_
      rw [List.getElem?_eq_none (le_refl _)] at hop
      cases hop
    · exact ⟨[recordSet], hsets.symm⟩
    · intro other hother
      unfold recordSets at hother
      rw [hsets, List.getElem?_concat_length] at hother
      rw [← Option.some.inj hother]
      rw [hbase]
      exact h.base_le
    · unfold recordSets
      rw [hsets, List.length_append]
      exact le_refl _
    · intro hnone
      rw [hfile] at hnone
      cases hnone
    · have hcount := estimateRecordCount_nonneg recordSet.bytes
      simp only
      rw [hend, hat, recordSetAt_endOffset]
      omega
  | @barrierPassed n op flush shard wait hop hphase hafter =>
    have hnone : op.placement = none := by
      by_contra hplaced
      have hissued := h.issued n op hop hplaced
      rw [hphase] at hissued
      exact hissued.elim (fun heq => by cases heq) id
    rcases afterFlushBarrier_cases hafter with ⟨rfl, rfl⟩ | ⟨oldFile, hfile, hposition, rfl, rfl⟩
    · refine ⟨front, active, h.advance hop (by simp [SegmentWait.phase]) (Or.inr hnone) ?_
        ⟨rfl, rfl, rfl, rfl, rfl, rfl, le_refl _⟩⟩
      exact fun hclosed => Or.inl
        (h.ne_placed hclosed hop (by simp [hphase, AppendPhase.isOpening]))
    · have hopens := startsOpening_of_barrier hop hfile hposition
      have hn := h.turn hop (by simp [hphase, AppendPhase.Late])
        (hturn (by rw [hopens]; exact Option.some_ne_none _))
      exact ⟨_, _, h.rollover hlog hop hn hposition hfile rfl rfl rfl rfl rfl rfl rfl⟩
  | opened hop hphase => exact ⟨front, active, h.opened hop hphase⟩
  | failed hop =>
    exact ⟨front, active, h.advance hop (by simp) (Or.inl (by trivial)) (fun _ => Or.inr rfl)
      ⟨rfl, rfl, rfl, rfl, rfl, rfl, le_refl _⟩⟩
  | @unopened n op shard hop hphase hreserve =>
    exfalso
    obtain ⟨hclosed, -⟩ := reserve_none hreserve
    have hn := h.turn hop (by simp [hphase, AppendPhase.Late])
      hturn
    exact h.ne_placed hclosed hop (by simp [hphase, AppendPhase.isOpening]) hn
  | startWrite hop hphase hreserve =>
    obtain ⟨file, hfile, rfl, rfl⟩ := reserve_some hreserve
    have hn := h.turn hop (by simp [hphase, AppendPhase.Late])
      hturn
    exact ⟨_, _, h.startWrite hop hn hfile⟩
  | writeDone hop hphase hplacement =>
    exact ⟨front, active, h.writeDone hop hphase hplacement hturn⟩
  | unsynced hop hphase _ =>
    exact ⟨front, active, h.advance hop (by simp) (Or.inl (by trivial))
      (fun hclosed => Or.inl (h.ne_placed hclosed hop (by simp [hphase, AppendPhase.isOpening])))
      ⟨rfl, rfl, rfl, rfl, rfl, rfl, le_refl _⟩⟩
  | joined hop hphase _ _ =>
    exact ⟨front, active, h.advance hop (by simp) (Or.inl (by trivial))
      (fun hclosed => Or.inl (h.ne_placed hclosed hop (by simp [hphase, AppendPhase.isOpening])))
      ⟨rfl, rfl, rfl, rfl, rfl, rfl, le_refl _⟩⟩
  | armed hop hphase _ =>
    refine ⟨front, active, (h.advance hop (by simp) (Or.inl (by trivial))
      (fun hclosed => Or.inl (h.ne_placed hclosed hop (by simp [hphase, AppendPhase.isOpening])))
      ⟨rfl, rfl, rfl, rfl, rfl, rfl, le_refl _⟩).congr rfl rfl
        ⟨rfl, rfl, rfl, rfl, rfl, rfl, le_refl _⟩⟩
  | yielded hflush hphase =>
    refine ⟨front, active, ?_⟩
    unfold Reactor.yielded
    split <;> exact h.congr rfl rfl ⟨rfl, rfl, rfl, rfl, rfl, rfl, le_refl _⟩
  | flushEnded _ hflush hphase _ =>
    exact ⟨front, active, h.congr rfl rfl ⟨rfl, rfl, rfl, rfl, rfl, rfl, le_refl _⟩⟩
  | resolved hop hphase hflush hfinished =>
    exact ⟨front, active, h.advance hop (by simp) (Or.inl (by trivial))
      (fun hclosed => Or.inl (h.ne_placed hclosed hop (by simp [hphase, AppendPhase.isOpening])))
      ⟨rfl, rfl, rfl, rfl, rfl, rfl, le_refl _⟩⟩
  | indexWritten hwrite =>
    exact ⟨front, active, h.congr rfl rfl ⟨rfl, rfl, rfl, rfl, rfl, rfl, le_refl _⟩⟩

end Laid

theorem laid_init (config : PartitionConfig) (segmentBytes alignment : Nat)
    (halign : 0 < alignment) :
    (init config segmentBytes alignment halign).Laid [] { base := 0 } where
  sets := List.prefix_rfl
  placement := by
    intro n op hop
    cases hop
  bases := List.pairwise_singleton _ _
  members := fun _ hmem => absurd hmem List.not_mem_nil
  waiting := by
    intro n recordSet _ hset
    cases hset
  base_le := le_refl _
  base := rfl
  position := rfl
  file := fun f hf => (Option.some.inj hf).symm
  closed := fun hclosed => absurd hclosed (Option.some_ne_none _)
  opening := by
    intro n op base hop
    cases hop
  issued := by
    intro n op hop
    cases hop
  noted := rfl
  late := fun _ hmem => absurd hmem List.not_mem_nil
  index := rfl
  indexFile := rfl

end Reactor

end Mkmq
