import Mkmq.AppendTermination
import Mkmq.SegmentLayout

/-!
# Appends one at a time

`PartitionLogShard.append` and `appendReplica` run a call from its beginning to its end;
`Reactor` runs the same code in pieces, with other calls between them.  When a call is made
only while nothing else is under way, and nothing fails, the pieces come to what the whole
does, in whatever order the index write and the flush end.  What is left of a call from one of
its waits on (`AppendOp.rest`) is the same after every step, and is nothing when the call has
ended.

The two fields with which appends share a flush are the reactor's own.
-/

namespace Mkmq

open ListRules PartitionLogShard

variable {admission : Admission} {recordSet : RecordSet}

namespace PartitionLogShard

/-- The shard without the fields of the shared flush. -/
def unflushed (s : PartitionLogShard) : PartitionLogShard :=
  { s with flushScheduled := false, pendingFlush := 0 }

/-- The end of a call whose frame is written: the flush, and the `finally`. -/
def finishFlush (s : PartitionLogShard) : PartitionLogShard × Bool :=
  ({ s with toLogHead := s.toLogHead.settle }, s.maybeFlush.isOk)

/-- A call from where its segment is open. -/
def finishWrite (recordSet : RecordSet) (s : PartitionLogShard) : PartitionLogShard × Bool :=
  match s.reserve (recordSet.frameSize s.logFrameAlignment) with
  | (s, none) => ({ s with toLogHead := s.toLogHead.settle }, false)
  | (s, some placement) => (s.commitFrame recordSet placement).finishFlush

/-- A call from where its segment is found or being opened. -/
def finishWait (recordSet : RecordSet) : PartitionLogShard × SegmentWait → PartitionLogShard × Bool
  | (s, .ready) => s.finishWrite recordSet
  | (s, .opening base) => (s.openActiveSegment base).finishWrite recordSet
  | (s, .barrier _) =>
    match s.afterFlushBarrier recordSet.baseOffset with
    | (s, .opening base) => (s.openActiveSegment base).finishWrite recordSet
    | (s, _) => s.finishWrite recordSet

end PartitionLogShard

/-- What is left to do for an append, with nothing else coming between, and whether it
    succeeds. -/
def AppendOp.rest (op : AppendOp) (s : PartitionLogShard) : PartitionLogShard × Bool :=
  match op.phase with
  | .barrier flush => finishWait op.recordSet (s, .barrier flush)
  | .opening base => finishWait op.recordSet (s, .opening base)
  | .ready => finishWait op.recordSet (s, .ready)
  | .writing =>
    match op.placement with
    | some placement => (s.commitFrame op.recordSet placement).finishFlush
    | none => (s, false)
  | .written => s.finishFlush
  | .flushing _ => ({ s with toLogHead := s.toLogHead.settle }, true)
  | .done => (s, true)
  | .failed => (s, false)

/-! ### The whole of a call -/

theorem placeSegment_of_none {s : PartitionLogShard} (hfile : s.file = none) (baseOffset : Int)
    (frameSize : Nat) :
    s.placeSegment baseOffset frameSize =
      { s with
        activeSegmentBaseOffset := baseOffset
        writePosition := 0 }.openActiveSegment baseOffset := by
  simp only [placeSegment, ensureSegmentForWrite, hfile]

theorem PartitionLogShard.placeSegment_spec (s : PartitionLogShard) (baseOffset : Int)
    (frameSize : Nat) :
    (s.placeSegment baseOffset frameSize).logFrameAlignment = s.logFrameAlignment ∧
      (s.placeSegment baseOffset frameSize).file ≠ none ∧
      s.unflushed.placeSegment baseOffset frameSize =
        (s.placeSegment baseOffset frameSize).unflushed := by
  cases hfile : s.file with
  | none =>
    rw [placeSegment_of_none hfile, placeSegment_of_none (s := s.unflushed) hfile]
    exact ⟨rfl, nofun, rfl⟩
  | some file =>
    by_cases hfits : s.writePosition = 0 ∨ s.writePosition + frameSize ≤ s.segmentBytes
    · rw [placeSegment_of_fits hfile hfits, placeSegment_of_fits (s := s.unflushed) hfile hfits]
      exact ⟨rfl, by rw [hfile]; nofun, rfl⟩
    · rw [placeSegment_of_full hfile hfits, placeSegment_of_full (s := s.unflushed) hfile hfits]
      exact ⟨rfl, nofun, rfl⟩

theorem commitFrame_spec (s : PartitionLogShard) (recordSet : RecordSet) (placement : Placement) :
    (s.commitFrame recordSet placement).file = s.file ∧
      s.unflushed.commitFrame recordSet placement =
        (s.commitFrame recordSet placement).unflushed := by
  unfold commitFrame scheduleIndexEntryWrite unflushed
  cases hindex : s.indexFile with
  | true => simp only [dmaWrite, hindex, if_true, noteIndexEntry, writeIndexEntryAt, and_self]
  | false => simp only [dmaWrite, hindex, Bool.false_eq_true, if_false, and_self]

/-- A call that is admitted finds or opens a segment and goes on from there. -/
theorem complete_eq_finishWrite (s : PartitionLogShard)
    (hset : admission.recordSet = some recordSet) :
    ((s.complete admission).1, (s.complete admission).2.isOk) =
      ({ s with toLogHead := admission.head }.placeSegment recordSet.baseOffset
        (recordSet.frameSize s.logFrameAlignment)).finishWrite recordSet := by
  obtain ⟨halign, hopen, -⟩ := { s with toLogHead := admission.head }.placeSegment_spec
    recordSet.baseOffset (recordSet.frameSize s.logFrameAlignment)
  obtain ⟨file, hfile⟩ := Option.ne_none_iff_exists'.mp hopen
  simp only [complete, hset, writeRecordSet, finishWrite, finishFlush, halign, reserve, hfile,
    Option.map_some, Prod.mk.injEq, true_and]
  generalize (commitFrame _ recordSet _).maybeFlush = flushed
  cases flushed <;> rfl

/-- A call that is admitted is what is left of it at its first wait. -/
theorem complete_eq_rest (s : PartitionLogShard) (hset : admission.recordSet = some recordSet)
    {shard : PartitionLogShard} {wait : SegmentWait}
    (hwait : { s with toLogHead := admission.head }.ensureSegmentForWrite recordSet.baseOffset
      (recordSet.frameSize s.logFrameAlignment) = (shard, wait)) :
    ({ recordSet := recordSet, phase := wait.phase } : AppendOp).rest shard =
      ((s.complete admission).1, (s.complete admission).2.isOk) := by
  rw [complete_eq_finishWrite s hset]
  unfold placeSegment
  rw [hwait]
  cases wait with
  | ready => rfl
  | opening base => rfl
  | barrier flush =>
    simp only [AppendOp.rest, SegmentWait.phase, finishWait]
    cases hafter : shard.afterFlushBarrier recordSet.baseOffset with
    | mk after wait => cases wait <;> rfl

/-- A call that nothing disturbs succeeds. -/
theorem complete_isOk (s : PartitionLogShard) (admission : Admission) :
    (s.complete admission).2.isOk = true := by
  cases hset : admission.recordSet with
  | none =>
    unfold complete
    rw [hset]
    rfl
  | some recordSet =>
    refine (congrArg Prod.snd (complete_eq_finishWrite s hset)).trans ?_
    obtain ⟨file, hfile⟩ := Option.ne_none_iff_exists'.mp
      ({ s with toLogHead := admission.head }.placeSegment_spec recordSet.baseOffset
        (recordSet.frameSize s.logFrameAlignment)).2.1
    simp only [finishWrite, reserve, hfile, Option.map_some, finishFlush, maybeFlush,
      (commitFrame_spec _ _ _).1]
    split <;> rfl

/-! ### What the fields of the shared flush do not touch -/

theorem finishWrite_unflushed (recordSet : RecordSet) (s : PartitionLogShard) :
    s.unflushed.finishWrite recordSet =
      ((s.finishWrite recordSet).1.unflushed, (s.finishWrite recordSet).2) := by
  have hsame : s.unflushed.reserve (recordSet.frameSize s.logFrameAlignment) =
      ((s.reserve (recordSet.frameSize s.logFrameAlignment)).1.unflushed,
        (s.reserve (recordSet.frameSize s.logFrameAlignment)).2) := rfl
  unfold finishWrite
  rw [show s.unflushed.logFrameAlignment = s.logFrameAlignment from rfl, hsame]
  rcases s.reserve (recordSet.frameSize s.logFrameAlignment) with ⟨reserved, placement⟩
  cases placement with
  | none => rfl
  | some placement =>
    simp only
    rw [(commitFrame_spec _ _ _).2]
    rfl

theorem complete_unflushed (s : PartitionLogShard) (admission : Admission) :
    (s.unflushed.complete admission).1 = (s.complete admission).1.unflushed := by
  cases hset : admission.recordSet with
  | none =>
    unfold complete
    rw [hset]
    rfl
  | some recordSet =>
    have hplaced := ({ s with toLogHead := admission.head }.placeSegment_spec recordSet.baseOffset
      (recordSet.frameSize s.logFrameAlignment)).2.2
    have hwhole := (complete_eq_finishWrite s.unflushed hset).trans
      ((congrArg (finishWrite recordSet) hplaced).trans (finishWrite_unflushed recordSet _))
    rw [← complete_eq_finishWrite s hset] at hwhole
    exact congrArg Prod.fst hwhole

/-! ### Runs in which calls do not overlap -/

namespace Reactor

variable {r : Reactor}

/-- Every append has ended, and no index write is under way. -/
def Quiet (r : Reactor) : Prop := (∀ op ∈ r.ops, op.phase.isFinal = true) ∧ r.indexWrites = []

instance (r : Reactor) : Decidable r.Quiet := inferInstanceAs (Decidable (_ ∧ _))

/-- The shard with the index writes that are under way. -/
def settled (r : Reactor) : PartitionLogShard :=
  { r.shard with
    root := r.indexWrites.foldl
      (fun root write =>
        root.writeIndex write.2 (encodeIndexEntry r.shard.logFrameAlignment write.1))
      r.shard.root }

/-- What the shard comes to when the last append is through. -/
def owed (r : Reactor) : PartitionLogShard × Bool :=
  match r.ops.getLast? with
  | none => (r.settled, true)
  | some op => op.rest r.settled

theorem settled_of_none (h : r.indexWrites = []) : r.settled = r.shard := by
  rw [settled, h]
  rfl

theorem rest_of_final {op : AppendOp} (h : op.phase.isFinal = true) (s : PartitionLogShard) :
    (op.rest s).1 = s := by
  unfold AppendOp.rest
  cases hphase : op.phase with
  | done => rfl
  | failed => rfl
  | _ =>
    rw [hphase] at h
    cases h

theorem Quiet.owed (h : r.Quiet) : r.owed.1 = r.shard := by
  unfold Reactor.owed
  cases hlast : r.ops.getLast? with
  | none => exact settled_of_none h.2
  | some op =>
    simp only
    rw [rest_of_final (h.1 op (List.mem_of_getLast? hlast)), settled_of_none h.2]

/-- Once nothing is under way and nothing has failed, every append is through. -/
theorem Quiet.done (h : r.Quiet) (hended : ∀ op ∈ r.ops, op.phase ≠ .failed) :
    ∀ op ∈ r.ops, op.phase = .done := by
  intro op hop
  have hfinal := h.1 op hop
  cases hphase : op.phase with
  | done => rfl
  | failed => exact absurd hphase (hended op hop)
  | _ =>
    rw [hphase] at hfinal
    cases hfinal

end Reactor

/-- A reactor, and the calls that have been made. -/
structure UndisturbedRun where
  reactor : Reactor
  calls : List LogCall := []

namespace UndisturbedRun

open Reactor

def step (u : UndisturbedRun) (a : ReactorAction) : Option UndisturbedRun :=
  (u.reactor.step a).map fun r => ⟨r, u.calls ++ a.call.toList⟩

/-- Calls are made while nothing is under way, no write to the index file either, and nothing
    fails. -/
def OneAtATime (u : UndisturbedRun) : ReactorAction → Prop
  | .append _ _ | .appendReplica _ => u.reactor.Quiet
  | .openFailed _ | .writeFailed _ | .flushFailed _ => False
  | _ => True

instance (u : UndisturbedRun) (a : ReactorAction) : Decidable (OneAtATime u a) :=
  match a with
  | .append _ _ | .appendReplica _ => inferInstanceAs (Decidable u.reactor.Quiet)
  | .openFailed _ | .writeFailed _ | .flushFailed _ => .isFalse id
  | .barrierPassed _ | .opened _ | .startWrite _ | .writeDone _ | .flush _ | .yielded _
  | .flushDone _ | .resolve _ | .indexWritten _ => .isTrue trivial

/-- The phases before the frame is written. -/
def Early : AppendPhase → Prop
  | .barrier _ | .opening _ | .ready | .writing => True
  | _ => False

/-- At most the last append is under way, and what it comes to is `plain`. -/
structure Refines (r : Reactor) (plain : PartitionLogShard) : Prop where
  flushes : ∀ flush ∈ r.flushes, flush.phase ≠ .failed
  last : ∀ (n : Nat) (op : AppendOp), r.ops[n]? = some op → op.phase.isFinal = false →
    n + 1 = r.ops.length
  early : ∀ op ∈ r.ops, Early op.phase → r.indexWrites = []
  one : r.indexWrites.length ≤ 1
  ended : ∀ op ∈ r.ops, op.phase ≠ .failed
  succeeds : r.owed.2 = true
  shard : r.owed.1.unflushed = plain.unflushed

section Steps

variable {r r' : Reactor} {plain : PartitionLogShard} {n : Nat} {op op' : AppendOp}

theorem getLast?_set_last {ops : List AppendOp} (h : n + 1 = ops.length) (op' : AppendOp) :
    (ops.set n op').getLast? = some op' := by
  rw [List.getLast?_eq_getElem?, List.length_set, ← h, Nat.add_sub_cancel,
    List.getElem?_set_self (by omega)]

theorem Refines.rest (h : Refines r plain) (hop : r.ops[n]? = some op)
    (hphase : op.phase.isFinal = false) :
    (op.rest r.settled).2 = true ∧ (op.rest r.settled).1.unflushed = plain.unflushed := by
  have hlast : r.ops.getLast? = some op := by
    rw [List.getLast?_eq_getElem?, ← h.last n op hop hphase, Nat.add_sub_cancel]
    exact hop
  have hsucceeds := h.succeeds
  have hshard := h.shard
  simp only [owed, hlast] at hsucceeds hshard
  exact ⟨hsucceeds, hshard⟩

/-- One step of the last append, which leaves as much to do as before. -/
theorem Refines.move (h : Refines r plain) (hop : r.ops[n]? = some op)
    (hphase : op.phase.isFinal = false) (hops : r'.ops = r.ops.set n op')
    (hflushes : ∀ flush ∈ r'.flushes, flush.phase ≠ .failed)
    (hearly : Early op'.phase → r'.indexWrites = []) (hone : r'.indexWrites.length ≤ 1)
    (hended : op'.phase ≠ .failed) (hrest : (op'.rest r'.settled).2 = true ∧
      (op'.rest r'.settled).1.unflushed = (op.rest r.settled).1.unflushed) :
    Refines r' plain where
  flushes := hflushes
  last := by
    intro m other hother hunfinished
    rw [hops] at hother
    rw [hops, List.length_set]
    rcases set_ops hother with ⟨rfl, -⟩ | ⟨-, hold⟩
    · exact h.last _ op hop hphase
    · exact h.last m other hold hunfinished
  early := by
    intro other hother hbefore
    rw [hops] at hother
    obtain ⟨m, hm⟩ := List.mem_iff_getElem?.mp hother
    rcases set_ops hm with ⟨-, rfl⟩ | ⟨hne, hold⟩
    · exact hearly hbefore
    · -- another append has ended
      exfalso
      have hfinal : other.phase.isFinal = false := by
        cases hp : other.phase with
        | done => rw [hp] at hbefore; exact hbefore.elim
        | failed => rw [hp] at hbefore; exact hbefore.elim
        | _ => rfl
      have hn := h.last n op hop hphase
      have hm' := h.last m other hold hfinal
      omega
  one := hone
  ended := by
    intro other hother
    rw [hops] at hother
    rcases List.mem_or_eq_of_mem_set hother with hold | rfl
    · exact h.ended other hold
    · exact hended
  succeeds := by
    have hlast := getLast?_set_last (h.last n op hop hphase) op'
    simp only [owed, hops, hlast]
    exact hrest.1
  shard := by
    have hlast := getLast?_set_last (h.last n op hop hphase) op'
    simp only [owed, hops, hlast]
    exact hrest.2.trans (h.rest hop hphase).2

/-- A step that leaves exactly what there was to do. -/
theorem Refines.goOn (h : Refines r plain) (hop : r.ops[n]? = some op)
    (hphase : op.phase.isFinal = false) (hops : r'.ops = r.ops.set n op')
    (hflushes : r'.flushes = r.flushes) (hwrites : r'.indexWrites = r.indexWrites)
    (hnone : r.indexWrites = []) (hended : op'.phase ≠ .failed)
    (hrest : op'.rest r'.shard = op.rest r.shard) : Refines r' plain := by
  have hsettled : r'.settled = r'.shard := settled_of_none (hwrites.trans hnone)
  refine h.move hop hphase hops (hflushes ▸ h.flushes) (fun _ => hwrites.trans hnone)
    (hwrites ▸ h.one) hended ?_
  have hdue := h.rest hop hphase
  rw [settled_of_none hnone] at hdue ⊢
  rw [hsettled, hrest]
  exact ⟨hdue.1, rfl⟩

theorem rest_wait (op : AppendOp) (wait : SegmentWait) (s : PartitionLogShard) :
    { op with phase := wait.phase }.rest s = finishWait op.recordSet (s, wait) := by
  cases wait <;> rfl

theorem finishWait_barrier (recordSet : RecordSet) (s : PartitionLogShard) (flush : Option Nat) :
    finishWait recordSet (s, .barrier flush) =
      finishWait recordSet (s.afterFlushBarrier recordSet.baseOffset) := by
  rcases hwait : s.afterFlushBarrier recordSet.baseOffset with ⟨shard, wait⟩
  rcases afterFlushBarrier_cases hwait with ⟨rfl, -⟩ | ⟨_, -, -, rfl, -⟩
  · simp only [finishWait, hwait]
  · simp only [finishWait, hwait]

theorem Refines.flushResult_ne (h : Refines r plain) (flush : Option Nat) :
    r.flushResult flush ≠ some .failed := by
  unfold flushResult
  split
  · nofun
  · split
    · nofun
    · next hflush => exact absurd rfl (h.flushes _ (List.mem_of_getElem? hflush))
    · nofun

theorem Refines.barrierPassed (h : Refines r plain) (hstep : r.step (.barrierPassed n) = some r') :
    Refines r' plain := by
  simp only [Reactor.step] at hstep
  split at hstep
  · next op hop =>
      split at hstep
      · next flush hphase =>
          have hnone := h.early op (List.mem_of_getElem? hop) (by rw [hphase]; trivial)
          simp only [Reactor.barrierPassed] at hstep
          split at hstep
          · obtain rfl := Option.some.inj hstep
            refine h.goOn hop (isFinal_of_phase hphase rfl) rfl rfl rfl hnone ?_ ?_
            · generalize (r.shard.afterFlushBarrier op.recordSet.baseOffset).2 = wait
              cases wait <;> simp [SegmentWait.phase]
            · rw [rest_wait]
              simp only [AppendOp.rest, hphase, finishWait_barrier]
              rfl
          · next hresult => exact absurd hresult (h.flushResult_ne flush)
          · cases hstep
      · cases hstep
  · cases hstep

theorem Refines.opened (h : Refines r plain) (hstep : r.step (.opened n) = some r') :
    Refines r' plain := by
  simp only [Reactor.step] at hstep
  split at hstep
  · next op hop =>
      split at hstep
      · next base hphase =>
          obtain rfl := Option.some.inj hstep
          have hnone := h.early op (List.mem_of_getElem? hop) (by rw [hphase]; trivial)
          refine h.goOn hop (isFinal_of_phase hphase rfl) rfl rfl rfl hnone (by simp) ?_
          simp only [AppendOp.rest, hphase]
          rfl
      · cases hstep
  · cases hstep

theorem Refines.startWrite (h : Refines r plain) (hstep : r.step (.startWrite n) = some r') :
    Refines r' plain := by
  simp only [Reactor.step] at hstep
  split at hstep
  · next op hop =>
      split at hstep
      · next hphase =>
          obtain rfl := Option.some.inj hstep
          have hfinal := isFinal_of_phase hphase rfl
          have hnone := h.early op (List.mem_of_getElem? hop) (by rw [hphase]; trivial)
          have hdue := h.rest hop hfinal
          rw [settled_of_none hnone] at hdue
          rcases hreserve : r.shard.reserve (op.recordSet.frameSize r.shard.logFrameAlignment) with
            ⟨shard, placement⟩
          have hrest : op.rest r.shard =
              match (shard, placement) with
              | (s, none) => ({ s with toLogHead := s.toLogHead.settle }, false)
              | (s, some placement) => (s.commitFrame op.recordSet placement).finishFlush := by
            simp only [AppendOp.rest, hphase, finishWait, finishWrite, hreserve]
          cases placement with
          | none =>
            rw [hrest] at hdue
            cases hdue.1
          | some placement =>
            unfold Reactor.startWrite
            rw [hreserve]
            exact h.goOn hop hfinal rfl rfl rfl hnone (by simp) hrest.symm
      · cases hstep
  · cases hstep

theorem Refines.writeDone (h : Refines r plain) (hstep : r.step (.writeDone n) = some r') :
    Refines r' plain := by
  simp only [Reactor.step] at hstep
  split at hstep
  · next op hop =>
      split at hstep
      · next hphase =>
          obtain ⟨placement, hplacement, rfl⟩ := Option.map_eq_some_iff.mp hstep
          have hfinal := isFinal_of_phase hphase rfl
          have hnone := h.early op (List.mem_of_getElem? hop) (by rw [hphase]; trivial)
          have hdue := h.rest hop hfinal
          have hspec := writeDone_spec r n op placement
          have hwrites : (r.writeDone n op placement).indexWrites.length ≤ 1 ∧
              (r.writeDone n op placement).settled =
                r.shard.commitFrame op.recordSet placement := by
            unfold Reactor.writeDone commitFrame
            cases hindex : r.shard.indexFile with
            | true =>
              simp only [scheduleIndexEntryWrite, dmaWrite, hindex, if_true, noteIndexEntry,
                hnone, settled, update]
              exact ⟨Nat.le_refl 1, rfl⟩
            | false =>
              simp only [scheduleIndexEntryWrite, dmaWrite, hindex, Bool.false_eq_true, if_false,
                settled, update, hnone]
              exact ⟨Nat.zero_le 1, rfl⟩
          refine h.move hop hfinal hspec.ops (hspec.flushes ▸ h.flushes) (fun hearly => hearly.elim)
            hwrites.1 (by simp) ?_
          rw [settled_of_none hnone] at hdue ⊢
          simp only [AppendOp.rest, hphase, hplacement, hwrites.2] at hdue ⊢
          exact ⟨hdue.1, trivial⟩
      · cases hstep
  · cases hstep

theorem Refines.flush (h : Refines r plain) (hstep : r.step (.flush n) = some r') :
    Refines r' plain := by
  simp only [Reactor.step] at hstep
  split at hstep
  · next op hop =>
      split at hstep
      · next hphase =>
          obtain rfl := Option.some.inj hstep
          have hfinal := isFinal_of_phase hphase rfl
          have hdue := (h.rest hop hfinal).1
          have hrest : op.rest r.settled = r.settled.finishFlush := by
            simp only [AppendOp.rest, hphase]
          unfold Reactor.flush
          split
          · refine h.move hop hfinal rfl h.flushes (fun hearly => hearly.elim) h.one (by simp) ?_
            rw [hrest]
            exact ⟨rfl, rfl⟩
          split
          · next hsync hfile =>
              -- the flush of a closed file would not succeed
              exfalso
              have hfail : r.settled.maybeFlush = .error "partition segment file is not open" := by
                unfold maybeFlush
                rw [if_neg (show ¬ r.settled.config.durability ≠ .fsync from hsync),
                  if_pos (show r.settled.file = none from hfile)]
              rw [hrest, finishFlush, hfail] at hdue
              cases hdue
          split
          · refine h.move hop hfinal rfl h.flushes (fun hearly => hearly.elim) h.one (by simp) ?_
            rw [hrest]
            exact ⟨rfl, rfl⟩
          · refine h.move hop hfinal rfl (forall_mem_concat.mpr ⟨h.flushes, by simp⟩)
              (fun hearly => hearly.elim) h.one (by simp) ?_
            rw [hrest]
            exact ⟨rfl, rfl⟩
      · cases hstep
  · cases hstep

theorem Refines.resolve (h : Refines r plain) (hstep : r.step (.resolve n) = some r') :
    Refines r' plain := by
  simp only [Reactor.step] at hstep
  split at hstep
  · next op hop =>
      split at hstep
      · next k hphase =>
          simp only [Reactor.resolve] at hstep
          split at hstep
          · obtain rfl := Option.some.inj hstep
            refine h.move hop (isFinal_of_phase hphase rfl) rfl h.flushes
              (fun hearly => hearly.elim) h.one (by simp) ?_
            simp only [AppendOp.rest, hphase]
            exact ⟨trivial, rfl⟩
          · next hresult => exact absurd hresult (h.flushResult_ne (some k))
          · cases hstep
      · cases hstep
  · cases hstep

/-! ### Steps beside the appends -/

theorem finishWait_unflushed (recordSet : RecordSet) (s : PartitionLogShard) (wait : SegmentWait) :
    finishWait recordSet (s.unflushed, wait) =
      ((finishWait recordSet (s, wait)).1.unflushed, (finishWait recordSet (s, wait)).2) := by
  cases wait with
  | ready => exact finishWrite_unflushed recordSet s
  | opening base => exact finishWrite_unflushed recordSet (s.openActiveSegment base)
  | barrier flush =>
    have hsame : s.unflushed.afterFlushBarrier recordSet.baseOffset =
        ((s.afterFlushBarrier recordSet.baseOffset).1.unflushed,
          (s.afterFlushBarrier recordSet.baseOffset).2) := by
      unfold afterFlushBarrier unflushed
      grind
    simp only [finishWait]
    rw [hsame]
    rcases s.afterFlushBarrier recordSet.baseOffset with ⟨after, wait⟩
    cases wait with
    | opening base => exact finishWrite_unflushed recordSet (after.openActiveSegment base)
    | ready => exact finishWrite_unflushed recordSet after
    | barrier other => exact finishWrite_unflushed recordSet after

theorem rest_unflushed (op : AppendOp) (s : PartitionLogShard) :
    op.rest s.unflushed = ((op.rest s).1.unflushed, (op.rest s).2) := by
  unfold AppendOp.rest
  cases op.phase with
  | barrier flush => exact finishWait_unflushed op.recordSet s (.barrier flush)
  | opening base => exact finishWait_unflushed op.recordSet s (.opening base)
  | ready => exact finishWait_unflushed op.recordSet s .ready
  | writing =>
    simp only
    cases op.placement with
    | none => rfl
    | some placement =>
      simp only
      rw [(commitFrame_spec _ _ _).2]
      rfl
  | _ => rfl

/-- The appends stay where they are, and so does what the shard comes to. -/
theorem Refines.beside (h : Refines r plain) (hops : r'.ops = r.ops)
    (hflushes : ∀ flush ∈ r'.flushes, flush.phase ≠ .failed)
    (hwrites : r'.indexWrites.length ≤ r.indexWrites.length)
    (hsettled : r'.settled.unflushed = r.settled.unflushed) : Refines r' plain := by
  have howed : r'.owed.2 = r.owed.2 ∧ r'.owed.1.unflushed = r.owed.1.unflushed := by
    simp only [owed, hops]
    cases r.ops.getLast? with
    | none => exact ⟨rfl, hsettled⟩
    | some op =>
      have hrest := rest_unflushed op r'.settled
      rw [hsettled, rest_unflushed] at hrest
      obtain ⟨hshard, hends⟩ := Prod.mk.inj hrest
      exact ⟨hends.symm, hshard.symm⟩
  refine ⟨hflushes, ?_, ?_, le_trans hwrites h.one, ?_, howed.1.trans h.succeeds,
    howed.2.trans h.shard⟩
  · rw [hops]
    exact h.last
  · rw [hops]
    intro op hop hearly
    have hnone := h.early op hop hearly
    rw [hnone] at hwrites
    exact List.eq_nil_of_length_eq_zero (Nat.le_zero.mp hwrites)
  · rw [hops]
    exact h.ended

theorem Refines.yielded (h : Refines r plain) {k : Nat} (hstep : r.step (.yielded k) = some r') :
    Refines r' plain := by
  simp only [Reactor.step] at hstep
  split at hstep
  · split at hstep
    · obtain rfl := Option.some.inj hstep
      have hset : ∀ flush', flush'.phase ≠ .failed →
          ∀ flush ∈ r.flushes.set k flush', flush.phase ≠ .failed := by
        intro flush' hphase flush hflush
        rcases List.mem_or_eq_of_mem_set hflush with hold | rfl
        · exact h.flushes flush hold
        · exact hphase
      unfold Reactor.yielded
      simp only
      split
      · exact h.beside rfl (hset _ (by simp)) (Nat.le_refl _) rfl
      · exact h.beside rfl (hset _ (by simp)) (Nat.le_refl _) rfl
    · cases hstep
  · cases hstep

theorem Refines.flushDone (h : Refines r plain) {k : Nat} (hstep : r.step
    (.flushDone k) = some r') : Refines r' plain := by
  simp only [Reactor.step] at hstep
  split at hstep
  · split at hstep
    · obtain rfl := Option.some.inj hstep
      refine h.beside rfl ?_ (Nat.le_refl _) rfl
      intro flush hflush
      rcases List.mem_or_eq_of_mem_set hflush with hold | rfl
      · exact h.flushes flush hold
      · simp
    · cases hstep
  · cases hstep

theorem Refines.indexWritten (h : Refines r plain) {i : Nat}
    (hstep : r.step (.indexWritten i) = some r') : Refines r' plain := by
  obtain ⟨⟨entry, position⟩, hwrite, rfl⟩ := Option.map_eq_some_iff.mp hstep
  obtain ⟨hlt, hget⟩ := List.getElem?_eq_some_iff.mp hwrite
  have hone := h.one
  obtain ⟨write, hwrites⟩ : ∃ write, r.indexWrites = [write] :=
    List.length_eq_one_iff.mp (by omega)
  obtain rfl : i = 0 := by omega
  obtain rfl : write = (entry, position) := by
    rw [hwrites] at hwrite
    exact Option.some.inj hwrite
  refine h.beside rfl h.flushes ?_ ?_
  · rw [hwrites]
    exact Nat.zero_le _
  · simp only [settled, hwrites]
    rfl

/-! ### Calls -/

/-- A call while nothing is under way. -/
theorem Refines.call (h : Refines r plain) (hquiet : r.Quiet) (call : LogCall) :
    Refines (r.accept (call.admission r.shard.toLogHead)) (plain.call call).1 := by
  have hshard : r.shard.unflushed = plain.unflushed := by
    rw [← hquiet.owed]
    exact h.shard
  have hhead : r.shard.toLogHead = plain.toLogHead := (congrArg (·.toLogHead) hshard :)
  have hwhole : (r.shard.complete (call.admission r.shard.toLogHead)).1.unflushed =
      (plain.call call).1.unflushed := by
    rw [call_eq_complete, ← hhead, ← complete_unflushed, hshard, complete_unflushed]
  set admission := call.admission r.shard.toLogHead
  cases hset : admission.recordSet with
  | none =>
    have haccept : r.accept admission =
        { r with shard := { r.shard with toLogHead := admission.head }, now := r.now + 1 } := by
      simp only [accept, hset]
    have hnone : (r.shard.complete admission).1 =
        { r.shard with toLogHead := admission.head } := by
      unfold complete
      rw [hset]
    rw [hnone] at hwhole
    have hquiet' : Quiet { r with
        shard := { r.shard with toLogHead := admission.head }, now := r.now + 1 } := hquiet
    rw [haccept]
    refine ⟨h.flushes, h.last, h.early, h.one, h.ended, ?_, ?_⟩
    · cases hlast : r.ops.getLast? with
      | none => simp only [owed, hlast]
      | some op =>
        have hmem := List.mem_of_getLast? hlast
        have hdone := hquiet.done h.ended op hmem
        simp only [owed, hlast, AppendOp.rest, hdone]
    · rw [hquiet'.owed]
      exact hwhole
  | some recordSet =>
    rcases hwait : { r.shard with toLogHead := admission.head }.ensureSegmentForWrite
      recordSet.baseOffset (recordSet.frameSize r.shard.logFrameAlignment) with ⟨shard, wait⟩
    have haccept : r.accept admission =
        { r with
          shard := shard
          ops := r.ops ++ [{ recordSet := recordSet, phase := wait.phase }]
          now := r.now + 1 } := by
      simp only [accept, hset, hwait]
    have hrest := complete_eq_rest r.shard hset hwait
    have howed : (r.accept admission).owed =
        ((r.shard.complete admission).1, (r.shard.complete admission).2.isOk) := by
      rw [haccept, ← hrest]
      simp only [owed, List.getLast?_concat, settled, hquiet.2]
      rfl
    refine ⟨?_, ?_, ?_, ?_, ?_, ?_, ?_⟩
    · rw [haccept]
      exact h.flushes
    · rw [haccept]
      intro n op hop hunfinished
      rcases append_ops hop with ⟨rfl, -⟩ | hold
      · simp
      · have hfinal := hquiet.1 op (List.mem_of_getElem? hold)
        rw [hunfinished] at hfinal
        cases hfinal
    · rw [haccept]
      exact fun _ _ _ => hquiet.2
    · rw [haccept]
      exact h.one
    · rw [haccept]
      refine forall_mem_concat.mpr ⟨h.ended, ?_⟩
      cases wait <;> simp [SegmentWait.phase]
    · rw [howed]
      exact complete_isOk r.shard admission
    · rw [howed]
      exact hwhole

end Steps

theorem refines_start (s : PartitionLogShard) : Refines { shard := s } s where
  flushes := nofun
  last := nofun
  early := nofun
  one := Nat.zero_le 1
  ended := nofun
  succeeds := rfl
  shard := rfl

theorem afterCalls_concat (s : PartitionLogShard) (calls : List LogCall) (call : LogCall) :
    s.afterCalls (calls ++ [call]) = ((s.afterCalls calls).call call).1 := by
  simp only [PartitionLogShard.afterCalls, List.foldl_append, List.foldl_cons, List.foldl_nil]

theorem refines_step {s : PartitionLogShard} {u u' : UndisturbedRun} {a : ReactorAction}
    (h : Refines u.reactor (s.afterCalls u.calls)) (hguard : OneAtATime u a)
    (hstep : u.step a = some u') : Refines u'.reactor (s.afterCalls u'.calls) := by
  obtain ⟨r', hr', rfl⟩ := Option.map_eq_some_iff.mp hstep
  have hsame (hnone : a.call = none) : s.afterCalls (u.calls ++ a.call.toList) =
      s.afterCalls u.calls := by
    rw [hnone, Option.toList_none, List.append_nil]
  cases a with
  | append records acks =>
    obtain rfl := Option.some.inj hr'
    simp only [ReactorAction.call, Option.toList_some, afterCalls_concat]
    exact h.call hguard (.append records acks)
  | appendReplica request =>
    obtain rfl := Option.some.inj hr'
    simp only [ReactorAction.call, Option.toList_some, afterCalls_concat]
    exact h.call hguard (.appendReplica request)
  | openFailed n => exact hguard.elim
  | writeFailed n => exact hguard.elim
  | flushFailed k => exact hguard.elim
  | barrierPassed n => exact hsame rfl ▸ h.barrierPassed hr'
  | opened n => exact hsame rfl ▸ h.opened hr'
  | startWrite n => exact hsame rfl ▸ h.startWrite hr'
  | writeDone n => exact hsame rfl ▸ h.writeDone hr'
  | flush n => exact hsame rfl ▸ h.flush hr'
  | yielded k => exact hsame rfl ▸ h.yielded hr'
  | flushDone k => exact hsame rfl ▸ h.flushDone hr'
  | resolve n => exact hsame rfl ▸ h.resolve hr'
  | indexWritten i => exact hsame rfl ▸ h.indexWritten hr'

/-- **Without overlap the continuations are one function.**  When each call is made after the
    one before it and its index write are through, and no open, write or flush fails, the
    continuations, in whatever order they run, leave the shard, its files and offsets
    included, as the calls leave it when each is carried out in one go; and every append
    succeeds. -/
theorem undisturbed_reactor_is_sequential (s : PartitionLogShard) {u : UndisturbedRun}
    (h : Transition.Reachable (· = { reactor := { shard := s } }) step OneAtATime u)
    (hquiet : u.reactor.Quiet) :
    u.reactor.shard.unflushed = (s.afterCalls u.calls).unflushed ∧
      ∀ op ∈ u.reactor.ops, op.phase = .done := by
  have hrefines : Refines u.reactor (s.afterCalls u.calls) := by
    refine h.invariant ?_
      fun _ _ _ hu hguard hstep => refines_step hu hguard hstep
    rintro _ rfl
    exact refines_start s
  refine ⟨?_, hquiet.done hrefines.ended⟩
  rw [← hquiet.owed]
  exact hrefines.shard

/-- Two synced appends with a refused one between them; the second opens a segment, and its
    index entry is written while its flush runs. -/
def rollingRun : List ReactorAction :=
  [.append [1, 2, 3] 1, .startWrite 0, .writeDone 0, .flush 0, .indexWritten 0, .yielded 0,
    .flushDone 0, .resolve 0, .append [6] 2, .append [4] 1, .barrierPassed 1, .opened 1,
    .startWrite 1, .writeDone 1, .flush 1, .yielded 1, .indexWritten 0, .flushDone 1, .resolve 1]

theorem undisturbed_reactor_is_sequential_rolling :
    ∃ u : UndisturbedRun, u.calls = [.append [1, 2, 3] 1, .append [6] 2, .append [4] 1] ∧
      u.reactor.shard.segments = [⟨0, 0, 32⟩, ⟨1, 1, 32⟩] ∧
      u.reactor.shard.unflushed =
        ((PartitionLogShard.fresh syncedPartition 32 32 (by decide)).afterCalls u.calls).unflushed ∧
      ∀ op ∈ u.reactor.ops, op.phase = .done := by
  have hruns : (Transition.guardedRun step OneAtATime
      { reactor := { shard := PartitionLogShard.fresh syncedPartition 32 32 (by decide) } }
      rollingRun).map (fun u => (u.calls, u.reactor.shard.segments, decide u.reactor.Quiet)) =
        some ([.append [1, 2, 3] 1, .append [6] 2, .append [4] 1],
          [⟨0, 0, 32⟩, ⟨1, 1, 32⟩], true) := by decide +kernel
  obtain ⟨u, hu, hends⟩ := Option.map_eq_some_iff.mp hruns
  obtain ⟨hcalls, hsegments, hquiet⟩ : u.calls = _ ∧ u.reactor.shard.segments = _ ∧
      decide u.reactor.Quiet = true := by
    simpa only [Prod.mk.injEq] using hends
  exact ⟨u, hcalls, hsegments,
    undisturbed_reactor_is_sequential _ (.of_guardedRun (.start rfl) rollingRun hu)
      (of_decide_eq_true hquiet)⟩

end UndisturbedRun

end Mkmq
