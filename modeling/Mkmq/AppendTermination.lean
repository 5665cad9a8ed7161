import Mkmq.FailedAppend

/-!
# No append is left hanging

Appends wait for each other: a segment is sealed only after the flush that is scheduled, and
many appends share one flush.  However the waits end, and whichever opens, writes and flushes
fail, each continuation that runs uses up some of the work that the calls have brought in, and
as long as there is work some continuation can run.  When none can, every append has ended and
`queue_depth_` is back at zero.
-/

namespace Mkmq

open ListRules PartitionLogShard

/-- How many continuations can still run for an append in this phase, its own and those it
    starts: the index write, and the yield and the end of a flush. -/
def AppendPhase.work : AppendPhase → Nat
  | .barrier _ => 9
  | .opening _ => 8
  | .ready => 7
  | .writing => 6
  | .written => 4
  | .flushing _ => 1
  | .done => 0
  | .failed => 0

def FlushPhase.work : FlushPhase → Nat
  | .armed => 2
  | .running => 1
  | .finished => 0
  | .failed => 0

namespace Reactor

variable {phase : AppendPhase} {n k : Nat} {op : AppendOp} {r : Reactor} {flush : Flush}
  {a : ReactorAction}

def work (r : Reactor) : Nat :=
  (r.ops.map fun op => op.phase.work).sum + (r.flushes.map fun flush => flush.phase.work).sum +
    r.indexWrites.length

theorem work_pos_of_unfinished (h : phase.isFinal = false) : 0 < phase.work := by
  cases phase with
  | done => cases h
  | failed => cases h
  | _ => exact Nat.succ_pos _

theorem work_wait_le (wait : SegmentWait) : wait.phase.work ≤ 9 := by
  cases wait <;> simp [SegmentWait.phase, AppendPhase.work]

/-- The work of the appends when one of them gets into another phase. -/
theorem work_set (hop : r.ops[n]? = some op) (op' : AppendOp) :
    ((r.ops.set n op').map fun op => op.phase.work).sum + op.phase.work =
      (r.ops.map fun op => op.phase.work).sum + op'.phase.work :=
  sum_map_set (fun op => op.phase.work) hop op'

theorem work_set_flush (hflush : r.flushes[k]? = some flush) (flush' : Flush) :
    ((r.flushes.set k flush').map fun flush => flush.phase.work).sum + flush.phase.work =
      (r.flushes.map fun flush => flush.phase.work).sum + flush'.phase.work :=
  sum_map_set (fun flush => flush.phase.work) hflush flush'

/-- An append that goes on to a phase with less work, nothing else being begun. -/
theorem work_update {op' : AppendOp} (hop : r.ops[n]? = some op)
    (hless : op'.phase.work < op.phase.work) (shard : PartitionLogShard) :
    (r.update n op' shard).work < r.work := by
  have hops := work_set hop op'
  simp only [work, update]
  omega

theorem work_leave (hop : r.ops[n]? = some op) (hphase : op.phase.isFinal = false)
    (hends : phase.work = 0) (shard : PartitionLogShard) :
    (r.leave n op phase shard).work < r.work := by
  refine work_update hop ?_ _
  have hpos := work_pos_of_unfinished hphase
  show phase.work < op.phase.work
  omega

theorem isFinal_of_phase (h : op.phase = phase) (hphase : phase.isFinal = false) :
    op.phase.isFinal = false := by
  rw [h, hphase]

theorem work_writeDone {placement : Placement} (hop : r.ops[n]? = some op)
    (hphase : op.phase = .writing) : (r.writeDone n op placement).work < r.work := by
  have hops := work_set hop { op with phase := .written, writtenAt := some r.now }
  have hsix : op.phase.work = 6 := by rw [hphase]; rfl
  have hfour : AppendPhase.written.work = 4 := rfl
  simp only at hops
  cases hindex : r.shard.indexFile with
  | true =>
    simp only [writeDone, scheduleIndexEntryWrite, dmaWrite, hindex, if_true, noteIndexEntry, work,
      update, List.length_append, List.length_singleton]
    omega
  | false =>
    simp only [writeDone, scheduleIndexEntryWrite, dmaWrite, hindex, Bool.false_eq_true, if_false,
      work, update]
    omega

theorem work_yielded (hflush : r.flushes[k]? = some flush) (hphase : flush.phase = .armed) :
    (r.yielded k flush).work < r.work := by
  have htwo : flush.phase.work = 2 := by rw [hphase]; rfl
  unfold yielded
  simp only
  split
  · have hflushes := work_set_flush hflush { flush with phase := .finished }
    have hzero : FlushPhase.finished.work = 0 := rfl
    simp only [work] at hflushes ⊢
    omega
  · next file _ =>
      have hflushes := work_set_flush hflush
        { flush with phase := .running, file := some file, startedAt := some r.now }
      have hone : FlushPhase.running.work = 1 := rfl
      simp only [work] at hflushes ⊢
      omega

/-- **A call brings in work for at most nine continuations, and every continuation that runs
    is one less.** -/
theorem work_step {r' : Reactor} (h : r.step a = some r') :
    r'.work + (if a.call.isNone then 1 else 0) ≤ r.work + if a.call.isSome then 9 else 0 := by
  have hcall : ∀ {admission}, r.admission a = some admission → a.call.isSome = true := by
    intro admission hadmission
    obtain ⟨call, hcall, -⟩ := Option.map_eq_some_iff.mp hadmission
    rw [hcall]
    rfl
  have hown : r'.work < r.work → a.call.isNone = true →
      r'.work + (if a.call.isNone then 1 else 0) ≤ r.work + if a.call.isSome then 9 else 0 := by
    intro hless hnone
    rw [if_pos hnone]
    omega
  cases steps_of_step h with
  | refused hadmission hset =>
    have hsome := hcall hadmission
    rw [if_neg (by simp [Option.isNone_iff_eq_none, ← Option.isSome_iff_ne_none, hsome]),
      if_pos hsome]
    show r.work + 0 ≤ r.work + 9
    omega
  | admitted hadmission hset hwait =>
    next admission recordSet shard wait =>
    have hsome := hcall hadmission
    have hnine := work_wait_le wait
    rw [if_neg (by simp [Option.isNone_iff_eq_none, ← Option.isSome_iff_ne_none, hsome]),
      if_pos hsome]
    simp only [work, List.map_append, List.map_cons, List.map_nil, List.sum_append, List.sum_cons,
      List.sum_nil]
    omega
  | barrierPassed hop hphase hwait =>
    next n op flush shard wait =>
    refine hown (work_update hop ?_ shard) rfl
    have hnine : op.phase.work = 9 := by rw [hphase]; rfl
    rcases afterFlushBarrier_cases hwait with ⟨rfl, -⟩ | ⟨_, -, -, rfl, -⟩
    · show AppendPhase.ready.work < op.phase.work
      rw [hnine]
      decide
    · show (AppendPhase.opening _).work < op.phase.work
      rw [hnine]
      exact Nat.lt_succ_self 8
  | opened hop hphase =>
    next n op base =>
    refine hown (work_update hop ?_ _) rfl
    rw [hphase]
    exact Nat.lt_succ_self 7
  | failed hop hadmission hdone hfailed =>
    refine hown (work_leave hop (AppendPhase.isFinal_eq_false hdone hfailed) rfl _) ?_
    rw [Option.isNone_iff_eq_none]
    exact Option.map_eq_none_iff.mp hadmission
  | unopened hop hphase hreserve =>
    exact hown (work_leave hop (isFinal_of_phase hphase rfl) rfl _) rfl
  | startWrite hop hphase hreserve =>
    refine hown (work_update hop ?_ _) rfl
    rw [hphase]
    exact Nat.lt_succ_self 6
  | writeDone hop hphase hplacement => exact hown (work_writeDone hop hphase) rfl
  | unsynced hop hphase hwrite =>
    exact hown (work_leave hop (isFinal_of_phase hphase rfl) rfl _) rfl
  | joined hop hphase hfile hscheduled =>
    refine hown (work_update hop ?_ _) rfl
    rw [hphase]
    exact (by decide : 1 < 4)
  | armed hop hphase hfile =>
    next n op file =>
    refine hown ?_ rfl
    have hops := work_set hop { op with phase := .flushing r.flushes.length }
    have hfour : op.phase.work = 4 := by rw [hphase]; rfl
    have hone : (AppendPhase.flushing r.flushes.length).work = 1 := rfl
    have htwo : FlushPhase.armed.work = 2 := rfl
    simp only [work, update, List.map_append, List.map_cons, List.map_nil, List.sum_append,
      List.sum_cons, List.sum_nil] at hops ⊢
    omega
  | yielded hflush hphase => exact hown (work_yielded hflush hphase) rfl
  | flushEnded hadmission hflush hphase hends =>
    next k flush phase =>
    refine hown ?_ ?_
    · have hflushes := work_set_flush hflush { flush with phase := phase }
      have hone : flush.phase.work = 1 := by rw [hphase]; rfl
      have hzero : phase.work = 0 := by rcases hends with rfl | rfl <;> rfl
      simp only [work, endFlush] at hflushes ⊢
      omega
    · rw [Option.isNone_iff_eq_none]
      exact Option.map_eq_none_iff.mp hadmission
  | resolved hop hphase hflush hfinished =>
    exact hown (work_leave hop (isFinal_of_phase hphase rfl) rfl _) rfl
  | indexWritten hwrite =>
    next i entry position =>
    refine hown ?_ rfl
    obtain ⟨hlt, -⟩ := List.getElem?_eq_some_iff.mp hwrite
    have hlength := List.length_eraseIdx_of_lt hlt
    simp only [work]
    omega

/-! ### What is waited for is there -/

/-- The flush that an append waits for is one of `count`, and a frame that is being written
    has its place. -/
def Waits (count : Nat) (op : AppendOp) : Prop :=
  match op.phase with
  | .barrier (some k) | .flushing k => k < count
  | .writing => op.placement ≠ none
  | _ => True

theorem Waits.mono {count count' : Nat} (hle : count ≤ count') (h : Waits count op) :
    Waits count' op := by
  unfold Waits at h ⊢
  split at h
  · exact lt_of_lt_of_le h hle
  · exact lt_of_lt_of_le h hle
  · exact h
  · trivial

/-- The appends that have not ended. -/
def unfinished (r : Reactor) : Nat :=
  (r.ops.map fun op => if op.phase.isFinal then 0 else 1).sum

structure Attended (r : Reactor) : Prop where
  waits : ∀ op ∈ r.ops, Waits r.flushes.length op
  pending : r.shard.flushScheduled = true → r.shard.pendingFlush < r.flushes.length
  depth : r.shard.queueDepth = r.unfinished

section Steps

variable {r r' : Reactor} {n : Nat} {op op' : AppendOp} {shard : PartitionLogShard}

theorem waits_set (h : r.Attended) (hop' : Waits r.flushes.length op') :
    ∀ other ∈ r.ops.set n op', Waits r.flushes.length other := by
  intro other hother
  rcases List.mem_or_eq_of_mem_set hother with hold | rfl
  · exact h.waits other hold
  · exact hop'

theorem unfinished_set (hop : r.ops[n]? = some op) (op' : AppendOp) :
    ((r.ops.set n op').map fun op => if op.phase.isFinal then 0 else 1).sum +
        (if op.phase.isFinal then 0 else 1) =
      r.unfinished + if op'.phase.isFinal then 0 else 1 :=
  sum_map_set (fun op => if op.phase.isFinal then 0 else 1) hop op'

/-- An append goes on, and the rest of the shard with it. -/
theorem Attended.update (h : r.Attended) (hop : r.ops[n]? = some op)
    (hphase : op.phase.isFinal = false) (hop' : Waits r.flushes.length op')
    (hphase' : op'.phase.isFinal = false)
    (hscheduled : shard.flushScheduled = r.shard.flushScheduled)
    (hpending : shard.pendingFlush = r.shard.pendingFlush)
    (hdepth : shard.queueDepth = r.shard.queueDepth) : (r.update n op' shard).Attended where
  waits := waits_set h hop'
  pending := fun hset => by
    show shard.pendingFlush < _
    rw [hpending]
    exact h.pending (hscheduled.symm.trans hset)
  depth := by
    have hset := unfinished_set hop op'
    rw [hphase, hphase'] at hset
    have hsame : (r.update n op' shard).unfinished = r.unfinished := Nat.add_right_cancel hset
    show shard.queueDepth = _
    rw [hsame, hdepth, h.depth]

theorem Attended.leave (h : r.Attended) (hop : r.ops[n]? = some op)
    (hphase : op.phase.isFinal = false) {phase : AppendPhase} (hends : phase.isFinal = true)
    (hscheduled : shard.flushScheduled = r.shard.flushScheduled)
    (hpending : shard.pendingFlush = r.shard.pendingFlush)
    (hdepth : shard.queueDepth = r.shard.queueDepth) : (r.leave n op phase shard).Attended where
  waits := by
    refine waits_set h ?_
    cases phase with
    | done => trivial
    | failed => trivial
    | _ => cases hends
  pending := fun hset => by
    show shard.pendingFlush < _
    rw [hpending]
    exact h.pending (hscheduled.symm.trans hset)
  depth := by
    have hset := unfinished_set hop { op with phase := phase }
    have hends' : ({ op with phase := phase } : AppendOp).phase.isFinal = true := hends
    rw [hphase, hends'] at hset
    have hone : (r.leave n op phase shard).unfinished + 1 = r.unfinished := hset
    show shard.queueDepth - 1 = _
    rw [hdepth, h.depth, ← hone, Nat.add_sub_cancel]

theorem Attended.writeDone (h : r.Attended) {placement : Placement} (hop : r.ops[n]? = some op)
    (hphase : op.phase = .writing) : (r.writeDone n op placement).Attended := by
  have hspec := writeDone_spec r n op placement
  refine ⟨?_, ?_, ?_⟩
  · rw [hspec.ops, hspec.flushes]
    exact waits_set h trivial
  · rw [hspec.scheduled, hspec.pending, hspec.flushes]
    exact h.pending
  · have hset := unfinished_set hop { op with phase := .written, writtenAt := some r.now }
    have hsame : (r.writeDone n op placement).unfinished = r.unfinished := by
      rw [hphase] at hset
      unfold unfinished at hset ⊢
      rw [hspec.ops]
      exact Nat.add_right_cancel hset
    rw [hsame, hspec.head]
    exact h.depth

/-- A request is admitted as one more append in flight. -/
theorem Attended.admitted (h : r.Attended) {call : LogCall} {recordSet : RecordSet}
    (hset : (call.admission r.shard.toLogHead).recordSet = some recordSet) {wait : SegmentWait}
    (hwait : { r.shard with
        toLogHead := (call.admission r.shard.toLogHead).head }.ensureSegmentForWrite
          recordSet.baseOffset (recordSet.frameSize r.shard.logFrameAlignment) = (shard, wait)) :
    Attended { r with
      shard := shard
      ops := r.ops ++ [{ recordSet := recordSet, phase := wait.phase }]
      now := r.now + 1 } := by
  have hdepth := LogCall.admitted_queueDepth hset
  have hkept : shard.queueDepth = r.shard.queueDepth + 1 ∧
      shard.flushScheduled = r.shard.flushScheduled ∧
      shard.pendingFlush = r.shard.pendingFlush := by
    rcases ensureSegmentForWrite_cases hwait with ⟨-, -, rfl⟩ | ⟨_, -, rfl, -⟩
    · exact ⟨hdepth, rfl, rfl⟩
    · exact ⟨hdepth, rfl, rfl⟩
  refine ⟨forall_mem_concat.mpr ⟨h.waits, ?_⟩, ?_, ?_⟩
  · unfold PartitionLogShard.ensureSegmentForWrite at hwait
    split at hwait
    · obtain rfl := (Prod.mk.inj hwait).2
      trivial
    · split at hwait
      · obtain rfl := (Prod.mk.inj hwait).2
        trivial
      · obtain rfl := (Prod.mk.inj hwait).2
        -- the barrier is the flush that is scheduled, if one is
        by_cases hscheduled : r.shard.flushScheduled = true
        · rw [if_pos hscheduled]
          exact h.pending hscheduled
        · rw [if_neg hscheduled]
          trivial
  · rw [hkept.2.1, hkept.2.2]
    exact h.pending
  · have hfinal : wait.phase.isFinal = false := by cases wait <;> rfl
    show shard.queueDepth = unfinished _
    rw [hkept.1, h.depth]
    simp [unfinished, hfinal]

end Steps

theorem Attended.step {r' : Reactor} (h : r.Attended) (hstep : r.step a = some r') :
    r'.Attended := by
  cases steps_of_step hstep with
  | refused hadmission hset =>
    obtain ⟨call, -, rfl⟩ := Option.map_eq_some_iff.mp hadmission
    rcases call.admission_cases r.shard.toLogHead with ⟨hsome, -⟩ | ⟨-, hhead, -⟩
    · rw [hset] at hsome
      cases hsome
    · rw [hhead]
      exact ⟨h.waits, h.pending, h.depth⟩
  | admitted hadmission hset hwait =>
    obtain ⟨call, -, rfl⟩ := Option.map_eq_some_iff.mp hadmission
    exact h.admitted hset hwait
  | barrierPassed hop hphase hwait =>
    next n op flush shard wait =>
    have hfinal := isFinal_of_phase hphase rfl
    rcases afterFlushBarrier_cases hwait with ⟨rfl, rfl⟩ | ⟨_, -, -, rfl, rfl⟩
    · refine h.update hop hfinal ?_ rfl rfl rfl rfl
      trivial
    · refine h.update hop hfinal ?_ rfl rfl rfl rfl
      trivial
  | opened hop hphase =>
    refine h.update hop (isFinal_of_phase hphase rfl) ?_ rfl rfl rfl rfl
    trivial
  | failed hop hadmission hdone hfailed =>
    exact h.leave hop (AppendPhase.isFinal_eq_false hdone hfailed) rfl rfl rfl rfl
  | unopened hop hphase hreserve =>
    obtain ⟨-, rfl⟩ := reserve_none hreserve
    exact h.leave hop (isFinal_of_phase hphase rfl) rfl rfl rfl rfl
  | startWrite hop hphase hreserve =>
    obtain ⟨_, -, -, rfl⟩ := reserve_some hreserve
    refine h.update hop (isFinal_of_phase hphase rfl) ?_ rfl rfl rfl rfl
    exact Option.some_ne_none _
  | writeDone hop hphase hplacement => exact h.writeDone hop hphase
  | unsynced hop hphase hwrite => exact h.leave hop (isFinal_of_phase hphase rfl) rfl rfl rfl rfl
  | joined hop hphase hfile hscheduled =>
    refine h.update hop (isFinal_of_phase hphase rfl) ?_ rfl rfl rfl rfl
    exact h.pending hscheduled
  | armed hop hphase hfile =>
    next n op file =>
    have hmore : r.flushes.length < (r.flushes ++ [({} : Flush)]).length := by simp
    refine ⟨?_, fun _ => hmore, ?_⟩
    · intro other hother
      rcases List.mem_or_eq_of_mem_set hother with hold | rfl
      · exact (h.waits other hold).mono (Nat.le_of_lt hmore)
      · exact hmore
    · have hset := unfinished_set hop { op with phase := .flushing r.flushes.length }
      rw [hphase] at hset
      exact h.depth.trans (Nat.add_right_cancel hset).symm
  | yielded hflush hphase =>
    unfold Reactor.yielded
    simp only
    split
    · exact ⟨by rw [List.length_set]; exact h.waits, by simp, h.depth⟩
    · exact ⟨by rw [List.length_set]; exact h.waits, by simp, h.depth⟩
  | flushEnded hadmission hflush hphase hends =>
    refine ⟨?_, ?_, h.depth⟩
    · simp only [endFlush, List.length_set]
      exact h.waits
    · simp only [endFlush, List.length_set]
      exact h.pending
  | resolved hop hphase hflush hfinished =>
    exact h.leave hop (isFinal_of_phase hphase rfl) rfl rfl rfl rfl
  | indexWritten hwrite => exact ⟨h.waits, h.pending, h.depth⟩

/-! ### Something can go on -/

/-- No continuation can run. -/
def Still (r : Reactor) : Prop := ∀ a : ReactorAction, a.call = none → r.step a = none

/-- A flush that is not over can go on. -/
theorem Still.flushes (h : r.Still) (hflush : r.flushes[k]? = some flush) :
    flush.phase = .finished ∨ flush.phase = .failed := by
  cases hphase : flush.phase with
  | armed =>
    have hnone := h (.yielded k) rfl
    simp only [step, hflush, hphase, if_true] at hnone
    cases hnone
  | running =>
    have hnone := h (.flushDone k) rfl
    simp only [step, hflush, hphase, if_true] at hnone
    cases hnone
  | finished => exact Or.inl rfl
  | failed => exact Or.inr rfl

/-- The flush that is waited for is over. -/
theorem Still.flushResult (h : r.Still) (hk : k < r.flushes.length) :
    r.flushResult (some k) = some .finished ∨ r.flushResult (some k) = some .failed := by
  obtain ⟨flush, hflush⟩ : ∃ flush, r.flushes[k]? = some flush :=
    ⟨_, List.getElem?_eq_getElem hk⟩
  rcases flush with ⟨phase, file, startedAt⟩
  rcases h.flushes hflush with hphase | hphase
  · obtain rfl : phase = .finished := hphase
    refine Or.inl ?_
    simp only [Reactor.flushResult, hflush]
  · obtain rfl : phase = .failed := hphase
    refine Or.inr ?_
    simp only [Reactor.flushResult, hflush]

theorem Still.ended (h : r.Still) (hattended : r.Attended) :
    ∀ op ∈ r.ops, op.phase = .done ∨ op.phase = .failed := by
  intro op hmem
  obtain ⟨n, hop⟩ := List.mem_iff_getElem?.mp hmem
  have hwaits := hattended.waits op hmem
  unfold Waits at hwaits
  cases hphase : op.phase with
  | done => exact Or.inl rfl
  | failed => exact Or.inr rfl
  | barrier flush =>
    have hnone := h (.barrierPassed n) rfl
    simp only [step, hop, hphase, barrierPassed] at hnone
    cases flush with
    | none => cases hnone
    | some k =>
      rw [hphase] at hwaits
      rcases h.flushResult hwaits with hresult | hresult
      · rw [hresult] at hnone
        cases hnone
      · rw [hresult] at hnone
        cases hnone
  | opening base =>
    have hnone := h (.opened n) rfl
    simp only [step, hop, hphase] at hnone
    cases hnone
  | ready =>
    have hnone := h (.startWrite n) rfl
    simp only [step, hop, hphase, if_true] at hnone
    cases hnone
  | writing =>
    have hnone := h (.writeDone n) rfl
    rw [hphase] at hwaits
    obtain ⟨placement, hplacement⟩ := Option.ne_none_iff_exists'.mp hwaits
    simp only [step, hop, hphase, if_true, hplacement, Option.map_some] at hnone
    cases hnone
  | written =>
    have hnone := h (.flush n) rfl
    simp only [step, hop, hphase, if_true] at hnone
    cases hnone
  | flushing k =>
    have hnone := h (.resolve n) rfl
    simp only [step, hop, hphase, resolve] at hnone
    rw [hphase] at hwaits
    rcases h.flushResult hwaits with hresult | hresult
    · rw [hresult] at hnone
      cases hnone
    · rw [hresult] at hnone
      cases hnone

theorem Still.indexWrites (h : r.Still) : r.indexWrites = [] := by
  cases hwrites : r.indexWrites with
  | nil => rfl
  | cons write rest =>
    have hnone := h (.indexWritten 0) rfl
    simp only [step, indexWritten, hwrites, List.getElem?_cons_zero, Option.map_some] at hnone
    cases hnone

theorem attended_init (config : PartitionConfig) (segmentBytes alignment : Nat)
    (hpos : 0 < alignment) : (init config segmentBytes alignment hpos).Attended where
  waits := fun _ hop => absurd hop List.not_mem_nil
  pending := nofun
  depth := rfl

/-- **No append hangs.**  From a fresh log on, in any order of calls and continuations, with any
    of them failing, no more than nine continuations have run per call made so far, all calls
    taken together, and `queue_depth_` is the number of appends that have not ended; when no
    continuation can run any more, every append has ended, the queue is empty and every index
    entry has been written. -/
theorem appends_never_hang {config : PartitionConfig} {segmentBytes alignment : Nat}
    {hpos : 0 < alignment} {acts : List ReactorAction} {r : Reactor}
    (h : Transition.run step (init config segmentBytes alignment hpos) acts = some r) :
    acts.countP (fun a => a.call.isNone) ≤ 9 * acts.countP (fun a => a.call.isSome) ∧
      r.shard.queueDepth = r.unfinished ∧
      (r.Still → (∀ op ∈ r.ops, op.phase = .done ∨ op.phase = .failed) ∧
        r.shard.queueDepth = 0 ∧ r.indexWrites = []) := by
  have hattended : r.Attended := by
    have hreached := Transition.Reachable.of_run
      (.start rfl : Transition.Reachable (· = init config segmentBytes alignment hpos) step
        (fun _ _ => True) _) acts (fun _ _ _ => trivial) h
    refine hreached.invariant ?_ fun _ _ _ hs _ hstep => hs.step hstep
    rintro _ rfl
    exact attended_init config segmentBytes alignment hpos
  refine ⟨?_, hattended.depth, fun hstill => ?_⟩
  · have hcost := Transition.countP_run_le (fun s a s' hstep => work_step hstep) h
    have hstart : (init config segmentBytes alignment hpos).work = 0 := rfl
    omega
  · have hended := hstill.ended hattended
    refine ⟨hended, ?_, hstill.indexWrites⟩
    rw [hattended.depth, unfinished, List.sum_eq_zero]
    intro weight hweight
    obtain ⟨op, hop, rfl⟩ := List.mem_map.mp hweight
    rcases hended op hop with hphase | hphase
    · rw [hphase]
      rfl
    · rw [hphase]
      rfl

/-- Two appends, of which the second cannot be written. -/
def oneWriteFails : List ReactorAction :=
  [.append [1] 1, .append [2] 1, .startWrite 0, .startWrite 1, .writeFailed 1, .writeDone 0,
    .flush 0, .indexWritten 0]

theorem appends_never_hang_oneFails :
    ∃ r, Transition.run step (init defaultPartition 4096 512 (by decide)) oneWriteFails = some r ∧
      r.ops.map AppendOp.phase = [.done, .failed] ∧ 6 ≤ 9 * 2 ∧
      r.shard.queueDepth = r.unfinished := by
  have hruns : (Transition.run step (init defaultPartition 4096 512 (by decide)) oneWriteFails).map
      (fun r => r.ops.map AppendOp.phase) = some [.done, .failed] := by decide +kernel
  obtain ⟨r, hr, hphases⟩ := Option.map_eq_some_iff.mp hruns
  obtain ⟨hbound, hdepth, -⟩ := appends_never_hang hr
  exact ⟨r, hr, hphases, hbound, hdepth⟩

end Reactor

end Mkmq
