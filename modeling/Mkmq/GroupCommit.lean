import Mkmq.PartitionReactor

/-!
# Group commit

`maybe_flush` shares one flush among the appends of a reactor tick, and the flush goes to
the file that is open when the yield is over.  With `durability=fsync` an append may only
be answered once a flush that began after its write has finished on the file it wrote to.
The rollover waits for an armed flush, but not for writes still in flight: a file swapped
under such a write is flushed by nobody, and the append is answered on the strength of a
flush of the next segment.
-/

namespace Mkmq

open ByteCodec PartitionLogShard

/-! ### The property -/

/-- A finished flush of the file the append wrote to, begun after the write was over. -/
def AppendOp.Synced (op : AppendOp) (flushes : List Flush) : Prop :=
  ∃ placement written flush started, op.placement = some placement ∧
    op.writtenAt = some written ∧ flush ∈ flushes ∧ flush.phase = .finished ∧
    flush.file = some placement.file ∧ flush.startedAt = some started ∧ written < started

namespace Reactor

variable {r r' : Reactor} {flushes : List Flush} {now : Nat} {op : AppendOp} {openFile : Option Int}

/-- Every append answered without error is on disk. -/
def AnsweredSynced (r : Reactor) : Prop :=
  ∀ op ∈ r.ops, op.phase = .done → op.Synced r.flushes

/-! ### The condition -/

/-- The append has issued its write, and no flush for it has begun. -/
def awaitsFlush (flushes : List Flush) (op : AppendOp) : Bool :=
  match op.phase with
  | .writing | .written => true
  | .flushing k => (flushes[k]?.map Flush.phase) = some .armed
  | .barrier _ | .opening _ | .ready | .done | .failed => false

/-- The action takes away the file that is open. -/
def replacesFile (r : Reactor) : ReactorAction → Prop
  | .barrierPassed _ => r.shard.file ≠ none ∧ r.shard.writePosition ≠ 0
  | .opened _ => r.shard.file ≠ none
  | _ => False

instance (r : Reactor) (a : ReactorAction) : Decidable (r.replacesFile a) := by
  unfold replacesFile
  split <;> infer_instance

/-- The open file is replaced only when no append to it awaits a flush. -/
def SealsFlushed (r : Reactor) (a : ReactorAction) : Prop :=
  r.replacesFile a → ∀ op ∈ r.ops, awaitsFlush r.flushes op = false

instance (r : Reactor) (a : ReactorAction) : Decidable (r.SealsFlushed a) := by
  unfold SealsFlushed
  infer_instance

/-! ### The invariant -/

/-- A flush an append written to `file` at time `written` waits for: armed while that
    file is open, or begun on it after the write. -/
def FlushServes (openFile : Option Int) (file : Int) (written : Nat) (flush : Flush) : Prop :=
  match flush.phase with
  | .armed => openFile = some file
  | .running | .finished =>
    flush.file = some file ∧ ∃ started, flush.startedAt = some started ∧ written < started
  | .failed => True

/-- How far an append has come towards its flush. -/
def Committing (openFile : Option Int) (flushes : List Flush) (now : Nat) (op : AppendOp) : Prop :=
  match op.phase with
  | .barrier _ | .opening _ | .ready | .failed => True
  | .writing => ∃ placement, op.placement = some placement ∧ openFile = some placement.file
  | .written => ∃ placement written, op.placement = some placement ∧
      openFile = some placement.file ∧ op.writtenAt = some written ∧ written < now
  | .flushing k => ∃ placement written flush, op.placement = some placement ∧
      op.writtenAt = some written ∧ written < now ∧ flushes[k]? = some flush ∧
      FlushServes openFile placement.file written flush
  | .done => op.Synced flushes

structure CommitInv (r : Reactor) : Prop where
  fsync : r.shard.config.durability = .fsync
  scheduled : r.shard.flushScheduled = true →
    ∃ flush, r.flushes[r.shard.pendingFlush]? = some flush ∧ flush.phase = .armed
  ops : ∀ op ∈ r.ops, Committing r.shard.file r.flushes r.now op

theorem CommitInv.answeredSynced (h : r.CommitInv) : r.AnsweredSynced := by
  intro op hop hdone
  have hcommitting := h.ops op hop
  unfold Committing at hcommitting
  rw [hdone] at hcommitting
  exact hcommitting

/-! ### What leaves an append's progress as it is -/

/-- Time passes and new flushes are armed. -/
theorem Committing.later {flushes' : List Flush} {now' : Nat}
    (h : Committing openFile flushes now op) (hnow : now ≤ now')
    (hkept : ∀ (k : Nat) (flush : Flush), flushes[k]? = some flush → flushes'[k]? = some flush) :
    Committing openFile flushes' now' op := by
  unfold Committing at h ⊢
  split at h
  · exact trivial
  · exact trivial
  · exact trivial
  · exact trivial
  · exact h
  · obtain ⟨placement, written, hplacement, hfile, hwritten, hlt⟩ := h
    exact ⟨placement, written, hplacement, hfile, hwritten, lt_of_lt_of_le hlt hnow⟩
  · obtain ⟨placement, written, flush, hplacement, hwritten, hlt, hflush, hserves⟩ := h
    exact ⟨placement, written, flush, hplacement, hwritten, lt_of_lt_of_le hlt hnow,
      hkept _ flush hflush, hserves⟩
  · obtain ⟨placement, written, flush, started, hplacement, hwritten, hmem, hrest⟩ := h
    obtain ⟨k, hk⟩ := List.getElem?_of_mem hmem
    exact ⟨placement, written, flush, started, hplacement, hwritten,
      List.mem_of_getElem? (hkept k flush hk), hrest⟩

/-- The open file matters only to appends that await a flush. -/
theorem Committing.swap (h : Committing openFile flushes now op)
    (hawaits : awaitsFlush flushes op = false) (openFile' : Option Int) :
    Committing openFile' flushes now op := by
  unfold Committing at h ⊢
  unfold awaitsFlush at hawaits
  split at h
  · exact trivial
  · exact trivial
  · exact trivial
  · exact trivial
  · next hphase => rw [hphase] at hawaits; cases hawaits
  · next hphase => rw [hphase] at hawaits; cases hawaits
  · next k hphase =>
      obtain ⟨placement, written, flush, hplacement, hwritten, hlt, hflush, hserves⟩ := h
      refine ⟨placement, written, flush, hplacement, hwritten, hlt, hflush, ?_⟩
      rw [hphase] at hawaits
      simp only [hflush, Option.map_some, Option.some.injEq, decide_eq_false_iff_not] at hawaits
      unfold FlushServes at hserves ⊢
      split at hserves
      · next harmed => exact absurd harmed hawaits
      · exact hserves
      · exact hserves
      · exact trivial
  · exact h

/-- An append that awaits a flush wrote to the open file. -/
theorem Committing.file_open (h : Committing openFile flushes now op)
    (hawaits : awaitsFlush flushes op = true) : openFile ≠ none := by
  unfold Committing at h
  unfold awaitsFlush at hawaits
  split at hawaits
  · next hphase =>
      rw [hphase] at h
      obtain ⟨placement, -, hfile⟩ := h
      rw [hfile]
      exact Option.some_ne_none _
  · next hphase =>
      rw [hphase] at h
      obtain ⟨placement, written, -, hfile, -⟩ := h
      rw [hfile]
      exact Option.some_ne_none _
  · next k hphase =>
      rw [hphase] at h
      obtain ⟨placement, written, flush, -, -, -, hflush, hserves⟩ := h
      simp only [hflush, Option.map_some, Option.some.injEq, decide_eq_true_eq] at hawaits
      unfold FlushServes at hserves
      rw [hawaits] at hserves
      rw [hserves]
      exact Option.some_ne_none _
  all_goals cases hawaits

/-- A flush that has not finished moves on, and still serves the appends it served. -/
theorem Committing.setFlush {k : Nat} {flush flush' : Flush}
    (h : Committing openFile flushes now op) (hk : flushes[k]? = some flush)
    (hphase : flush.phase ≠ .finished)
    (hserves' : ∀ file written, written < now → FlushServes openFile file written flush →
      FlushServes openFile file written flush') :
    Committing openFile (flushes.set k flush') (now + 1) op := by
  obtain ⟨hlt, -⟩ := List.getElem?_eq_some_iff.mp hk
  unfold Committing at h ⊢
  split at h
  · exact trivial
  · exact trivial
  · exact trivial
  · exact trivial
  · exact h
  · obtain ⟨placement, written, hplacement, hfile, hwritten, hpast⟩ := h
    exact ⟨placement, written, hplacement, hfile, hwritten, Nat.lt_succ_of_lt hpast⟩
  · next j _ =>
      obtain ⟨placement, written, other, hplacement, hwritten, hpast, hother, hserves⟩ := h
      by_cases hj : k = j
      · subst hj
        rw [hk] at hother
        obtain rfl := Option.some.inj hother
        exact ⟨placement, written, flush', hplacement, hwritten, Nat.lt_succ_of_lt hpast,
          List.getElem?_set_self hlt, hserves' _ _ hpast hserves⟩
      · exact ⟨placement, written, other, hplacement, hwritten, Nat.lt_succ_of_lt hpast,
          (List.getElem?_set_ne hj).trans hother, hserves⟩
  · obtain ⟨placement, written, other, started, hplacement, hwritten, hmem, hfinished, hrest⟩ := h
    obtain ⟨j, hj⟩ := List.getElem?_of_mem hmem
    have hne : k ≠ j := by
      rintro rfl
      rw [hk] at hj
      exact hphase (Option.some.inj hj ▸ hfinished)
    exact ⟨placement, written, other, started, hplacement, hwritten,
      List.mem_of_getElem? ((List.getElem?_set_ne hne).trans hj), hfinished, hrest⟩

/-! ### Steps -/

/-- Steps that leave file and flushes alone: only the append that moved has to be looked
    at. -/
theorem CommitInv.move (h : r.CommitInv) {moved : AppendOp}
    (hops : ∀ op ∈ r'.ops, op ∈ r.ops ∨ op = moved)
    (hmoved : Committing r.shard.file r.flushes (r.now + 1) moved)
    (hconfig : r'.shard.config = r.shard.config) (hfile : r'.shard.file = r.shard.file)
    (hscheduled : r'.shard.flushScheduled = r.shard.flushScheduled)
    (hpending : r'.shard.pendingFlush = r.shard.pendingFlush) (hflushes : r'.flushes = r.flushes)
    (hnow : r'.now = r.now + 1) : r'.CommitInv where
  fsync := hconfig ▸ h.fsync
  scheduled := by
    rw [hscheduled, hpending, hflushes]
    exact h.scheduled
  ops := by
    intro op hop
    rw [hfile, hflushes, hnow]
    rcases hops op hop with hold | rfl
    · exact (h.ops op hold).later (Nat.le_succ _) fun _ _ hk => hk
    · exact hmoved

/-- Steps that move no append. -/
theorem CommitInv.idle (h : r.CommitInv) (hops : r'.ops = r.ops)
    (hconfig : r'.shard.config = r.shard.config) (hfile : r'.shard.file = r.shard.file)
    (hscheduled : r'.shard.flushScheduled = r.shard.flushScheduled)
    (hpending : r'.shard.pendingFlush = r.shard.pendingFlush) (hflushes : r'.flushes = r.flushes)
    (hnow : r'.now = r.now + 1) : r'.CommitInv := by
  have hunmoved : Committing r.shard.file r.flushes (r.now + 1)
      { recordSet := recordSetAt 0 [], phase := .failed } := trivial
  exact h.move (fun op hop => Or.inl (hops ▸ hop)) hunmoved hconfig hfile hscheduled hpending
    hflushes hnow

/-- The open file changes while no append awaits a flush. -/
theorem CommitInv.swapFile (h : r.CommitInv) {moved : AppendOp}
    (hops : ∀ op ∈ r'.ops, op ∈ r.ops ∨ op = moved)
    (hmoved : ∀ openFile, Committing openFile r.flushes (r.now + 1) moved)
    (hawaits : ∀ op ∈ r.ops, awaitsFlush r.flushes op = false)
    (hconfig : r'.shard.config = r.shard.config)
    (hscheduled : r'.shard.flushScheduled = r.shard.flushScheduled)
    (hpending : r'.shard.pendingFlush = r.shard.pendingFlush) (hflushes : r'.flushes = r.flushes)
    (hnow : r'.now = r.now + 1) : r'.CommitInv where
  fsync := hconfig ▸ h.fsync
  scheduled := by
    rw [hscheduled, hpending, hflushes]
    exact h.scheduled
  ops := by
    intro op hop
    rw [hflushes, hnow]
    rcases hops op hop with hold | rfl
    · exact ((h.ops op hold).later (Nat.le_succ _) fun _ _ hk => hk).swap (hawaits op hold) _
    · exact hmoved _

/-- A flush moves on. -/
theorem CommitInv.setFlush (h : r.CommitInv) {k : Nat} {flush flush' : Flush}
    (hk : r.flushes[k]? = some flush) (hphase : flush.phase ≠ .finished)
    (hserves : ∀ file written, written < r.now → FlushServes r.shard.file file written flush →
      FlushServes r.shard.file file written flush')
    (hscheduled : r'.shard.flushScheduled = true → r.shard.flushScheduled = true ∧
      r'.shard.pendingFlush = r.shard.pendingFlush ∧ flush.phase ≠ .armed)
    (hconfig : r'.shard.config = r.shard.config) (hfile : r'.shard.file = r.shard.file)
    (hops : r'.ops = r.ops) (hflushes : r'.flushes = r.flushes.set k flush')
    (hnow : r'.now = r.now + 1) : r'.CommitInv where
  fsync := hconfig ▸ h.fsync
  scheduled := by
    intro hr'
    obtain ⟨hr, hpending, hnotArmed⟩ := hscheduled hr'
    obtain ⟨other, hother, harmed⟩ := h.scheduled hr
    have hne : k ≠ r.shard.pendingFlush := by
      intro heq
      rw [heq, hother] at hk
      exact hnotArmed (Option.some.inj hk ▸ harmed)
    rw [hflushes, hpending]
    exact ⟨other, (List.getElem?_set_ne hne).trans hother, harmed⟩
  ops := by
    intro op hop
    rw [hfile, hflushes, hnow]
    rw [hops] at hop
    exact (h.ops op hop).setFlush hk hphase hserves

/-- A new flush is armed for an append that has written. -/
theorem CommitInv.arm (h : r.CommitInv) {n : Nat} (hop : r.ops[n]? = some op)
    (hphase : op.phase = .written) :
    CommitInv { r.update n { op with phase := .flushing r.flushes.length }
        { r.shard with flushScheduled := true, pendingFlush := r.flushes.length } with
      flushes := r.flushes ++ [{}] } where
  fsync := h.fsync
  scheduled := fun _ => ⟨{}, List.getElem?_concat_length, rfl⟩
  ops := by
    intro other hother
    rcases List.mem_or_eq_of_mem_set hother with hold | rfl
    · refine (h.ops other hold).later (Nat.le_succ _) ?_
      intro k flush hk
      obtain ⟨hlt, -⟩ := List.getElem?_eq_some_iff.mp hk
      exact (List.getElem?_append_left hlt).trans hk
    · have hwritten := h.ops op (List.mem_of_getElem? hop)
      unfold Committing at hwritten
      rw [hphase] at hwritten
      obtain ⟨placement, written, hplacement, hfile, hat, hpast⟩ := hwritten
      exact ⟨placement, written, {}, hplacement, hat, Nat.lt_succ_of_lt hpast,
        List.getElem?_concat_length, hfile⟩

theorem CommitInv.step {a : ReactorAction} (h : r.CommitInv) (hguard : r.SealsFlushed a)
    (hstep : r.step a = some r') : r'.CommitInv := by
  have hset : ∀ (n : Nat) (moved op : AppendOp), op ∈ r.ops.set n moved → op ∈ r.ops ∨ op = moved :=
    fun _ _ _ => List.mem_or_eq_of_mem_set
  cases steps_of_step hstep with
  | refused hadmission _ => exact h.idle rfl (admission_config hadmission) rfl rfl rfl rfl rfl
  | @admitted _ _ recordSet _ wait hadmission _ hensure =>
    have hops : ∀ op ∈ r.ops ++ [{ recordSet := recordSet, phase := wait.phase }],
        op ∈ r.ops ∨ op = { recordSet := recordSet, phase := wait.phase } := by
      intro op hop
      exact (List.mem_append.mp hop).imp id List.mem_singleton.mp
    have hwaits : Committing r.shard.file r.flushes (r.now + 1)
        { recordSet := recordSet, phase := wait.phase } := by
      cases wait <;> trivial
    rcases ensureSegmentForWrite_cases hensure with ⟨-, -, rfl⟩ | ⟨file, -, rfl, -⟩
    · exact h.move hops hwaits (admission_config hadmission) rfl rfl rfl rfl rfl
    · exact h.move hops hwaits (admission_config hadmission) rfl rfl rfl rfl rfl
  | @barrierPassed n op flush _ _ hop _ hafter =>
    rcases afterFlushBarrier_cases hafter with ⟨rfl, rfl⟩ | ⟨oldFile, hfile, hposition, rfl, rfl⟩
    · exact h.move (hset n _) trivial rfl rfl rfl rfl rfl rfl
    · have hawaits := hguard ⟨by rw [hfile]; exact Option.some_ne_none _, hposition⟩
      exact h.swapFile (hset n _) (fun _ => trivial) hawaits rfl rfl rfl rfl rfl
  | @opened n op base hop hphase =>
    have hawaits : ∀ op ∈ r.ops, awaitsFlush r.flushes op = false := by
      by_cases hfile : r.shard.file = none
      · intro other hother
        by_contra hne
        exact (h.ops other hother).file_open (Bool.not_eq_false _ ▸ hne) hfile
      · exact hguard hfile
    exact h.swapFile (hset n _) (fun _ => trivial) hawaits rfl rfl rfl rfl rfl
  | @failed _ n op hop _ _ _ => exact h.move (hset n _) trivial rfl rfl rfl rfl rfl rfl
  | @unopened n op _ hop _ hreserve =>
    obtain ⟨-, rfl⟩ := reserve_none hreserve
    exact h.move (hset n _) trivial rfl rfl rfl rfl rfl rfl
  | @startWrite n op _ _ hop _ hreserve =>
    obtain ⟨file, hfile, rfl, rfl⟩ := reserve_some hreserve
    exact h.move (hset n _) ⟨_, rfl, hfile⟩ rfl rfl rfl rfl rfl rfl
  | @writeDone n op placement hop hphase hplacement =>
    have hwriting := h.ops op (List.mem_of_getElem? hop)
    unfold Committing at hwriting
    rw [hphase] at hwriting
    obtain ⟨placed, hplaced, hfile⟩ := hwriting
    have hspec := writeDone_spec r n op placement
    have hwritten : Committing r.shard.file r.flushes (r.now + 1)
        { op with phase := .written, writtenAt := some r.now } :=
      ⟨placed, r.now, hplaced, hfile, rfl, Nat.lt_succ_self _⟩
    refine h.move ?_ hwritten (by rw [hspec.head]) hspec.file hspec.scheduled hspec.pending
      hspec.flushes hspec.now
    rw [hspec.ops]
    exact hset n _
  | unsynced _ _ hdurability => exact absurd h.fsync hdurability
  | @joined n op file hop hphase hfile hscheduled =>
    have hwritten := h.ops op (List.mem_of_getElem? hop)
    unfold Committing at hwritten
    rw [hphase] at hwritten
    obtain ⟨placement, written, hplacement, hopen, hat, hpast⟩ := hwritten
    obtain ⟨flush, hflush, harmed⟩ := h.scheduled hscheduled
    refine h.move (hset n _) ⟨placement, written, flush, hplacement, hat,
      Nat.lt_succ_of_lt hpast, hflush, ?_⟩ rfl rfl rfl rfl rfl rfl
    unfold FlushServes
    rw [harmed]
    exact hopen
  | armed hop hphase _ => exact h.arm hop hphase
  | @yielded k flush hflush hphase =>
    unfold Reactor.yielded
    split
    · next hfile =>
        refine h.setFlush hflush (by rw [hphase]; simp) ?_ (fun hs => by cases hs)
          rfl rfl rfl rfl rfl
        intro file written _ hserves
        unfold FlushServes at hserves
        rw [hphase, hfile] at hserves
        cases hserves
    · next openFile hfile =>
        refine h.setFlush hflush (by rw [hphase]; simp) ?_ (fun hs => by cases hs)
          rfl rfl rfl rfl rfl
        intro file written hpast hserves
        unfold FlushServes at hserves
        rw [hphase, hfile] at hserves
        exact ⟨hserves, r.now, rfl, hpast⟩
  | @flushEnded _ k flush phase _ hflush hphase hend =>
    refine h.setFlush hflush (by rw [hphase]; simp) ?_
      (fun hs => ⟨hs, rfl, by rw [hphase]; simp⟩) rfl rfl rfl rfl rfl
    intro file written _ hserves
    unfold FlushServes at hserves
    rw [hphase] at hserves
    rcases hend with rfl | rfl
    · exact hserves
    · exact trivial
  | @resolved n op k flush hop hphase hflush hfinished =>
    have hflushing := h.ops op (List.mem_of_getElem? hop)
    unfold Committing at hflushing
    rw [hphase] at hflushing
    obtain ⟨placement, written, other, hplacement, hwritten, -, hother, hserves⟩ := hflushing
    rw [hflush] at hother
    obtain rfl := Option.some.inj hother
    unfold FlushServes at hserves
    rw [hfinished] at hserves
    obtain ⟨hfile, started, hstarted, hlt⟩ := hserves
    exact h.move (hset n _) ⟨placement, written, flush, started, hplacement, hwritten,
      List.mem_of_getElem? hflush, hfinished, hfile, hstarted, hlt⟩ rfl rfl rfl rfl rfl rfl
  | indexWritten _ => exact h.idle rfl rfl rfl rfl rfl rfl rfl

theorem commitInv_init {config : PartitionConfig} (hfsync : config.durability = .fsync)
    (segmentBytes alignment : Nat) (halign : 0 < alignment) :
    (init config segmentBytes alignment halign).CommitInv where
  fsync := hfsync
  scheduled := fun hs => by cases hs
  ops := fun _ hop => by cases hop

/-! ### The main result -/

/-- **Every append answered without error is covered by a flush of its own file that began
    after its write**, in every state reached by steps that replace the open file only when
    no append to it awaits a flush. -/
theorem answeredSynced_of_sealsFlushed (config : PartitionConfig)
    (hfsync : config.durability = .fsync) (segmentBytes alignment : Nat) (halign : 0 < alignment)
    (r : Reactor)
    (h : Transition.Reachable (fun r => r = init config segmentBytes alignment halign) step
      SealsFlushed r) : r.AnsweredSynced := by
  have hinv : r.CommitInv := h.invariant
    (fun s hs => hs ▸ commitInv_init hfsync segmentBytes alignment halign)
    (fun s a s' hs hguard hstep => hs.step hguard hstep)
  exact hinv.answeredSynced

/-- Two appends that share one flush, then one that rolls the segment over. -/
def sharedFlush : List ReactorAction :=
  [.append [1] 1, .append [2] 1, .startWrite 0, .startWrite 1, .writeDone 0, .writeDone 1,
    .flush 0, .flush 1, .yielded 0, .flushDone 0, .append [3] 1, .barrierPassed 2, .opened 2,
    .resolve 0, .resolve 1]

theorem sharedFlush_answeredSynced :
    ∃ r, Transition.guardedRun step SealsFlushed (init syncedPartition 1024 512 (by decide))
        sharedFlush = some r ∧
      r.ops.map AppendOp.phase = [.done, .done, .ready] ∧ r.AnsweredSynced := by
  have hrun : (Transition.guardedRun step SealsFlushed (init syncedPartition 1024 512 (by decide))
      sharedFlush).map (fun r => r.ops.map AppendOp.phase) = some [.done, .done, .ready] := by
    decide +kernel
  obtain ⟨r, hr, hphases⟩ := Option.map_eq_some_iff.mp hrun
  exact ⟨r, hr, hphases, answeredSynced_of_sealsFlushed syncedPartition rfl 1024 512 (by decide) r
    (.of_guardedRun (.start rfl) _ hr)⟩

/-- The write of the first append is in flight when the second rolls the segment over: no
    flush is armed, so the barrier is passed at once, and the flush the first append then
    arms goes to segment 1. -/
def unsyncedRollover : List ReactorAction :=
  [.append [1] 1, .startWrite 0, .append [2] 1, .barrierPassed 1, .opened 1, .writeDone 0,
    .flush 0, .yielded 0, .flushDone 0, .resolve 0]

theorem answered_not_always_synced :
    ¬ ∀ (config : PartitionConfig), config.durability = .fsync →
        ∀ (segmentBytes alignment : Nat) (halign : 0 < alignment) (r : Reactor),
        Transition.Reachable (fun r => r = init config segmentBytes alignment halign) step
          (fun _ _ => True) r → r.AnsweredSynced := by
  intro hall
  have hrun : (Transition.guardedRun step (fun _ _ => True)
      (init syncedPartition 512 512 (by decide)) unsyncedRollover).map (fun r =>
        (r.ops.map fun op => (op.phase, op.placement.map Placement.file),
          r.flushes.map Flush.file)) =
      some ([(.done, some 0), (.ready, none)], [some 1]) := by
    decide +kernel
  obtain ⟨r, hr, hstate⟩ := Option.map_eq_some_iff.mp hrun
  simp only [Prod.mk.injEq] at hstate
  obtain ⟨hops, hfiles⟩ := hstate
  obtain ⟨op, rest, hcons, hop, -⟩ := List.map_eq_cons_iff.mp hops
  obtain ⟨hdone, hplaced⟩ := Prod.mk.inj hop
  have hsynced := hall syncedPartition rfl 512 512 (by decide) r (.of_guardedRun (.start rfl) _ hr)
    op (by rw [hcons]; exact List.mem_cons_self) hdone
  obtain ⟨placement, written, flush, started, hplacement, -, hflush, -, hfile, -⟩ := hsynced
  -- the append wrote to segment 0, and the only flush was one of segment 1
  have hmem := List.mem_map_of_mem (f := Flush.file) hflush
  rw [hfiles, List.mem_singleton, hfile] at hmem
  rw [hplacement, Option.map_some, Option.some.inj hmem] at hplaced
  exact absurd hplaced (by decide)

end Reactor

end Mkmq
