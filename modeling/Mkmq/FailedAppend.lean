import Mkmq.PartitionReactor

/-!
# Calls that fail

`append` and `append_replica` move `offsets_` and `queue_depth_` before the frame is
written.  A refusal comes before that.  Every later failure leaves the offsets where the
call put them: an exception while the frame buffer is allocated leaves `queue_depth_` as
well, because the `finally` that would take it back is not attached yet, and a failed flush
leaves the index entry.  Only a call that had nothing to move leaves no trace, and only if
it fails before its write completes.
-/

namespace Mkmq

open PartitionLogShard

variable {recordSet : RecordSet}

/-! ### What an admitted call moves -/

/-- The watermark that the call assigns to an unchanged log end is the present one. -/
def LogHead.KeepsWatermark (head : LogHead) : LogCall → Prop
  | .append _ _ => head.config.isr.length ≤ 1 → head.offsets.highWatermark = head.offsets.latest
  | .appendReplica request =>
    head.offsets.highWatermark = min head.offsets.latest request.leaderHighWatermark

theorem estimateRecordCount_eq_zero_iff (records : ByteCodec.Bytes) :
    estimateRecordCount records = 0 ↔ records = [] := by
  constructor
  · intro hzero
    by_contra hne
    have hone := one_le_estimateRecordCount hne
    omega
  · rintro rfl
    rfl

theorem LogCall.admitted_queueDepth {head : LogHead} {call : LogCall}
    (h : (call.admission head).recordSet = some recordSet) :
    (call.admission head).head.queueDepth = head.queueDepth + 1 := by
  cases call with
  | append records acks =>
    by_cases hadmits : head.Admits records acks
    · rw [LogCall.admission, LogHead.append_of_admits hadmits]
      rfl
    · rw [LogCall.admission, (LogHead.append_of_not_admits hadmits).2.1] at h
      cases h
  | appendReplica request =>
    by_cases hadmits : head.AdmitsReplica request
    · rw [LogCall.admission, LogHead.appendReplica_of_admits hadmits]
      rfl
    · rw [LogCall.admission, (LogHead.appendReplica_of_not_admits hadmits).2.1] at h
      cases h

/-- **When an admitted call leaves the offsets as they are.** -/
theorem LogCall.admitted_offsets_iff {head : LogHead} {call : LogCall}
    (h : (call.admission head).recordSet = some recordSet) :
    (call.admission head).head.offsets = head.offsets ↔
      call.records = [] ∧ head.KeepsWatermark call := by
  rw [← estimateRecordCount_eq_zero_iff]
  obtain ⟨config, ⟨earliest, latest, highWatermark⟩, depth, degraded, lag⟩ := head
  cases call with
  | append records acks =>
    by_cases hadmits : LogHead.Admits ⟨config, ⟨earliest, latest, highWatermark⟩, depth, degraded,
        lag⟩ records acks
    · rw [LogCall.admission, LogHead.append_of_admits hadmits]
      simp only [LogHead.appended, LogCall.records, LogHead.KeepsWatermark,
        PartitionOffsets.mk.injEq, true_and]
      constructor
      · rintro ⟨hlatest, hmark⟩
        refine ⟨by omega, ?_⟩
        intro hisr
        rw [if_pos hisr] at hmark
        omega
      · rintro ⟨hcount, hmark⟩
        refine ⟨by omega, ?_⟩
        split
        · next hisr =>
            have := hmark hisr
            omega
        · rfl
    · rw [LogCall.admission, (LogHead.append_of_not_admits hadmits).2.1] at h
      cases h
  | appendReplica request =>
    by_cases hadmits : LogHead.AdmitsReplica ⟨config, ⟨earliest, latest, highWatermark⟩, depth,
        degraded, lag⟩ request
    · have hbase : request.baseOffset = latest := hadmits.2.1
      rw [LogCall.admission, LogHead.appendReplica_of_admits hadmits]
      simp only [LogHead.replicated, LogCall.records, LogHead.KeepsWatermark,
        PartitionOffsets.mk.injEq, true_and, hbase]
      constructor
      · rintro ⟨hlatest, hmark⟩
        refine ⟨by omega, ?_⟩
        rw [hlatest] at hmark
        exact hmark.symm
      · rintro ⟨hcount, hmark⟩
        rw [hcount, Int.add_zero]
        exact ⟨rfl, hmark.symm⟩
    · rw [LogCall.admission, (LogHead.appendReplica_of_not_admits hadmits).2.1] at h
      cases h

/-! ### How a call fails -/

/-- The append is over, one way or the other. -/
def AppendPhase.isFinal : AppendPhase → Bool
  | .done | .failed => true
  | _ => false

theorem AppendPhase.isFinal_eq_false {phase : AppendPhase} (hdone : phase ≠ .done)
    (hfailed : phase ≠ .failed) : phase.isFinal = false := by
  cases phase with
  | done => exact absurd rfl hdone
  | failed => exact absurd rfl hfailed
  | _ => rfl

/-- `write` stands for the opening of a segment as well. -/
inductive FailurePoint where
  | refused
  | allocation
  | write
  | flush
deriving DecidableEq, Repr

namespace Reactor

/-- A request that does not succeed, with no other append running: it is refused, or the
    frame buffer cannot be allocated, or its own continuations and the index writes still
    under way lead to its failure, before or after its write is done. -/
inductive Fails (r : Reactor) (a : ReactorAction) : FailurePoint → Reactor → Prop where
  | refused {admission : Admission} {r' : Reactor} :
      r.admission a = some admission → admission.response.errorCode ≠ .none →
      r.step a = some r' → Fails r a .refused r'
  | allocation {admission : Admission} :
      r.admission a = some admission → admission.response.errorCode = .none →
      Fails r a .allocation { r with shard := { r.shard with toLogHead := admission.head } }
  | io {admission : Admission} {r₁ r' : Reactor} {actions : List ReactorAction} {op : AppendOp} :
      r.admission a = some admission → admission.response.errorCode = .none →
      r.step a = some r₁ → Transition.run step r₁ actions = some r' →
      (∀ b ∈ actions, b.call = none) →
      r'.ops[r.ops.length]? = some op → op.phase = .failed →
      Fails r a (if .writeDone r.ops.length ∈ actions then .flush else .write) r'

end Reactor

/-- Offsets, index and queue depth are as before. -/
structure Untraced (s s' : PartitionLogShard) : Prop where
  offsets : s'.offsets = s.offsets
  indexEntries : s'.indexEntries = s.indexEntries
  queueDepth : s'.queueDepth = s.queueDepth

/-- Where a call may fail without leaving a trace. -/
def FailurePoint.LeavesNoTrace (head : LogHead) (call : LogCall) : FailurePoint → Prop
  | .refused => True
  | .allocation => False
  | .write => call.records = [] ∧ head.KeepsWatermark call
  | .flush => False

namespace Reactor

variable {a : ReactorAction} {r : Reactor} {admission : Admission}

/-! ### One append in flight -/

/-- Append `n` runs alone in a log that had the queue depth `depth` before it and has the
    offsets `offsets` since. -/
structure Alone (n depth : Nat) (offsets : PartitionOffsets) (r : Reactor) : Prop where
  others : ∀ (m : Nat) (op : AppendOp), r.ops[m]? = some op → m ≠ n → op.phase.isFinal = true
  offsets : r.shard.offsets = offsets
  depth : ∀ op, r.ops[n]? = some op →
    r.shard.queueDepth = if op.phase.isFinal then depth else depth + 1

section Alone

variable {n depth : Nat} {offsets : PartitionOffsets} {r r' : Reactor} {a : ReactorAction}

/-- A step that touches neither the head nor the appends. -/
theorem Alone.background (h : Alone n depth offsets r) (hops : r'.ops = r.ops)
    (hhead : r'.shard.toLogHead = r.shard.toLogHead) : Alone n depth offsets r' := by
  refine ⟨by rw [hops]; exact h.others, ?_, ?_⟩
  · rw [hhead]
    exact h.offsets
  · rw [hops, hhead]
    exact h.depth

/-- A step of the append itself. -/
theorem Alone.moved (h : Alone n depth offsets r) {m : Nat} {op op' : AppendOp}
    (hop : r.ops[m]? = some op) (hphase : op.phase.isFinal = false)
    (hops : r'.ops = r.ops.set m op') (hoffsets : r'.shard.offsets = r.shard.offsets)
    (hdepth : r'.shard.queueDepth =
      if op'.phase.isFinal then r.shard.queueDepth - 1 else r.shard.queueDepth) :
    Alone n depth offsets r' := by
  have hmn : m = n := by
    by_contra hne
    rw [h.others m op hop hne] at hphase
    cases hphase
  subst hmn
  refine ⟨?_, hoffsets.trans h.offsets, ?_⟩
  · intro k other hother hk
    rw [hops, set_ops_ne hk] at hother
    exact h.others k other hother hk
  · intro other hother
    rw [hops, set_ops_self hop] at hother
    obtain rfl := Option.some.inj hother
    have hbefore := h.depth op hop
    rw [hphase, if_neg Bool.false_ne_true] at hbefore
    rw [hdepth, hbefore, Nat.add_sub_cancel]

theorem SegmentWait.phase_isFinal (wait : SegmentWait) : wait.phase.isFinal = false := by
  cases wait <;> rfl

/-- **Only the append itself moves**, whatever else is under way. -/
theorem Alone.step (h : Alone n depth offsets r) (hcall : a.call = none)
    (hstep : r.step a = some r') : Alone n depth offsets r' := by
  have hadmission : r.admission a = none := by
    unfold admission
    rw [hcall]
    rfl
  cases steps_of_step hstep with
  | refused hadmits => rw [hadmission] at hadmits; cases hadmits
  | admitted hadmits => rw [hadmission] at hadmits; cases hadmits
  | @barrierPassed m op flush shard wait hop hphase hafter =>
    have hfinal := SegmentWait.phase_isFinal wait
    rcases afterFlushBarrier_cases hafter with ⟨-, rfl⟩ | ⟨oldFile, -, -, -, rfl⟩
    · exact h.moved hop (by rw [hphase]; rfl) rfl rfl (by simp only [hfinal]; rfl)
    · exact h.moved hop (by rw [hphase]; rfl) rfl rfl (by simp only [hfinal]; rfl)
  | opened hop hphase => exact h.moved hop (by rw [hphase]; rfl) rfl rfl rfl
  | failed hop _ hdone hfailed =>
    exact h.moved hop (AppendPhase.isFinal_eq_false hdone hfailed) rfl rfl rfl
  | unopened hop hphase hreserve =>
    obtain ⟨-, rfl⟩ := reserve_none hreserve
    exact h.moved hop (by rw [hphase]; rfl) rfl rfl rfl
  | startWrite hop hphase hreserve =>
    obtain ⟨file, -, -, rfl⟩ := reserve_some hreserve
    exact h.moved hop (by rw [hphase]; rfl) rfl rfl rfl
  | @writeDone m op placement hop hphase hplacement =>
    have hspec := writeDone_spec r m op placement
    refine h.moved hop (by rw [hphase]; rfl) hspec.ops ?_ ?_
    · rw [hspec.head]
    · rw [hspec.head]
      rfl
  | unsynced hop hphase => exact h.moved hop (by rw [hphase]; rfl) rfl rfl rfl
  | joined hop hphase => exact h.moved hop (by rw [hphase]; rfl) rfl rfl rfl
  | armed hop hphase => exact h.moved hop (by rw [hphase]; rfl) rfl rfl rfl
  | yielded hflush hphase =>
    unfold Reactor.yielded
    split <;> exact h.background rfl rfl
  | flushEnded => exact h.background rfl rfl
  | resolved hop hphase => exact h.moved hop (by rw [hphase]; rfl) rfl rfl rfl
  | indexWritten => exact h.background rfl rfl

theorem Alone.run {actions : List ReactorAction} (h : Alone n depth offsets r)
    (hcalls : ∀ b ∈ actions, b.call = none)
    (hrun : Transition.run Reactor.step r actions = some r') : Alone n depth offsets r' := by
  induction actions generalizing r with
  | nil =>
    obtain rfl := Option.some.inj hrun
    exact h
  | cons b rest ih =>
    rw [Transition.run] at hrun
    split at hrun
    · next r₁ hstep =>
        exact ih (h.step (hcalls b List.mem_cons_self) hstep)
          (fun c hc => hcalls c (List.mem_cons_of_mem _ hc)) hrun
    · cases hrun

end Alone

/-! ### The index -/

theorem indexFile_step {r' : Reactor} (hstep : r.step a = some r') :
    r'.shard.indexFile = r.shard.indexFile := by
  cases steps_of_step hstep with
  | admitted _ _ hensure =>
    rcases ensureSegmentForWrite_cases hensure with ⟨-, -, rfl⟩ | ⟨file, -, rfl, -⟩ <;> rfl
  | barrierPassed _ _ hafter =>
    rcases afterFlushBarrier_cases hafter with ⟨-, rfl⟩ | ⟨oldFile, -, -, -, rfl⟩ <;> rfl
  | unopened _ _ hreserve =>
    obtain ⟨-, rfl⟩ := reserve_none hreserve
    rfl
  | startWrite _ _ hreserve =>
    obtain ⟨file, -, -, rfl⟩ := reserve_some hreserve
    rfl
  | writeDone => exact (writeDone_spec r _ _ _).indexFile
  | yielded =>
    unfold Reactor.yielded
    split <;> rfl
  | _ => rfl

theorem writing_of_writeDone {r' : Reactor} {m : Nat} (h : r.step (.writeDone m) = some r') :
    ∃ op placement, r.ops[m]? = some op ∧ op.phase = .writing ∧
      r' = r.writeDone m op placement := by
  simp only [step] at h
  split at h
  · next op hop =>
      split at h
      · next hphase =>
          obtain ⟨placement, -, rfl⟩ := Option.map_eq_some_iff.mp h
          exact ⟨op, placement, hop, hphase, rfl⟩
      · cases h
  · cases h

section Index

variable {n depth : Nat} {offsets : PartitionOffsets} {r r' : Reactor}

/-- With the index file open the append is indexed when its write is done, and nothing
    else is indexed. -/
theorem Alone.indexEntries_step (h : Alone n depth offsets r)
    (hindexFile : r.shard.indexFile = true) {a : ReactorAction} (hcall : a.call = none)
    (hstep : r.step a = some r') :
    (a ≠ .writeDone n → r'.shard.indexEntries = r.shard.indexEntries) ∧
      (a = .writeDone n →
        r'.shard.indexEntries.length = r.shard.indexEntries.length + 1) := by
  constructor
  · intro hne
    cases logStep_of_step hstep with
    | quiet _ _ _ hentries => exact hentries
    | admitted _ _ _ _ _ _ _ hentries => exact hentries
    | indexed m _ _ _ ha =>
      subst ha
      obtain ⟨op, -, hop, hphase, -⟩ := writing_of_writeDone hstep
      have hmn : m ≠ n := fun heq => hne (heq ▸ rfl)
      have hfinal := h.others m op hop hmn
      rw [hphase] at hfinal
      cases hfinal
  · rintro rfl
    obtain ⟨op, placement, -, -, rfl⟩ := writing_of_writeDone hstep
    rcases (writeDone_spec r n op placement).indexed with ⟨-, -, hentries⟩ | ⟨hclosed, -⟩
    · rw [hentries, List.length_append, List.length_singleton]
    · rw [hindexFile] at hclosed
      cases hclosed

theorem Alone.indexEntries_run {actions : List ReactorAction} (h : Alone n depth offsets r)
    (hindexFile : r.shard.indexFile = true) (hcalls : ∀ b ∈ actions, b.call = none)
    (hrun : Transition.run Reactor.step r actions = some r') :
    (.writeDone n ∉ actions → r'.shard.indexEntries = r.shard.indexEntries) ∧
      (.writeDone n ∈ actions →
        r.shard.indexEntries.length < r'.shard.indexEntries.length) := by
  induction actions generalizing r with
  | nil =>
    obtain rfl := Option.some.inj hrun
    exact ⟨fun _ => rfl, fun hmem => absurd hmem List.not_mem_nil⟩
  | cons b rest ih =>
    rw [Transition.run] at hrun
    split at hrun
    · next r₁ hstep =>
        have hb := hcalls b List.mem_cons_self
        obtain ⟨hkept, hgrown⟩ := h.indexEntries_step hindexFile hb hstep
        obtain ⟨hrest, hrestGrown⟩ := ih (h.step hb hstep)
          ((indexFile_step hstep).trans hindexFile)
          (fun c hc => hcalls c (List.mem_cons_of_mem _ hc)) hrun
        constructor
        · intro hnot
          rw [hrest fun hmem => hnot (List.mem_cons_of_mem _ hmem)]
          exact hkept fun heq => hnot (heq ▸ List.mem_cons_self)
        · intro hmem
          by_cases hlater : ReactorAction.writeDone n ∈ rest
          · have hlt := hrestGrown hlater
            by_cases heq : b = .writeDone n
            · have hlength := hgrown heq
              omega
            · rw [hkept heq] at hlt
              exact hlt
          · have heq : b = .writeDone n := by
              rcases List.mem_cons.mp hmem with heq | hmem
              · exact heq.symm
              · exact absurd hmem hlater
            rw [hrest hlater, hgrown heq]
            exact Nat.lt_succ_self _
    · cases hrun

end Index

/-! ### The call -/

theorem step_of_admission (h : r.admission a = some admission) :
    r.step a = some (r.accept admission) := by
  cases a with
  | append records acks =>
    obtain rfl := Option.some.inj h
    rfl
  | appendReplica request =>
    obtain rfl := Option.some.inj h
    rfl
  | _ => cases h

theorem accept_indexEntries (h : r.admission a = some admission) :
    (r.accept admission).shard.indexEntries = r.shard.indexEntries := by
  cases logStep_of_step (step_of_admission h) with
  | quiet _ _ _ hentries => exact hentries
  | admitted _ _ _ _ _ _ _ hentries => exact hentries
  | indexed n _ _ _ ha =>
    subst ha
    cases h

/-- An append that was just admitted runs alone if all before it are over. -/
theorem alone_accept {recordSet : RecordSet} (hidle : ∀ op ∈ r.ops, op.phase.isFinal = true)
    (hset : admission.recordSet = some recordSet)
    (hdepth : admission.head.queueDepth = r.shard.queueDepth + 1) :
    Alone r.ops.length r.shard.queueDepth admission.head.offsets (r.accept admission) := by
  have hops : ∃ wait : SegmentWait, (r.accept admission).ops =
      r.ops ++ [{ recordSet := recordSet, phase := wait.phase }] := by
    unfold accept
    simp only [hset]
    exact ⟨_, rfl⟩
  obtain ⟨wait, hops⟩ := hops
  refine ⟨?_, by rw [accept_head], ?_⟩
  · intro m op hop hne
    rw [hops] at hop
    rcases append_ops hop with ⟨hlast, -⟩ | hop
    · exact absurd hlast hne
    · exact hidle op (List.mem_of_getElem? hop)
  · intro op hop
    rw [hops, List.getElem?_concat_length] at hop
    obtain rfl := Option.some.inj hop
    rw [accept_head, hdepth, SegmentWait.phase_isFinal]
    rfl

/-- **A failed call leaves no trace exactly when it had nothing to move and failed before
    its write was done.** -/
theorem failed_call_untraced_iff (r r' : Reactor) (a : ReactorAction) (call : LogCall)
    (hcall : a.call = some call) (hidle : ∀ op ∈ r.ops, op.phase.isFinal = true)
    (hindexFile : r.shard.indexFile = true) (point : FailurePoint) (hfails : r.Fails a point r') :
    Untraced r.shard r'.shard ↔ point.LeavesNoTrace r.shard.toLogHead call := by
  have hadmits : r.admission a = some (call.admission r.shard.toLogHead) := by
    unfold admission
    rw [hcall]
    rfl
  rcases call.admission_cases r.shard.toLogHead with ⟨hset, -, -, hok⟩ | ⟨hset, hhead, herror⟩
  · have hdepth := LogCall.admitted_queueDepth hset
    have hoffsets := LogCall.admitted_offsets_iff hset
    cases hfails with
    | refused hadmission herror =>
      obtain rfl := Option.some.inj (hadmission.symm.trans hadmits)
      exact absurd hok herror
    | allocation hadmission _ =>
      obtain rfl := Option.some.inj (hadmission.symm.trans hadmits)
      refine iff_of_false ?_ id
      intro huntraced
      have hsame : (call.admission r.shard.toLogHead).head.queueDepth = r.shard.queueDepth :=
        huntraced.queueDepth
      omega
    | @io _ r₁ _ actions op hadmission _ hstep hrun hcalls hop hfailed =>
      obtain rfl := Option.some.inj (hadmission.symm.trans hadmits)
      obtain rfl := Option.some.inj ((step_of_admission hadmits).symm.trans hstep)
      have halone := alone_accept hidle hset hdepth
      have hopen := (indexFile_step hstep).trans hindexFile
      obtain ⟨hkept, hgrown⟩ := halone.indexEntries_run hopen hcalls hrun
      have hdone := halone.run hcalls hrun
      rw [accept_indexEntries hadmits] at hkept hgrown
      have hleft : r'.shard.queueDepth = r.shard.queueDepth := by
        rw [hdone.depth op hop, hfailed]
        rfl
      split
      · next hwritten =>
          -- the flush failed: the index entry stays
          refine iff_of_false ?_ id
          intro huntraced
          have hlonger := hgrown hwritten
          rw [huntraced.indexEntries] at hlonger
          exact lt_irrefl _ hlonger
      · next hunwritten =>
          unfold FailurePoint.LeavesNoTrace
          rw [← hoffsets]
          constructor
          · intro huntraced
            exact hdone.offsets.symm.trans huntraced.offsets
          · intro hsame
            exact ⟨hdone.offsets.trans hsame, hkept hunwritten, hleft⟩
  · cases hfails with
    | refused hadmission _ hstep =>
      obtain rfl := Option.some.inj ((step_of_admission hadmits).symm.trans hstep)
      refine iff_of_true ?_ trivial
      have hsame : (r.accept (call.admission r.shard.toLogHead)).shard.toLogHead =
          r.shard.toLogHead := (accept_head _ _).trans hhead
      exact ⟨by rw [hsame], accept_indexEntries hadmits, by rw [hsame]⟩
    | allocation hadmission hok =>
      obtain rfl := Option.some.inj (hadmission.symm.trans hadmits)
      exact absurd hok herror
    | io hadmission hok =>
      obtain rfl := Option.some.inj (hadmission.symm.trans hadmits)
      exact absurd hok herror

/-- An empty append whose write fails, in a new log. -/
theorem failed_call_untraced_empty :
    ∃ r', (init defaultPartition 4096 512 (by decide)).Fails (.append [] 1) .write r' ∧
      Untraced (init defaultPartition 4096 512 (by decide)).shard r'.shard := by
  have hfails :
      ∃ r', (init defaultPartition 4096 512 (by decide)).Fails (.append [] 1) .write r' := by
    have hrun : ((Transition.run step
        ((init defaultPartition 4096 512 (by decide)).accept
          ((init defaultPartition 4096 512 (by decide)).shard.toLogHead.append [] 1))
        [.startWrite 0, .writeFailed 0]).map fun r => r.ops[0]?.map AppendOp.phase) =
          some (some .failed) := by
      decide +kernel
    obtain ⟨r', hr', hops⟩ := Option.map_eq_some_iff.mp hrun
    obtain ⟨op, hop, hphase⟩ := Option.map_eq_some_iff.mp hops
    have hio : (init defaultPartition 4096 512 (by decide)).Fails (.append [] 1) _ r' :=
      .io rfl rfl rfl hr' (by decide) hop hphase
    rw [if_neg (by decide)] at hio
    exact ⟨r', hio⟩
  obtain ⟨r', hr'⟩ := hfails
  refine ⟨r', hr', ?_⟩
  exact (failed_call_untraced_iff _ r' (.append [] 1) (.append [] 1) rfl
    (fun _ hop => absurd hop List.not_mem_nil) rfl .write hr').mpr ⟨rfl, fun _ => rfl⟩

/-- A write that fails leaves the offsets of its record set taken. -/
theorem failed_call_not_always_untraced :
    ¬ ∀ (config : PartitionConfig) (segmentBytes alignment : Nat) (halign : 0 < alignment)
        (r : Reactor),
        Transition.Reachable (fun r => r = init config segmentBytes alignment halign) step
          (fun _ _ => True) r →
        (∀ op ∈ r.ops, op.phase.isFinal = true) → ∀ (a : ReactorAction) (call : LogCall),
        a.call = some call → ∀ (point : FailurePoint) (r' : Reactor), r.Fails a point r' →
        Untraced r.shard r'.shard := by
  intro hall
  have hrun : ((Transition.run step
      ((init defaultPartition 4096 512 (by decide)).accept
        ((init defaultPartition 4096 512 (by decide)).shard.toLogHead.append [1] 1))
      [.startWrite 0, .writeFailed 0]).map fun r =>
        (r.ops[0]?.map AppendOp.phase, r.shard.offsets.latest)) = some (some .failed, 1) := by
    decide +kernel
  obtain ⟨r', hr', hfacts⟩ := Option.map_eq_some_iff.mp hrun
  obtain ⟨hops, hlatest⟩ := Prod.mk.inj hfacts
  obtain ⟨op, hop, hphase⟩ := Option.map_eq_some_iff.mp hops
  have hfails : (init defaultPartition 4096 512 (by decide)).Fails (.append [1] 1) _ r' :=
    .io rfl rfl rfl hr' (by decide) hop hphase
  have huntraced := hall defaultPartition 4096 512 (by decide) _ (.start rfl)
    (fun _ hop => absurd hop List.not_mem_nil) (.append [1] 1) (.append [1] 1) rfl _ r' hfails
  have hsame : r'.shard.offsets.latest = 0 := congrArg PartitionOffsets.latest huntraced.offsets
  rw [hlatest] at hsame
  exact absurd hsame (by decide)

end Reactor

end Mkmq
