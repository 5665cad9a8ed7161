import Mkmq.LogReading
import Mkmq.Transition

/-!
# Concurrent appends to one partition

On a reactor the appends of a partition overlap: each runs to its next wait, and the
waits (the flush barrier, the file open, the DMA write, the yield and the flush) end in
any order.  `Reactor` is the shard with its appends in flight, every action is one
continuation of `src/partition_log_shard.cpp`, and the pieces of code an action runs
are those of `PartitionLog`.  A continuation on a future that is already available may
still be deferred, so `ready` and `written` are waits too.

`now`, `writtenAt`, `startedAt` and `noted` record the order of events and are read by
no action.  A DMA write that completes has written all of its buffer.
-/

namespace Mkmq

open ByteCodec ListRules PartitionLogShard

/-! ### State -/

inductive AppendPhase where
  | barrier (flush : Option Nat)
  | opening (base : Int)
  | ready
  | writing
  | written
  | flushing (flush : Nat)
  | done
  | failed
deriving DecidableEq, Repr

/-- The phase in which an append waits for its segment. -/
def PartitionLogShard.SegmentWait.phase : SegmentWait → AppendPhase
  | .ready => .ready
  | .opening base => .opening base
  | .barrier flush => .barrier flush

structure AppendOp where
  recordSet : RecordSet
  phase : AppendPhase
  placement : Option Placement := none
  writtenAt : Option Nat := none
deriving DecidableEq, Repr

inductive FlushPhase where
  | armed
  | running
  | finished
  | failed
deriving DecidableEq, Repr

/-- One `pending_flush_`; `file` is the file its `flush()` was called on. -/
structure Flush where
  phase : FlushPhase := .armed
  file : Option Int := none
  startedAt : Option Nat := none
deriving DecidableEq, Repr

/-- `ops` and `flushes` are numbered in order of their start; `noted` tells which append
    each index entry was noted for. -/
structure Reactor where
  shard : PartitionLogShard
  ops : List AppendOp := []
  flushes : List Flush := []
  indexWrites : List (IndexEntry × Nat) := []
  noted : List Nat := []
  now : Nat := 0
deriving DecidableEq, Repr

inductive ReactorAction where
  | append (records : Bytes) (acks : Int)
  | appendReplica (request : ReplicaAppendRequest)
  | barrierPassed (n : Nat)
  | opened (n : Nat)
  | openFailed (n : Nat)
  | startWrite (n : Nat)
  | writeDone (n : Nat)
  | writeFailed (n : Nat)
  | flush (n : Nat)
  | yielded (k : Nat)
  | flushDone (k : Nat)
  | flushFailed (k : Nat)
  | resolve (n : Nat)
  | indexWritten (i : Nat)
deriving DecidableEq, Repr

/-- The request an action is, if it is one. -/
def ReactorAction.call : ReactorAction → Option LogCall
  | .append records acks => some (.append records acks)
  | .appendReplica request => some (.appendReplica request)
  | _ => none

namespace Reactor

variable {a : ReactorAction} {r r' : Reactor} {m n frameSize : Nat} {op other : AppendOp}
  {ops : List AppendOp} {placement : Placement} {s s' : PartitionLogShard} {wait : SegmentWait}
  {recordSet : RecordSet}

/-! ### Continuations -/

/-- Replace append `n` and the shard, one step later. -/
def update (r : Reactor) (n : Nat) (op : AppendOp) (shard : PartitionLogShard) : Reactor :=
  { r with shard := shard, ops := r.ops.set n op, now := r.now + 1 }

/-- The append's future has failed or resolved: its `finally` runs. -/
def leave (r : Reactor) (n : Nat) (op : AppendOp) (phase : AppendPhase)
    (shard : PartitionLogShard) : Reactor :=
  r.update n { op with phase := phase } { shard with toLogHead := shard.toLogHead.settle }

def admission (r : Reactor) (a : ReactorAction) : Option Admission :=
  a.call.map (LogCall.admission r.shard.toLogHead)

/-- Up to the first wait of an admitted append. -/
def accept (r : Reactor) (admission : Admission) : Reactor :=
  let shard := { r.shard with toLogHead := admission.head }
  match admission.recordSet with
  | none => { r with shard := shard, now := r.now + 1 }
  | some recordSet =>
    let (shard, wait) := shard.ensureSegmentForWrite recordSet.baseOffset
      (recordSet.frameSize shard.logFrameAlignment)
    { r with
      shard := shard
      ops := r.ops ++ [{ recordSet := recordSet, phase := wait.phase }]
      now := r.now + 1 }

/-- How the flush a barrier waits for has ended, if it has. -/
def flushResult (r : Reactor) : Option Nat → Option FlushPhase
  | none => some .finished
  | some k =>
    match r.flushes[k]? with
    | some { phase := .finished, .. } => some .finished
    | some { phase := .failed, .. } => some .failed
    | _ => none

def barrierPassed (r : Reactor) (n : Nat) (op : AppendOp) (flush : Option Nat) : Option Reactor :=
  match r.flushResult flush with
  | some .finished =>
    let (shard, wait) := r.shard.afterFlushBarrier op.recordSet.baseOffset
    some (r.update n { op with phase := wait.phase } shard)
  | some .failed => some (r.leave n op .failed r.shard)
  | _ => none

def startWrite (r : Reactor) (n : Nat) (op : AppendOp) : Reactor :=
  match r.shard.reserve (op.recordSet.frameSize r.shard.logFrameAlignment) with
  | (shard, some placement) =>
    r.update n { op with phase := .writing, placement := some placement } shard
  | (shard, none) => r.leave n op .failed shard

def writeDone (r : Reactor) (n : Nat) (op : AppendOp) (placement : Placement) : Reactor :=
  let entry := op.recordSet.entryAt placement.segmentBase placement.position
  let shard := r.shard.dmaWrite placement (op.recordSet.frame r.shard.logFrameAlignment)
  let op := { op with phase := .written, writtenAt := some r.now }
  match shard.scheduleIndexEntryWrite entry with
  | (shard, some position) =>
    { r.update n op shard with
      indexWrites := r.indexWrites ++ [(entry, position)]
      noted := r.noted ++ [n] }
  | (shard, none) => r.update n op shard

/-- `maybe_flush`, called once the write is done. -/
def flush (r : Reactor) (n : Nat) (op : AppendOp) : Reactor :=
  if r.shard.config.durability ≠ .fsync then r.leave n op .done r.shard
  else if r.shard.file = none then r.leave n op .failed r.shard
  else if r.shard.flushScheduled then
    r.update n { op with phase := .flushing r.shard.pendingFlush } r.shard
  else
    { r.update n { op with phase := .flushing r.flushes.length }
        { r.shard with flushScheduled := true, pendingFlush := r.flushes.length } with
      flushes := r.flushes ++ [{}] }

/-- The yield is over: the flag is cleared and the file that is open now is flushed. -/
def yielded (r : Reactor) (k : Nat) (flush : Flush) : Reactor :=
  let shard := { r.shard with flushScheduled := false }
  match r.shard.file with
  | none =>
    { r with
      shard := shard
      flushes := r.flushes.set k { flush with phase := .finished }
      now := r.now + 1 }
  | some file =>
    { r with
      shard := shard
      flushes := r.flushes.set k
        { flush with phase := .running, file := some file, startedAt := some r.now }
      now := r.now + 1 }

def endFlush (r : Reactor) (k : Nat) (flush : Flush) (phase : FlushPhase) : Reactor :=
  { r with flushes := r.flushes.set k { flush with phase := phase }, now := r.now + 1 }

def resolve (r : Reactor) (n : Nat) (op : AppendOp) (k : Nat) : Option Reactor :=
  match r.flushResult (some k) with
  | some .finished => some (r.leave n op .done r.shard)
  | some .failed => some (r.leave n op .failed r.shard)
  | _ => none

def indexWritten (r : Reactor) (i : Nat) : Option Reactor :=
  r.indexWrites[i]?.map fun (entry, position) =>
    { r with
      shard := r.shard.writeIndexEntryAt entry position
      indexWrites := r.indexWrites.eraseIdx i
      now := r.now + 1 }

def step (r : Reactor) : ReactorAction → Option Reactor
  | .append records acks => some (r.accept (r.shard.toLogHead.append records acks))
  | .appendReplica request => some (r.accept (r.shard.toLogHead.appendReplica request))
  | .barrierPassed n =>
    match r.ops[n]? with
    | some op => match op.phase with
        | .barrier flush => r.barrierPassed n op flush
        | _ => none
    | none => none
  | .opened n =>
    match r.ops[n]? with
    | some op => match op.phase with
        | .opening base =>
          some (r.update n { op with phase := .ready } (r.shard.openActiveSegment base))
        | _ => none
    | none => none
  | .openFailed n =>
    match r.ops[n]? with
    | some op => match op.phase with
        | .opening _ => some (r.leave n op .failed r.shard)
        | _ => none
    | none => none
  | .startWrite n =>
    match r.ops[n]? with
    | some op => if op.phase = .ready then some (r.startWrite n op) else none
    | none => none
  | .writeDone n =>
    match r.ops[n]? with
    | some op =>
      if op.phase = .writing then op.placement.map fun placement => r.writeDone n op placement
      else none
    | none => none
  | .writeFailed n =>
    match r.ops[n]? with
    | some op => if op.phase = .writing then some (r.leave n op .failed r.shard) else none
    | none => none
  | .flush n =>
    match r.ops[n]? with
    | some op => if op.phase = .written then some (r.flush n op) else none
    | none => none
  | .yielded k =>
    match r.flushes[k]? with
    | some flush => if flush.phase = .armed then some (r.yielded k flush) else none
    | none => none
  | .flushDone k =>
    match r.flushes[k]? with
    | some flush => if flush.phase = .running then some (r.endFlush k flush .finished) else none
    | none => none
  | .flushFailed k =>
    match r.flushes[k]? with
    | some flush => if flush.phase = .running then some (r.endFlush k flush .failed) else none
    | none => none
  | .resolve n =>
    match r.ops[n]? with
    | some op => match op.phase with
        | .flushing k => r.resolve n op k
        | _ => none
    | none => none
  | .indexWritten i => r.indexWritten i

/-! ### What a step can do -/

/-- Every way a step can go, with the state it leads to. -/
inductive Steps (r : Reactor) : ReactorAction → Reactor → Prop where
  | refused {a : ReactorAction} {admission : Admission} :
      r.admission a = some admission → admission.recordSet = none →
      Steps r a { r with shard := { r.shard with toLogHead := admission.head }, now := r.now + 1 }
  | admitted {a : ReactorAction} {admission : Admission} {recordSet : RecordSet}
      {shard : PartitionLogShard} {wait : SegmentWait} :
      r.admission a = some admission → admission.recordSet = some recordSet →
      { r.shard with toLogHead := admission.head }.ensureSegmentForWrite recordSet.baseOffset
        (recordSet.frameSize r.shard.logFrameAlignment) = (shard, wait) →
      Steps r a
        { r with
          shard := shard
          ops := r.ops ++ [{ recordSet := recordSet, phase := wait.phase }]
          now := r.now + 1 }
  | barrierPassed {n : Nat} {op : AppendOp} {flush : Option Nat} {shard : PartitionLogShard}
      {wait : SegmentWait} :
      r.ops[n]? = some op → op.phase = .barrier flush →
      r.shard.afterFlushBarrier op.recordSet.baseOffset = (shard, wait) →
      Steps r (.barrierPassed n) (r.update n { op with phase := wait.phase } shard)
  | opened {n : Nat} {op : AppendOp} {base : Int} :
      r.ops[n]? = some op → op.phase = .opening base →
      Steps r (.opened n) (r.update n { op with phase := .ready } (r.shard.openActiveSegment base))
  | failed {a : ReactorAction} {n : Nat} {op : AppendOp} :
      r.ops[n]? = some op → r.admission a = none → op.phase ≠ .done → op.phase ≠ .failed →
      Steps r a (r.leave n op .failed r.shard)
  | unopened {n : Nat} {op : AppendOp} {shard : PartitionLogShard} :
      r.ops[n]? = some op → op.phase = .ready →
      r.shard.reserve (op.recordSet.frameSize r.shard.logFrameAlignment) = (shard, none) →
      Steps r (.startWrite n) (r.leave n op .failed shard)
  | startWrite {n : Nat} {op : AppendOp} {shard : PartitionLogShard} {placement : Placement} :
      r.ops[n]? = some op → op.phase = .ready →
      r.shard.reserve (op.recordSet.frameSize r.shard.logFrameAlignment) =
        (shard, some placement) →
      Steps r (.startWrite n)
        (r.update n { op with phase := .writing, placement := some placement } shard)
  | writeDone {n : Nat} {op : AppendOp} {placement : Placement} :
      r.ops[n]? = some op → op.phase = .writing → op.placement = some placement →
      Steps r (.writeDone n) (r.writeDone n op placement)
  | unsynced {n : Nat} {op : AppendOp} :
      r.ops[n]? = some op → op.phase = .written → r.shard.config.durability ≠ .fsync →
      Steps r (.flush n) (r.leave n op .done r.shard)
  | joined {n : Nat} {op : AppendOp} {file : Int} :
      r.ops[n]? = some op → op.phase = .written → r.shard.file = some file →
      r.shard.flushScheduled = true →
      Steps r (.flush n) (r.update n { op with phase := .flushing r.shard.pendingFlush } r.shard)
  | armed {n : Nat} {op : AppendOp} {file : Int} :
      r.ops[n]? = some op → op.phase = .written → r.shard.file = some file →
      Steps r (.flush n)
        { r.update n { op with phase := .flushing r.flushes.length }
            { r.shard with flushScheduled := true, pendingFlush := r.flushes.length } with
          flushes := r.flushes ++ [{}] }
  | yielded {k : Nat} {flush : Flush} :
      r.flushes[k]? = some flush → flush.phase = .armed → Steps r (.yielded k) (r.yielded k flush)
  | flushEnded {a : ReactorAction} {k : Nat} {flush : Flush} {phase : FlushPhase} :
      r.admission a = none → r.flushes[k]? = some flush → flush.phase = .running →
      phase = .finished ∨ phase = .failed → Steps r a (r.endFlush k flush phase)
  | resolved {n : Nat} {op : AppendOp} {k : Nat} {flush : Flush} :
      r.ops[n]? = some op → op.phase = .flushing k → r.flushes[k]? = some flush →
      flush.phase = .finished → Steps r (.resolve n) (r.leave n op .done r.shard)
  | indexWritten {i : Nat} {entry : IndexEntry} {position : Nat} :
      r.indexWrites[i]? = some (entry, position) →
      Steps r (.indexWritten i)
        { r with
          shard := r.shard.writeIndexEntryAt entry position
          indexWrites := r.indexWrites.eraseIdx i
          now := r.now + 1 }

theorem steps_of_accept {admission : Admission} (h : r.admission a = some admission) :
    r.Steps a (r.accept admission) := by
  unfold accept
  cases hset : admission.recordSet with
  | none => exact Steps.refused h hset
  | some recordSet => exact Steps.admitted h hset rfl

theorem flushResult_some {k : Nat} (h : r.flushResult (some k) = some .finished) :
    ∃ flush, r.flushes[k]? = some flush ∧ flush.phase = .finished := by
  unfold flushResult at h
  split at h
  · next hnone => cases hnone
  · next j hsome =>
      obtain rfl := Option.some.inj hsome
      split at h
      · next hflush => exact ⟨_, hflush, rfl⟩
      · cases h
      · cases h

/-- **A step goes one of the ways listed.** -/
theorem steps_of_step (h : r.step a = some r') : r.Steps a r' := by
  cases a with
  | append records acks =>
    obtain rfl := Option.some.inj h
    exact steps_of_accept rfl
  | appendReplica request =>
    obtain rfl := Option.some.inj h
    exact steps_of_accept rfl
  | barrierPassed n =>
    simp only [step] at h
    split at h
    · next op hop =>
        split at h
        · next flush hphase =>
            unfold Reactor.barrierPassed at h
            split at h
            · obtain rfl := Option.some.inj h
              exact Steps.barrierPassed hop hphase rfl
            · obtain rfl := Option.some.inj h
              exact Steps.failed hop rfl (by rw [hphase]; simp) (by rw [hphase]; simp)
            · cases h
        · cases h
    · cases h
  | opened n =>
    simp only [step] at h
    split at h
    · next op hop =>
        split at h
        · next base hphase =>
            obtain rfl := Option.some.inj h
            exact Steps.opened hop hphase
        · cases h
    · cases h
  | openFailed n =>
    simp only [step] at h
    split at h
    · next op hop =>
        split at h
        · next base hphase =>
            obtain rfl := Option.some.inj h
            exact Steps.failed hop rfl (by rw [hphase]; simp) (by rw [hphase]; simp)
        · cases h
    · cases h
  | startWrite n =>
    simp only [step] at h
    split at h
    · next op hop =>
        split at h
        · next hphase =>
            obtain rfl := Option.some.inj h
            unfold Reactor.startWrite
            split
            · next hreserve => exact Steps.startWrite hop hphase hreserve
            · next hreserve => exact Steps.unopened hop hphase hreserve
        · cases h
    · cases h
  | writeDone n =>
    simp only [step] at h
    split at h
    · next op hop =>
        split at h
        · next hphase =>
            obtain ⟨placement, hplacement, rfl⟩ := Option.map_eq_some_iff.mp h
            exact Steps.writeDone hop hphase hplacement
        · cases h
    · cases h
  | writeFailed n =>
    simp only [step] at h
    split at h
    · next op hop =>
        split at h
        · next hphase =>
            obtain rfl := Option.some.inj h
            exact Steps.failed hop rfl (by rw [hphase]; simp) (by rw [hphase]; simp)
        · cases h
    · cases h
  | flush n =>
    simp only [step] at h
    split at h
    · next op hop =>
        split at h
        · next hphase =>
            obtain rfl := Option.some.inj h
            unfold Reactor.flush
            split
            · next hdurability => exact Steps.unsynced hop hphase hdurability
            split
            · exact Steps.failed hop rfl (by rw [hphase]; simp) (by rw [hphase]; simp)
            next hfile =>
              obtain ⟨file, hfile⟩ := Option.ne_none_iff_exists'.mp hfile
              split
              · next hscheduled => exact Steps.joined hop hphase hfile hscheduled
              · exact Steps.armed hop hphase hfile
        · cases h
    · cases h
  | yielded k =>
    simp only [step] at h
    split at h
    · next flush hflush =>
        split at h
        · next hphase =>
            obtain rfl := Option.some.inj h
            exact Steps.yielded hflush hphase
        · cases h
    · cases h
  | flushDone k =>
    simp only [step] at h
    split at h
    · next flush hflush =>
        split at h
        · next hphase =>
            obtain rfl := Option.some.inj h
            exact Steps.flushEnded rfl hflush hphase (Or.inl rfl)
        · cases h
    · cases h
  | flushFailed k =>
    simp only [step] at h
    split at h
    · next flush hflush =>
        split at h
        · next hphase =>
            obtain rfl := Option.some.inj h
            exact Steps.flushEnded rfl hflush hphase (Or.inr rfl)
        · cases h
    · cases h
  | resolve n =>
    simp only [step] at h
    split at h
    · next op hop =>
        split at h
        · next k hphase =>
            unfold Reactor.resolve at h
            split at h
            · next hresult =>
                obtain rfl := Option.some.inj h
                obtain ⟨flush, hflush, hfinished⟩ := flushResult_some hresult
                exact Steps.resolved hop hphase hflush hfinished
            · obtain rfl := Option.some.inj h
              exact Steps.failed hop rfl (by rw [hphase]; simp) (by rw [hphase]; simp)
            · cases h
        · cases h
    · cases h
  | indexWritten i =>
    simp only [step, Reactor.indexWritten] at h
    obtain ⟨⟨entry, position⟩, hwrite, rfl⟩ := Option.map_eq_some_iff.mp h
    exact Steps.indexWritten hwrite

/-! ### Looking up appends -/

/-- After a replacement, append `m` is the new one or an old one. -/
theorem set_ops (h : (ops.set n op)[m]? = some other) :
    (m = n ∧ other = op) ∨ (m ≠ n ∧ ops[m]? = some other) := by
  rw [List.getElem?_set] at h
  by_cases hm : n = m
  · rw [if_pos hm] at h
    split at h
    · exact Or.inl ⟨hm.symm, (Option.some.inj h).symm⟩
    · cases h
  · rw [if_neg hm] at h
    exact Or.inr ⟨Ne.symm hm, h⟩

theorem set_ops_self {old : AppendOp} (hold : ops[n]? = some old) (op : AppendOp) :
    (ops.set n op)[n]? = some op := by
  obtain ⟨hlt, -⟩ := List.getElem?_eq_some_iff.mp hold
  exact List.getElem?_set_self hlt

theorem set_ops_ne (hne : m ≠ n) (op : AppendOp) : (ops.set n op)[m]? = ops[m]? :=
  List.getElem?_set_ne (Ne.symm hne)

/-- After an addition at the end, an element is the new one or an old one. -/
theorem getElem?_concat {α : Type} {l : List α} {x other : α} (h : (l ++ [x])[m]? = some other) :
    (m = l.length ∧ other = x) ∨ l[m]? = some other := by
  by_cases hlt : m < l.length
  · rw [List.getElem?_append_left hlt] at h
    exact Or.inr h
  · rw [List.getElem?_append_right (not_lt.mp hlt)] at h
    obtain ⟨hzero, heq⟩ := List.getElem?_eq_some_iff.mp h
    simp only [List.length_singleton] at hzero
    refine Or.inl ⟨by omega, ?_⟩
    simpa using heq.symm

/-- After an admission, append `m` is the new one or an old one. -/
theorem append_ops (h : (ops ++ [op])[m]? = some other) :
    (m = ops.length ∧ other = op) ∨ ops[m]? = some other := getElem?_concat h

theorem append_ops_of_some (h : ops[m]? = some other) (op : AppendOp) :
    (ops ++ [op])[m]? = some other := by
  obtain ⟨hlt, -⟩ := List.getElem?_eq_some_iff.mp h
  rw [List.getElem?_append_left hlt, h]

/-- One append changes its phase, or a new one arrives in that phase; everything else
    about the appends is as before. -/
structure OpsMoved (ops ops' : List AppendOp) (k : Nat) (phase : AppendPhase) : Prop where
  back : ∀ (m : Nat) (other : AppendOp), ops'[m]? = some other →
    (∃ before, ops[m]? = some before ∧ other.recordSet = before.recordSet ∧
      other.placement = before.placement ∧ other.writtenAt = before.writtenAt ∧
      (other.phase = before.phase ∨ (m = k ∧ other.phase = phase))) ∨
    (m = k ∧ ops[m]? = none ∧ other.placement = none ∧ other.writtenAt = none ∧
      other.phase = phase)
  forth : ∀ (m : Nat) (before : AppendOp), ops[m]? = some before →
    ∃ other, ops'[m]? = some other ∧ other.recordSet = before.recordSet ∧
      other.placement = before.placement ∧ other.writtenAt = before.writtenAt

theorem opsMoved_set (hop : ops[n]? = some op) (phase : AppendPhase) :
    OpsMoved ops (ops.set n { op with phase := phase }) n phase := by
  refine ⟨?_, ?_⟩
  · intro m other hm
    rcases set_ops hm with ⟨rfl, rfl⟩ | ⟨-, hm⟩
    · exact Or.inl ⟨op, hop, rfl, rfl, rfl, Or.inr ⟨rfl, rfl⟩⟩
    · exact Or.inl ⟨other, hm, rfl, rfl, rfl, Or.inl rfl⟩
  · intro m before hm
    by_cases hmn : m = n
    · subst hmn
      rw [hop] at hm
      obtain rfl := Option.some.inj hm
      exact ⟨_, set_ops_self hop _, rfl, rfl, rfl⟩
    · exact ⟨before, (set_ops_ne hmn _).trans hm, rfl, rfl, rfl⟩

theorem opsMoved_append (ops : List AppendOp) (recordSet : RecordSet) (phase : AppendPhase) :
    OpsMoved ops (ops ++ [{ recordSet := recordSet, phase := phase }]) ops.length phase := by
  refine ⟨?_, ?_⟩
  · intro m other hm
    rcases append_ops hm with ⟨rfl, rfl⟩ | hm
    · exact Or.inr ⟨rfl, List.getElem?_eq_none (le_refl _), rfl, rfl, rfl⟩
    · exact Or.inl ⟨other, hm, rfl, rfl, rfl, Or.inl rfl⟩
  · intro m before hm
    exact ⟨before, append_ops_of_some hm _, rfl, rfl, rfl⟩

/-- A placement belongs to an append that was there before. -/
theorem OpsMoved.of_placement {ops' : List AppendOp} {k : Nat} {phase : AppendPhase}
    (h : OpsMoved ops ops' k phase) (hm : ops'[m]? = some other)
    (hp : other.placement = some placement) :
    ∃ before, ops[m]? = some before ∧ other.recordSet = before.recordSet ∧
      before.placement = some placement := by
  rcases h.back m other hm with ⟨before, hbefore, hset, hplace, -, -⟩ | ⟨-, -, hnone, -, -⟩
  · exact ⟨before, hbefore, hset, hplace ▸ hp⟩
  · rw [hnone] at hp
    cases hp

/-! ### The code between waits, case by case -/

theorem ensureSegmentForWrite_cases {baseOffset : Int}
    (h : s.ensureSegmentForWrite baseOffset frameSize = (s', wait)) :
    (s.file = none ∧ wait = .opening baseOffset ∧
      s' = { s with activeSegmentBaseOffset := baseOffset, writePosition := 0 }) ∨
    (∃ file, s.file = some file ∧ s' = s ∧ ∀ base, wait.phase ≠ .opening base) := by
  unfold ensureSegmentForWrite at h
  split at h
  · next hfile =>
      obtain ⟨rfl, rfl⟩ := Prod.mk.inj h
      exact Or.inl ⟨hfile, rfl, rfl⟩
  · next file hfile =>
      refine Or.inr ⟨file, hfile, ?_⟩
      split at h
      · obtain ⟨rfl, rfl⟩ := Prod.mk.inj h
        exact ⟨rfl, by simp [SegmentWait.phase]⟩
      · obtain ⟨rfl, rfl⟩ := Prod.mk.inj h
        exact ⟨rfl, by simp [SegmentWait.phase]⟩

theorem afterFlushBarrier_cases {baseOffset : Int} (h : s.afterFlushBarrier baseOffset =
    (s', wait)) :
    (wait = .ready ∧ s' = s) ∨
    (∃ oldFile, s.file = some oldFile ∧ s.writePosition ≠ 0 ∧ wait = .opening baseOffset ∧
      s' = { s with
        file := none
        segmentCache :=
          (s.activeSegmentBaseOffset, oldFile) :: s.segmentCache.take (kSegmentCacheMax - 1)
        activeSegmentBaseOffset := baseOffset
        writePosition := 0 }) := by
  unfold afterFlushBarrier at h
  split at h
  · obtain ⟨rfl, rfl⟩ := Prod.mk.inj h
    exact Or.inl ⟨rfl, rfl⟩
  · next oldFile hfile =>
      split at h
      · obtain ⟨rfl, rfl⟩ := Prod.mk.inj h
        exact Or.inl ⟨rfl, rfl⟩
      · next hposition =>
          obtain ⟨rfl, rfl⟩ := Prod.mk.inj h
          exact Or.inr ⟨oldFile, hfile, hposition, rfl, rfl⟩

theorem reserve_some (h : s.reserve frameSize = (s', some placement)) :
    ∃ file, s.file = some file ∧
      placement = ⟨file, s.activeSegmentBaseOffset, s.writePosition⟩ ∧
      s' = { s with writePosition := s.writePosition + frameSize } := by
  obtain ⟨rfl, hplacement⟩ := Prod.mk.inj h
  obtain ⟨file, hfile, rfl⟩ := Option.map_eq_some_iff.mp hplacement
  exact ⟨file, hfile, rfl, rfl⟩

theorem reserve_none (h : s.reserve frameSize = (s', none)) :
    s.file = none ∧ s' = { s with writePosition := s.writePosition + frameSize } := by
  obtain ⟨rfl, hplacement⟩ := Prod.mk.inj h
  exact ⟨Option.map_eq_none_iff.mp hplacement, rfl⟩

/-- What a completed write changes, and that it changes nothing else. -/
structure WriteDoneSpec (r : Reactor) (n : Nat) (op : AppendOp) (placement : Placement)
    (r' : Reactor) : Prop where
  ops : r'.ops = r.ops.set n { op with phase := .written, writtenAt := some r.now }
  flushes : r'.flushes = r.flushes
  now : r'.now = r.now + 1
  head : r'.shard.toLogHead = r.shard.toLogHead
  file : r'.shard.file = r.shard.file
  active : r'.shard.activeSegmentBaseOffset = r.shard.activeSegmentBaseOffset
  position : r'.shard.writePosition = r.shard.writePosition
  alignment : r'.shard.logFrameAlignment = r.shard.logFrameAlignment
  segmentBytes : r'.shard.segmentBytes = r.shard.segmentBytes
  scheduled : r'.shard.flushScheduled = r.shard.flushScheduled
  pending : r'.shard.pendingFlush = r.shard.pendingFlush
  indexFile : r'.shard.indexFile = r.shard.indexFile
  root : r'.shard.root = r.shard.root.writeSegment placement.file placement.position
    (op.recordSet.frame r.shard.logFrameAlignment)
  indexed : (r.shard.indexFile = true ∧ r'.noted = r.noted ++ [n] ∧
      r'.shard.indexEntries = r.shard.indexEntries ++
        [op.recordSet.entryAt placement.segmentBase placement.position]) ∨
    (r.shard.indexFile = false ∧ r'.noted = r.noted ∧
      r'.shard.indexEntries = r.shard.indexEntries)

theorem writeDone_spec (r : Reactor) (n : Nat) (op : AppendOp) (placement : Placement) :
    WriteDoneSpec r n op placement (r.writeDone n op placement) := by
  cases hindex : r.shard.indexFile with
  | true =>
    simp only [writeDone, scheduleIndexEntryWrite, dmaWrite, hindex, if_true, noteIndexEntry]
    exact
      { ops := rfl, flushes := rfl, now := rfl, head := rfl, file := rfl, active := rfl
        position := rfl, alignment := rfl, segmentBytes := rfl, scheduled := rfl
        pending := rfl
        indexFile := hindex.symm, root := rfl, indexed := Or.inl ⟨hindex, rfl, rfl⟩ }
  | false =>
    simp only [writeDone, scheduleIndexEntryWrite, dmaWrite, hindex, Bool.false_eq_true,
      if_false]
    exact
      { ops := rfl, flushes := rfl, now := rfl, head := rfl, file := rfl, active := rfl
        position := rfl, alignment := rfl, segmentBytes := rfl, scheduled := rfl
        pending := rfl
        indexFile := hindex.symm, root := rfl, indexed := Or.inr ⟨hindex, rfl, rfl⟩ }

/-! ### What acceptance does -/

/-- An accepted request is one more append in flight. -/
theorem accept_ops {admission : Admission} (h : admission.recordSet = some recordSet) :
    ∃ phase, (r.accept admission).ops = r.ops ++ [{ recordSet := recordSet, phase := phase }] := by
  unfold accept
  simp only [h]
  exact ⟨_, rfl⟩

/-- Waiting for a segment changes nothing at the head. -/
theorem accept_head (r : Reactor) (admission : Admission) :
    (r.accept admission).shard.toLogHead = admission.head := by
  unfold accept
  split
  · rfl
  · next recordSet _ =>
      simp only
      cases hensure : PartitionLogShard.ensureSegmentForWrite
          { r.shard with toLogHead := admission.head } recordSet.baseOffset
          (recordSet.frameSize r.shard.logFrameAlignment) with
      | mk shard wait =>
        rcases ensureSegmentForWrite_cases hensure with ⟨-, -, rfl⟩ | ⟨file, -, rfl, -⟩ <;> rfl

/-! ### The log as admitted and as indexed -/

/-- The record sets admitted so far, in offset order. -/
def recordSets (r : Reactor) : List RecordSet := r.ops.map AppendOp.recordSet

theorem recordSets_getElem? (h : r.ops[n]? = some op) : r.recordSets[n]? = some op.recordSet := by
  unfold recordSets
  rw [List.getElem?_map, h, Option.map_some]

/-- Replacing an element by one that looks the same changes nothing. -/
theorem map_set_same {α β : Type} (f : α → β) {l : List α} {x x' : α} (hx : l[n]? = some x)
    (hf : f x' = f x) : (l.set n x').map f = l.map f := by
  obtain ⟨hlt, heq⟩ := List.getElem?_eq_some_iff.mp hx
  rw [List.map_set, hf, ← heq, ← List.getElem_map f (h := by simpa using hlt),
    List.set_getElem_self]

theorem recordSets_set {op' : AppendOp} (hop : ops[n]? = some op)
    (hset : op'.recordSet = op.recordSet) :
    (ops.set n op').map AppendOp.recordSet = ops.map AppendOp.recordSet :=
  map_set_same AppendOp.recordSet hop hset

/-- An admitted record set holds the records of the request, starts at the log end and
    moves it to its own end. -/
theorem admission_recordSet {admission : Admission} (h : r.admission a = some admission)
    (hset : admission.recordSet = some recordSet) :
    recordSet = recordSetAt r.shard.offsets.latest recordSet.bytes ∧
      admission.head.offsets.latest = recordSet.endOffset ∧
      a.call.map LogCall.records = some recordSet.bytes := by
  obtain ⟨call, hcall, rfl⟩ := Option.map_eq_some_iff.mp h
  rcases call.admission_cases r.shard.toLogHead with ⟨hadmitted, hlatest, -⟩ | ⟨hrefused, -⟩
  · obtain rfl := Option.some.inj (hadmitted.symm.trans hset)
    rw [hlatest, recordSetAt_endOffset, hcall]
    exact ⟨rfl, rfl, rfl⟩
  · rw [hrefused] at hset
    cases hset

/-- A refused request leaves the head as it was. -/
theorem admission_refused {admission : Admission} (h : r.admission a = some admission)
    (hset : admission.recordSet = none) : admission.head = r.shard.toLogHead := by
  obtain ⟨call, -, rfl⟩ := Option.map_eq_some_iff.mp h
  rcases call.admission_cases r.shard.toLogHead with ⟨hadmitted, -⟩ | ⟨-, hhead, -⟩
  · rw [hadmitted] at hset
    cases hset
  · exact hhead

theorem admission_config {admission : Admission} (h : r.admission a = some admission) :
    admission.head.config = r.shard.config := by
  obtain ⟨call, -, rfl⟩ := Option.map_eq_some_iff.mp h
  rcases call.admission_cases r.shard.toLogHead with ⟨-, -, hconfig, -⟩ | ⟨-, hhead, -⟩
  · exact hconfig
  · rw [hhead]

/-- How a step changes the admitted log and the index. -/
inductive LogStep (r : Reactor) (a : ReactorAction) (r' : Reactor) : Prop where
  | quiet : r'.recordSets = r.recordSets → r'.shard.offsets.latest = r.shard.offsets.latest →
      r'.noted = r.noted → r'.shard.indexEntries = r.shard.indexEntries → LogStep r a r'
  | admitted (admission : Admission) (recordSet : RecordSet) :
      r.admission a = some admission → admission.recordSet = some recordSet →
      r'.recordSets = r.recordSets ++ [recordSet] →
      r'.shard.offsets.latest = recordSet.endOffset →
      r'.noted = r.noted → r'.shard.indexEntries = r.shard.indexEntries → LogStep r a r'
  | indexed (n : Nat) (recordSet : RecordSet) (segmentBase : Int) (position : Nat) :
      a = .writeDone n → r.recordSets[n]? = some recordSet →
      r'.recordSets = r.recordSets → r'.shard.offsets.latest = r.shard.offsets.latest →
      r'.noted = r.noted ++ [n] →
      r'.shard.indexEntries = r.shard.indexEntries ++ [recordSet.entryAt segmentBase position] →
      LogStep r a r'

theorem logStep_of_step (h : r.step a = some r') : LogStep r a r' := by
  cases steps_of_step h with
  | refused hadmission hset =>
    exact .quiet rfl (by rw [admission_refused hadmission hset]) rfl rfl
  | admitted hadmission hset hensure =>
    obtain ⟨-, hend, -⟩ := admission_recordSet hadmission hset
    rcases ensureSegmentForWrite_cases hensure with ⟨-, rfl, rfl⟩ | ⟨file, -, rfl, -⟩
    · exact .admitted _ _ hadmission hset (List.map_append ..) hend rfl rfl
    · exact .admitted _ _ hadmission hset (List.map_append ..) hend rfl rfl
  | barrierPassed hop hphase hafter =>
    rcases afterFlushBarrier_cases hafter with ⟨rfl, rfl⟩ | ⟨oldFile, -, -, rfl, rfl⟩
    · exact .quiet (recordSets_set hop rfl) rfl rfl rfl
    · exact .quiet (recordSets_set hop rfl) rfl rfl rfl
  | opened hop hphase => exact .quiet (recordSets_set hop rfl) rfl rfl rfl
  | failed hop => exact .quiet (recordSets_set hop rfl) rfl rfl rfl
  | unopened hop hphase hreserve =>
    obtain ⟨-, rfl⟩ := reserve_none hreserve
    exact .quiet (recordSets_set hop rfl) rfl rfl rfl
  | startWrite hop hphase hreserve =>
    obtain ⟨file, -, rfl, rfl⟩ := reserve_some hreserve
    exact .quiet (recordSets_set hop rfl) rfl rfl rfl
  | @writeDone n op placement hop hphase hplacement =>
    have hspec := writeDone_spec r n op placement
    have hsets : (r.writeDone n op placement).recordSets = r.recordSets := by
      unfold recordSets
      rw [hspec.ops]
      exact recordSets_set hop rfl
    have hlatest : (r.writeDone n op placement).shard.offsets.latest = r.shard.offsets.latest := by
      rw [hspec.head]
    rcases hspec.indexed with ⟨-, hnoted, hentries⟩ | ⟨-, hnoted, hentries⟩
    · exact .indexed n op.recordSet _ _ rfl (recordSets_getElem? hop) hsets hlatest hnoted hentries
    · exact .quiet hsets hlatest hnoted hentries
  | unsynced hop hphase _ => exact .quiet (recordSets_set hop rfl) rfl rfl rfl
  | joined hop hphase _ _ => exact .quiet (recordSets_set hop rfl) rfl rfl rfl
  | armed hop hphase _ => exact .quiet (recordSets_set hop rfl) rfl rfl rfl
  | yielded hflush hphase =>
    unfold Reactor.yielded
    split <;> exact .quiet rfl rfl rfl rfl
  | flushEnded _ hflush hphase _ => exact .quiet rfl rfl rfl rfl
  | resolved hop hphase hflush hfinished => exact .quiet (recordSets_set hop rfl) rfl rfl rfl
  | indexWritten hwrite => exact .quiet rfl rfl rfl rfl

/-- What is fixed when a partition is started. -/
def settings (r : Reactor) : PartitionConfig × Nat × Nat :=
  (r.shard.config, r.shard.segmentBytes, r.shard.logFrameAlignment)

/-- No step changes the settings. -/
theorem settings_step (h : r.step a = some r') : r'.settings = r.settings := by
  cases steps_of_step h with
  | refused hadmission hset =>
    unfold settings
    rw [admission_config hadmission]
  | admitted hadmission hset hensure =>
    have hconfig := admission_config hadmission
    unfold settings
    rcases ensureSegmentForWrite_cases hensure with ⟨-, -, rfl⟩ | ⟨file, -, rfl, -⟩ <;>
      rw [hconfig]
  | barrierPassed hop hphase hafter =>
    rcases afterFlushBarrier_cases hafter with ⟨-, rfl⟩ | ⟨oldFile, -, -, -, rfl⟩ <;> rfl
  | unopened hop hphase hreserve =>
    obtain ⟨-, rfl⟩ := reserve_none hreserve
    rfl
  | startWrite hop hphase hreserve =>
    obtain ⟨file, -, -, rfl⟩ := reserve_some hreserve
    rfl
  | @writeDone n op placement hop hphase hplacement =>
    have hspec := writeDone_spec r n op placement
    unfold settings
    rw [hspec.head, hspec.segmentBytes, hspec.alignment]
  | yielded hflush hphase =>
    unfold Reactor.yielded
    split <;> rfl
  | _ => rfl

theorem config_step (h : r.step a = some r') :
    r'.shard.config = r.shard.config := congrArg (fun settings => settings.1) (settings_step h)

theorem alignment_step (h : r.step a = some r') :
    r'.shard.logFrameAlignment = r.shard.logFrameAlignment :=
  congrArg (fun settings => settings.2.2) (settings_step h)

/-- The records of every request are non-empty. -/
def AppendsRecords (_ : Reactor) (a : ReactorAction) : Prop :=
  ∀ call ∈ a.call, call.records ≠ []

instance (r : Reactor) (a : ReactorAction) : Decidable (r.AppendsRecords a) := by
  unfold AppendsRecords
  infer_instance

/-- What holds of the records of every request holds of every record set admitted. -/
theorem recordSets_forall {P : Bytes → Prop} (h : ∀ recordSet ∈ r.recordSets, P recordSet.bytes)
    (hcall : ∀ call ∈ a.call, P call.records) (hstep : r.step a = some r') :
    ∀ recordSet ∈ r'.recordSets, P recordSet.bytes := by
  cases logStep_of_step hstep with
  | quiet hsets => rwa [hsets]
  | admitted admission recordSet hadmission hset hsets =>
    obtain ⟨-, -, hbytes⟩ := admission_recordSet hadmission hset
    obtain ⟨call, hmem, hrecords⟩ := Option.map_eq_some_iff.mp hbytes
    rw [hsets]
    refine forall_mem_concat.mpr ⟨h, ?_⟩
    rw [← hrecords]
    exact hcall call hmem
  | indexed n recordSet segmentBase position _ _ hsets => rwa [hsets]

/-- The record sets admitted follow each other, from offset 0 to the log end. -/
structure LogInv (r : Reactor) : Prop where
  ascending : r.recordSets.Pairwise fun recordSet later =>
    recordSet.lastOffset < later.baseOffset
  bounds : ∀ recordSet ∈ r.recordSets, 0 ≤ recordSet.baseOffset ∧
    recordSet.baseOffset ≤ recordSet.lastOffset ∧ recordSet.lastOffset < r.shard.offsets.latest
  shape : ∀ recordSet ∈ r.recordSets, recordSet = recordSetAt recordSet.baseOffset recordSet.bytes
  latest_nonneg : 0 ≤ r.shard.offsets.latest

theorem LogInv.step (h : r.LogInv) (hrecords : r.AppendsRecords a) (hstep : r.step a = some r') :
    r'.LogInv := by
  cases logStep_of_step hstep with
  | quiet hsets hlatest =>
    exact ⟨by rw [hsets]; exact h.ascending, by rw [hsets, hlatest]; exact h.bounds,
      by rw [hsets]; exact h.shape, by rw [hlatest]; exact h.latest_nonneg⟩
  | admitted admission recordSet hadmission hset hsets hlatest =>
    obtain ⟨hat, -, hbytes⟩ := admission_recordSet hadmission hset
    obtain ⟨call, hcall, hcallBytes⟩ := Option.map_eq_some_iff.mp hbytes
    have hne : recordSet.bytes ≠ [] := hcallBytes ▸ hrecords call hcall
    have hbase : recordSet.baseOffset = r.shard.offsets.latest := by rw [hat]; rfl
    have hend : recordSet.endOffset = recordSet.baseOffset +
        estimateRecordCount recordSet.bytes := by
      rw [hbase, ← recordSetAt_endOffset, ← hat]
    have hcount := one_le_estimateRecordCount hne
    have hnonneg := h.latest_nonneg
    unfold RecordSet.endOffset at hend
    refine ⟨?_, ?_, ?_, ?_⟩
    · rw [hsets]
      refine pairwise_concat.mpr ⟨h.ascending, ?_⟩
      intro earlier hearlier
      rw [hbase]
      exact (h.bounds earlier hearlier).2.2
    · rw [hsets, hlatest]
      unfold RecordSet.endOffset
      refine forall_mem_concat.mpr ⟨?_, by omega, by omega, Int.lt_succ _⟩
      intro other hother
      obtain ⟨hlo, hle, hlt⟩ := h.bounds other hother
      exact ⟨hlo, hle, by omega⟩
    · rw [hsets]
      refine forall_mem_concat.mpr ⟨h.shape, ?_⟩
      rw [hbase]
      exact hat
    · rw [hlatest]
      unfold RecordSet.endOffset
      omega
  | indexed n recordSet segmentBase position _ _ hsets hlatest =>
    exact ⟨by rw [hsets]; exact h.ascending, by rw [hsets, hlatest]; exact h.bounds,
      by rw [hsets]; exact h.shape, by rw [hlatest]; exact h.latest_nonneg⟩

/-- A reactor on a fresh log, before the first append. -/
def init (config : PartitionConfig) (segmentBytes alignment : Nat) (h : 0 < alignment) :
    Reactor where
  shard := PartitionLogShard.fresh config segmentBytes alignment h

theorem logInv_init (config : PartitionConfig) (segmentBytes alignment : Nat)
    (halign : 0 < alignment) : (init config segmentBytes alignment halign).LogInv where
  ascending := List.Pairwise.nil
  bounds := fun _ hset => absurd hset List.not_mem_nil
  shape := fun _ hset => absurd hset List.not_mem_nil
  latest_nonneg := le_refl _

end Reactor

end Mkmq
