import Mathlib.Data.List.Nodup
import Mkmq.Replication

/-!
# What the answers to `replica_append` say

No step takes anything back from a log: appends stay, the log end only moves up, and a
completed append stays completed; only a restart of the leader loses what was in memory
there.  So an answer with error 0, whenever it arrives, speaks of a log that still holds
the records.  `Tracks` says this of one `replica_append` and `PushesTracked` of all of
them, and `Dispatched` ties the calls to the request they were made for.
-/

namespace Mkmq

open ByteCodec PartitionLogShard

/-! ### What a log keeps -/

namespace Reactor

variable {a : ReactorAction} {r r' : Reactor}

/-- No record set ends past the log end. -/
def EndsInside (r : Reactor) : Prop :=
  ∀ recordSet ∈ r.recordSets, recordSet.endOffset ≤ r.shard.offsets.latest

/-- An append of `records` at `baseOffset` has been completed. -/
def Holds (r : Reactor) (baseOffset : Int) (records : Bytes) : Prop :=
  ∃ op ∈ r.ops, op.phase = .done ∧ op.recordSet = recordSetAt baseOffset records

/-- Appends stay, with their record sets, and a completed one stays completed. -/
def OpsKept (ops ops' : List AppendOp) : Prop :=
  ∀ (n : Nat) (op : AppendOp), ops[n]? = some op →
    ∃ op', ops'[n]? = some op' ∧ op'.recordSet = op.recordSet ∧
      (op.phase = .done → op'.phase = .done)

theorem OpsKept.refl (ops : List AppendOp) : OpsKept ops ops :=
  fun _ op hop => ⟨op, hop, rfl, id⟩

theorem opsKept_set {ops : List AppendOp} {n : Nat} {op op' : AppendOp} (hop : ops[n]? = some op)
    (hphase : op.phase ≠ .done) (hset : op'.recordSet = op.recordSet) :
    OpsKept ops (ops.set n op') := by
  intro m other hm
  by_cases hmn : m = n
  · subst hmn
    obtain rfl := Option.some.inj (hop.symm.trans hm)
    exact ⟨op', set_ops_self hop op', hset, fun hdone => absurd hdone hphase⟩
  · exact ⟨other, (set_ops_ne hmn op').trans hm, rfl, id⟩

theorem opsKept_append (ops : List AppendOp) (op : AppendOp) : OpsKept ops (ops ++ [op]) :=
  fun _ other hm => ⟨other, append_ops_of_some hm op, rfl, id⟩

/-- What a step does to the appends: nothing, one more, or one that is not over moves on. -/
inductive OpsStep (ops : List AppendOp) : List AppendOp → Prop where
  | same : OpsStep ops ops
  | added (op : AppendOp) : OpsStep ops (ops ++ [op])
  | moved {n : Nat} {op op' : AppendOp} : ops[n]? = some op → op.phase ≠ .done →
      op.phase ≠ .failed → op'.recordSet = op.recordSet → OpsStep ops (ops.set n op')

theorem opsStep_of_step (h : r.step a = some r') : OpsStep r.ops r'.ops := by
  -- an append that is waiting for something is not over
  have hmoved : ∀ {n : Nat} {op op' : AppendOp} {phase : AppendPhase}, r.ops[n]? = some op →
      op.phase = phase → phase ≠ .done → phase ≠ .failed → op'.recordSet = op.recordSet →
      OpsStep r.ops (r.ops.set n op') := by
    intro n op op' phase hop hphase hdone hfailed hset
    exact .moved hop (hphase ▸ hdone) (hphase ▸ hfailed) hset
  cases steps_of_step h with
  | refused => exact .same
  | admitted => exact .added _
  | barrierPassed hop hphase => exact hmoved hop hphase (by simp) (by simp) rfl
  | opened hop hphase => exact hmoved hop hphase (by simp) (by simp) rfl
  | failed hop _ hdone hfailed => exact .moved hop hdone hfailed rfl
  | unopened hop hphase => exact hmoved hop hphase (by simp) (by simp) rfl
  | startWrite hop hphase => exact hmoved hop hphase (by simp) (by simp) rfl
  | @writeDone n op placement hop hphase =>
    rw [(writeDone_spec r n op placement).ops]
    exact hmoved hop hphase (by simp) (by simp) rfl
  | unsynced hop hphase => exact hmoved hop hphase (by simp) (by simp) rfl
  | joined hop hphase => exact hmoved hop hphase (by simp) (by simp) rfl
  | armed hop hphase => exact hmoved hop hphase (by simp) (by simp) rfl
  | yielded =>
    unfold Reactor.yielded
    split <;> exact .same
  | flushEnded => exact .same
  | resolved hop hphase => exact hmoved hop hphase (by simp) (by simp) rfl
  | indexWritten => exact .same

theorem opsKept_step (h : r.step a = some r') : OpsKept r.ops r'.ops := by
  have hops := opsStep_of_step h
  generalize r'.ops = ops' at hops
  cases hops with
  | same => exact OpsKept.refl _
  | added op => exact opsKept_append _ op
  | moved hop hdone _ hset => exact opsKept_set hop hdone hset

/-- What every step keeps of a log. -/
structure Grows (r r' : Reactor) : Prop where
  config : r'.shard.config = r.shard.config
  ops : OpsKept r.ops r'.ops
  latest : r.shard.offsets.latest ≤ r'.shard.offsets.latest
  inside : r.EndsInside → r'.EndsInside

/-- A change that keeps the appends, the configuration and the log end. -/
theorem Grows.of_same (hops : r'.ops = r.ops) (hconfig : r'.shard.config = r.shard.config)
    (hlatest : r'.shard.offsets.latest = r.shard.offsets.latest) : r.Grows r' where
  config := hconfig
  ops := hops ▸ OpsKept.refl _
  latest := le_of_eq hlatest.symm
  inside := by
    intro h recordSet hmem
    rw [hlatest]
    rw [recordSets, hops] at hmem
    exact h recordSet hmem

theorem Grows.refl (r : Reactor) : r.Grows r := Grows.of_same rfl rfl rfl

theorem Grows.of_step (h : r.step a = some r') : r.Grows r' := by
  refine ⟨config_step h, opsKept_step h, ?_, ?_⟩
  · cases logStep_of_step h with
    | quiet _ hlatest => exact le_of_eq hlatest.symm
    | admitted admission recordSet hadmission hset _ hlatest =>
      obtain ⟨hat, -, -⟩ := admission_recordSet hadmission hset
      rw [hlatest, hat, recordSetAt_endOffset]
      exact le_add_of_nonneg_right (estimateRecordCount_nonneg _)
    | indexed n recordSet segmentBase position _ _ _ hlatest => exact le_of_eq hlatest.symm
  · intro hinside
    cases logStep_of_step h with
    | quiet hsets hlatest =>
      unfold EndsInside
      rw [hsets, hlatest]
      exact hinside
    | admitted admission recordSet hadmission hset hsets hlatest =>
      obtain ⟨hat, -, -⟩ := admission_recordSet hadmission hset
      have hend : r.shard.offsets.latest ≤ recordSet.endOffset := by
        rw [hat, recordSetAt_endOffset]
        exact le_add_of_nonneg_right (estimateRecordCount_nonneg _)
      unfold EndsInside
      rw [hsets, hlatest]
      intro other hother
      rcases List.mem_append.mp hother with hother | hother
      · exact (hinside other hother).trans hend
      · rw [List.mem_singleton.mp hother]
    | indexed n recordSet segmentBase position _ _ hsets hlatest =>
      unfold EndsInside
      rw [hsets, hlatest]
      exact hinside

theorem Grows.holds (h : r.Grows r') {baseOffset : Int} {records : Bytes}
    (hholds : r.Holds baseOffset records) : r'.Holds baseOffset records := by
  obtain ⟨op, hmem, hdone, hset⟩ := hholds
  obtain ⟨n, hn⟩ := List.mem_iff_getElem?.mp hmem
  obtain ⟨op', hn', hset', hdone'⟩ := h.ops n op hn
  exact ⟨op', List.mem_of_getElem? hn', hdone' hdone, hset'.trans hset⟩

/-- A log that holds records ends past them. -/
theorem EndsInside.le_latest (h : r.EndsInside) {baseOffset : Int} {records : Bytes}
    (hholds : r.Holds baseOffset records) :
    baseOffset + estimateRecordCount records ≤ r.shard.offsets.latest := by
  obtain ⟨op, hmem, -, hset⟩ := hholds
  have hend := h op.recordSet (List.mem_map_of_mem hmem)
  rwa [hset, recordSetAt_endOffset] at hend

/-- The high watermark moves with a request or not at all. -/
theorem offsets_step (hcall : a.call = none) (h : r.step a = some r') :
    r'.shard.offsets = r.shard.offsets := by
  have hnone : r.admission a = none := by rw [admission, hcall]; rfl
  cases steps_of_step h with
  | refused hadmission => rw [hnone] at hadmission; cases hadmission
  | admitted hadmission => rw [hnone] at hadmission; cases hadmission
  | barrierPassed hop hphase hafter =>
    rcases afterFlushBarrier_cases hafter with ⟨-, rfl⟩ | ⟨oldFile, -, -, -, rfl⟩ <;> rfl
  | unopened hop hphase hreserve =>
    obtain ⟨-, rfl⟩ := reserve_none hreserve
    rfl
  | startWrite hop hphase hreserve =>
    obtain ⟨file, -, -, rfl⟩ := reserve_some hreserve
    rfl
  | @writeDone n op placement =>
    show (r.writeDone n op placement).shard.toLogHead.offsets = _
    rw [(writeDone_spec r n op placement).head]
  | yielded =>
    unfold Reactor.yielded
    split <;> rfl
  | _ => rfl

end Reactor

/-! ### What a step of the cluster keeps -/

/-- Distinct brokers listen at distinct addresses. -/
def DistinctAddresses (config : BrokerConfig) : Prop :=
  (config.brokers.map BrokerEndpoint.mercuryAddress).Nodup

instance (config : BrokerConfig) : Decidable (DistinctAddresses config) := by
  unfold DistinctAddresses
  infer_instance

theorem DistinctAddresses.eq {config : BrokerConfig} (h : DistinctAddresses config)
    {brokerId other : Int} {address : String} (hb : addressOf config brokerId = some address)
    (ho : addressOf config other = some address) : brokerId = other := by
  obtain ⟨broker, hbroker, rfl⟩ := Option.map_eq_some_iff.mp hb
  obtain ⟨broker', hbroker', haddress⟩ := Option.map_eq_some_iff.mp ho
  obtain ⟨hmem, rfl⟩ := findBroker_some hbroker
  obtain ⟨hmem', rfl⟩ := findBroker_some hbroker'
  exact congrArg BrokerEndpoint.id (List.inj_on_of_nodup_map h hmem hmem' haddress.symm)

/-- What never changes about a `replica_append`. -/
def Push.call (push : Push) : Nat × String × ReplicaAppendRequest :=
  (push.produce, push.address, push.request)

theorem Push.disconnect_call (push : Push) (stopped : Int) :
    (push.disconnect stopped).call = push.call := by
  unfold Push.disconnect
  split
  · split <;> rfl
  · rfl

namespace Cluster

variable {s s' : Cluster} {a : ClusterAction} {brokerId f : Int} {r : Reactor}
  {request : ReplicaAppendRequest} {push : Push} {k : Nat} {p : Produce}

@[simp] theorem setReactor_self (brokerId : Int) (r : Reactor) :
    (s.setReactor brokerId r).reactors brokerId = r := Function.update_self ..

theorem setReactor_of_ne {other : Int} (hne : other ≠ brokerId) (r : Reactor) :
    (s.setReactor brokerId r).reactors other = s.reactors other := Function.update_of_ne hne ..

/-- A broker takes a `replica_append` if it has a replica and its log passes the checks. -/
theorem appendReplica_eq (brokerId : Int) (request : ReplicaAppendRequest) :
    s.appendReplica brokerId request =
      if brokerId ∈ (s.reactors brokerId).shard.config.replicas ∧
          (s.reactors brokerId).shard.toLogHead.AdmitsReplica request then
        some ((s.reactors brokerId).accept
          ((s.reactors brokerId).shard.toLogHead.appendReplica request))
      else none := by
  by_cases hreplica : brokerId ∈ (s.reactors brokerId).shard.config.replicas
  · by_cases hadmits : (s.reactors brokerId).shard.toLogHead.AdmitsReplica request
    · simp [appendReplica, hreplica, hadmits, LogHead.appendReplica_of_admits hadmits]
    · simp [appendReplica, hreplica, hadmits, (LogHead.appendReplica_of_not_admits hadmits).2.1]
  · simp [appendReplica, hreplica]

/-- An accepted `append_replica` is one step of the broker's log. -/
theorem appendReplica_some (h : s.appendReplica brokerId request = some r) :
    (s.reactors brokerId).step (.appendReplica request) = some r ∧
      (s.reactors brokerId).shard.toLogHead.AdmitsReplica request ∧
      ∃ phase, r.ops = (s.reactors brokerId).ops ++
        [{ recordSet := recordSetAt request.baseOffset request.records, phase := phase }] := by
  rw [appendReplica_eq] at h
  split at h
  · next hadmits =>
      obtain rfl := Option.some.inj h
      refine ⟨rfl, hadmits.2, ?_⟩
      rw [LogHead.appendReplica_of_admits hadmits.2]
      exact Reactor.accept_ops rfl
  · cases h

/-- A change at one broker, seen from any broker. -/
theorem setReactor_rel {R : Reactor → Reactor → Prop} (hrefl : ∀ r, R r r)
    (h : R (s.reactors brokerId) r) (other : Int) :
    R (s.reactors other) ((s.setReactor brokerId r).reactors other) := by
  by_cases hother : other = brokerId
  · subst hother
    rw [setReactor_self]
    exact h
  · rw [setReactor_of_ne hother]
    exact hrefl _

theorem grows_setReactor (h : (s.reactors brokerId).Grows r) (other : Int) :
    (s.reactors other).Grows ((s.setReactor brokerId r).reactors other) :=
  setReactor_rel Reactor.Grows.refl h other

/-- What a step does at one broker: a step of its log, or a change of the watermark or of
    the cache. -/
inductive BrokerStep (r r' : Reactor) : Prop where
  | log {a : ReactorAction} : r.step a = some r' → BrokerStep r r'
  | same : r'.ops = r.ops → r'.shard.config = r.shard.config →
      r'.shard.offsets.latest = r.shard.offsets.latest → BrokerStep r r'

theorem BrokerStep.refl (r : Reactor) : BrokerStep r r := .same rfl rfl rfl

theorem brokerStep_setReactor (h : BrokerStep (s.reactors brokerId) r) (other : Int) :
    BrokerStep (s.reactors other) ((s.setReactor brokerId r).reactors other) :=
  setReactor_rel BrokerStep.refl h other

/-- **Every broker but a restarted leader** does one of these. -/
theorem Steps.brokerStep (h : s.Steps a s') (brokerId : Int)
    (hb : brokerId ≠ s.config.nodeId ∨ ∀ image, a ≠ .restart image) :
    BrokerStep (s.reactors brokerId) (s'.reactors brokerId) := by
  cases h with
  | @produced records renumbered acks =>
    have hstep : s.leader.step (.append renumbered acks) =
        some (s.leader.accept (s.leader.shard.toLogHead.append renumbered acks)) := rfl
    exact brokerStep_setReactor (.log hstep) brokerId
  | shard _ hstep => exact brokerStep_setReactor (.log hstep) brokerId
  | pushAccepted _ _ happend =>
    exact brokerStep_setReactor (.log (appendReplica_some happend).1) brokerId
  | @replicationOver k p =>
    refine brokerStep_setReactor ?_ brokerId
    refine .same rfl ?_ ?_
    · unfold LogHead.afterReplication
      split <;> rfl
    · unfold LogHead.afterReplication
      split <;> rfl
  | fetched =>
    refine brokerStep_setReactor ?_ brokerId
    exact .same rfl rfl rfl
  | fetchApplied _ happend =>
    exact brokerStep_setReactor (.log (appendReplica_some happend).1) brokerId
  | caughtUp =>
    refine brokerStep_setReactor ?_ brokerId
    exact .same rfl rfl rfl
  | @restarted image =>
    have hne : brokerId ≠ s.config.nodeId := hb.resolve_right fun hall => hall image rfl
    show BrokerStep (s.reactors brokerId) ((s.setReactor s.config.nodeId _).reactors brokerId)
    rw [setReactor_of_ne hne]
    exact BrokerStep.refl _
  | _ => exact BrokerStep.refl _

/-- **Every log grows**, except that of the leader when it is restarted. -/
theorem Steps.grows (h : s.Steps a s') (brokerId : Int)
    (hb : brokerId ≠ s.config.nodeId ∨ ∀ image, a ≠ .restart image) :
    (s.reactors brokerId).Grows (s'.reactors brokerId) := by
  cases h.brokerStep brokerId hb with
  | log hstep => exact Reactor.Grows.of_step hstep
  | same hops hconfig hlatest => exact Reactor.Grows.of_same hops hconfig hlatest

theorem Steps.config_eq (h : s.Steps a s') : s'.config = s.config := by
  cases h <;> rfl

/-- No step changes the partition's configuration at any broker. -/
theorem Steps.partition_eq (h : s.Steps a s') (brokerId : Int) :
    (s'.reactors brokerId).shard.config = (s.reactors brokerId).shard.config := by
  by_cases hb : brokerId ≠ s.config.nodeId ∨ ∀ image, a ≠ .restart image
  · exact (h.grows brokerId hb).config
  · push Not at hb
    obtain ⟨rfl, image, rfl⟩ := hb
    cases h with
    | catchUpMoved _ hne => exact absurd rfl (hne image)
    | restarted =>
      show ((s.setReactor s.config.nodeId _).reactors s.config.nodeId).shard.config = _
      rw [setReactor_self]
      exact (restored_start ..).config

/-- No `replica_append` is forgotten or altered, and only a request makes new ones. -/
theorem Steps.calls (h : s.Steps a s') :
    s'.pushes.map Push.call = s.pushes.map Push.call ∨
      ∃ original records acks, a = .produce original acks ∧
        rewriteRecordBatchOffsets original s.leader.shard.offsets.latest = some records ∧
        s' = s.produced records acks := by
  cases h with
  | produced _ hrewrite => exact Or.inr ⟨_, _, _, rfl, hrewrite, rfl⟩
  | pushRefused hpush => exact Or.inl (Reactor.map_set_same _ hpush rfl)
  | pushAccepted hpush => exact Or.inl (Reactor.map_set_same _ hpush rfl)
  | pushWritten hpush => exact Or.inl (Reactor.map_set_same _ hpush rfl)
  | pushFailed hpush => exact Or.inl (Reactor.map_set_same _ hpush rfl)
  | received hpush => exact Or.inl (Reactor.map_set_same _ hpush rfl)
  | gaveUp hpush => exact Or.inl (Reactor.map_set_same _ hpush rfl)
  | restarted =>
    left
    show (s.pushes.map _).map Push.call = _
    rw [List.map_map]
    exact List.map_congr_left fun push _ => push.disconnect_call _
  | _ => exact Or.inl rfl

theorem Steps.call_kept (h : s.Steps a s') {call : Nat × String × ReplicaAppendRequest}
    (hcall : call ∈ s.pushes.map Push.call) : call ∈ s'.pushes.map Push.call := by
  rcases h.calls with hsame | ⟨_, records, acks, -, -, rfl⟩
  · rwa [hsame]
  · show call ∈ (s.pushes ++ _).map Push.call
    rw [List.map_append]
    exact List.mem_append_left _ hcall

/-! ### What a call knows of its follower -/

/-- The call `push` goes to broker `f`, and what is known of it speaks of the log there. -/
structure Tracks (s : Cluster) (push : Push) (f : Int) : Prop where
  address : addressOf s.config f = some push.address
  writing : ∀ (brokerId : Int) (n : Nat), push.state = .writing brokerId n →
    brokerId = f ∧ ∃ op, (s.reactors f).ops[n]? = some op ∧
      op.recordSet = recordSetAt push.request.baseOffset push.request.records
  answered : push.state = .answered true →
    (s.reactors f).Holds push.request.baseOffset push.request.records
  replied : push.reply = some true →
    (s.reactors f).Holds push.request.baseOffset push.request.records

theorem Tracks.mono (h : s.Tracks push f) (hconfig : s'.config = s.config)
    (hgrows : (s.reactors f).Grows (s'.reactors f)) : s'.Tracks push f where
  address := hconfig ▸ h.address
  writing := by
    intro brokerId n hstate
    obtain ⟨rfl, op, hop, hset⟩ := h.writing brokerId n hstate
    obtain ⟨op', hop', hset', -⟩ := hgrows.ops n op hop
    exact ⟨rfl, op', hop', hset'.trans hset⟩
  answered := fun hstate => hgrows.holds (h.answered hstate)
  replied := fun hreply => hgrows.holds (h.replied hreply)

/-- The receiver has refused the call or failed to write it. -/
theorem Tracks.refused (h : s.Tracks push f) :
    s.Tracks { push with state := .answered false } f where
  address := h.address
  writing := fun _ _ hstate => nomatch hstate
  answered := fun hstate => by cases hstate
  replied := h.replied

theorem Tracks.disconnect (h : s.Tracks push f) (stopped : Int) :
    s.Tracks (push.disconnect stopped) f := by
  unfold Push.disconnect
  split
  · split
    · exact h.refused
    · exact h
  · exact h

/-- Every call goes to a broker other than the sender, and speaks of the log there. -/
def PushesTracked (s : Cluster) : Prop :=
  ∀ push ∈ s.pushes, ∃ f, f ≠ s.config.nodeId ∧ s.Tracks push f

theorem mem_isrFollowers {nodeId : Int} {partition : PartitionConfig} :
    f ∈ isrFollowers nodeId partition ↔ f ∈ partition.isr ∧ f ≠ nodeId := by
  simp [isrFollowers]

theorem mem_replicaAppends {config : BrokerConfig} {partition : PartitionConfig} :
    push ∈ replicaAppends config partition k request ↔
      ∃ f ∈ isrFollowers config.nodeId partition, ∃ address, addressOf config f = some address ∧
        { produce := k, address := address, request := request } = push := by
  simp only [replicaAppends, List.mem_filterMap, Option.map_eq_some_iff]

theorem Tracks.of_sent {config : BrokerConfig} {partition : PartitionConfig}
    (hconfig : s.config = config) (h : push ∈ replicaAppends config partition k request) :
    ∃ f, f ≠ config.nodeId ∧ s.Tracks push f := by
  obtain ⟨f, hf, address, haddress, rfl⟩ := mem_replicaAppends.mp h
  refine ⟨f, (mem_isrFollowers.mp hf).2, ?_⟩
  exact
    { address := hconfig ▸ haddress
      writing := fun _ _ hstate => nomatch hstate
      answered := fun hstate => by cases hstate
      replied := fun hreply => by cases hreply }

/-- One call changes, the others are as they were. -/
theorem PushesTracked.set {i : Nat} {push' : Push} (h : s.PushesTracked)
    (hpush : s.pushes[i]? = some push)
    (hset : ∀ f, f ≠ s.config.nodeId → s.Tracks push f → s.Tracks push' f) :
    (s.setPush i push').PushesTracked := by
  intro other hother
  rcases List.mem_or_eq_of_mem_set hother with hother | rfl
  · obtain ⟨f, hf, htracks⟩ := h other hother
    exact ⟨f, hf, htracks.mono rfl (Reactor.Grows.refl _)⟩
  · obtain ⟨f, hf, htracks⟩ := h push (List.mem_of_getElem? hpush)
    exact ⟨f, hf, (hset f hf htracks).mono rfl (Reactor.Grows.refl _)⟩

/-- The calls are the same and the logs of their receivers have grown. -/
theorem PushesTracked.mono (h : s.PushesTracked) (hconfig : s'.config = s.config)
    (hpushes : s'.pushes = s.pushes)
    (hgrows : ∀ f, f ≠ s.config.nodeId → (s.reactors f).Grows (s'.reactors f)) :
    s'.PushesTracked := by
  intro push hpush
  rw [hpushes] at hpush
  obtain ⟨f, hf, htracks⟩ := h push hpush
  exact ⟨f, hconfig ▸ hf, htracks.mono hconfig (hgrows f hf)⟩

theorem PushesTracked.step (h : s.PushesTracked) (haddresses : DistinctAddresses s.config)
    (hstep : s.Steps a s') : s'.PushesTracked := by
  have hconfig := hstep.config_eq
  have hgrows : ∀ f, f ≠ s.config.nodeId → (s.reactors f).Grows (s'.reactors f) :=
    fun f hf => hstep.grows f (Or.inl hf)
  cases hstep with
  | @produced records renumbered acks =>
    intro push hpush
    rcases List.mem_append.mp hpush with hpush | hpush
    · obtain ⟨f, hf, htracks⟩ := h push hpush
      exact ⟨f, hf, htracks.mono hconfig (hgrows f hf)⟩
    · split at hpush
      · exact Tracks.of_sent rfl hpush
      · cases hpush
  | pushRefused hpush => exact h.set hpush fun f _ htracks => htracks.refused
  | @pushAccepted i push brokerId r hpush haddress happend =>
    have hmoved : (s.setReactor brokerId r).PushesTracked :=
      h.mono rfl rfl fun f hf =>
        grows_setReactor (Reactor.Grows.of_step (appendReplica_some happend).1) f
    refine hmoved.set hpush fun f _ htracks => ?_
    -- the broker that took the call is the one it was sent to
    obtain rfl := haddresses.eq haddress htracks.address
    obtain ⟨phase, hops⟩ := (appendReplica_some happend).2.2
    refine { htracks with writing := ?_, answered := fun hstate => by cases hstate }
    intro other n hstate
    obtain ⟨rfl, rfl⟩ := Delivery.writing.inj hstate
    have hlast : r.ops[(s.reactors brokerId).ops.length]? = some
        { recordSet := recordSetAt push.request.baseOffset push.request.records
          phase := phase } := by
      rw [hops]
      exact List.getElem?_concat_length
    exact ⟨rfl, _, by rw [setReactor_self]; exact hlast, rfl⟩
  | @pushWritten i push brokerId n hpush hstate hphase =>
    refine h.set hpush fun f _ htracks => ?_
    obtain ⟨rfl, op, hop, hset⟩ := htracks.writing brokerId n hstate
    have hdone : op.phase = .done := by
      unfold phaseAt at hphase
      rw [hop] at hphase
      exact Option.some.inj hphase
    exact { htracks with
      writing := fun _ _ hstate => nomatch hstate
      answered := fun _ => ⟨op, List.mem_of_getElem? hop, hdone, hset⟩ }
  | pushFailed hpush => exact h.set hpush fun f _ htracks => htracks.refused
  | received hpush hstate =>
    refine h.set hpush fun f _ htracks => { htracks with replied := fun hreply => ?_ }
    obtain rfl := Option.some.inj hreply
    exact htracks.answered hstate
  | gaveUp hpush =>
    exact h.set hpush fun f _ htracks => { htracks with replied := fun hreply => by cases hreply }
  | restarted =>
    intro push hpush
    obtain ⟨before, hbefore, rfl⟩ := List.mem_map.mp hpush
    obtain ⟨f, hf, htracks⟩ := h before hbefore
    exact ⟨f, hf, (htracks.mono hconfig (hgrows f hf)).disconnect _⟩
  | _ => exact h.mono hconfig rfl hgrows

/-! ### What a request knows of its calls -/

/-- Request `k` has sent its records, at the base planned for them, to every follower in
    the ISR. -/
structure Dispatched (s : Cluster) (k : Nat) (p : Produce) : Prop where
  planned : p.plannedEnd = p.plannedBase + estimateRecordCount p.records
  sent : s.partition.isr.length > 1 → p.unconfigured = false →
    ∀ f ∈ isrFollowers s.config.nodeId s.partition, ∃ address request,
      addressOf s.config f = some address ∧ request.baseOffset = p.plannedBase ∧
        request.records = p.records ∧ (k, address, request) ∈ s.pushes.map Push.call

theorem Dispatched.mono (h : s.Dispatched k p) (hstep : s.Steps a s') :
    s'.Dispatched k p where
  planned := h.planned
  sent := by
    have hpartition : s'.partition = s.partition := by
      unfold partition leader
      rw [hstep.config_eq, hstep.partition_eq]
    rw [hpartition, hstep.config_eq]
    intro hisr hconfigured f hf
    obtain ⟨address, request, haddress, hbase, hrecords, hmem⟩ := h.sent hisr hconfigured f hf
    exact ⟨address, request, haddress, hbase, hrecords, hstep.call_kept hmem⟩

/-- A request that was settled is not looked at any more. -/
def ProducesDispatched (s : Cluster) : Prop :=
  ∀ (k : Nat) (p : Produce), s.produces[k]? = some p → p.settled = false → s.Dispatched k p

theorem dispatched_planned (records : Bytes) (acks : Int) :
    (s.produced records acks).Dispatched s.produces.length (s.planned records acks) where
  planned := rfl
  sent := by
    have hstep : s.leader.step (.append records acks) =
        some (s.leader.accept (s.leader.shard.toLogHead.append records acks)) := rfl
    have hpartition : (s.produced records acks).partition = s.partition :=
      (grows_setReactor (Reactor.Grows.of_step hstep) s.config.nodeId).config
    rw [hpartition]
    intro hisr hconfigured f hf
    have haddresses : ∀ g ∈ isrFollowers s.config.nodeId s.partition,
        (addressOf s.config g).isNone = false := by
      have hany : (decide (s.partition.isr.length > 1) &&
          (isrFollowers s.config.nodeId s.partition).any fun brokerId =>
            (addressOf s.config brokerId).isNone) = false := hconfigured
      rw [decide_eq_true hisr, Bool.true_and, List.any_eq_false] at hany
      exact fun g hg => Bool.eq_false_iff.mpr (hany g hg)
    obtain ⟨address, haddress⟩ := Option.isSome_iff_exists.mp
      (Option.isNone_eq_false_iff.mp (haddresses f hf))
    refine ⟨address, s.replicaRequest records, haddress, rfl, rfl, ?_⟩
    refine List.mem_map.mpr ⟨{
      produce := s.produces.length
      address := address
      request := s.replicaRequest records }, ?_, rfl⟩
    refine List.mem_append_right _ ?_
    rw [if_pos hisr]
    exact mem_replicaAppends.mpr ⟨f, hf, address, haddress, rfl⟩

/-- One request changes, but not its plan, and is not opened again. -/
theorem ProducesDispatched.set {p' : Produce} (h : s.ProducesDispatched) (hstep : s.Steps a s')
    (hproduces : s'.produces = s.produces.set k p') (hp : s.produces[k]? = some p)
    (hopen : p'.settled = false → p.settled = false)
    (hplan : ∀ t : Cluster, t.Dispatched k p → t.Dispatched k p') : s'.ProducesDispatched := by
  intro j other hother hsettled
  rw [hproduces, List.getElem?_set] at hother
  split at hother
  · next hj =>
      subst hj
      split at hother
      · obtain rfl := Option.some.inj hother
        exact hplan s' ((h k p hp (hopen hsettled)).mono hstep)
      · cases hother
  · exact (h j other hother hsettled).mono hstep

theorem ProducesDispatched.step (h : s.ProducesDispatched) (hstep : s.Steps a s') :
    s'.ProducesDispatched := by
  have hkept : s'.produces = s.produces → s'.ProducesDispatched := by
    intro hproduces k p hp hsettled
    rw [hproduces] at hp
    exact (h k p hp hsettled).mono hstep
  cases hstep with
  | @misdirected records acks =>
    intro k p hp hsettled
    rcases Reactor.getElem?_concat hp with ⟨rfl, rfl⟩ | hp
    · cases hsettled
    · exact (h k p hp hsettled).mono .misdirected
  | @produced records renumbered acks hleader hrewrite =>
    intro k p hp hsettled
    rcases Reactor.getElem?_concat hp with ⟨rfl, rfl⟩ | hp
    · exact dispatched_planned renumbered acks
    · exact (h k p hp hsettled).mono (.produced hleader hrewrite)
  | writeFailed hp hacks hresult =>
    exact h.set (.writeFailed hp hacks hresult) rfl hp (fun hopen => by cases hopen)
      fun _ hd => ⟨hd.planned, hd.sent⟩
  | writeAnswered hp hacks =>
    exact h.set (.writeAnswered hp hacks) rfl hp id fun _ hd => ⟨hd.planned, hd.sent⟩
  | replicationOver hp hover =>
    exact h.set (.replicationOver hp hover) rfl hp (fun hopen => by cases hopen)
      fun _ hd => ⟨hd.planned, hd.sent⟩
  | timedOut hp => exact h.set (.timedOut hp) rfl hp id fun _ hd => ⟨hd.planned, hd.sent⟩
  | restarted =>
    intro k p hp hsettled
    obtain ⟨before, -, rfl⟩ := List.mem_map.mp (List.mem_of_getElem? hp)
    cases hsettled
  | _ => exact hkept rfl

/-- Every call of a replicated request was answered with error 0. -/
theorem reply_of_replicated {address : String} (hreplicated : s.replicated k p = true)
    (hcall : (k, address, request) ∈ s.pushes.map Push.call) :
    ∃ push ∈ s.pushes, push.address = address ∧ push.request = request ∧
      push.reply = some true := by
  obtain ⟨-, hreplies⟩ := (Bool.and_eq_true _ _).mp hreplicated
  obtain ⟨push, hpush, hcall⟩ := List.mem_map.mp hcall
  obtain ⟨hproduce, haddress, hrequest⟩ : push.produce = k ∧ push.address = address ∧
      push.request = request := by
    simpa [Push.call] using hcall
  have hall := List.all_eq_true.mp hreplies push.reply (List.mem_map_of_mem
    (List.mem_filter.mpr ⟨hpush, by simpa using hproduce⟩))
  exact ⟨push, hpush, haddress, hrequest, by simpa using hall⟩

theorem configured_of_replicated (h : s.replicated k p = true) : p.unconfigured = false := by
  obtain ⟨hconfigured, -⟩ := (Bool.and_eq_true _ _).mp h
  simpa using hconfigured

/-- **What an answered request knows**: when every call was answered with error 0, every
    follower in the ISR holds the records at the planned base. -/
theorem holds_of_replicated (hpushes : s.PushesTracked) (haddresses : DistinctAddresses s.config)
    (hdispatched : s.Dispatched k p) (hisr : s.partition.isr.length > 1)
    (hreplicated : s.replicated k p = true) :
    ∀ f ∈ isrFollowers s.config.nodeId s.partition,
      (s.reactors f).Holds p.plannedBase p.records := by
  intro f hf
  obtain ⟨address, request, haddress, hbase, hrecords, hcall⟩ :=
    hdispatched.sent hisr (configured_of_replicated hreplicated) f hf
  obtain ⟨push, hpush, hsame, hrequest, hreply⟩ := reply_of_replicated hreplicated hcall
  obtain ⟨g, -, htracks⟩ := hpushes push hpush
  obtain rfl := haddresses.eq haddress (hsame ▸ htracks.address)
  rw [← hbase, ← hrecords, ← hrequest]
  exact htracks.replied hreply

/-! ### Together -/

/-- Every broker starts on empty files, with the same partition. -/
structure Initial (config : BrokerConfig) (partition : PartitionConfig) (s : Cluster) : Prop where
  config_eq : s.config = config
  reactors : ∀ brokerId, ∃ segmentBytes alignment, ∃ h : 0 < alignment,
    s.reactors brokerId = Reactor.init partition segmentBytes alignment h
  produces : s.produces = []
  pushes : s.pushes = []
  catchUps : s.catchUps = []

/-- What holds of the calls, the requests and the catch-up rounds in every run. -/
structure TrackingInv (config : BrokerConfig) (partition : PartitionConfig) (s : Cluster) :
    Prop where
  config_eq : s.config = config
  configs : ∀ brokerId, (s.reactors brokerId).shard.config = partition
  pushes : s.PushesTracked
  produces : s.ProducesDispatched
  rounds : ∀ round ∈ s.catchUps, round.follower ≠ partition.leader

variable {config : BrokerConfig} {partition : PartitionConfig}

theorem TrackingInv.partition_eq (h : TrackingInv config partition s) : s.partition = partition :=
  h.configs _

theorem trackingInv_initial (h : Initial config partition s) : TrackingInv config partition s where
  config_eq := h.config_eq
  configs := by
    intro brokerId
    obtain ⟨segmentBytes, alignment, halign, hr⟩ := h.reactors brokerId
    rw [hr]
    rfl
  pushes := by
    intro push hpush
    rw [h.pushes] at hpush
    cases hpush
  produces := by
    intro k p hp
    rw [h.produces] at hp
    cases hp
  rounds := by
    intro round hround
    rw [h.catchUps] at hround
    cases hround

/-- A round keeps its follower. -/
theorem rounds_step (h : ∀ round ∈ s.catchUps, round.follower ≠ partition.leader)
    (hconfigs : ∀ brokerId, (s.reactors brokerId).shard.config = partition)
    (hstep : s.Steps a s') : ∀ round ∈ s'.catchUps, round.follower ≠ partition.leader := by
  have hset : ∀ {c : Nat} {round : CatchUp} (state : CatchUpState), s.catchUps[c]? = some round →
      ∀ other ∈ s.catchUps.set c { round with state := state },
        other.follower ≠ partition.leader := by
    intro c round state hround other hother
    rcases List.mem_or_eq_of_mem_set hother with hother | rfl
    · exact h other hother
    · exact h round (List.mem_of_getElem? hround)
  cases hstep with
  | @catchUpStarted follower hleader =>
    intro round hround
    rcases List.mem_append.mp hround with hround | hround
    · exact h round hround
    · rw [List.mem_singleton.mp hround]
      rw [hconfigs] at hleader
      exact hleader.symm
  | catchUpMoved hround => exact hset _ hround
  | fetched hround => exact hset _ hround
  | fetchApplied hround => exact hset _ hround
  | caughtUp hround => exact hset _ hround
  | restarted =>
    intro round hround
    obtain ⟨before, hbefore, rfl⟩ := List.mem_map.mp hround
    have hfollower := h before hbefore
    split <;> exact hfollower
  | _ => exact h

theorem TrackingInv.step (h : TrackingInv config partition s)
    (haddresses : DistinctAddresses config) (hstep : s.Steps a s') :
    TrackingInv config partition s' where
  config_eq := hstep.config_eq.trans h.config_eq
  configs := fun brokerId => (hstep.partition_eq brokerId).trans (h.configs brokerId)
  pushes := h.pushes.step (h.config_eq ▸ haddresses) hstep
  produces := h.produces.step hstep
  rounds := rounds_step h.rounds h.configs hstep

/-- The broker that took a call is not its sender. -/
theorem TrackingInv.receiver_ne (h : TrackingInv config partition s)
    (haddresses : DistinctAddresses config) {i : Nat} (hpush : s.pushes[i]? = some push)
    (haddress : addressOf s.config brokerId = some push.address) : brokerId ≠ s.config.nodeId := by
  obtain ⟨f, hf, htracks⟩ := h.pushes push (List.mem_of_getElem? hpush)
  rw [DistinctAddresses.eq (h.config_eq ▸ haddresses) haddress htracks.address]
  exact hf

end Cluster

end Mkmq
