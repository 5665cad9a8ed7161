import Mkmq.AcksAll

/-!
# What is sent and what is appended

The calls of a request leave before the leader's own log has checked it.  They carry the
base offset and the records planned for it either way, and each follower decides by its
own checks.  The size limit is the same everywhere, so records that are too large are
appended nowhere; a full queue or an invalid `acks` is the leader's business alone, and
followers take what it refuses.
-/

namespace Mkmq

open ByteCodec PartitionLogShard

namespace Cluster

variable {config : BrokerConfig} {partition : PartitionConfig} {s s' : Cluster}
  {a : ClusterAction}

/-! ### One request, one delivery -/

/-- What a produce request with these renumbered records does at the leader. -/
structure Submits (s : Cluster) (records : Bytes) (acks : Int) (s' : Cluster) : Prop where
  calls : s'.pushes = s.pushes ++
    replicaAppends s.config s.partition s.produces.length (s.replicaRequest records)
  answer : ∃ p, s'.produces = s.produces ++ [p] ∧
    (p.response.errorCode = .none ↔ s.leader.shard.toLogHead.Admits records acks)
  accepted : s.leader.shard.toLogHead.Admits records acks →
    s'.leader.recordSets = s.leader.recordSets ++
      [recordSetAt s.leader.shard.offsets.latest records]
  refused : ¬ s.leader.shard.toLogHead.Admits records acks →
    s'.leader.recordSets = s.leader.recordSets ∧
      s'.leader.shard.toLogHead = s.leader.shard.toLogHead

theorem errorCode_planned_iff (records : Bytes) (acks : Int) :
    (s.planned records acks).response.errorCode = .none ↔
      s.leader.shard.toLogHead.Admits records acks := by
  by_cases hadmits : s.leader.shard.toLogHead.Admits records acks
  · simp [planned, LogHead.append_of_admits hadmits, hadmits]
  · exact iff_of_false (LogHead.append_of_not_admits hadmits).2.2 hadmits

theorem submits_produced (hisr : 1 < s.partition.isr.length) (records : Bytes) (acks : Int) :
    s.Submits records acks (s.produced records acks) := by
  have hleader : (s.produced records acks).leader =
      s.leader.accept (s.leader.shard.toLogHead.append records acks) :=
    leader_setReactor_self (s := s)
      (s.leader.accept (s.leader.shard.toLogHead.append records acks))
  have hcalls : (s.produced records acks).pushes = s.pushes ++
      replicaAppends s.config s.partition s.produces.length (s.replicaRequest records) :=
    congrArg (s.pushes ++ ·) (if_pos hisr)
  have hanswer : ∃ p, (s.produced records acks).produces = s.produces ++ [p] ∧
      (p.response.errorCode = .none ↔ s.leader.shard.toLogHead.Admits records acks) :=
    ⟨_, rfl, errorCode_planned_iff records acks⟩
  by_cases hadmits : s.leader.shard.toLogHead.Admits records acks
  · have hadmission := LogHead.append_of_admits hadmits
    refine ⟨hcalls, hanswer, fun _ => ?_, fun hrefused => absurd hadmits hrefused⟩
    obtain ⟨phase, hops⟩ := Reactor.accept_ops (r := s.leader)
      (congrArg Admission.recordSet hadmission)
    unfold Reactor.recordSets
    rw [hleader, hops, List.map_append]
    rfl
  · obtain ⟨hhead, hnone, -⟩ := LogHead.append_of_not_admits hadmits
    refine ⟨hcalls, hanswer, fun haccepted => absurd haccepted hadmits, fun _ => ⟨?_, ?_⟩⟩
    · rw [hleader, Reactor.accept, hnone]
      rfl
    · rw [hleader, Reactor.accept_head, hhead]

/-- What the delivery of a call does at the broker it reaches, and that it does nothing
    anywhere else. -/
structure Takes (s : Cluster) (push : Push) (brokerId : Int) (s' : Cluster) : Prop where
  log : (s'.reactors brokerId).recordSets = (s.reactors brokerId).recordSets ++
    if brokerId ∈ (s.reactors brokerId).shard.config.replicas ∧
        (s.reactors brokerId).shard.toLogHead.AdmitsReplica push.request then
      [recordSetAt push.request.baseOffset push.request.records]
    else []
  elsewhere : ∀ other, other ≠ brokerId → s'.reactors other = s.reactors other

theorem takes_deliver {i : Nat} {push : Push} {brokerId : Int} (hpush : s.pushes[i]? = some push)
    (hstep : s.step (.deliver i brokerId) = some s') : s.Takes push brokerId s' := by
  obtain ⟨other, hother, hstep⟩ := Option.bind_eq_some_iff.mp hstep
  obtain rfl := Option.some.inj (hpush.symm.trans hother)
  split at hstep
  · obtain rfl := Option.some.inj hstep
    have heq := s.appendReplica_eq brokerId push.request
    unfold deliver
    split
    · next hnone =>
        rw [hnone] at heq
        split at heq
        · cases heq
        · next hrefused => exact ⟨by rw [if_neg hrefused, List.append_nil]; rfl, fun _ _ => rfl⟩
    · next r hr =>
        obtain ⟨-, -, phase, hops⟩ := appendReplica_some hr
        rw [hr] at heq
        split at heq
        · next hadmits =>
            refine ⟨?_, fun other hne => setReactor_of_ne hne r⟩
            show ((s.setReactor brokerId r).reactors brokerId).recordSets = _
            rw [setReactor_self, if_pos hadmits]
            unfold Reactor.recordSets
            rw [hops, List.map_append]
            rfl
        · cases heq
  · cases hstep

/-! ### Every run -/

/-- Every call carries the base offset and the records of the request it was made for. -/
def CallsMatchPlans (s : Cluster) : Prop :=
  ∀ push ∈ s.pushes, ∃ p, s.produces[push.produce]? = some p ∧
    push.request.baseOffset = p.plannedBase ∧ push.request.records = p.records

/-- No broker has appended the records of this call. -/
def Untaken (push : Push) : Prop := push.state = .sent ∨ push.state = .answered false

theorem untaken_disconnect {push : Push} (h : Untaken push) (stopped : Int) :
    Untaken (push.disconnect stopped) := by
  unfold Push.disconnect
  split
  · next hstate => rcases h with h | h <;> rw [h] at hstate <;> cases hstate
  · exact h

/-- A request keeps its place and its plan. -/
theorem Steps.plan_kept (h : s.Steps a s') {k : Nat} {p : Produce}
    (hp : s.produces[k]? = some p) : ∃ p', s'.produces[k]? = some p' ∧ p'.plan = p.plan := by
  have happended : ∀ q, s'.produces = s.produces ++ [q] → s'.produces[k]? = some p := by
    intro q hq
    obtain ⟨hlt, -⟩ := List.getElem?_eq_some_iff.mp hp
    rw [hq, List.getElem?_append_left hlt, hp]
  rcases h.plans with hplans | ⟨records, acks, hnew⟩ | ⟨records, acks, rfl⟩
  · have hplan : (s'.produces.map Produce.plan)[k]? = some p.plan := by
      rw [hplans, List.getElem?_map, hp, Option.map_some]
    rw [List.getElem?_map] at hplan
    exact Option.map_eq_some_iff.mp hplan
  · exact ⟨p, happended _ hnew, rfl⟩
  · exact ⟨p, happended _ rfl, rfl⟩

/-- What the plan of a request says of its calls holds of all calls if it holds of those that
    are made. -/
theorem forall_calls_step {P : ReplicaAppendRequest → Produce → Prop}
    (hplan : ∀ {request p p'}, p'.plan = p.plan → P request p → P request p')
    (h : ∀ push ∈ s.pushes, ∃ p, s.produces[push.produce]? = some p ∧ P push.request p)
    (hstep : s.Steps a s') (hnew : ∀ original records acks, a = .produce original acks →
      rewriteRecordBatchOffsets original s.leader.shard.offsets.latest = some records →
      P (s.replicaRequest records) (s.planned records acks)) :
    ∀ push ∈ s'.pushes, ∃ p, s'.produces[push.produce]? = some p ∧ P push.request p := by
  have hkept : ∀ push ∈ s.pushes, ∃ p, s'.produces[push.produce]? = some p ∧ P push.request p := by
    intro push hpush
    obtain ⟨p, hp, hold⟩ := h push hpush
    obtain ⟨p', hp', hsame⟩ := hstep.plan_kept hp
    exact ⟨p', hp', hplan hsame hold⟩
  intro push hpush
  rcases hstep.calls with hcalls | ⟨original, records, acks, ha, hrewrite, rfl⟩
  · obtain ⟨before, hbefore, hcall⟩ := List.mem_map.mp (hcalls ▸ List.mem_map_of_mem hpush)
    obtain ⟨hproduce, -, hrequest⟩ : before.produce = push.produce ∧
        before.address = push.address ∧ before.request = push.request := by
      simpa [Push.call] using hcall
    rw [← hproduce, ← hrequest]
    exact hkept before hbefore
  · rcases List.mem_append.mp hpush with hpush | hpush
    · exact hkept push hpush
    · split at hpush
      · obtain ⟨f, -, address, -, rfl⟩ := mem_replicaAppends.mp hpush
        exact ⟨s.planned records acks, List.getElem?_concat_length,
          hnew original records acks ha hrewrite⟩
      · cases hpush

theorem CallsMatchPlans.step (h : s.CallsMatchPlans) (hstep : s.Steps a s') :
    s'.CallsMatchPlans := by
  refine forall_calls_step (P := fun request p =>
    request.baseOffset = p.plannedBase ∧ request.records = p.records) ?_ h hstep
    fun _ _ _ _ _ => ⟨rfl, rfl⟩
  rintro request p p' hplan ⟨hbase, hrecords⟩
  exact ⟨hbase.trans (congrArg Produce.plannedBase hplan).symm,
    hrecords.trans (congrArg Produce.records hplan).symm⟩

/-- Records that are too large for the partition are not appended by anyone. -/
theorem oversize_step
    (h : ∀ push ∈ s.pushes, partition.maxFrameBytes < push.request.records.length → Untaken push)
    (hconfigs : ∀ brokerId, (s.reactors brokerId).shard.config = partition) (hstep : s.Steps a s') :
    ∀ push ∈ s'.pushes, partition.maxFrameBytes < push.request.records.length → Untaken push := by
  have hset : ∀ {i : Nat} {push push' : Push}, s.pushes[i]? = some push →
      push'.request = push.request →
      (partition.maxFrameBytes < push.request.records.length → Untaken push → Untaken push') →
      ∀ other ∈ s.pushes.set i push', partition.maxFrameBytes < other.request.records.length →
        Untaken other := by
    intro i push push' hpush hrequest huntaken other hother hlarge
    rcases List.mem_or_eq_of_mem_set hother with hother | rfl
    · exact h other hother hlarge
    · rw [hrequest] at hlarge
      exact huntaken hlarge (h push (List.mem_of_getElem? hpush) hlarge)
  cases hstep with
  | produced =>
    intro push hpush hlarge
    rcases List.mem_append.mp hpush with hpush | hpush
    · exact h push hpush hlarge
    · split at hpush
      · obtain ⟨f, -, address, -, rfl⟩ := mem_replicaAppends.mp hpush
        exact Or.inl rfl
      · cases hpush
  | pushRefused hpush => exact hset hpush rfl fun _ _ => Or.inr rfl
  | pushAccepted hpush _ happend =>
    refine hset hpush rfl fun hlarge _ => ?_
    obtain ⟨-, ⟨hsize, -, -⟩, -⟩ := appendReplica_some happend
    rw [hconfigs] at hsize
    exact absurd hsize (not_le.mpr hlarge)
  | pushWritten hpush hstate =>
    refine hset hpush rfl fun _ huntaken => ?_
    rcases huntaken with hsent | hanswered
    · rw [hsent] at hstate
      cases hstate
    · rw [hanswered] at hstate
      cases hstate
  | pushFailed hpush => exact hset hpush rfl fun _ _ => Or.inr rfl
  | received hpush => exact hset hpush rfl fun _ huntaken => huntaken
  | gaveUp hpush => exact hset hpush rfl fun _ huntaken => huntaken
  | restarted =>
    intro push hpush hlarge
    obtain ⟨before, hbefore, rfl⟩ := List.mem_map.mp hpush
    have hrequest : (before.disconnect s.config.nodeId).request = before.request :=
      congrArg (fun call => call.2.2) (before.disconnect_call s.config.nodeId)
    rw [hrequest] at hlarge
    exact untaken_disconnect (h before hbefore hlarge) _
  | _ => exact h

structure AgreementInv (config : BrokerConfig) (partition : PartitionConfig) (s : Cluster) :
    Prop where
  config_eq : s.config = config
  configs : ∀ brokerId, (s.reactors brokerId).shard.config = partition
  calls : s.CallsMatchPlans
  submitted : ∀ p ∈ s.produces, s.Submitted p
  oversize : ∀ push ∈ s.pushes, partition.maxFrameBytes < push.request.records.length →
    Untaken push

theorem agreementInv_initial (h : Initial config partition s) :
    AgreementInv config partition s where
  config_eq := h.config_eq
  configs := (trackingInv_initial h).configs
  calls := by
    intro push hpush
    rw [h.pushes] at hpush
    cases hpush
  submitted := by
    intro p hp
    rw [h.produces] at hp
    cases hp
  oversize := by
    intro push hpush
    rw [h.pushes] at hpush
    cases hpush

theorem AgreementInv.step (h : AgreementInv config partition s) (hguard : s.Uninterrupted a)
    (hstep : s.Steps a s') : AgreementInv config partition s' where
  config_eq := hstep.config_eq.trans h.config_eq
  configs := fun brokerId => (hstep.partition_eq brokerId).trans (h.configs brokerId)
  calls := h.calls.step hstep
  submitted := by
    refine submitted_step h.submitted hstep ?_
    unfold leader
    rw [hstep.config_eq]
    exact hstep.grows _ (Or.inr hguard.ne_restart)
  oversize := oversize_step h.oversize h.configs hstep

theorem agreementInv_of_reachable
    (hreach : Transition.Reachable (Initial config partition) step Uninterrupted s) :
    AgreementInv config partition s :=
  hreach.invariant (fun _ => agreementInv_initial) fun _ _ _ hi hguard hstep =>
    hi.step hguard (steps_of_step hstep)

/-- An accepted request is in the leader's log. -/
theorem Submitted.mem_recordSets {p : Produce} (h : s.Submitted p)
    (haccepted : p.response.errorCode = .none) :
    recordSetAt p.plannedBase p.records ∈ s.leader.recordSets := by
  cases hop : p.op with
  | none => exact absurd haccepted (h.refused hop)
  | some n =>
    obtain ⟨-, op, hn, hset⟩ := h.accepted n hop
    rw [← hset]
    exact List.mem_map_of_mem (List.mem_of_getElem? hn)

/-- **What the leader sends and what it appends.**  In every run of a leader with followers
    in its ISR, every call carries the base offset and the records planned for its request;
    an accepted request is in the leader's log; records too large for the partition are
    appended nowhere.  A request is sent to the ISR in any case, and accepted, and appended,
    exactly when it passes the leader's three checks; a delivered call is appended exactly
    when it passes the receiver's. -/
theorem sent_as_planned (hleader : partition.leader = config.nodeId)
    (hisr : 1 < partition.isr.length)
    (hreach : Transition.Reachable (Initial config partition) step Uninterrupted s) :
    s.CallsMatchPlans ∧
      (∀ p ∈ s.produces, p.response.errorCode = .none →
        recordSetAt p.plannedBase p.records ∈ s.leader.recordSets) ∧
      (∀ push ∈ s.pushes, partition.maxFrameBytes < push.request.records.length →
        Untaken push) ∧
      (∀ (records renumbered : Bytes) (acks : Int),
        rewriteRecordBatchOffsets records s.leader.shard.offsets.latest = some renumbered →
        ∃ s', s.step (.produce records acks) = some s' ∧ s.Submits renumbered acks s') ∧
      ∀ (i : Nat) (push : Push) (brokerId : Int) (s' : Cluster), s.pushes[i]? = some push →
        s.step (.deliver i brokerId) = some s' → s.Takes push brokerId s' := by
  have hinv := agreementInv_of_reachable hreach
  have hpartition : s.partition = partition := hinv.configs _
  refine ⟨hinv.calls, fun p hp => (hinv.submitted p hp).mem_recordSets, hinv.oversize, ?_,
    fun i push brokerId s' => takes_deliver⟩
  intro records renumbered acks hrewrite
  refine ⟨s.produced renumbered acks, ?_, submits_produced (hpartition ▸ hisr) renumbered acks⟩
  show s.produce records acks = _
  unfold produce
  rw [hpartition, hinv.config_eq, if_neg (not_not.mpr hleader), hrewrite]
  rfl

/-! ### A leader that refuses nothing -/

/-- The leader replicates only what it appends: the request of a call is accepted, and its
    records are in the leader's log at the base offset of the call; and no follower appends
    the records of a request that is refused. -/
def ReplicatesAppended (s : Cluster) : Prop :=
  ∀ push ∈ s.pushes, ∀ p, s.produces[push.produce]? = some p →
    (p.response.errorCode = .none ∧
      recordSetAt push.request.baseOffset push.request.records ∈ s.leader.recordSets) ∧
    (p.response.errorCode ≠ .none → Untaken push)

/-- Brokers keep running, and every request passes the leader's three checks: the size of its
    records, the depth of the queue and the value of `acks`. -/
def Admitting (s : Cluster) (a : ClusterAction) : Prop :=
  s.Uninterrupted a ∧ match a with
    | .produce records acks =>
      ∀ renumbered ∈ rewriteRecordBatchOffsets records s.leader.shard.offsets.latest,
        s.leader.shard.toLogHead.Admits renumbered acks
    | _ => True

instance (s : Cluster) : (a : ClusterAction) → Decidable (s.Admitting a)
  | .produce records acks => inferInstanceAs (Decidable (True ∧
      ∀ renumbered ∈ rewriteRecordBatchOffsets records s.leader.shard.offsets.latest,
        s.leader.shard.toLogHead.Admits renumbered acks))
  | .restart _ => inferInstanceAs (Decidable (False ∧ True))
  | .shard .. | .deliver .. | .replicaWritten _ | .receive _ | .giveUp _ | .writeOver _
  | .replicationOver _ | .timeOut _ | .catchUp _ | .replicaFetch .. | .applyFetched _
  | .caughtUp _ | .abandonCatchUp _ => inferInstanceAs (Decidable (True ∧ True))

/-- The request of every call is accepted. -/
def CallsAccepted (s : Cluster) : Prop :=
  ∀ push ∈ s.pushes, ∃ p, s.produces[push.produce]? = some p ∧ p.response.errorCode = .none

theorem callsAccepted_of_admitting
    (hreach : Transition.Reachable (Initial config partition) step Admitting s) :
    s.CallsAccepted := by
  refine hreach.invariant ?_ ?_
  · intro s hinit push hpush
    rw [hinit.pushes] at hpush
    cases hpush
  · intro s a s' hcalls hguard hstep
    refine forall_calls_step (P := fun _ p => p.response.errorCode = .none) ?_ hcalls
      (steps_of_step hstep) ?_
    · intro _ p p' hplan haccepted
      exact (congrArg (fun plan => plan.response.errorCode) hplan).trans haccepted
    · rintro original records acks rfl hrewrite
      exact (errorCode_planned_iff records acks).mpr (hguard.2 records hrewrite)

theorem replicatesAppended_of_admitting
    (hreach : Transition.Reachable (Initial config partition) step Admitting s) :
    s.ReplicatesAppended := by
  have hinv := agreementInv_of_reachable (hreach.mono fun _ _ hguard => hguard.1)
  intro push hpush p hp
  obtain ⟨accepted, hfound, hnone⟩ := callsAccepted_of_admitting hreach push hpush
  obtain ⟨planned, hplanned, hbase, hrecords⟩ := hinv.calls push hpush
  obtain rfl := Option.some.inj (hfound.symm.trans hp)
  obtain rfl := Option.some.inj (hplanned.symm.trans hp)
  rw [hbase, hrecords]
  exact ⟨⟨hnone, (hinv.submitted _ (List.mem_of_getElem? hp)).mem_recordSets hnone⟩,
    fun hrefused => absurd hnone hrefused⟩

/-- A request that is refused breaks it as soon as one call is made for it. -/
theorem ReplicatesAppended.submits_iff (h : s.ReplicatesAppended) (hcalls : s.CallsMatchPlans)
    {records : Bytes} {acks : Int} (hsubmits : s.Submits records acks s')
    (hadmitted : s.leader.shard.toLogHead.Admits records acks → s'.ReplicatesAppended) :
    s'.ReplicatesAppended ↔ s.leader.shard.toLogHead.Admits records acks ∨
      replicaAppends s.config s.partition s.produces.length (s.replicaRequest records) = [] := by
  obtain ⟨p, hproduces, haccepted⟩ := hsubmits.answer
  constructor
  · intro hholds
    rw [or_iff_not_imp_right]
    intro hne
    obtain ⟨push, hpush⟩ := List.exists_mem_of_ne_nil _ hne
    have hmade : push ∈ s'.pushes := by
      rw [hsubmits.calls]
      exact List.mem_append_right _ hpush
    obtain ⟨f, -, address, -, rfl⟩ := mem_replicaAppends.mp hpush
    have hlast : s'.produces[s.produces.length]? = some p := by
      rw [hproduces, List.getElem?_concat_length]
    exact haccepted.mp (hholds _ hmade p hlast).1.1
  · rintro (hadmits | hnone)
    · exact hadmitted hadmits
    · by_cases hadmits : s.leader.shard.toLogHead.Admits records acks
      · exact hadmitted hadmits
      · have hpushes := hsubmits.calls
        rw [hnone, List.append_nil] at hpushes
        intro push hpush q hq
        rw [hpushes] at hpush
        obtain ⟨before, hbefore, -⟩ := hcalls push hpush
        obtain ⟨hlt, -⟩ := List.getElem?_eq_some_iff.mp hbefore
        rw [hproduces, List.getElem?_append_left hlt] at hq
        rw [(hsubmits.refused hadmits).1]
        exact h push hpush q hq

/-- A pair whose logs take one append at a time. -/
def crampedPartition : PartitionConfig := { pairPartition with queueLimit := 1 }

def crampedConfig : BrokerConfig :=
  { pairConfig with topics := [{ name := "t", partitions := [crampedPartition] }] }

def cramped : Cluster where
  config := crampedConfig
  reactors := fun _ => Reactor.init crampedPartition 4096 512 blockSize_pos

theorem initial_cramped : Initial crampedConfig crampedPartition cramped where
  config_eq := rfl
  reactors := fun _ => ⟨4096, 512, by decide, rfl⟩
  produces := rfl
  pushes := rfl
  catchUps := rfl

end Cluster

end Mkmq
