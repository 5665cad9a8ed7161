import Mkmq.CommitSafety

/-!
# What `acks = -1` promises

A request with `acks = -1` is answered with error 0 once the local write and every
`replica_append` have succeeded, so that then all of the ISR holds its records.  Whether
there is anything to replicate is decided by the size of the ISR alone: an ISR of one
member is taken to be the leader, and when it is another broker, which `validate_config`
allows, nothing is sent there.
-/

namespace Mkmq

open ByteCodec PartitionLogShard

/-- The request was answered with error 0, at this base offset. -/
def Produce.AcknowledgedAt (p : Produce) (baseOffset : Int) : Prop :=
  ∃ response, p.answer = some (.result response) ∧ response.errorCode = .none ∧
    response.baseOffset = baseOffset

/-- An answer that is not a success acknowledges nothing. -/
theorem Produce.acknowledgedAt_of_failed {p : Produce} {answer : Answer} {settled : Bool}
    {baseOffset : Int} (hanswer : answer.succeeded = false) (h : { p with
      settled := settled, answer := some (p.answer.getD answer) }.AcknowledgedAt baseOffset) :
    p.AcknowledgedAt baseOffset := by
  obtain ⟨response, hresponse, herror, hbase⟩ := h
  cases hbefore : p.answer with
  | none =>
    simp only [hbefore, Option.getD_none, Option.some.injEq] at hresponse
    rw [hresponse, Answer.succeeded, decide_eq_false_iff_not] at hanswer
    exact absurd herror hanswer
  | some earlier =>
    simp only [hbefore, Option.getD_some] at hresponse
    exact ⟨response, hbefore.trans hresponse, herror, hbase⟩

theorem Produce.not_acknowledgedAt {p : Produce} {response : ProducePartitionResult}
    {baseOffset : Int} (hanswer : p.answer = some (.result response))
    (hresponse : response.errorCode ≠ .none) : ¬ p.AcknowledgedAt baseOffset := by
  rintro ⟨other, hother, herror, -⟩
  obtain rfl := Answer.result.inj (Option.some.inj (hanswer.symm.trans hother))
  exact hresponse herror

/-- What never changes about a request. -/
def Produce.plan (p : Produce) : Produce := { p with settled := false, answer := none }

namespace Cluster

variable {config : BrokerConfig} {partition : PartitionConfig} {s s' : Cluster} {a : ClusterAction}
  {p : Produce}

/-- Brokers keep running: messages are delivered, lost and answered in any order. -/
def Uninterrupted (_ : Cluster) : ClusterAction → Prop
  | .restart _ => False
  | _ => True

instance (s : Cluster) : (a : ClusterAction) → Decidable (s.Uninterrupted a)
  | .restart _ => inferInstanceAs (Decidable False)
  | .produce .. | .shard .. | .deliver .. | .replicaWritten _ | .receive _ | .giveUp _
  | .writeOver _ | .replicationOver _ | .timeOut _ | .catchUp _ | .replicaFetch ..
  | .applyFetched _ | .caughtUp _ | .abandonCatchUp _ => inferInstanceAs (Decidable True)

theorem Uninterrupted.ne_restart (h : s.Uninterrupted a) (image : DataDir) :
    a ≠ .restart image := by
  rintro rfl
  exact h

/-! ### The local write -/

/-- What a request knows of its append at the leader. -/
structure Submitted (s : Cluster) (p : Produce) : Prop where
  refused : p.op = none → p.response.errorCode ≠ .none
  accepted : ∀ n, p.op = some n → p.response.baseOffset = p.plannedBase ∧
    ∃ op, s.leader.ops[n]? = some op ∧ op.recordSet = recordSetAt p.plannedBase p.records

theorem Submitted.mono (h : s.Submitted p) (hgrows : s.leader.Grows s'.leader) :
    s'.Submitted p where
  refused := h.refused
  accepted := by
    intro n hn
    obtain ⟨hbase, op, hop, hset⟩ := h.accepted n hn
    obtain ⟨op', hop', hset', -⟩ := hgrows.ops n op hop
    exact ⟨hbase, op', hop', hset'.trans hset⟩

theorem submitted_planned (records : Bytes) (acks : Int) :
    (s.produced records acks).Submitted (s.planned records acks) := by
  by_cases hadmits : s.leader.shard.toLogHead.Admits records acks
  · have hadmission := LogHead.append_of_admits hadmits
    refine ⟨fun hop => ?_, fun n hn => ?_⟩
    · simp only [planned, hadmission] at hop
      cases hop
    · simp only [planned, hadmission] at hn
      obtain rfl := Option.some.inj hn
      obtain ⟨phase, hops⟩ := Reactor.accept_ops (r := s.leader)
        (congrArg Admission.recordSet hadmission)
      have hlast : (s.produced records acks).leader.ops[s.leader.ops.length]? = some
          { recordSet := recordSetAt s.leader.shard.offsets.latest records, phase := phase } := by
        show ((s.setReactor s.config.nodeId _).leader).ops[s.leader.ops.length]? = _
        rw [leader_setReactor_self, hops]
        exact List.getElem?_concat_length
      exact ⟨by simp only [planned, hadmission], _, hlast, rfl⟩
  · obtain ⟨-, hnone, herror⟩ := LogHead.append_of_not_admits hadmits
    refine ⟨fun _ => herror, fun n hn => ?_⟩
    simp only [planned, hnone] at hn
    cases hn

/-- A step adds a request or leaves what every request was planned to do. -/
theorem Steps.plans (h : s.Steps a s') :
    s'.produces.map Produce.plan = s.produces.map Produce.plan ∨
      (∃ records acks, s'.produces = s.produces ++ [s.misdirected records acks]) ∨
      ∃ records acks, s' = s.produced records acks := by
  cases h with
  | misdirected => exact Or.inr (Or.inl ⟨_, _, rfl⟩)
  | produced => exact Or.inr (Or.inr ⟨_, _, rfl⟩)
  | writeFailed hp => exact Or.inl (Reactor.map_set_same _ hp rfl)
  | writeAnswered hp => exact Or.inl (Reactor.map_set_same _ hp rfl)
  | replicationOver hp => exact Or.inl (Reactor.map_set_same _ hp rfl)
  | timedOut hp => exact Or.inl (Reactor.map_set_same _ hp rfl)
  | restarted =>
    left
    show (s.produces.map Produce.disconnect).map Produce.plan = _
    rw [List.map_map]
    rfl
  | _ => exact Or.inl rfl

theorem submitted_step (h : ∀ p ∈ s.produces, s.Submitted p) (hstep : s.Steps a s')
    (hgrows : s.leader.Grows s'.leader) : ∀ p ∈ s'.produces, s'.Submitted p := by
  intro p hp
  rcases hstep.plans with hplans | ⟨records, acks, hnew⟩ | ⟨records, acks, rfl⟩
  · obtain ⟨before, hbefore, hplan⟩ := List.mem_map.mp (hplans ▸ List.mem_map_of_mem hp)
    have hsubmitted := (h before hbefore).mono hgrows
    have hsame : s'.Submitted p.plan := hplan ▸ ⟨hsubmitted.refused, hsubmitted.accepted⟩
    exact ⟨hsame.refused, hsame.accepted⟩
  · rw [hnew] at hp
    rcases List.mem_append.mp hp with hp | hp
    · exact (h p hp).mono hgrows
    · rw [List.mem_singleton.mp hp]
      exact ⟨fun _ => by simp [misdirected], fun n hn => nomatch hn⟩
  · rcases List.mem_append.mp hp with hp | hp
    · exact (h p hp).mono hgrows
    · rw [List.mem_singleton.mp hp]
      exact submitted_planned records acks

/-- A successful write has left the records in the leader's log. -/
theorem Submitted.holds (h : s.Submitted p) (hwrite :
    (s.writeResult p).any Answer.succeeded = true) :
    p.response.baseOffset = p.plannedBase ∧ s.leader.Holds p.plannedBase p.records := by
  unfold writeResult at hwrite
  split at hwrite
  · next hop =>
      have herror : p.response.errorCode = .none := by simpa [Answer.succeeded] using hwrite
      exact absurd herror (h.refused hop)
  · next n hop =>
      obtain ⟨hbase, op, hn, hset⟩ := h.accepted n hop
      have hphase : s.phaseAt s.config.nodeId n = some op.phase := by
        unfold phaseAt
        exact congrArg (Option.map AppendOp.phase) hn
      refine ⟨hbase, op, List.mem_of_getElem? hn, ?_, hset⟩
      rw [hphase] at hwrite
      cases hop : op.phase with
      | done => rfl
      | failed => rw [hop] at hwrite; cases hwrite
      | _ => rw [hop] at hwrite; cases hwrite

/-! ### The answer -/

/-- The leader and the followers in the ISR hold what an `acks = -1` request was
    acknowledged for. -/
def Kept (s : Cluster) (p : Produce) : Prop :=
  p.acks = -1 → ∀ baseOffset, p.AcknowledgedAt baseOffset →
    s.leader.Holds baseOffset p.records ∧
      ∀ f ∈ isrFollowers s.config.nodeId s.partition, (s.reactors f).Holds baseOffset p.records

theorem Kept.mono (h : s.Kept p) (hconfig : s'.config = s.config)
    (hpartition : s'.partition = s.partition)
    (hgrows : ∀ brokerId, (s.reactors brokerId).Grows (s'.reactors brokerId)) : s'.Kept p := by
  intro hacks baseOffset hacknowledged
  obtain ⟨hleader, hfollowers⟩ := h hacks baseOffset hacknowledged
  refine ⟨?_, ?_⟩
  · have hgrown := (hgrows s.config.nodeId).holds hleader
    rwa [← hconfig] at hgrown
  · rw [hconfig, hpartition]
    exact fun f hf => (hgrows f).holds (hfollowers f hf)

theorem kept_of_failed {answer : Answer} (h : s.Kept p) (hanswer : answer.succeeded = false)
    (settled : Bool) :
    s.Kept { p with settled := settled, answer := some (p.answer.getD answer) } :=
  fun hacks baseOffset hacknowledged =>
    h hacks baseOffset (Produce.acknowledgedAt_of_failed hanswer hacknowledged)

structure AcksInv (config : BrokerConfig) (partition : PartitionConfig) (s : Cluster) : Prop
    extends TrackingInv config partition s where
  submitted : ∀ p ∈ s.produces, s.Submitted p
  kept : ∀ p ∈ s.produces, s.Kept p

theorem acksInv_initial (h : Initial config partition s) : AcksInv config partition s where
  toTrackingInv := trackingInv_initial h
  submitted := by
    intro p hp
    rw [h.produces] at hp
    cases hp
  kept := by
    intro p hp
    rw [h.produces] at hp
    cases hp

/-- **The end of a replication.**  When its calls have succeeded, the request is
    acknowledged for records that the whole ISR holds. -/
theorem AcksInv.kept_replicationOver (h : AcksInv config partition s)
    (haddresses : DistinctAddresses config)
    (hcovers : 1 < partition.isr.length ∨ ∀ id ∈ partition.isr, id = config.nodeId) {k : Nat}
    (hp : s.produces[k]? = some p) (hover : s.ReplicationOver k p) :
    s.Kept { p with
      settled := true
      answer := if p.acks = -1 then
        some (p.answer.getD (replicationAnswer p (s.replicated k p))) else p.answer } := by
  have hmem := List.mem_of_getElem? hp
  intro hacks
  have hacks : p.acks = -1 := hacks
  rw [if_pos hacks]
  cases hreplicated : s.replicated k p with
  | false => exact kept_of_failed (h.kept p hmem) rfl true hacks
  | true =>
    rintro baseOffset ⟨response, hresponse, herror, hbase⟩
    cases hbefore : p.answer with
    | some earlier =>
      simp only [hbefore, Option.getD_some] at hresponse
      exact h.kept p hmem hacks baseOffset ⟨response, hbefore.trans hresponse, herror, hbase⟩
    | none =>
      simp only [hbefore, Option.getD_none, replicationAnswer, if_true, Option.some.injEq,
        Answer.result.injEq] at hresponse
      obtain ⟨hplanned, hleader⟩ := (h.submitted p hmem).holds (hover.2.2 hacks)
      have hoffset : baseOffset = p.plannedBase := by rw [← hbase, ← hresponse, hplanned]
      subst hoffset
      refine ⟨hleader, ?_⟩
      rcases hcovers with hisr | honly
      · exact holds_of_replicated h.pushes (h.config_eq ▸ haddresses)
          (h.produces k p hp hover.1) (h.partition_eq ▸ hisr) hreplicated
      · -- the ISR names nobody but the leader
        intro f hf
        obtain ⟨hf, hne⟩ := mem_isrFollowers.mp hf
        rw [h.partition_eq] at hf
        rw [h.config_eq] at hne
        exact absurd (honly f hf) hne

theorem kept_of_error {response : ProducePartitionResult}
    (hanswer : p.answer = some (.result response)) (hresponse : response.errorCode ≠ .none) :
    s.Kept p :=
  fun _ _ hacknowledged => absurd hacknowledged (Produce.not_acknowledgedAt hanswer hresponse)

theorem AcksInv.step (h : AcksInv config partition s) (haddresses : DistinctAddresses config)
    (hcovers : 1 < partition.isr.length ∨ ∀ id ∈ partition.isr, id = config.nodeId)
    (hguard : s.Uninterrupted a) (hstep : s.Steps a s') : AcksInv config partition s' := by
  have hnext := h.toTrackingInv.step haddresses hstep
  have hconfig := hstep.config_eq
  have hpartition : s'.partition = s.partition := by rw [hnext.partition_eq, h.partition_eq]
  have hgrows : ∀ brokerId, (s.reactors brokerId).Grows (s'.reactors brokerId) :=
    fun brokerId => hstep.grows brokerId (Or.inr hguard.ne_restart)
  have hleader : s.leader.Grows s'.leader := by
    unfold leader
    rw [hconfig]
    exact hgrows _
  have hold : ∀ p ∈ s.produces, s'.Kept p :=
    fun p hp => (h.kept p hp).mono hconfig hpartition hgrows
  -- one request at most is changed
  have hset : ∀ {k : Nat} {p' : Produce}, s'.produces = s.produces.set k p' → s.Kept p' →
      ∀ q ∈ s'.produces, s'.Kept q := by
    intro k p' hproduces hkept q hq
    rw [hproduces] at hq
    rcases List.mem_or_eq_of_mem_set hq with hq | rfl
    · exact hold q hq
    · exact hkept.mono hconfig hpartition hgrows
  refine { hnext with submitted := submitted_step h.submitted hstep hleader, kept := ?_ }
  cases hstep with
  | @misdirected records acks =>
    intro q hq
    rcases List.mem_append.mp hq with hq | hq
    · exact hold q hq
    · rw [List.mem_singleton.mp hq]
      exact kept_of_error rfl (by simp)
  | @produced records renumbered acks =>
    intro q hq
    rcases List.mem_append.mp hq with hq | hq
    · exact hold q hq
    · rw [List.mem_singleton.mp hq]
      rintro - baseOffset ⟨response, hresponse, -, -⟩
      cases hresponse
  | writeFailed hp _ hfailed =>
    exact hset rfl (kept_of_failed (h.kept _ (List.mem_of_getElem? hp)) hfailed true)
  | writeAnswered hp hacks => exact hset rfl fun hall => absurd hall hacks
  | replicationOver hp hover => exact hset rfl (h.kept_replicationOver haddresses hcovers hp hover)
  | timedOut hp => exact hset rfl (kept_of_error rfl (by simp))
  | restarted => exact absurd rfl (hguard.ne_restart _)
  | _ => exact hold

/-- **`acks = -1` means all of the ISR.**  When the ISR has more than one member, or none
    but the leader, a request acknowledged with error 0 is in the log of the leader and of
    every broker in the ISR, at the base offset it was answered with. -/
theorem acknowledged_everywhere (haddresses : DistinctAddresses config)
    (hcovers : 1 < partition.isr.length ∨ ∀ id ∈ partition.isr, id = config.nodeId)
    (hreach : Transition.Reachable (Initial config partition) step Uninterrupted s) :
    ∀ p ∈ s.produces, p.acks = -1 → ∀ baseOffset, p.AcknowledgedAt baseOffset →
      (s.reactors config.nodeId).Holds baseOffset p.records ∧
        ∀ id ∈ partition.isr, (s.reactors id).Holds baseOffset p.records := by
  have hinv : AcksInv config partition s :=
    hreach.invariant (fun _ => acksInv_initial) fun _ _ _ hi hguard hstep =>
      hi.step haddresses hcovers hguard (steps_of_step hstep)
  intro p hp hacks baseOffset hacknowledged
  obtain ⟨hleader, hfollowers⟩ := hinv.kept p hp hacks baseOffset hacknowledged
  rw [leader, hinv.config_eq] at hleader
  rw [hinv.config_eq, hinv.partition_eq] at hfollowers
  refine ⟨hleader, fun id hid => ?_⟩
  by_cases hne : id = config.nodeId
  · rw [hne]
    exact hleader
  · exact hfollowers id (mem_isrFollowers.mpr ⟨hid, hne⟩)

/-- The leader's own write of its first append. -/
def leaderWrites : List ClusterAction :=
  [.shard 0 (.startWrite 0), .shard 0 (.writeDone 0), .shard 0 (.flush 0)]

/-- Both brokers of a pair hold what was acknowledged. -/
theorem acknowledged_everywhere_pair :
    ∃ s, Transition.Reachable (Initial pairConfig pairPartition) step Uninterrupted s ∧
      ∃ p ∈ s.produces, p.acks = -1 ∧ p.AcknowledgedAt 0 ∧
        (s.reactors pairConfig.nodeId).Holds 0 p.records ∧
        ∀ id ∈ pairPartition.isr, (s.reactors id).Holds 0 p.records := by
  have hrun : (Transition.guardedRun step Uninterrupted pair
      ([.produce [7] (-1), .deliver 0 1, .shard 1 (.startWrite 0), .shard 1 (.writeDone 0),
        .shard 1 (.flush 0), .replicaWritten 0, .receive 0] ++ leaderWrites ++
        [.replicationOver 0])).map
      (fun s => s.produces.map fun p => (p.acks, p.answer)) =
        some [(-1, some (.result { topic := "t", logEndOffset := 1 }))] := by
    decide +kernel
  obtain ⟨s, hs, hproduces⟩ := Option.map_eq_some_iff.mp hrun
  have hreach : Transition.Reachable (Initial pairConfig pairPartition) step Uninterrupted s :=
    .of_guardedRun (.start initial_pair) _ hs
  obtain ⟨p, hp, hanswer⟩ := List.mem_map.mp (hproduces ▸ List.mem_singleton.mpr rfl)
  obtain ⟨hacks, hanswer⟩ := Prod.mk.inj hanswer
  have hacknowledged : p.AcknowledgedAt 0 := ⟨_, hanswer, rfl, rfl⟩
  obtain ⟨hleader, hisr⟩ := acknowledged_everywhere (by decide) (Or.inl (by decide)) hreach p hp
    hacks 0 hacknowledged
  exact ⟨s, hreach, p, hp, hacks, hacknowledged, hleader, hisr⟩

/-! ### A leader outside its ISR -/

/-- Broker 0 leads, and broker 1 alone is in the ISR. -/
def outsidePartition : PartitionConfig := { pairPartition with isr := [1] }

def outsideConfig : BrokerConfig :=
  { pairConfig with topics := [{ name := "t", partitions := [outsidePartition] }] }

def outside : Cluster where
  config := outsideConfig
  reactors := fun _ => Reactor.init outsidePartition 4096 512 blockSize_pos

theorem initial_outside : Initial outsideConfig outsidePartition outside where
  config_eq := rfl
  reactors := fun _ => ⟨4096, 512, by decide, rfl⟩
  produces := rfl
  pushes := rfl
  catchUps := rfl

/-- Nothing is sent to broker 1, and the request is acknowledged. -/
theorem acknowledged_not_always_everywhere :
    ¬ ∀ (config : BrokerConfig) (partition : PartitionConfig) (s : Cluster),
      validateConfig config = .ok () → findPartition config "t" 0 = some partition →
      DistinctAddresses config →
      Transition.Reachable (Initial config partition) step Uninterrupted s →
      ∀ p ∈ s.produces, p.acks = -1 → ∀ baseOffset, p.AcknowledgedAt baseOffset →
        (s.reactors config.nodeId).Holds baseOffset p.records ∧
          ∀ id ∈ partition.isr, (s.reactors id).Holds baseOffset p.records := by
  intro hall
  have hrun : (Transition.guardedRun step Uninterrupted outside
      (.produce [7] (-1) :: leaderWrites ++ [.replicationOver 0])).map
      (fun s => (s.produces.map fun p => (p.acks, p.answer), (s.reactors 1).ops)) =
        some ([(-1, some (.result { topic := "t", logEndOffset := 1 }))], []) := by
    decide +kernel
  obtain ⟨s, hs, hends⟩ := Option.map_eq_some_iff.mp hrun
  obtain ⟨hproduces, hops⟩ := Prod.mk.inj hends
  obtain ⟨p, hp, hanswer⟩ := List.mem_map.mp (hproduces ▸ List.mem_singleton.mpr rfl)
  obtain ⟨hacks, hanswer⟩ := Prod.mk.inj hanswer
  obtain ⟨-, hisr⟩ := hall outsideConfig outsidePartition s rfl rfl (by decide)
    (.of_guardedRun (.start initial_outside) _ hs) p hp hacks 0 ⟨_, hanswer, rfl, rfl⟩
  obtain ⟨op, hop, -⟩ := hisr 1 (by decide)
  rw [hops] at hop
  cases hop

end Cluster

end Mkmq
