import Mkmq.AcksAll
import Mkmq.Reload

/-!
# Several leaders at once

Who leads a partition is a field of each broker's own configuration, and a reload changes
it on one broker at a time; no message says on whose behalf it was sent.  So several
brokers may take themselves for the leader and accept requests at the same offsets.  What
is left to keep acknowledged batches apart is that an `acks = -1` request succeeds only
when every broker in the ISR has appended it at the base its leader planned, and that a
log never gives an offset twice.

`Split` is the cluster of `Cluster` with a leader wherever one is configured: each request
remembers the broker it was made to, and what continues a request runs there.  A broker
accepts requests once `HG_Init` has bound its Mercury address (`BrokerShard::start`), and
an address is bound by one broker.
-/

namespace Mkmq

open ByteCodec ListRules PartitionLogShard

/-! ### Logs do not give an offset twice -/

namespace Reactor

variable {r : Reactor}

/-- The record sets of the log are apart, in the order of their appends, and none ends past
    the log end. -/
structure Apart (r : Reactor) : Prop where
  apart : r.recordSets.Pairwise fun recordSet later => recordSet.endOffset ≤ later.baseOffset
  inside : r.EndsInside

theorem Apart.step {r' : Reactor} {a : ReactorAction} (h : r.Apart) (hstep : r.step a = some r') :
    r'.Apart where
  inside := (Grows.of_step hstep).inside h.inside
  apart := by
    cases logStep_of_step hstep with
    | quiet hsets =>
      rw [hsets]
      exact h.apart
    | admitted admission recordSet hadmission hset hsets =>
      obtain ⟨hat, -, -⟩ := admission_recordSet hadmission hset
      rw [hsets]
      refine pairwise_concat.mpr ⟨h.apart, ?_⟩
      rw [hat]
      exact h.inside
    | indexed n recordSet segmentBase position _ _ hsets =>
      rw [hsets]
      exact h.apart

/-- What looks the same and ends at the same offset is as much apart. -/
theorem Apart.quiet {r' : Reactor} (h : r.Apart) (hops : r'.ops = r.ops)
    (hlatest : r'.shard.offsets.latest = r.shard.offsets.latest) : r'.Apart := by
  have hsets : r'.recordSets = r.recordSets := congrArg (List.map AppendOp.recordSet) hops
  refine ⟨by rw [hsets]; exact h.apart, ?_⟩
  unfold EndsInside
  rw [hsets, hlatest]
  exact h.inside

/-- Two appends of one log have disjoint ranges. -/
theorem Apart.disjoint (h : r.Apart) {n m : Nat} {op other : AppendOp} (hne : n ≠ m)
    (hn : r.ops[n]? = some op) (hm : r.ops[m]? = some other) :
    op.recordSet.endOffset ≤ other.recordSet.baseOffset ∨
      other.recordSet.endOffset ≤ op.recordSet.baseOffset := by
  have hn' := recordSets_getElem? hn
  have hm' := recordSets_getElem? hm
  obtain ⟨hnlt, hnget⟩ := List.getElem?_eq_some_iff.mp hn'
  obtain ⟨hmlt, hmget⟩ := List.getElem?_eq_some_iff.mp hm'
  rw [← hnget, ← hmget]
  rcases Nat.lt_or_gt_of_ne hne with hlt | hgt
  · exact Or.inl (List.pairwise_iff_getElem.mp h.apart n m hnlt hmlt hlt)
  · exact Or.inr (List.pairwise_iff_getElem.mp h.apart m n hmlt hnlt hgt)

end Reactor

namespace Cluster

variable {s s' : Cluster} {a : ClusterAction}

theorem Steps.apart (h : s.Steps a s') (hne : ∀ image, a ≠ .restart image) (brokerId : Int)
    (hapart : (s.reactors brokerId).Apart) : (s'.reactors brokerId).Apart := by
  cases h.brokerStep brokerId (Or.inr hne) with
  | log hstep => exact hapart.step hstep
  | same hops _ hlatest => exact hapart.quiet hops hlatest

/-- Only a new request changes what requests were planned to do. -/
theorem Steps.plans_kept (h : s.Steps a s') (hne : ∀ records acks, a ≠ .produce records acks) :
    s'.produces.map Produce.plan = s.produces.map Produce.plan := by
  cases h with
  | misdirected => exact absurd rfl (hne _ _)
  | produced => exact absurd rfl (hne _ _)
  | writeFailed hp => exact Reactor.map_set_same _ hp rfl
  | writeAnswered hp => exact Reactor.map_set_same _ hp rfl
  | replicationOver hp => exact Reactor.map_set_same _ hp rfl
  | timedOut hp => exact Reactor.map_set_same _ hp rfl
  | restarted =>
    show (s.produces.map Produce.disconnect).map Produce.plan = _
    rw [List.map_map]
    rfl
  | _ => rfl

end Cluster

/-! ### The cluster -/

/-- What a reload may not change of a partition it keeps. -/
def Reloads (old new : PartitionConfig) : Prop :=
  new.replicas = old.replicas ∧ new.isr = old.isr

instance (old new : PartitionConfig) : Decidable (Reloads old new) := by
  unfold Reloads
  infer_instance

/-- A configuration that `validate_reload` accepts reloads each partition so. -/
theorem reloads_of_validateReloadPartition {config : BrokerConfig} {old new : PartitionConfig}
    (hvalid : validateReloadPartition config old = .ok ())
    (hnew : findPartition config old.topic old.partition = some new) : Reloads old new := by
  unfold validateReloadPartition at hvalid
  rw [hnew] at hvalid
  simp only at hvalid
  split at hvalid
  · cases hvalid
  split at hvalid
  · cases hvalid
  next hkept =>
    push Not at hkept
    exact hkept

/-- `listener` tells which broker has bound an address, and `origins` at which broker each
    request was made. -/
structure Split where
  cluster : Cluster
  listener : String → Option Int
  origins : List Int := []

inductive SplitAction where
  | produce (brokerId : Int) (records : Bytes) (acks : Int)
  | reload (brokerId : Int) (partition : PartitionConfig)
  | replicaFetch (c : Nat) (brokerId : Int)
  | other (a : ClusterAction)

namespace Split

variable {action : SplitAction} {s s' : Split}

/-- The cluster as broker `brokerId` runs on it. -/
def on (s : Split) (brokerId : Int) : Cluster :=
  { s.cluster with config := { s.cluster.config with nodeId := brokerId } }

/-- The broker accepts requests: it listens at its own address. -/
def Serving (s : Split) (brokerId : Int) : Prop :=
  (addressOf s.cluster.config brokerId).bind s.listener = some brokerId

instance (s : Split) (brokerId : Int) : Decidable (s.Serving brokerId) := by
  unfold Serving
  infer_instance

/-- The broker a step runs on.  What continues a request runs where the request was made, a
    call is delivered where its address is bound, and no broker is restarted. -/
def actor (s : Split) : ClusterAction → Option Int
  | .writeOver k | .replicationOver k | .timeOut k => s.origins[k]?
  | .deliver i brokerId =>
    if (s.cluster.pushes[i]?.bind fun push => s.listener push.address) = some brokerId then
      some brokerId
    else none
  | .produce .. | .replicaFetch .. | .restart _ => none
  | .shard brokerId _ => some brokerId
  | .replicaWritten _ | .receive _ | .giveUp _ | .catchUp _ | .applyFetched _ | .caughtUp _
  | .abandonCatchUp _ => some s.cluster.config.nodeId

/-- A catch-up round may reach any broker: the leader it was sent to is the one configured
    when it started. -/
def step (s : Split) : SplitAction → Option Split
  | .produce brokerId records acks =>
    if s.Serving brokerId then
      ((s.on brokerId).step (.produce records acks)).map fun cluster =>
        { s with cluster := cluster, origins := s.origins ++ [brokerId] }
    else none
  | .reload brokerId partition =>
    let r := s.cluster.reactors brokerId
    if Reloads r.shard.config partition then
      some { s with
        cluster := s.cluster.setReactor brokerId
          { r with shard := { r.shard with config := partition } } }
    else none
  | .replicaFetch c brokerId =>
    s.cluster.catchUps[c]?.bind fun round =>
      if round.state = .asked then
        some { s with cluster := s.cluster.replicaFetch c round brokerId }
      else none
  | .other a =>
    (s.actor a).bind fun brokerId =>
      ((s.on brokerId).step a).map fun cluster => { s with cluster := cluster }

/-- All brokers have the ISR `isr` and a leader in it, and no append is running anywhere. -/
structure Initial (isr : List Int) (s : Split) : Prop where
  isr_eq : ∀ brokerId, (s.cluster.reactors brokerId).shard.config.isr = isr
  leader_mem : ∀ brokerId, (s.cluster.reactors brokerId).shard.config.leader ∈ isr
  ops : ∀ brokerId, (s.cluster.reactors brokerId).ops = []
  produces : s.cluster.produces = []
  pushes : s.cluster.pushes = []
  origins : s.origins = []

/-- A reload names a leader in the ISR. -/
def LeaderInIsr (_ : Split) : SplitAction → Prop
  | .reload _ partition => partition.leader ∈ partition.isr
  | _ => True

instance (s : Split) : (action : SplitAction) → Decidable (s.LeaderInIsr action)
  | .reload _ partition => inferInstanceAs (Decidable (partition.leader ∈ partition.isr))
  | .produce .. | .replicaFetch .. | .other _ => inferInstanceAs (Decidable True)

/-! ### What a step can do -/

/-- Every way a step can go. -/
inductive Steps (s : Split) : SplitAction → Split → Prop where
  | misdirected {brokerId : Int} {records : Bytes} {acks : Int} :
      Steps s (.produce brokerId records acks)
        { s with
          cluster := { s.on brokerId with
            produces := s.cluster.produces ++ [(s.on brokerId).misdirected records acks] }
          origins := s.origins ++ [brokerId] }
  | produced {brokerId : Int} {records renumbered : Bytes} {acks : Int} :
      s.Serving brokerId → (s.cluster.reactors brokerId).shard.config.leader = brokerId →
      rewriteRecordBatchOffsets records (s.cluster.reactors brokerId).shard.offsets.latest =
        some renumbered →
      Steps s (.produce brokerId records acks)
        { s with
          cluster := (s.on brokerId).produced renumbered acks
          origins := s.origins ++ [brokerId] }
  | reloaded {brokerId : Int} {partition : PartitionConfig} :
      Reloads (s.cluster.reactors brokerId).shard.config partition →
      Steps s (.reload brokerId partition)
        { s with
          cluster := s.cluster.setReactor brokerId
            { s.cluster.reactors brokerId with
              shard := { (s.cluster.reactors brokerId).shard with config := partition } } }
  | moved {action : SplitAction} {brokerId : Int} {a : ClusterAction} {cluster : Cluster} :
      (∀ records acks, a ≠ .produce records acks) → (∀ image, a ≠ .restart image) →
      (∀ k, a = .writeOver k ∨ a = .replicationOver k ∨ a = .timeOut k →
        s.origins[k]? = some brokerId) →
      (∀ i receiver push, a = .deliver i receiver → s.cluster.pushes[i]? = some push →
        s.listener push.address = some receiver) →
      (s.on brokerId).Steps a cluster →
      Steps s action { s with cluster := cluster }

theorem steps_of_step (h : s.step action = some s') : s.Steps action s' := by
  cases action with
  | produce brokerId records acks =>
    simp only [step] at h
    split at h
    · next hserving =>
        obtain ⟨cluster, hcluster, rfl⟩ := Option.map_eq_some_iff.mp h
        simp only [Cluster.step, Cluster.produce] at hcluster
        split at hcluster
        · obtain rfl := Option.some.inj hcluster
          exact .misdirected
        · next hleader =>
            obtain ⟨renumbered, hrenumbered, rfl⟩ := Option.map_eq_some_iff.mp hcluster
            exact .produced hserving (not_not.mp hleader) hrenumbered
    · cases h
  | reload brokerId partition =>
    simp only [step] at h
    split at h
    · next hreloads =>
        obtain rfl := Option.some.inj h
        exact .reloaded hreloads
    · cases h
  | replicaFetch c brokerId =>
    obtain ⟨round, hround, h⟩ := Option.bind_eq_some_iff.mp h
    split at h
    · obtain rfl := Option.some.inj h
      have hsteps : (s.on s.cluster.config.nodeId).Steps (.replicaFetch c brokerId)
          (s.cluster.replicaFetch c round brokerId) :=
        Cluster.steps_of_replicaFetch brokerId hround
      exact .moved (by simp) (by simp) (by simp) (by simp) hsteps
    · cases h
  | other a =>
    obtain ⟨brokerId, hactor, h⟩ := Option.bind_eq_some_iff.mp h
    obtain ⟨cluster, hcluster, rfl⟩ := Option.map_eq_some_iff.mp h
    refine .moved ?_ ?_ ?_ ?_ (Cluster.steps_of_step hcluster)
    · rintro records acks rfl
      cases hactor
    · rintro image rfl
      cases hactor
    · rintro k (rfl | rfl | rfl) <;> exact hactor
    · rintro i receiver push rfl hpush
      simp only [actor] at hactor
      split at hactor
      · next hlistener =>
          rw [hpush] at hlistener
          exact hlistener
      · cases hactor

/-! ### What every step keeps -/

/-- Append `n` at broker `f` is not that of a request made there. -/
def NotLocal (s : Split) (f : Int) (n : Nat) : Prop :=
  ∀ (k : Nat) (p : Produce), s.cluster.produces[k]? = some p → s.origins[k]? = some f →
    p.op ≠ some n

/-- Broker `f` has appended `records` at `baseOffset`, and not for a request made there. -/
def Took (s : Split) (f : Int) (baseOffset : Int) (records : Bytes) : Prop :=
  ∃ n op, (s.cluster.reactors f).ops[n]? = some op ∧
    op.recordSet = recordSetAt baseOffset records ∧ s.NotLocal f n

/-- What a later state still has of an earlier one. -/
structure Later (s s' : Split) : Prop where
  brokers : s'.cluster.config.brokers = s.cluster.config.brokers
  listener : s'.listener = s.listener
  ops : ∀ f, Reactor.OpsKept (s.cluster.reactors f).ops (s'.cluster.reactors f).ops
  requests : ∀ (k : Nat) (p' : Produce), s'.cluster.produces[k]? = some p' →
    (∃ p, s.cluster.produces[k]? = some p ∧ s'.origins[k]? = s.origins[k]? ∧ p'.plan = p.plan) ∨
      k = s.cluster.produces.length ∧ ∀ f n, s'.origins[k]? = some f → p'.op = some n →
        n = (s.cluster.reactors f).ops.length
  calls : ∀ call ∈ s.cluster.pushes.map Push.call, call ∈ s'.cluster.pushes.map Push.call

theorem addressOf_brokers {config config' : BrokerConfig} (h : config'.brokers = config.brokers)
    (brokerId : Int) : addressOf config' brokerId = addressOf config brokerId := by
  unfold addressOf findBroker
  rw [h]

theorem Took.mono {f baseOffset : Int} {records : Bytes} (h : s.Took f baseOffset records)
    (hlater : s.Later s') : s'.Took f baseOffset records := by
  obtain ⟨n, op, hop, hset, hlocal⟩ := h
  obtain ⟨op', hop', hset', -⟩ := hlater.ops f n op hop
  refine ⟨n, op', hop', hset'.trans hset, ?_⟩
  intro k p' hp' horigin hn
  rcases hlater.requests k p' hp' with ⟨p, hp, hsame, hplan⟩ | ⟨-, hnew⟩
  · exact hlocal k p hp (hsame ▸ horigin) ((congrArg Produce.op hplan).symm.trans hn)
  · -- the append of a new request is a new one
    obtain ⟨hlt, -⟩ := List.getElem?_eq_some_iff.mp hop
    exact absurd (hnew f n horigin hn) (by omega)

/-- A step leads to a later state. -/
theorem Steps.later (h : s.Steps action s')
    (hlength : s.origins.length = s.cluster.produces.length) : s.Later s' := by
  -- a request that was there has kept its place and its origin
  have hold : ∀ {k : Nat} {p : Produce} {brokerId : Int}, s.cluster.produces[k]? = some p →
      (s.origins ++ [brokerId])[k]? = s.origins[k]? := by
    intro k p brokerId hp
    obtain ⟨hlt, -⟩ := List.getElem?_eq_some_iff.mp hp
    exact List.getElem?_append_left (by omega)
  cases h with
  | misdirected =>
    refine ⟨rfl, rfl, fun f => Reactor.OpsKept.refl _, ?_, fun call hcall => hcall⟩
    intro k p' hp'
    rcases Reactor.getElem?_concat hp' with ⟨rfl, rfl⟩ | hp
    · exact Or.inr ⟨rfl, fun f n _ hn => nomatch hn⟩
    · exact Or.inl ⟨p', hp, hold hp, rfl⟩
  | @produced brokerId records renumbered acks _ hleader hrenumbered =>
    have hsteps : (s.on brokerId).Steps (.produce records acks)
        ((s.on brokerId).produced renumbered acks) := .produced hleader hrenumbered
    refine ⟨rfl, rfl, fun f => (hsteps.grows f (Or.inr (by simp))).ops, ?_,
      fun call hcall => hsteps.call_kept hcall⟩
    intro k p' hp'
    rcases Reactor.getElem?_concat hp' with ⟨rfl, rfl⟩ | hp
    · refine Or.inr ⟨rfl, fun f n horigin hn => ?_⟩
      have hlast : (s.origins ++ [brokerId])[s.origins.length]? = some brokerId :=
        List.getElem?_concat_length
      obtain rfl : f = brokerId := by
        have heq : some brokerId = some f := by
          rw [← hlast, hlength]
          exact horigin
        exact (Option.some.inj heq).symm
      obtain ⟨_, -, hn⟩ := Option.map_eq_some_iff.mp hn
      exact hn.symm
    · exact Or.inl ⟨p', hp, hold hp, rfl⟩
  | @reloaded brokerId partition =>
    refine ⟨rfl, rfl, fun f => ?_, fun k p' hp' => Or.inl ⟨p', hp', rfl, rfl⟩,
      fun call hcall => hcall⟩
    refine Cluster.setReactor_rel (R := fun r r' => Reactor.OpsKept r.ops r'.ops)
      (fun _ => Reactor.OpsKept.refl _) ?_ f
    exact Reactor.OpsKept.refl _
  | @moved _ brokerId a cluster hproduce hrestart _ _ hsteps =>
    have hconfig : cluster.config = (s.on brokerId).config := hsteps.config_eq
    refine ⟨by rw [hconfig]; rfl, rfl,
      fun f => (hsteps.grows f (Or.inr hrestart)).ops, ?_,
      fun call hcall => hsteps.call_kept hcall⟩
    intro k p' hp'
    have hplans := congrArg (fun plans => plans[k]?) (hsteps.plans_kept hproduce)
    simp only [List.getElem?_map] at hplans
    rw [show cluster.produces[k]? = some p' from hp', Option.map_some] at hplans
    obtain ⟨p, hp, hplan⟩ := Option.map_eq_some_iff.mp hplans.symm
    exact Or.inl ⟨p, hp, rfl, hplan.symm⟩

theorem Later.serving (h : s.Later s') (f : Int) : s'.Serving f ↔ s.Serving f := by
  unfold Serving
  rw [addressOf_brokers h.brokers, h.listener]

/-! ### What a request and a call know -/

/-- What request `k`, made to broker `b`, was planned to do, and what was done at once. -/
structure Planned (isr : List Int) (s : Split) (k : Nat) (p : Produce) (b : Int) : Prop where
  accepted : ∀ n, p.op = some n → b ∈ isr ∧ s.Serving b ∧ p.response.baseOffset = p.plannedBase ∧
    ∃ op, (s.cluster.reactors b).ops[n]? = some op ∧
      op.recordSet = recordSetAt p.plannedBase p.records
  refused : p.op = none → p.response.errorCode ≠ .none
  sent : p.op ≠ none → p.unconfigured = false → ∀ f ∈ isr, f ≠ b → ∃ address request,
    addressOf s.cluster.config f = some address ∧ request.baseOffset = p.plannedBase ∧
      request.records = p.records ∧ (k, address, request) ∈ s.cluster.pushes.map Push.call

/-- The request is acknowledged for its planned base, and every running broker of the ISR has
    appended its records there. -/
def Kept (isr : List Int) (s : Split) (p : Produce) (b : Int) : Prop :=
  p.acks = -1 → ∀ baseOffset, p.AcknowledgedAt baseOffset →
    baseOffset = p.plannedBase ∧ p.op ≠ none ∧
      ∀ f ∈ isr, f ≠ b → s.Serving f → s.Took f p.plannedBase p.records

/-- A broker has taken the call. -/
def Received (push : Push) : Prop :=
  (∃ brokerId n, push.state = .writing brokerId n) ∨ push.state = .answered true ∨
    push.reply = some true

/-- A call that was taken was taken by the broker that listens at its address. -/
def Reached (s : Split) (push : Push) : Prop :=
  Received push → ∃ g, s.listener push.address = some g ∧
    s.Took g push.request.baseOffset push.request.records

section Mono

variable {isr : List Int} {s s' : Split} {k : Nat} {p p' : Produce} {b : Int}

theorem Planned.mono (h : Planned isr s k p b) (hlater : s.Later s') (hplan : p'.plan = p.plan) :
    Planned isr s' k p' b := by
  have hop : p'.op = p.op := show p'.plan.op = p.plan.op from
    hplan ▸ rfl
  have hresponse : p'.response = p.response := show p'.plan.response = p.plan.response from
    hplan ▸ rfl
  have hbase : p'.plannedBase = p.plannedBase := show p'.plan.plannedBase = p.plan.plannedBase from
    hplan ▸ rfl
  have hrecords : p'.records = p.records := show p'.plan.records = p.plan.records from
    hplan ▸ rfl
  have hunconfigured : p'.unconfigured = p.unconfigured :=
    show p'.plan.unconfigured = p.plan.unconfigured from hplan ▸ rfl
  refine ⟨?_, ?_, ?_⟩
  · intro n hn
    obtain ⟨hmem, hserving, hplanned, op, hn', hset⟩ := h.accepted n (hop ▸ hn)
    obtain ⟨op', hn'', hset', -⟩ := hlater.ops b n op hn'
    rw [hresponse, hbase, hrecords]
    exact ⟨hmem, (hlater.serving b).mpr hserving, hplanned, op', hn'', hset'.trans hset⟩
  · rw [hop, hresponse]
    exact h.refused
  · rw [hop, hunconfigured, hbase, hrecords]
    intro hne hconfigured f hf hfb
    obtain ⟨address, request, haddress, hrequest, hbytes, hcall⟩ := h.sent hne hconfigured f hf hfb
    refine ⟨address, request, ?_, hrequest, hbytes, hlater.calls _ hcall⟩
    rw [addressOf_brokers hlater.brokers]
    exact haddress

theorem Kept.mono (h : Kept isr s p b) (hlater : s.Later s') : Kept isr s' p b := by
  intro hacks baseOffset hacknowledged
  obtain ⟨hbase, hop, htook⟩ := h hacks baseOffset hacknowledged
  exact ⟨hbase, hop, fun f hf hfb hserving =>
    (htook f hf hfb ((hlater.serving f).mp hserving)).mono hlater⟩

theorem Reached.mono {push push' : Push} (h : s.Reached push) (hlater : s.Later s')
    (hcall : push'.call = push.call) (hreceived : Received push' → Received push) :
    s'.Reached push' := by
  intro hnow
  obtain ⟨g, hlistener, htook⟩ := h (hreceived hnow)
  have haddress : push'.address = push.address := congrArg (fun call => call.2.1) hcall
  have hrequest : push'.request = push.request := congrArg (fun call => call.2.2) hcall
  rw [haddress, hrequest, hlater.listener]
  exact ⟨g, hlistener, htook.mono hlater⟩

end Mono

/-! ### Every run -/

/-- What holds in every state reached. -/
structure SplitInv (isr : List Int) (s : Split) : Prop where
  isr_eq : ∀ f, (s.cluster.reactors f).shard.config.isr = isr
  leader_mem : ∀ f, (s.cluster.reactors f).shard.config.leader ∈ isr
  apart : ∀ f, (s.cluster.reactors f).Apart
  length : s.origins.length = s.cluster.produces.length
  planned : ∀ (k : Nat) (p : Produce) (b : Int), s.cluster.produces[k]? = some p →
    s.origins[k]? = some b → Planned isr s k p b
  ops : ∀ (k k' : Nat) (p p' : Produce) (b : Int) (n : Nat), s.cluster.produces[k]? = some p →
    s.cluster.produces[k']? = some p' → s.origins[k]? = some b → s.origins[k']? = some b →
    p.op = some n → p'.op = some n → k = k'
  kept : ∀ (k : Nat) (p : Produce) (b : Int), s.cluster.produces[k]? = some p →
    s.origins[k]? = some b → Kept isr s p b
  reached : ∀ push ∈ s.cluster.pushes, s.Reached push

section Step

variable {isr : List Int} {s s' : Split} {action : SplitAction} {b acks c : Int} {k : Nat}
  {p : Produce} {a : ClusterAction} {cluster : Cluster} {records : Bytes}

/-- An append index that is taken is not that of a new request. -/
theorem SplitInv.op_lt (h : SplitInv isr s) {n : Nat} (hp : s.cluster.produces[k]? = some p)
    (hb : s.origins[k]? = some b) (hn : p.op = some n) : n < (s.cluster.reactors b).ops.length := by
  obtain ⟨-, -, -, op, hop, -⟩ := (h.planned k p b hp hb).accepted n hn
  exact (List.getElem?_eq_some_iff.mp hop).1

/-- Two requests made to one broker have two appends there. -/
theorem SplitInv.ops_step (h : SplitInv isr s) (hlater : s.Later s') (k k' : Nat)
    (p p' : Produce) (b : Int) (n : Nat) (hp : s'.cluster.produces[k]? = some p)
    (hp' : s'.cluster.produces[k']? = some p') (hb : s'.origins[k]? = some b)
    (hb' : s'.origins[k']? = some b) (hn : p.op = some n) (hn' : p'.op = some n) : k = k' := by
  have hop : ∀ {q q' : Produce}, q'.plan = q.plan → q'.op = some n → q.op = some n := by
    intro q q' hplan hq
    exact (show q.plan.op = q'.plan.op from hplan ▸ rfl).trans hq
  rcases hlater.requests k p hp with ⟨q, hq, hsame, hplan⟩ | ⟨rfl, hnew⟩
  · have hlt := h.op_lt hq (hsame ▸ hb) (hop hplan hn)
    rcases hlater.requests k' p' hp' with ⟨q', hq', hsame', hplan'⟩ | ⟨rfl, hnew'⟩
    · exact h.ops k k' q q' b n hq hq' (hsame ▸ hb) (hsame' ▸ hb') (hop hplan hn) (hop hplan' hn')
    · exact absurd (hnew' b n hb' hn') (by omega)
  · rcases hlater.requests k' p' hp' with ⟨q', hq', hsame', hplan'⟩ | ⟨rfl, hnew'⟩
    · have hlt := h.op_lt hq' (hsame' ▸ hb') (hop hplan' hn')
      exact absurd (hnew b n hb hn) (by omega)
    · rfl

/-- The append of a delivered call is not that of a request. -/
theorem SplitInv.notLocal (h : SplitInv isr s) (hlater : s.Later s')
    (hlength : s'.cluster.produces.length = s.cluster.produces.length) (f : Int) :
    s'.NotLocal f (s.cluster.reactors f).ops.length := by
  intro k p hp hf hn
  rcases hlater.requests k p hp with ⟨q, hq, hsame, hplan⟩ | ⟨rfl, -⟩
  · have hlt := h.op_lt hq (hsame ▸ hf)
      ((show q.plan.op = p.plan.op from hplan ▸ rfl).trans hn)
    exact absurd hlt (lt_irrefl _)
  · obtain ⟨hlt, -⟩ := List.getElem?_eq_some_iff.mp hp
    omega

theorem received_of_answered {push : Push} {success : Bool}
    (h : Received { push with state := .answered success })
    (hsuccess : success = true → Received push) : Received push := by
  rcases h with ⟨b, n, hwriting⟩ | htrue | hreply
  · cases hwriting
  · exact hsuccess (Delivery.answered.inj htrue)
  · exact Or.inr (Or.inr hreply)

/-- **Calls.**  A call is taken at the end of the log of the broker that listens at its
    address, or not at all. -/
theorem SplitInv.reached_step (h : SplitInv isr s) (hsteps : (s.on b).Steps a cluster)
    (hproduce : ∀ records acks, a ≠ .produce records acks) (hrestart : ∀ image, a ≠ .restart image)
    (hdeliver : ∀ i receiver push, a = .deliver i receiver → s.cluster.pushes[i]? = some push →
      s.listener push.address = some receiver) (hlater : s.Later { s with cluster := cluster }) :
    ∀ push ∈ cluster.pushes, ({ s with cluster := cluster } : Split).Reached push := by
  have hold : ∀ push ∈ s.cluster.pushes, ({ s with cluster := cluster } : Split).Reached push :=
    fun push hpush => (h.reached push hpush).mono hlater rfl id
  -- one call at most is changed
  have hset : ∀ {i : Nat} {push push' : Push}, cluster.pushes = s.cluster.pushes.set i push' →
      s.cluster.pushes[i]? = some push → push'.call = push.call →
      (Received push' → Received push) →
      ∀ q ∈ cluster.pushes, ({ s with cluster := cluster } : Split).Reached q := by
    intro i push push' hpushes hpush hcall hreceived q hq
    rw [hpushes] at hq
    rcases List.mem_or_eq_of_mem_set hq with hq | rfl
    · exact hold q hq
    · exact (h.reached push (List.mem_of_getElem? hpush)).mono hlater hcall hreceived
  cases hsteps with
  | misdirected => exact absurd rfl (hproduce _ _)
  | produced => exact absurd rfl (hproduce _ _)
  | restarted => exact absurd rfl (hrestart _)
  | pushRefused hpush =>
    exact hset rfl hpush rfl fun hnow => received_of_answered hnow nofun
  | @pushAccepted i push receiver r hpush haddress happend =>
    obtain ⟨-, -, phase, hops⟩ := Cluster.appendReplica_some happend
    have hlast : (((s.on b).setReactor receiver r).reactors receiver).ops[
        (s.cluster.reactors receiver).ops.length]? = some
          { recordSet := recordSetAt push.request.baseOffset push.request.records
            phase := phase } := by
      rw [Cluster.setReactor_self, hops]
      exact List.getElem?_concat_length
    intro q hq
    rcases List.mem_or_eq_of_mem_set hq with hq | rfl
    · exact hold q hq
    · exact fun _ => ⟨receiver, hdeliver i receiver push rfl hpush, _, _, hlast, rfl,
        h.notLocal hlater rfl receiver⟩
  | pushWritten hpush hstate =>
    exact hset rfl hpush rfl fun hnow =>
      received_of_answered hnow fun _ => Or.inl ⟨_, _, hstate⟩
  | pushFailed hpush =>
    exact hset rfl hpush rfl fun hnow => received_of_answered hnow nofun
  | @received i push success hpush hstate =>
    refine hset rfl hpush rfl ?_
    rintro (hwriting | htrue | hreply)
    · exact Or.inl hwriting
    · exact Or.inr (Or.inl htrue)
    · obtain rfl : success = true := Option.some.inj hreply
      exact Or.inr (Or.inl hstate)
  | gaveUp hpush =>
    refine hset rfl hpush rfl ?_
    rintro (hwriting | htrue | hreply)
    · exact Or.inl hwriting
    · exact Or.inr (Or.inl htrue)
    · cases hreply
  | _ => exact hold

/-- What a request made to `b` knows of its append there. -/
theorem Planned.submitted (h : Planned isr s k p b) :
    (s.on b).Submitted p where
  refused := h.refused
  accepted := fun n hn => (h.accepted n hn).2.2

/-- **The end of a replication.**  The calls were answered by the brokers listening at the
    addresses of the ISR, which are the ISR. -/
theorem SplitInv.kept_replicationOver (h : SplitInv isr s) (hp : s.cluster.produces[k]? = some p)
    (hb : s.origins[k]? = some b) (hover : (s.on b).ReplicationOver k p) :
    Kept isr s { p with
      settled := true
      answer := if p.acks = -1 then
        some (p.answer.getD (Cluster.replicationAnswer p ((s.on b).replicated k p)))
        else p.answer } b := by
  have hplanned := h.planned k p b hp hb
  intro hacks
  have hacks : p.acks = -1 := hacks
  rw [if_pos hacks]
  intro baseOffset hacknowledged
  cases hreplicated : (s.on b).replicated k p with
  | false =>
    rw [hreplicated] at hacknowledged
    exact h.kept k p b hp hb hacks baseOffset
      (Produce.acknowledgedAt_of_failed rfl hacknowledged)
  | true =>
    obtain ⟨response, hresponse, herror, hbase⟩ := hacknowledged
    cases hbefore : p.answer with
    | some earlier =>
      simp only [hbefore, Option.getD_some] at hresponse
      exact h.kept k p b hp hb hacks baseOffset
        ⟨response, hbefore.trans hresponse, herror, hbase⟩
    | none =>
      simp only [hbefore, Option.getD_none, hreplicated, Cluster.replicationAnswer, if_true,
        Option.some.injEq, Answer.result.injEq] at hresponse
      obtain ⟨hoffset, -⟩ := hplanned.submitted.holds (hover.2.2 hacks)
      have hop : p.op ≠ none := fun hnone =>
        hplanned.refused hnone (hresponse ▸ herror)
      refine ⟨by rw [← hbase, ← hresponse, hoffset], hop, fun f hf hfb hserving => ?_⟩
      obtain ⟨address, request, haddress, hrequest, hrecords, hcall⟩ :=
        hplanned.sent hop (Cluster.configured_of_replicated hreplicated) f hf hfb
      obtain ⟨push, hpush, hsame, hsent, hreply⟩ :=
        Cluster.reply_of_replicated hreplicated hcall
      obtain ⟨g, hlistener, htook⟩ := h.reached push hpush (Or.inr (Or.inr hreply))
      obtain rfl : g = f := by
        unfold Serving at hserving
        rw [haddress, Option.bind_some, ← hsame, hlistener] at hserving
        exact Option.some.inj hserving
      rw [hsent, hrequest, hrecords] at htook
      exact htook

/-- **Answers.**  Only the end of a replication acknowledges an `acks = -1` request. -/
theorem SplitInv.kept_step (h : SplitInv isr s) (hsteps : (s.on b).Steps a cluster)
    (hproduce : ∀ records acks, a ≠ .produce records acks) (hrestart : ∀ image, a ≠ .restart image)
    (horigin : ∀ k, a = .writeOver k ∨ a = .replicationOver k ∨ a = .timeOut k →
      s.origins[k]? = some b) (hlater : s.Later { s with cluster := cluster }) (j : Nat)
    (q : Produce) (c : Int) (hq : cluster.produces[j]? = some q) (hc : s.origins[j]? = some c) :
    Kept isr { s with cluster := cluster } q c := by
  have hold : cluster.produces = s.cluster.produces →
      Kept isr { s with cluster := cluster } q c := by
    intro hproduces
    rw [hproduces] at hq
    exact (h.kept j q c hq hc).mono hlater
  -- one request at most is changed
  have hset : ∀ {k : Nat} {p p' : Produce},
      cluster.produces = s.cluster.produces.set k p' → s.cluster.produces[k]? = some p →
      (s.origins[k]? = some c → Kept isr s p' c) →
      Kept isr { s with cluster := cluster } q c := by
    intro k p p' hproduces hp hkept
    rw [hproduces, List.getElem?_set] at hq
    split at hq
    · next hj =>
        subst hj
        rw [if_pos (List.getElem?_eq_some_iff.mp hp).1] at hq
        obtain rfl := Option.some.inj hq
        exact (hkept hc).mono hlater
    · exact (h.kept j q c hq hc).mono hlater
  cases hsteps with
  | misdirected => exact absurd rfl (hproduce _ _)
  | produced => exact absurd rfl (hproduce _ _)
  | restarted => exact absurd rfl (hrestart _)
  | @writeFailed k p result hp _ hfailed =>
    refine hset rfl hp fun hk hacks baseOffset hacknowledged => ?_
    exact h.kept k p c hp hk hacks baseOffset
      (Produce.acknowledgedAt_of_failed hfailed hacknowledged)
  | writeAnswered hp hacks => exact hset rfl hp fun _ hall => absurd hall hacks
  | @replicationOver k p hp hover =>
    refine hset rfl hp fun hk => ?_
    obtain rfl : b = c := Option.some.inj ((horigin k (Or.inr (Or.inl rfl))).symm.trans hk)
    exact h.kept_replicationOver hp hk hover
  | timedOut hp =>
    exact hset rfl hp fun _ _ _ hacknowledged =>
      absurd hacknowledged (Produce.not_acknowledgedAt rfl (by simp))
  | _ => exact hold rfl

theorem one_lt_length_of_mem {f : Int} (hf : f ∈ isr) (hb : b ∈ isr) (hne : f ≠ b) :
    1 < isr.length := by
  cases isr with
  | nil => cases hf
  | cons first rest =>
    cases rest with
    | nil =>
      rw [List.mem_singleton.mp hf, List.mem_singleton.mp hb] at hne
      exact absurd rfl hne
    | cons second others => simp

variable (h : SplitInv isr s)

include h

/-- A new request at a broker that takes itself for the leader. -/
theorem SplitInv.planned_produced (hserving : s.Serving b)
    (hleader : (s.cluster.reactors b).shard.config.leader = b)
    (hconfig : ∀ f, (((s.on b).produced records acks).reactors f).shard.config =
      (s.cluster.reactors f).shard.config) :
    Planned isr { s with
      cluster := (s.on b).produced records acks, origins := s.origins ++ [b] }
      s.cluster.produces.length ((s.on b).planned records acks) b := by
  have hmem : b ∈ isr := by
    have hown := h.leader_mem b
    rwa [hleader] at hown
  have hsubmitted := Cluster.submitted_planned (s := s.on b) records acks
  refine ⟨fun n hn => ⟨hmem, hserving, hsubmitted.accepted n hn⟩, hsubmitted.refused, ?_⟩
  intro _ hconfigured f hf hfb
  have hisr : ((s.on b).produced records acks).partition.isr = isr :=
    (congrArg PartitionConfig.isr (hconfig b)).trans (h.isr_eq b)
  refine (Cluster.dispatched_planned (s := s.on b) records acks).sent ?_ hconfigured f ?_
  · rw [hisr]
    exact one_lt_length_of_mem hf hmem hfb
  · exact Cluster.mem_isrFollowers.mpr ⟨hisr ▸ hf, hfb⟩

/-- What is left to see of a step that leads to a later state. -/
theorem SplitInv.of_later (hlater : s.Later s')
    (hisr : ∀ f, (s'.cluster.reactors f).shard.config.isr = isr)
    (hleader : ∀ f, (s'.cluster.reactors f).shard.config.leader ∈ isr)
    (hapart : ∀ f, (s'.cluster.reactors f).Apart)
    (hlength : s'.origins.length = s'.cluster.produces.length) (hnew : ∀ (p : Produce) (b : Int),
      s'.cluster.produces[s.cluster.produces.length]? = some p →
      s'.origins[s.cluster.produces.length]? = some b →
      Planned isr s' s.cluster.produces.length p b)
    (hkept : ∀ (k : Nat) (p : Produce) (b : Int), s'.cluster.produces[k]? = some p →
      s'.origins[k]? = some b → Kept isr s' p b)
    (hreached : ∀ push ∈ s'.cluster.pushes, s'.Reached push) : SplitInv isr s' where
  isr_eq := hisr
  leader_mem := hleader
  apart := hapart
  length := hlength
  planned := by
    intro k p b hp hb
    rcases hlater.requests k p hp with ⟨q, hq, hsame, hplan⟩ | ⟨rfl, -⟩
    · exact (h.planned k q b hq (hsame ▸ hb)).mono hlater hplan
    · exact hnew p b hp hb
  ops := h.ops_step hlater
  kept := hkept
  reached := hreached

/-- A request at the end of the list is the new one. -/
theorem SplitInv.concat_cases {q : Produce} (hp : (s.cluster.produces ++ [q])[k]? = some p)
    (hb : (s.origins ++ [c])[k]? = some b) :
    (p = q ∧ b = c) ∨ s.cluster.produces[k]? = some p ∧ s.origins[k]? = some b := by
  have hlength := h.length
  rcases Reactor.getElem?_concat hp with ⟨hk, hpq⟩ | hp
  · rcases Reactor.getElem?_concat hb with ⟨-, hbc⟩ | hb
    · exact Or.inl ⟨hpq, hbc⟩
    · obtain ⟨hlt, -⟩ := List.getElem?_eq_some_iff.mp hb
      omega
  · obtain ⟨hlt, -⟩ := List.getElem?_eq_some_iff.mp hp
    rw [List.getElem?_append_left (by omega)] at hb
    exact Or.inr ⟨hp, hb⟩

theorem SplitInv.length_concat (q : Produce) (c : Int) :
    (s.origins ++ [c]).length = (s.cluster.produces ++ [q]).length := by
  rw [List.length_append, List.length_append, h.length]
  rfl

/-- A request at a broker that does not lead is answered with an error. -/
theorem SplitInv.misdirected (hlater : s.Later { s with
      cluster := { s.on c with
        produces := s.cluster.produces ++ [(s.on c).misdirected records acks] }
      origins := s.origins ++ [c] }) :
    SplitInv isr { s with
      cluster := { s.on c with
        produces := s.cluster.produces ++ [(s.on c).misdirected records acks] }
      origins := s.origins ++ [c] } := by
  refine h.of_later hlater h.isr_eq h.leader_mem h.apart (h.length_concat _ c) ?_ ?_
    fun push hpush => (h.reached push hpush).mono hlater rfl id
  · intro p b hp hb
    rcases h.concat_cases hp hb with ⟨rfl, -⟩ | ⟨hp, hb⟩
    · exact ⟨fun n hn => (nomatch hn), fun _ => by simp [Cluster.misdirected],
        fun hop => absurd rfl hop⟩
    · exact (h.planned _ p b hp hb).mono hlater rfl
  · intro k p b hp hb
    rcases h.concat_cases hp hb with ⟨rfl, -⟩ | ⟨hp, hb⟩
    · exact fun _ _ hacknowledged =>
        absurd hacknowledged (Produce.not_acknowledgedAt rfl (by simp))
    · exact (h.kept k p b hp hb).mono hlater

theorem SplitInv.produced {renumbered : Bytes} (hserving : s.Serving c)
    (hleader : (s.cluster.reactors c).shard.config.leader = c)
    (hsteps : (s.on c).Steps (.produce records acks) ((s.on c).produced renumbered acks))
    (hlater : s.Later { s with
      cluster := (s.on c).produced renumbered acks, origins := s.origins ++ [c] }) :
    SplitInv isr { s with
      cluster := (s.on c).produced renumbered acks, origins := s.origins ++ [c] } := by
  have hconfig := hsteps.partition_eq
  refine h.of_later hlater
    (fun f => (congrArg PartitionConfig.isr (hconfig f)).trans (h.isr_eq f))
    (fun f => (congrArg PartitionConfig.leader (hconfig f)).symm ▸ h.leader_mem f)
    (fun f => hsteps.apart (by simp) f (h.apart f)) (h.length_concat _ c) ?_ ?_ ?_
  · intro p b hp hb
    rcases h.concat_cases hp hb with ⟨rfl, rfl⟩ | ⟨hp, hb⟩
    · exact h.planned_produced hserving hleader hconfig
    · exact (h.planned _ p b hp hb).mono hlater rfl
  · intro k p b hp hb
    rcases h.concat_cases hp hb with ⟨rfl, -⟩ | ⟨hp, hb⟩
    · rintro - baseOffset ⟨response, hresponse, -, -⟩
      cases hresponse
    · exact (h.kept k p b hp hb).mono hlater
  · -- a call just made has not been taken
    intro push hpush
    rcases List.mem_append.mp hpush with hpush | hpush
    · exact (h.reached push hpush).mono hlater rfl id
    · split at hpush
      · obtain ⟨f, -, address, -, rfl⟩ := Cluster.mem_replicaAppends.mp hpush
        rintro (⟨b, n, hwriting⟩ | htrue | hreply)
        · cases hwriting
        · cases htrue
        · cases hreply
      · cases hpush

/-- A reload changes who leads, and neither the ISR nor a log. -/
theorem SplitInv.reloaded {partition : PartitionConfig} {reloaded : Reactor}
    (hshard : reloaded = { s.cluster.reactors c with
      shard := { (s.cluster.reactors c).shard with config := partition } })
    (hreloads : Reloads (s.cluster.reactors c).shard.config partition)
    (hleader : partition.leader ∈ partition.isr)
    (hlater : s.Later { s with cluster := s.cluster.setReactor c reloaded }) :
    SplitInv isr { s with cluster := s.cluster.setReactor c reloaded } := by
  have hreactor : ∀ {P : Reactor → Prop}, (∀ f, P (s.cluster.reactors f)) → P reloaded →
      ∀ f, P ((s.cluster.setReactor c reloaded).reactors f) :=
    fun {P} hall hnew f => Cluster.setReactor_rel (R := fun r r' => P r → P r')
      (fun _ => id) (fun _ => hnew) f (hall f)
  have hisr : partition.isr = isr := hreloads.2.trans (h.isr_eq c)
  subst hshard
  refine h.of_later hlater
    (hreactor (P := fun r => r.shard.config.isr = isr) h.isr_eq hisr)
    (hreactor (P := fun r => r.shard.config.leader ∈ isr) h.leader_mem (hisr ▸ hleader))
    (hreactor h.apart ((h.apart c).quiet rfl rfl)) h.length ?_ ?_
    fun push hpush => (h.reached push hpush).mono hlater rfl id
  · intro p b hp hb
    exact (h.planned _ p b hp hb).mono hlater rfl
  · intro k p b hp hb
    exact (h.kept k p b hp hb).mono hlater

theorem SplitInv.moved (hsteps : (s.on c).Steps a cluster)
    (hproduce : ∀ records acks, a ≠ .produce records acks) (hrestart : ∀ image, a ≠ .restart image)
    (horigin : ∀ k, a = .writeOver k ∨ a = .replicationOver k ∨ a = .timeOut k →
      s.origins[k]? = some c)
    (hdeliver : ∀ i receiver push, a = .deliver i receiver → s.cluster.pushes[i]? = some push →
      s.listener push.address = some receiver) (hlater : s.Later { s with cluster := cluster }) :
    SplitInv isr { s with cluster := cluster } := by
  have hconfig := hsteps.partition_eq
  have hplans : cluster.produces.length = s.cluster.produces.length := by
    have hmap := congrArg List.length (hsteps.plans_kept hproduce)
    rwa [List.length_map, List.length_map] at hmap
  refine h.of_later hlater
    (fun f => (congrArg PartitionConfig.isr (hconfig f)).trans (h.isr_eq f))
    (fun f => (congrArg PartitionConfig.leader (hconfig f)).symm ▸ h.leader_mem f)
    (fun f => hsteps.apart hrestart f (h.apart f)) (h.length.trans hplans.symm) ?_
    (h.kept_step hsteps hproduce hrestart horigin hlater)
    (h.reached_step hsteps hproduce hrestart hdeliver hlater)
  intro p b hp hb
  obtain ⟨hlt, -⟩ := List.getElem?_eq_some_iff.mp hp
  exact absurd hlt (by rw [hplans]; exact lt_irrefl _)

theorem SplitInv.step (hguard : s.LeaderInIsr action) (hsteps : s.Steps action s') :
    SplitInv isr s' := by
  have hlater := hsteps.later h.length
  cases hsteps with
  | misdirected => exact h.misdirected hlater
  | produced hserving hleader hrenumbered =>
    exact h.produced hserving hleader (.produced hleader hrenumbered) hlater
  | reloaded hreloads => exact h.reloaded rfl hreloads hguard hlater
  | moved hproduce hrestart horigin hdeliver hsteps =>
    exact h.moved hsteps hproduce hrestart horigin hdeliver hlater

end Step

theorem splitInv_initial {isr : List Int} (h : Initial isr s) : SplitInv isr s where
  isr_eq := h.isr_eq
  leader_mem := h.leader_mem
  apart := by
    intro f
    have hsets : (s.cluster.reactors f).recordSets = [] :=
      congrArg (List.map AppendOp.recordSet) (h.ops f)
    refine ⟨by rw [hsets]; exact List.Pairwise.nil, ?_⟩
    unfold Reactor.EndsInside
    rw [hsets]
    exact fun recordSet hmem => nomatch hmem
  length := by
    rw [h.origins, h.produces]
    rfl
  planned := by
    intro k p b hp
    rw [h.produces] at hp
    cases hp
  ops := by
    intro k k' p p' b n hp
    rw [h.produces] at hp
    cases hp
  kept := by
    intro k p b hp
    rw [h.produces] at hp
    cases hp
  reached := by
    intro push hpush
    rw [h.pushes] at hpush
    cases hpush

/-- **Acknowledged batches agree.**  Whatever brokers take themselves for the leader, two
    requests answered with `acks = -1` and error 0 never share an offset. -/
theorem acknowledged_ranges_disjoint {isr : List Int} {s : Split}
    (hreach : Transition.Reachable (Initial isr) step LeaderInIsr s) {k k' : Nat} {p p' : Produce}
    {baseOffset baseOffset' : Int} (hne : k ≠ k') (hp : s.cluster.produces[k]? = some p)
    (hp' : s.cluster.produces[k']? = some p') (hacks : p.acks = -1) (hacks' : p'.acks = -1)
    (hacknowledged : p.AcknowledgedAt baseOffset) (hacknowledged' : p'.AcknowledgedAt baseOffset') :
    baseOffset + estimateRecordCount p.records ≤ baseOffset' ∨
      baseOffset' + estimateRecordCount p'.records ≤ baseOffset := by
  have hinv : SplitInv isr s :=
    hreach.invariant (fun _ => splitInv_initial) fun _ _ _ hi hguard hstep =>
      hi.step hguard (steps_of_step hstep)
  have horigin : ∀ {j : Nat} {q : Produce}, s.cluster.produces[j]? = some q →
      ∃ b, s.origins[j]? = some b := by
    intro j q hq
    obtain ⟨hlt, -⟩ := List.getElem?_eq_some_iff.mp hq
    exact ⟨_, List.getElem?_eq_getElem (hinv.length ▸ hlt)⟩
  obtain ⟨b, hb⟩ := horigin hp
  obtain ⟨b', hb'⟩ := horigin hp'
  obtain ⟨rfl, hop, -⟩ := hinv.kept k p b hp hb hacks baseOffset hacknowledged
  obtain ⟨rfl, hop', htook⟩ := hinv.kept k' p' b' hp' hb' hacks' baseOffset' hacknowledged'
  obtain ⟨n, hn⟩ := Option.ne_none_iff_exists'.mp hop
  obtain ⟨hmem, hserving, -, op, hlocal, hset⟩ := (hinv.planned k p b hp hb).accepted n hn
  -- the log of `b` has both: its own request and, as that or by a call, the other one
  obtain ⟨m, other, hother, hset', hnm⟩ : ∃ m other, (s.cluster.reactors b).ops[m]? = some other ∧
      other.recordSet = recordSetAt p'.plannedBase p'.records ∧ n ≠ m := by
    by_cases hsame : b = b'
    · subst hsame
      obtain ⟨m, hm⟩ := Option.ne_none_iff_exists'.mp hop'
      obtain ⟨-, -, -, other, hother, hset'⟩ := (hinv.planned k' p' b hp' hb').accepted m hm
      refine ⟨m, other, hother, hset', ?_⟩
      rintro rfl
      exact hne (hinv.ops k k' p p' b n hp hp' hb hb' hn hm)
    · obtain ⟨m, other, hother, hset', hnotLocal⟩ := htook b hmem hsame hserving
      refine ⟨m, other, hother, hset', ?_⟩
      rintro rfl
      exact hnotLocal k p hp hb hn
  have hdisjoint := (hinv.apart b).disjoint hnm hlocal hother
  rw [hset, hset', recordSetAt_endOffset, recordSetAt_endOffset] at hdisjoint
  exact hdisjoint

/-- Brokers 0 and 1 listen at their addresses. -/
def splitPair : Split where
  cluster := Cluster.pair
  listener := fun address =>
    if address = "a" then some 0 else if address = "b" then some 1 else none

theorem initial_splitPair : Initial [0, 1] splitPair where
  isr_eq := fun _ => rfl
  leader_mem := fun _ => List.mem_cons_self
  ops := fun _ => rfl
  produces := rfl
  pushes := rfl
  origins := rfl

/-- Append `n` is written and flushed at a broker. -/
def writes (brokerId : Int) (n : Nat) : List SplitAction :=
  [.other (.shard brokerId (.startWrite n)), .other (.shard brokerId (.writeDone n)),
    .other (.shard brokerId (.flush n))]

/-- Call `i` is taken by a broker as its append `i`, and the answer arrives. -/
def takes (i : Nat) (brokerId : Int) : List SplitAction :=
  .other (.deliver i brokerId) :: writes brokerId i ++
    [.other (.replicaWritten i), .other (.receive i)]

/-- Broker 1 takes itself for the leader while broker 0 leads, and both acknowledge a
    request. -/
theorem acknowledged_ranges_disjoint_pair :
    ∃ s, Transition.Reachable (Initial [0, 1]) step LeaderInIsr s ∧
      ∃ p p', s.cluster.produces[0]? = some p ∧ s.cluster.produces[1]? = some p' ∧
        s.origins = [0, 1] ∧ p.AcknowledgedAt 0 ∧ p'.AcknowledgedAt 1 ∧
        (0 + estimateRecordCount p.records ≤ 1 ∨ 1 + estimateRecordCount p'.records ≤ 0) := by
  have hrun : (Transition.guardedRun step LeaderInIsr splitPair
      ([.reload 1 { Cluster.pairPartition with leader := 1 }, .produce 0 [7] (-1)] ++ takes 0 1 ++
        writes 0 0 ++ [.other (.replicationOver 0), .produce 1 [8] (-1)] ++ takes 1 0 ++
        writes 1 1 ++ [.other (.replicationOver 1)])).map
      (fun s => (s.cluster.produces.map fun p => (p.acks, p.answer), s.origins)) =
        some ([(-1, some (.result { topic := "t", logEndOffset := 1 })),
          (-1, some (.result { topic := "t", baseOffset := 1, logEndOffset := 2 }))], [0, 1]) := by
    decide +kernel
  obtain ⟨s, hs, hends⟩ := Option.map_eq_some_iff.mp hrun
  obtain ⟨hproduces, horigins⟩ := Prod.mk.inj hends
  have hreach : Transition.Reachable (Initial [0, 1]) step LeaderInIsr s :=
    .of_guardedRun (.start initial_splitPair) _ hs
  have hfirst := congrArg (fun answers => answers[0]?) hproduces
  have hsecond := congrArg (fun answers => answers[1]?) hproduces
  simp only [List.getElem?_map] at hfirst hsecond
  obtain ⟨p, hp, hanswer⟩ := Option.map_eq_some_iff.mp hfirst
  obtain ⟨p', hp', hanswer'⟩ := Option.map_eq_some_iff.mp hsecond
  obtain ⟨hacks, hanswer⟩ := Prod.mk.inj hanswer
  obtain ⟨hacks', hanswer'⟩ := Prod.mk.inj hanswer'
  have hacknowledged : p.AcknowledgedAt 0 := ⟨_, hanswer, rfl, rfl⟩
  have hacknowledged' : p'.AcknowledgedAt 1 := ⟨_, hanswer', rfl, rfl⟩
  exact ⟨s, hreach, p, p', hp, hp', horigins, hacknowledged, hacknowledged',
    acknowledged_ranges_disjoint hreach (by decide) hp hp' hacks hacks' hacknowledged
      hacknowledged'⟩

end Split

end Mkmq
