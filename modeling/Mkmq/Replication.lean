import Mkmq.Broker
import Mkmq.PartitionReactor
import Mkmq.Recovery

/-!
# A leader, its followers and the messages between them

`BrokerShard::append` sends the renumbered records to the ISR before it hands them to its
own log, and settles the high watermark once every `replica_append` has been answered;
followers also ask the leader for what they miss (`src/broker_shard.cpp`).  `Cluster` is
one partition on all brokers: a `Reactor` for each of them, the produce requests at the
broker `config.nodeId`, the `replica_append` calls it has made and the catch-up rounds of
the followers.  A step is one continuation on one broker, or one event of the network.

A message may stay under way for ever or be delivered after its sender has given up; it
is not delivered twice.  Every broker reads the same topology.
-/

namespace Mkmq

open ByteCodec PartitionLogShard

/-! ### State -/

/-- How far a `replica_append` has come: under way, being written by the broker that took
    it, or answered. -/
inductive Delivery where
  | sent
  | writing (brokerId : Int) (op : Nat)
  | answered (success : Bool)
deriving DecidableEq, Repr

/-- One `replica_append`; `reply` is the outcome of its future at the sender. -/
structure Push where
  produce : Nat
  address : String
  request : ReplicaAppendRequest
  state : Delivery := .sent
  reply : Option Bool := none
deriving DecidableEq, Repr

/-- How a future of a `ProducePartitionResult` ends. -/
inductive Answer where
  | result (response : ProducePartitionResult)
  | exception
deriving DecidableEq, Repr

def Answer.succeeded : Answer → Bool
  | .result response => response.errorCode = .none
  | .exception => false

/-- One call of `BrokerShard::append`.  `records` are renumbered, `unconfigured` tells that
    an ISR member has no endpoint, `op` is the append at the local log unless that refused,
    and `settled` that the continuation on `replicate_fut` has run or will not run. -/
structure Produce where
  records : Bytes
  acks : Int
  plannedBase : Int := 0
  plannedEnd : Int := 0
  unconfigured : Bool := false
  response : ProducePartitionResult
  op : Option Nat := none
  settled : Bool := false
  answer : Option Answer := none
deriving DecidableEq, Repr

inductive CatchUpState where
  | asked
  | fetched (result : ReplicaFetchResult)
  | writing (op : Nat) (logEnd : Int)
  | over
deriving DecidableEq, Repr

/-- One round of `catch_up_follower_partition`. -/
structure CatchUp where
  follower : Int
  localEnd : Int
  state : CatchUpState := .asked
deriving DecidableEq, Repr

structure Cluster where
  config : BrokerConfig
  reactors : Int → Reactor
  produces : List Produce := []
  pushes : List Push := []
  catchUps : List CatchUp := []

inductive ClusterAction where
  | produce (records : Bytes) (acks : Int)
  | shard (brokerId : Int) (a : ReactorAction)
  | deliver (i : Nat) (brokerId : Int)
  | replicaWritten (i : Nat)
  | receive (i : Nat)
  | giveUp (i : Nat)
  | writeOver (k : Nat)
  | replicationOver (k : Nat)
  | timeOut (k : Nat)
  | catchUp (follower : Int)
  | replicaFetch (c : Nat) (brokerId : Int)
  | applyFetched (c : Nat)
  | caughtUp (c : Nat)
  | abandonCatchUp (c : Nat)
  | restart (image : DataDir)
deriving DecidableEq, Repr

/-- Bytes asked for in a catch-up round. -/
def kReplicaCatchupMaxBytes : Int := 1024 * 1024

/-- Where messages to a broker are sent. -/
def addressOf (config : BrokerConfig) (brokerId : Int) : Option String :=
  (findBroker config brokerId).map BrokerEndpoint.mercuryAddress

/-- The calls `replicate_to_isr` makes for one produce request. -/
def replicaAppends (config : BrokerConfig) (partition : PartitionConfig) (produce : Nat)
    (request : ReplicaAppendRequest) : List Push :=
  (isrFollowers config.nodeId partition).filterMap fun brokerId =>
    (addressOf config brokerId).map fun address =>
      { produce := produce, address := address, request := request }

/-- A request whose broker stops: nothing follows, and the client sees it fail. -/
def Produce.disconnect (p : Produce) : Produce :=
  { p with settled := true, answer := some (p.answer.getD .exception) }

/-- A call whose receiver may be the broker that stops. -/
def Push.disconnect (stopped : Int) (push : Push) : Push :=
  match push.state with
  | .writing brokerId _ =>
    if brokerId = stopped then { push with state := .answered false } else push
  | _ => push

namespace Cluster

variable {s : Cluster}

/-! ### Steps -/

/-- The broker the produce requests go to. -/
def leader (s : Cluster) : Reactor := s.reactors s.config.nodeId

/-- The partition as that broker has it configured. -/
def partition (s : Cluster) : PartitionConfig := s.leader.shard.config

def setReactor (s : Cluster) (brokerId : Int) (r : Reactor) : Cluster :=
  { s with reactors := Function.update s.reactors brokerId r }

def setPush (s : Cluster) (i : Nat) (push : Push) : Cluster :=
  { s with pushes := s.pushes.set i push }

def setProduce (s : Cluster) (k : Nat) (produce : Produce) : Cluster :=
  { s with produces := s.produces.set k produce }

def setCatchUp (s : Cluster) (c : Nat) (catchUp : CatchUp) : Cluster :=
  { s with catchUps := s.catchUps.set c catchUp }

/-- A request at a broker that does not lead the partition. -/
def misdirected (s : Cluster) (records : Bytes) (acks : Int) : Produce :=
  let response : ProducePartitionResult :=
    { topic := s.partition.topic
      partition := s.partition.partition
      errorCode := .notLeaderOrFollower }
  { records := records
    acks := acks
    response := response
    settled := true
    answer := some (.result response) }

/-- The payload of the `replica_append` calls for renumbered records. -/
def replicaRequest (s : Cluster) (records : Bytes) : ReplicaAppendRequest :=
  { topic := s.partition.topic
    partition := s.partition.partition
    baseOffset := s.leader.shard.offsets.latest
    leaderHighWatermark := s.leader.shard.offsets.latest + estimateRecordCount records
    records := records }

/-- The request as `BrokerShard::append` leaves it at its first wait. -/
def planned (s : Cluster) (records : Bytes) (acks : Int) : Produce :=
  let admission := s.leader.shard.toLogHead.append records acks
  { records := records
    acks := acks
    plannedBase := s.leader.shard.offsets.latest
    plannedEnd := s.leader.shard.offsets.latest + estimateRecordCount records
    unconfigured := decide (s.partition.isr.length > 1) &&
      (isrFollowers s.config.nodeId s.partition).any fun brokerId =>
        (addressOf s.config brokerId).isNone
    response := admission.response
    op := admission.recordSet.map fun _ => s.leader.ops.length }

/-- Renumbered records are sent to the ISR and handed to the local log. -/
def produced (s : Cluster) (records : Bytes) (acks : Int) : Cluster :=
  { s.setReactor s.config.nodeId
      (s.leader.accept (s.leader.shard.toLogHead.append records acks)) with
    produces := s.produces ++ [s.planned records acks]
    pushes := s.pushes ++
      if s.partition.isr.length > 1 then
        replicaAppends s.config s.partition s.produces.length (s.replicaRequest records)
      else [] }

def produce (s : Cluster) (records : Bytes) (acks : Int) : Option Cluster :=
  if s.partition.leader ≠ s.config.nodeId then
    some { s with produces := s.produces ++ [s.misdirected records acks] }
  else
    (rewriteRecordBatchOffsets records s.leader.shard.offsets.latest).map fun records =>
      s.produced records acks

/-- `BrokerShard::append_replica` at a broker, up to its first wait; `none` is a refusal. -/
def appendReplica (s : Cluster) (brokerId : Int) (request : ReplicaAppendRequest) :
    Option Reactor :=
  let r := s.reactors brokerId
  if brokerId ∉ r.shard.config.replicas then none
  else
    let admission := r.shard.toLogHead.appendReplica request
    admission.recordSet.map fun _ => r.accept admission

def deliver (s : Cluster) (i : Nat) (push : Push) (brokerId : Int) : Cluster :=
  match s.appendReplica brokerId push.request with
  | none => s.setPush i { push with state := .answered false }
  | some r =>
    (s.setReactor brokerId r).setPush i
      { push with state := .writing brokerId (s.reactors brokerId).ops.length }

/-- The phase of append `n` at a broker. -/
def phaseAt (s : Cluster) (brokerId : Int) (n : Nat) : Option AppendPhase :=
  (s.reactors brokerId).ops[n]?.map AppendOp.phase

def replicaWritten (s : Cluster) (i : Nat) (push : Push) : Option Cluster :=
  match push.state with
  | .writing brokerId n =>
    match s.phaseAt brokerId n with
    | some .done => some (s.setPush i { push with state := .answered true })
    | some .failed => some (s.setPush i { push with state := .answered false })
    | _ => none
  | _ => none

/-- The result of `write_fut`, once it has one. -/
def writeResult (s : Cluster) (p : Produce) : Option Answer :=
  match p.op with
  | none => some (.result p.response)
  | some n =>
    match s.phaseAt s.config.nodeId n with
    | some .done => some (.result p.response)
    | some .failed => some .exception
    | _ => none

/-- The continuation on `write_fut`: it is the answer, but for `acks = -1` only when the
    write was refused or failed. -/
def writeOver (s : Cluster) (k : Nat) (p : Produce) : Option Cluster :=
  match s.writeResult p with
  | none => none
  | some result =>
    if p.acks = -1 then
      if p.settled ∨ result.succeeded then none
      else
        some (s.setProduce k { p with settled := true, answer := some (p.answer.getD result) })
    else if p.answer = none then some (s.setProduce k { p with answer := some result })
    else none

/-- What has become of the `replica_append` calls of request `k`. -/
def replies (s : Cluster) (k : Nat) : List (Option Bool) :=
  (s.pushes.filter fun push => decide (push.produce = k)).map Push.reply

/-- Every call of request `k` was answered with error 0. -/
def replicated (s : Cluster) (k : Nat) (p : Produce) : Bool :=
  !p.unconfigured && (s.replies k).all fun reply => decide (reply = some true)

/-- The continuation on `replicate_fut` may run: every call has an outcome, and for
    `acks = -1` the local write has succeeded before. -/
def ReplicationOver (s : Cluster) (k : Nat) (p : Produce) : Prop :=
  p.settled = false ∧ (∀ reply ∈ s.replies k, reply ≠ none) ∧
    (p.acks = -1 → (s.writeResult p).any Answer.succeeded = true)

instance (s : Cluster) (k : Nat) (p : Produce) : Decidable (s.ReplicationOver k p) :=
  @instDecidableAnd _ _ inferInstance
    (@instDecidableAnd _ _ (List.decidableBAll _ _) inferInstance)

/-- The answer of the continuation on `replicate_fut` of an `acks = -1` request. -/
def replicationAnswer (p : Produce) (replicated : Bool) : Answer :=
  .result (if replicated then p.response else { p.response with errorCode := .notEnoughReplicas })

def replicationOver (s : Cluster) (k : Nat) (p : Produce) : Cluster :=
  let replicated := s.replicated k p
  let shard :=
    { s.leader.shard with toLogHead := s.leader.shard.toLogHead.afterReplication replicated }
  let answer :=
    if p.acks = -1 then some (p.answer.getD (replicationAnswer p replicated)) else p.answer
  (s.setReactor s.config.nodeId { s.leader with shard := shard }).setProduce k
    { p with settled := true, answer := answer }

/-- `with_timeout` answers and leaves the operation running. -/
def timeOut (s : Cluster) (k : Nat) (p : Produce) : Option Cluster :=
  if p.answer = none ∧ 0 < signed 32 s.config.produceWaitMsCap then
    some (s.setProduce k { p with
      answer := some (.result
        { topic := s.partition.topic
          partition := s.partition.partition
          errorCode := .requestTimedOut }) })
  else none

/-- The round starts from the follower's own log end. -/
def catchUp (s : Cluster) (follower : Int) : Option Cluster :=
  let partition := (s.reactors follower).shard.config
  if follower ∈ partition.replicas ∧ partition.leader ≠ follower then
    some { s with
      catchUps := s.catchUps ++
        [{ follower := follower, localEnd := (s.reactors follower).shard.offsets.latest }] }
  else none

/-- `BrokerShard::fetch_for_replica` at the broker the request reaches. -/
def replicaFetch (s : Cluster) (c : Nat) (round : CatchUp) (brokerId : Int) : Cluster :=
  let r := s.reactors brokerId
  if r.shard.config.leader ≠ brokerId then
    s.setCatchUp c { round with state := .fetched { errorCode := .notLeaderOrFollower } }
  else
    match r.shard.fetchForReplica round.localEnd kReplicaCatchupMaxBytes with
    | (shard, .ok result) =>
      (s.setReactor brokerId { r with shard := shard }).setCatchUp c
        { round with state := .fetched result }
    | (shard, .error _) =>
      (s.setReactor brokerId { r with shard := shard }).setCatchUp c { round with state := .over }

/-- What was fetched is appended at the log end the round started from. -/
def applyFetched (s : Cluster) (c : Nat) (round : CatchUp) (result : ReplicaFetchResult) :
    Cluster :=
  let r := s.reactors round.follower
  if result.errorCode ≠ .none ∨ result.records = [] then
    s.setCatchUp c { round with state := .over }
  else
    let request : ReplicaAppendRequest :=
      { topic := r.shard.config.topic
        partition := r.shard.config.partition
        baseOffset := round.localEnd
        leaderHighWatermark := result.leaderHighWatermark
        records := result.records }
    match s.appendReplica round.follower request with
    | none => s.setCatchUp c { round with state := .over }
    | some r' =>
      (s.setReactor round.follower r').setCatchUp c
        { round with
          state := .writing r.ops.length
            (round.localEnd + estimateRecordCount result.records) }

def caughtUp (s : Cluster) (c : Nat) (round : CatchUp) (n : Nat) (logEnd : Int) : Option Cluster :=
  let r := s.reactors round.follower
  match s.phaseAt round.follower n with
  | some .done =>
    let head :=
      if r.shard.offsets.latest ≥ logEnd then
        r.shard.toLogHead.markReplicatedThrough r.shard.offsets.latest
      else r.shard.toLogHead
    some ((s.setReactor round.follower
      { r with shard := { r.shard with toLogHead := head } }).setCatchUp c
        { round with state := .over })
  | some .failed => some (s.setCatchUp c { round with state := .over })
  | _ => none

/-- The broker that takes the requests stops and starts again on the files `image`: its
    clients lose their connections, and so do the brokers whose calls it was serving. -/
def restart (s : Cluster) (image : DataDir) : Cluster :=
  let shard := s.leader.shard
  { s.setReactor s.config.nodeId
      { shard := start shard.config image shard.segmentBytes shard.logFrameAlignment
          shard.logFrameAlignment_pos } with
    produces := s.produces.map Produce.disconnect
    pushes := s.pushes.map (Push.disconnect s.config.nodeId)
    catchUps := s.catchUps.map fun round =>
      if round.follower = s.config.nodeId then { round with state := .over } else round }

def step (s : Cluster) : ClusterAction → Option Cluster
  | .produce records acks => s.produce records acks
  | .shard brokerId a =>
    if a.call = none then ((s.reactors brokerId).step a).map (s.setReactor brokerId) else none
  | .deliver i brokerId =>
    s.pushes[i]?.bind fun push =>
      if push.state = .sent ∧ addressOf s.config brokerId = some push.address then
        some (s.deliver i push brokerId)
      else none
  | .replicaWritten i => s.pushes[i]?.bind (s.replicaWritten i)
  | .receive i =>
    s.pushes[i]?.bind fun push =>
      match push.state with
      | .answered success =>
        if push.reply = none then some (s.setPush i { push with reply := some success })
        else none
      | _ => none
  | .giveUp i =>
    s.pushes[i]?.bind fun push =>
      if push.reply = none then some (s.setPush i { push with reply := some false }) else none
  | .writeOver k => s.produces[k]?.bind (s.writeOver k)
  | .replicationOver k =>
    s.produces[k]?.bind fun p =>
      if s.ReplicationOver k p then some (s.replicationOver k p) else none
  | .timeOut k => s.produces[k]?.bind (s.timeOut k)
  | .catchUp follower => s.catchUp follower
  | .replicaFetch c brokerId =>
    s.catchUps[c]?.bind fun round =>
      if round.state = .asked ∧
          addressOf s.config brokerId =
            addressOf s.config (s.reactors round.follower).shard.config.leader then
        some (s.replicaFetch c round brokerId)
      else none
  | .applyFetched c =>
    s.catchUps[c]?.bind fun round =>
      match round.state with
      | .fetched result => some (s.applyFetched c round result)
      | _ => none
  | .caughtUp c =>
    s.catchUps[c]?.bind fun round =>
      match round.state with
      | .writing n logEnd => s.caughtUp c round n logEnd
      | _ => none
  | .abandonCatchUp c =>
    s.catchUps[c]?.bind fun round =>
      if round.state = .asked then some (s.setCatchUp c { round with state := .over }) else none
  | .restart image => some (s.restart image)

/-! ### What a step can do -/

/-- Every way a step can go, with the state it leads to. -/
inductive Steps (s : Cluster) : ClusterAction → Cluster → Prop where
  | misdirected {records : Bytes} {acks : Int} :
      Steps s (.produce records acks)
        { s with produces := s.produces ++ [s.misdirected records acks] }
  | produced {records renumbered : Bytes} {acks : Int} :
      s.partition.leader = s.config.nodeId →
      rewriteRecordBatchOffsets records s.leader.shard.offsets.latest = some renumbered →
      Steps s (.produce records acks) (s.produced renumbered acks)
  | shard {brokerId : Int} {a : ReactorAction} {r : Reactor} :
      a.call = none → (s.reactors brokerId).step a = some r →
      Steps s (.shard brokerId a) (s.setReactor brokerId r)
  | pushRefused {i : Nat} {push : Push} {brokerId : Int} :
      s.pushes[i]? = some push →
      Steps s (.deliver i brokerId) (s.setPush i { push with state := .answered false })
  | pushAccepted {i : Nat} {push : Push} {brokerId : Int} {r : Reactor} :
      s.pushes[i]? = some push → addressOf s.config brokerId = some push.address →
      s.appendReplica brokerId push.request = some r →
      Steps s (.deliver i brokerId)
        ((s.setReactor brokerId r).setPush i
          { push with state := .writing brokerId (s.reactors brokerId).ops.length })
  | pushWritten {i : Nat} {push : Push} {brokerId : Int} {n : Nat} :
      s.pushes[i]? = some push → push.state = .writing brokerId n →
      s.phaseAt brokerId n = some .done →
      Steps s (.replicaWritten i) (s.setPush i { push with state := .answered true })
  | pushFailed {i : Nat} {push : Push} :
      s.pushes[i]? = some push →
      Steps s (.replicaWritten i) (s.setPush i { push with state := .answered false })
  | received {i : Nat} {push : Push} {success : Bool} :
      s.pushes[i]? = some push → push.state = .answered success →
      Steps s (.receive i) (s.setPush i { push with reply := some success })
  | gaveUp {i : Nat} {push : Push} :
      s.pushes[i]? = some push →
      Steps s (.giveUp i) (s.setPush i { push with reply := some false })
  | writeFailed {k : Nat} {p : Produce} {result : Answer} :
      s.produces[k]? = some p → p.acks = -1 → result.succeeded = false →
      Steps s (.writeOver k)
        (s.setProduce k { p with settled := true, answer := some (p.answer.getD result) })
  | writeAnswered {k : Nat} {p : Produce} {result : Answer} :
      s.produces[k]? = some p → p.acks ≠ -1 →
      Steps s (.writeOver k) (s.setProduce k { p with answer := some result })
  | replicationOver {k : Nat} {p : Produce} :
      s.produces[k]? = some p → s.ReplicationOver k p →
      Steps s (.replicationOver k) (s.replicationOver k p)
  | timedOut {k : Nat} {p : Produce} :
      s.produces[k]? = some p →
      Steps s (.timeOut k) (s.setProduce k { p with
        answer := some (.result
          { topic := s.partition.topic
            partition := s.partition.partition
            errorCode := .requestTimedOut }) })
  | catchUpStarted {follower : Int} :
      (s.reactors follower).shard.config.leader ≠ follower →
      Steps s (.catchUp follower)
        { s with
          catchUps := s.catchUps ++
            [{ follower := follower, localEnd := (s.reactors follower).shard.offsets.latest }] }
  | catchUpMoved {a : ClusterAction} {c : Nat} {round : CatchUp} {state : CatchUpState} :
      s.catchUps[c]? = some round → (∀ image, a ≠ .restart image) →
      Steps s a (s.setCatchUp c { round with state := state })
  | fetched {c : Nat} {brokerId : Int} {round : CatchUp} {state : CatchUpState}
      {cache : List (Int × Int)} :
      s.catchUps[c]? = some round →
      Steps s (.replicaFetch c brokerId)
        ((s.setReactor brokerId
          { s.reactors brokerId with
            shard := { (s.reactors brokerId).shard with segmentCache := cache } }).setCatchUp c
          { round with state := state })
  | fetchApplied {c : Nat} {round : CatchUp} {request : ReplicaAppendRequest} {r : Reactor}
      {state : CatchUpState} :
      s.catchUps[c]? = some round → s.appendReplica round.follower request = some r →
      Steps s (.applyFetched c)
        ((s.setReactor round.follower r).setCatchUp c { round with state := state })
  | caughtUp {c : Nat} {round : CatchUp} :
      s.catchUps[c]? = some round →
      Steps s (.caughtUp c)
        ((s.setReactor round.follower
          { s.reactors round.follower with
            shard := { (s.reactors round.follower).shard with
              toLogHead := (s.reactors round.follower).shard.toLogHead.markReplicatedThrough
                (s.reactors round.follower).shard.offsets.latest } }).setCatchUp c
          { round with state := .over })
  | restarted {image : DataDir} : Steps s (.restart image) (s.restart image)

theorem steps_of_deliver {i : Nat} {push : Push} {brokerId : Int} (hpush : s.pushes[i]? = some push)
    (haddress : addressOf s.config brokerId = some push.address) :
    s.Steps (.deliver i brokerId) (s.deliver i push brokerId) := by
  unfold deliver
  split
  · exact Steps.pushRefused hpush
  · next r hr => exact Steps.pushAccepted hpush haddress hr

theorem steps_of_replicaFetch {c : Nat} {round : CatchUp} (brokerId : Int)
    (hround : s.catchUps[c]? = some round) :
    s.Steps (.replicaFetch c brokerId) (s.replicaFetch c round brokerId) := by
  unfold replicaFetch
  simp only
  split
  · exact Steps.catchUpMoved hround (by simp)
  · obtain ⟨cache, hcache⟩ := (s.reactors brokerId).shard.fetchForReplica_cache round.localEnd
      kReplicaCatchupMaxBytes
    split
    · next shard result hfetch =>
        rw [hfetch] at hcache
        obtain rfl : shard = _ := hcache
        exact Steps.fetched hround
    · next shard message hfetch =>
        rw [hfetch] at hcache
        obtain rfl : shard = _ := hcache
        exact Steps.fetched hround

theorem steps_of_applyFetched {c : Nat} {round : CatchUp} (result : ReplicaFetchResult)
    (hround : s.catchUps[c]? = some round) :
    s.Steps (.applyFetched c) (s.applyFetched c round result) := by
  unfold applyFetched
  simp only
  split
  · exact Steps.catchUpMoved hround (by simp)
  split
  · exact Steps.catchUpMoved hround (by simp)
  · next r hr => exact Steps.fetchApplied hround hr

/-- **A step goes one of the ways listed.** -/
theorem steps_of_step {s' : Cluster} {a : ClusterAction} (h : s.step a = some s') :
    s.Steps a s' := by
  cases a with
  | produce records acks =>
    simp only [step, produce] at h
    split at h
    · obtain rfl := Option.some.inj h
      exact Steps.misdirected
    · next hleader =>
        obtain ⟨renumbered, hrewrite, rfl⟩ := Option.map_eq_some_iff.mp h
        exact Steps.produced (not_not.mp hleader) hrewrite
  | shard brokerId a =>
    simp only [step] at h
    split at h
    · next hcall =>
        obtain ⟨r, hr, rfl⟩ := Option.map_eq_some_iff.mp h
        exact Steps.shard hcall hr
    · cases h
  | deliver i brokerId =>
    obtain ⟨push, hpush, h⟩ := Option.bind_eq_some_iff.mp h
    split at h
    · next hsent =>
        obtain rfl := Option.some.inj h
        exact steps_of_deliver hpush hsent.2
    · cases h
  | replicaWritten i =>
    obtain ⟨push, hpush, h⟩ := Option.bind_eq_some_iff.mp h
    unfold replicaWritten at h
    split at h
    · next brokerId n hstate =>
        split at h
        · next hphase =>
            obtain rfl := Option.some.inj h
            exact Steps.pushWritten hpush hstate hphase
        · obtain rfl := Option.some.inj h
          exact Steps.pushFailed hpush
        · cases h
    · cases h
  | receive i =>
    obtain ⟨push, hpush, h⟩ := Option.bind_eq_some_iff.mp h
    split at h
    · next success hstate =>
        split at h
        · obtain rfl := Option.some.inj h
          exact Steps.received hpush hstate
        · cases h
    · cases h
  | giveUp i =>
    obtain ⟨push, hpush, h⟩ := Option.bind_eq_some_iff.mp h
    split at h
    · obtain rfl := Option.some.inj h
      exact Steps.gaveUp hpush
    · cases h
  | writeOver k =>
    obtain ⟨p, hp, h⟩ := Option.bind_eq_some_iff.mp h
    unfold writeOver at h
    split at h
    · cases h
    · next result _ =>
        split at h
        · next hacks =>
            split at h
            · cases h
            · next hfailed =>
                obtain rfl := Option.some.inj h
                exact Steps.writeFailed hp hacks
                  (Bool.eq_false_iff.mpr fun hsucceeded => hfailed (Or.inr hsucceeded))
        · next hacks =>
            split at h
            · obtain rfl := Option.some.inj h
              exact Steps.writeAnswered hp hacks
            · cases h
  | replicationOver k =>
    obtain ⟨p, hp, h⟩ := Option.bind_eq_some_iff.mp h
    split at h
    · next hover =>
        obtain rfl := Option.some.inj h
        exact Steps.replicationOver hp hover
    · cases h
  | timeOut k =>
    obtain ⟨p, hp, h⟩ := Option.bind_eq_some_iff.mp h
    unfold timeOut at h
    split at h
    · obtain rfl := Option.some.inj h
      exact Steps.timedOut hp
    · cases h
  | catchUp follower =>
    simp only [step, catchUp] at h
    split at h
    · next hfollower =>
        obtain rfl := Option.some.inj h
        exact Steps.catchUpStarted hfollower.2
    · cases h
  | replicaFetch c brokerId =>
    obtain ⟨round, hround, h⟩ := Option.bind_eq_some_iff.mp h
    split at h
    · obtain rfl := Option.some.inj h
      exact steps_of_replicaFetch brokerId hround
    · cases h
  | applyFetched c =>
    obtain ⟨round, hround, h⟩ := Option.bind_eq_some_iff.mp h
    split at h
    · next result _ =>
        obtain rfl := Option.some.inj h
        exact steps_of_applyFetched result hround
    · cases h
  | caughtUp c =>
    obtain ⟨round, hround, h⟩ := Option.bind_eq_some_iff.mp h
    split at h
    · next n logEnd _ =>
        simp only [Cluster.caughtUp] at h
        split at h
        · obtain rfl := Option.some.inj h
          split
          · exact Steps.caughtUp hround
          · have hmoved : s.Steps (.caughtUp c) (s.setCatchUp c { round with state := .over }) :=
              Steps.catchUpMoved hround (by simp)
            unfold setReactor
            rwa [Function.update_eq_self]
        · obtain rfl := Option.some.inj h
          exact Steps.catchUpMoved hround (by simp)
        · cases h
    · cases h
  | abandonCatchUp c =>
    obtain ⟨round, hround, h⟩ := Option.bind_eq_some_iff.mp h
    split at h
    · obtain rfl := Option.some.inj h
      exact Steps.catchUpMoved hround (by simp)
    · cases h
  | restart image =>
    obtain rfl := Option.some.inj h
    exact Steps.restarted

end Cluster

end Mkmq
