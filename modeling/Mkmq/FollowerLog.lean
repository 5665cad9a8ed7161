import Mkmq.BatchWalks
import Mkmq.PartitionReactor
import Mkmq.SequentialLog
import Mkmq.Transition

/-!
# A follower behind its leader

A follower's log is fed from two sides: `replica_append` calls, each with one record set
of the leader's log, and catch-up rounds, which ask the leader for what follows the
follower's log end and append the answer, often several record sets as one.  Calls may
come in any order, twice or never, and the answer of a round may be stale when it is
applied.  The only protection is that `append_replica` refuses whatever does not start at
the log end; it is enough.  The leader is any shard whose index holds a leading part of
its log, in order, and the log may grow at any time.
-/

namespace Mkmq

open ByteCodec PartitionLogShard

variable {sets : List RecordSet}

/-! ### Offsets of a log of record sets -/

/-- The offsets record sets take, one after the other. -/
def offsetsOf (sets : List RecordSet) : Int :=
  (sets.map fun recordSet => estimateRecordCount recordSet.bytes).sum

@[simp] theorem offsetsOf_nil : offsetsOf [] = 0 := rfl

@[simp] theorem offsetsOf_cons (recordSet : RecordSet) (sets : List RecordSet) :
    offsetsOf (recordSet :: sets) = estimateRecordCount recordSet.bytes + offsetsOf sets := by
  unfold offsetsOf
  rw [List.map_cons, List.sum_cons]

@[simp] theorem offsetsOf_append (front back : List RecordSet) :
    offsetsOf (front ++ back) = offsetsOf front + offsetsOf back := by
  unfold offsetsOf
  rw [List.map_append, List.sum_append]

theorem offsetsOf_nonneg (sets : List RecordSet) : 0 ≤ offsetsOf sets := by
  induction sets with
  | nil => exact le_refl 0
  | cons recordSet sets ih =>
    rw [offsetsOf_cons]
    exact add_nonneg (estimateRecordCount_nonneg _) ih

/-- A concatenation of whole batches. -/
def WholeChain (records : Bytes) : Prop :=
  ∃ batches : List Bytes, (∀ batch ∈ batches, WholeBatch batch) ∧ records = batches.flatten

/-- A leader's log: non-empty chains of whole batches, at consecutive offsets from 0. -/
structure LeaderLog (sets : List RecordSet) : Prop where
  ne_nil : ∀ recordSet ∈ sets, recordSet.bytes ≠ []
  chains : ∀ recordSet ∈ sets, WholeChain recordSet.bytes
  placed : ∀ (k : Nat) (recordSet : RecordSet), sets[k]? = some recordSet →
    recordSet = recordSetAt (offsetsOf (sets.take k)) recordSet.bytes

/-- Record sets of any content, at consecutive offsets from 0. -/
def Consecutive (sets : List RecordSet) : Prop :=
  ∀ (k : Nat) (recordSet : RecordSet), sets[k]? = some recordSet →
    recordSet = recordSetAt (offsetsOf (sets.take k)) recordSet.bytes

/-- A log of non-empty record sets of any content. -/
structure PlacedLog (sets : List RecordSet) : Prop where
  ne_nil : ∀ recordSet ∈ sets, recordSet.bytes ≠ []
  placed : Consecutive sets

theorem LeaderLog.placedLog (h : LeaderLog sets) : PlacedLog sets :=
  ⟨h.ne_nil, h.placed⟩

/-- Counting the records of merged record sets adds up. -/
theorem estimateRecordCount_payload (h : ∀ recordSet ∈ sets, WholeChain recordSet.bytes) :
    WholeChain (payload sets) ∧ estimateRecordCount (payload sets) = offsetsOf sets := by
  induction sets with
  | nil => exact ⟨⟨[], by simp, rfl⟩, rfl⟩
  | cons recordSet rest ih =>
    obtain ⟨batches, hwhole, hbytes⟩ := h recordSet List.mem_cons_self
    obtain ⟨⟨others, hothers, hpayload⟩, hcount⟩ :=
      ih fun other hother => h other (List.mem_cons_of_mem _ hother)
    have hall : ∀ batch ∈ batches ++ others, WholeBatch batch := by
      intro batch hbatch
      rcases List.mem_append.mp hbatch with hbatch | hbatch
      · exact hwhole batch hbatch
      · exact hothers batch hbatch
    have hflatten : payload (recordSet :: rest) = (batches ++ others).flatten := by
      rw [payload_cons, hbytes, hpayload, List.flatten_append]
    refine ⟨⟨batches ++ others, hall, hflatten⟩, ?_⟩
    rw [hflatten, estimateRecordCount_flatten hall, offsetsTaken_append, offsetsOf_cons, ← hcount,
      hbytes, hpayload, estimateRecordCount_flatten hwhole, estimateRecordCount_flatten hothers]

section Log

variable {sets : List RecordSet} {k : Nat}

theorem PlacedLog.offsetsOf_take_succ (h : PlacedLog sets) (hk : k < sets.length) :
    offsetsOf (sets.take k) < offsetsOf (sets.take (k + 1)) := by
  rw [List.take_succ_eq_append_getElem hk, offsetsOf_append, offsetsOf_cons, offsetsOf_nil]
  have hcount := one_le_estimateRecordCount (h.ne_nil _ (List.getElem_mem hk))
  omega

theorem offsetsOf_take_le (sets : List RecordSet) {m : Nat} (hkm : k ≤ m) :
    offsetsOf (sets.take k) ≤ offsetsOf (sets.take m) := by
  have hsplit : sets.take m = sets.take k ++ (sets.take m).drop k := by
    have happend := (List.take_append_drop k (sets.take m)).symm
    rwa [List.take_take, Nat.min_eq_left hkm] at happend
  rw [hsplit, offsetsOf_append]
  exact le_add_of_nonneg_right (offsetsOf_nonneg _)

/-- The log end tells how many record sets there are. -/
theorem PlacedLog.offsetsOf_take_inj (h : PlacedLog sets) {m : Nat} (hk : k ≤ sets.length)
    (hm : m ≤ sets.length) (heq : offsetsOf (sets.take k) = offsetsOf (sets.take m)) : k = m := by
  rcases Nat.lt_trichotomy k m with hlt | rfl | hlt
  · have hstep := h.offsetsOf_take_succ (lt_of_lt_of_le hlt hm)
    have hle : offsetsOf (sets.take (k + 1)) ≤ _ := offsetsOf_take_le sets hlt
    omega
  · rfl
  · have hstep := h.offsetsOf_take_succ (lt_of_lt_of_le hlt hk)
    have hle : offsetsOf (sets.take (m + 1)) ≤ _ := offsetsOf_take_le sets hlt
    omega

/-- Where record set number `k` ends, the next one starts. -/
theorem Consecutive.endOffset (h : Consecutive sets) {recordSet : RecordSet}
    (hk : sets[k]? = some recordSet) :
    recordSet.baseOffset = offsetsOf (sets.take k) ∧
      recordSet.lastOffset + 1 = offsetsOf (sets.take (k + 1)) := by
  obtain ⟨hlt, hget⟩ := List.getElem?_eq_some_iff.mp hk
  have hplaced := h k recordSet hk
  refine ⟨by rw [hplaced]; rfl, ?_⟩
  have hend := recordSetAt_endOffset (offsetsOf (sets.take k)) recordSet.bytes
  rw [← hplaced] at hend
  rw [List.take_succ_eq_append_getElem hlt, offsetsOf_append, offsetsOf_cons, offsetsOf_nil, hget,
    add_zero]
  exact hend

/-- A read from the start of record set number `k` finds the indexed ones from there on. -/
theorem PlacedLog.setsFrom_take (h : PlacedLog sets) (k m : Nat) :
    setsFrom (offsetsOf (sets.take k)) (sets.take m) = (sets.take m).drop k := by
  have hbefore : ∀ recordSet ∈ (sets.take m).take k,
      recordSet.lastOffset < offsetsOf (sets.take k) := by
    intro recordSet hmem
    obtain ⟨i, hi⟩ := List.mem_iff_getElem?.mp hmem
    rw [List.take_take, List.getElem?_take] at hi
    split at hi
    · next hlt =>
        have hend := (h.placed.endOffset hi).2
        have hle := offsetsOf_take_le sets (show i + 1 ≤ k by omega)
        omega
    · cases hi
  have hafter : ∀ recordSet ∈ (sets.take m).drop k,
      offsetsOf (sets.take k) ≤ recordSet.lastOffset := by
    intro recordSet hmem
    obtain ⟨i, hi⟩ := List.mem_iff_getElem?.mp hmem
    rw [List.getElem?_drop, List.getElem?_take] at hi
    split at hi
    · obtain ⟨hlt, -⟩ := List.getElem?_eq_some_iff.mp hi
      have hend := (h.placed.endOffset hi).2
      have hstep := h.offsetsOf_take_succ hlt
      have hle := offsetsOf_take_le sets (Nat.le_add_right k i)
      omega
    · cases hi
  have hsplit := setsFrom_append hbefore hafter
  rwa [List.take_append_drop] at hsplit

/-- The first `k` record sets and `n` more. -/
theorem payload_take_add (sets : List RecordSet) (k n : Nat) :
    payload (sets.take k) ++ payload ((sets.drop k).take n) = payload (sets.take (k + n)) := by
  rw [← payload_append, List.take_add]

theorem LeaderLog.offsetsOf_take_add (h : LeaderLog sets) (k n : Nat) :
    offsetsOf (sets.take k) + estimateRecordCount (payload ((sets.drop k).take n)) =
      offsetsOf (sets.take (k + n)) := by
  have hchains : ∀ recordSet ∈ (sets.drop k).take n, WholeChain recordSet.bytes :=
    fun recordSet hmem => h.chains recordSet (List.mem_of_mem_drop (List.mem_of_mem_take hmem))
  rw [(estimateRecordCount_payload hchains).2, ← offsetsOf_append, List.take_add]

end Log

/-! ### The follower and its leader -/

/-- The shard serves this log: its index holds a leading part, in order, and its log end is
    that of the log. -/
structure PartitionLogShard.Serves (s : PartitionLogShard) (sets : List RecordSet) : Prop where
  indexed : ∃ m, s.HoldsLog (sets.take m)
  earliest : s.offsets.earliest = 0
  latest : s.offsets.latest = offsetsOf sets

/-- A catch-up round: the log end it was started from, and what the leader answered. -/
structure CatchUpRound where
  localEnd : Int
  reply : Option ReplicaFetchResult := none
deriving DecidableEq, Repr

/-- `sets` is the leader's log as far as it has grown. -/
structure Following where
  leader : PartitionLogShard
  sets : List RecordSet
  follower : Reactor
  rounds : List CatchUpRound := []

inductive FollowingAction where
  | grow (more : List RecordSet) (leader : PartitionLogShard)
  | replicaAppend (i : Nat) (leaderHighWatermark : Int)
  | shard (a : ReactorAction)
  | catchUp
  | replicaFetch (j : Nat) (maxBytes : Int)
  | applyFetched (j : Nat)
  | markReplicated

namespace Following

variable {sets : List RecordSet} {k : Nat} {leader : PartitionLogShard} {s : Following}

/-- Append at the follower, up to the first wait. -/
def appendReplica (s : Following) (baseOffset leaderHighWatermark : Int) (records : Bytes) :
    Reactor :=
  s.follower.accept (s.follower.shard.toLogHead.appendReplica
    { topic := s.follower.shard.config.topic
      partition := s.follower.shard.config.partition
      baseOffset := baseOffset
      leaderHighWatermark := leaderHighWatermark
      records := records })

/-- The leader's log may grow by any number of record sets and its shard change in any way;
    any record set of the log may arrive as a call, at any time and any number of times;
    `markReplicated` is what a round ends with when its append has succeeded. -/
def step (s : Following) : FollowingAction → Option Following
  | .grow more leader => some { s with sets := s.sets ++ more, leader := leader }
  | .replicaAppend i leaderHighWatermark =>
    s.sets[i]?.map fun recordSet =>
      { s with
        follower := s.appendReplica recordSet.baseOffset leaderHighWatermark recordSet.bytes }
  | .shard a =>
    if a.call = none then (s.follower.step a).map fun follower => { s with follower := follower }
    else none
  | .catchUp =>
    some { s with
      rounds := s.rounds ++ [{ localEnd := s.follower.shard.offsets.latest }] }
  | .replicaFetch j maxBytes =>
    s.rounds[j]?.bind fun round =>
      if round.reply = none then
        match s.leader.fetchForReplica round.localEnd maxBytes with
        | (leader, .ok result) =>
          some { s with
            leader := leader
            rounds := s.rounds.set j { round with reply := some result } }
        | (leader, .error _) => some { s with leader := leader, rounds := s.rounds.eraseIdx j }
      else none
  | .applyFetched j =>
    s.rounds[j]?.bind fun round =>
      round.reply.map fun result =>
        if result.errorCode ≠ .none ∨ result.records = [] then
          { s with rounds := s.rounds.eraseIdx j }
        else
          { s with
            follower := s.appendReplica round.localEnd result.leaderHighWatermark result.records
            rounds := s.rounds.eraseIdx j }
  | .markReplicated =>
    some { s with
      follower := { s.follower with
        shard := { s.follower.shard with
          toLogHead := s.follower.shard.toLogHead.markReplicatedThrough
            s.follower.shard.offsets.latest } } }

/-- A follower with an empty log, and a leader that serves some log. -/
structure Initial (s : Following) : Prop where
  log : LeaderLog s.sets
  serves : s.leader.Serves s.sets
  follower : ∃ config segmentBytes alignment, ∃ h : 0 < alignment,
    s.follower = Reactor.init config segmentBytes alignment h
  rounds : s.rounds = []

/-- What the leader's log grows by is a log again, and the leader serves it. -/
def Grows (s : Following) : FollowingAction → Prop
  | .grow more leader => LeaderLog (s.sets ++ more) ∧ leader.Serves (s.sets ++ more)
  | _ => True

/-- The follower has appended the first `k` record sets of the leader's log. -/
structure HoldsFirst (s : Following) (k : Nat) : Prop where
  le : k ≤ s.sets.length
  records : payload s.follower.recordSets = payload (s.sets.take k)
  latest : s.follower.shard.offsets.latest = offsetsOf (s.sets.take k)

/-- A round starts at the end of some number of record sets, and its answer is the ones
    that follow. -/
def Answers (sets : List RecordSet) (round : CatchUpRound) : Prop :=
  ∃ k ≤ sets.length, round.localEnd = offsetsOf (sets.take k) ∧
    ∀ result ∈ round.reply, ∃ n, k + n ≤ sets.length ∧
      result.records = payload ((sets.drop k).take n)

/-! ### What each side keeps -/

/-- A round stays good when the leader's log grows. -/
theorem Answers.mono {round : CatchUpRound} (h : Answers sets round) (more : List RecordSet) :
    Answers (sets ++ more) round := by
  obtain ⟨k, hk, hend, hreply⟩ := h
  refine ⟨k, by rw [List.length_append]; omega, ?_, ?_⟩
  · rw [List.take_append_of_le_length hk]
    exact hend
  · intro result hresult
    obtain ⟨n, hn, hrecords⟩ := hreply result hresult
    refine ⟨n, by rw [List.length_append]; omega, ?_⟩
    rw [List.drop_append_of_le_length hk,
      List.take_append_of_le_length (by rw [List.length_drop]; omega)]
    exact hrecords

/-- **The leader's answer** to a fetch at the end of the first `k` record sets, when the
    first `m` are indexed: the per-entry loop over the indexed ones from there on. -/
theorem fetchForReplica_eq (hlog : PlacedLog sets) {m : Nat}
    (hholds : leader.HoldsLog (sets.take m)) (hearliest : leader.offsets.earliest = 0)
    (hlatest : leader.offsets.latest = offsetsOf sets) (hk : k ≤ sets.length) (maxBytes : Int) :
    ∃ cache : List (Int × Int),
      leader.fetchForReplica (offsetsOf (sets.take k)) maxBytes =
        ({ leader with segmentCache := cache },
          .ok { leaderHighWatermark := leader.offsets.highWatermark
                logEndOffset := leader.offsets.latest
                records := takeWithin leader.offsets.latest (leader.fetchLimit maxBytes) []
                  ((sets.take m).drop k) }) ∧
        ∀ cached ∈ cache, cached.2 = cached.1 := by
  have hinside : ¬ (offsetsOf (sets.take k) < leader.offsets.earliest ∨
      offsetsOf (sets.take k) > leader.offsets.latest) := by
    have hnonneg := offsetsOf_nonneg (sets.take k)
    have hle := offsetsOf_take_le sets hk
    rw [List.take_length] at hle
    rw [hearliest, hlatest]
    omega
  obtain ⟨cache, hread, hcache⟩ := readRecordsFromIndex_eq hholds (offsetsOf (sets.take k))
    leader.offsets.latest (leader.fetchLimit maxBytes)
  refine ⟨cache, ?_, hcache⟩
  unfold fetchForReplica
  rw [if_neg hinside]
  simp only [hread, hlog.setsFrom_take]
  rfl

/-- The answer is some number of the record sets that follow, and the leader serves the
    same log afterwards. -/
theorem fetchForReplica_served (hlog : LeaderLog sets) (hserves : leader.Serves sets)
    (hk : k ≤ sets.length) (maxBytes : Int) :
    ∃ (leader' : PartitionLogShard) (result : ReplicaFetchResult),
      leader.fetchForReplica (offsetsOf (sets.take k)) maxBytes = (leader', .ok result) ∧
        leader'.Serves sets ∧ ∃ n, k + n ≤ sets.length ∧
          result.records = payload ((sets.drop k).take n) := by
  obtain ⟨m, hholds⟩ := hserves.indexed
  obtain ⟨cache, hfetch, hcache⟩ := fetchForReplica_eq hlog.placedLog hholds hserves.earliest
    hserves.latest hk maxBytes
  obtain ⟨n, -, htake⟩ := takeWithin_eq_payload leader.offsets.latest (leader.fetchLimit maxBytes)
    [] ((sets.take m).drop k)
  refine ⟨_, _, hfetch, ⟨⟨m, ?_⟩, hserves.earliest, hserves.latest⟩,
    min (min n (m - k)) (sets.length - k), by omega, ?_⟩
  · exact { hholds with coherent := hholds.coherent.withCache hcache }
  · simp only
    rw [htake, List.nil_append, List.drop_take, List.take_take, List.take_eq_take_min,
      List.length_drop]

/-- **The check of `append_replica` is enough**: records that follow the first `j` record
    sets are taken only by a follower that holds exactly those. -/
theorem HoldsFirst.appendReplica (hlog : LeaderLog s.sets) (h : s.HoldsFirst k) {j n : Nat}
    (hn : j + n ≤ s.sets.length) (leaderHighWatermark : Int) :
    ∃ k', { s with
      follower := s.appendReplica (offsetsOf (s.sets.take j)) leaderHighWatermark
        (payload ((s.sets.drop j).take n)) }.HoldsFirst k' := by
  set request : ReplicaAppendRequest :=
    { topic := s.follower.shard.config.topic
      partition := s.follower.shard.config.partition
      baseOffset := offsetsOf (s.sets.take j)
      leaderHighWatermark := leaderHighWatermark
      records := payload ((s.sets.drop j).take n) } with hrequest
  have hfollower : s.appendReplica (offsetsOf (s.sets.take j)) leaderHighWatermark
      (payload ((s.sets.drop j).take n)) =
        s.follower.accept (s.follower.shard.toLogHead.appendReplica request) := rfl
  rw [hfollower]
  have hhead := s.follower.accept_head (s.follower.shard.toLogHead.appendReplica request)
  by_cases hadmits : s.follower.shard.toLogHead.AdmitsReplica request
  · have hbase : offsetsOf (s.sets.take j) = offsetsOf (s.sets.take k) :=
      hadmits.2.1.trans h.latest
    obtain rfl := hlog.placedLog.offsetsOf_take_inj (by omega) h.le hbase
    have hadmission := LogHead.appendReplica_of_admits hadmits
    obtain ⟨phase, hops⟩ := Reactor.accept_ops (r := s.follower)
      (congrArg Admission.recordSet hadmission)
    refine ⟨j + n, hn, ?_, ?_⟩
    · show payload ((s.follower.accept _).ops.map AppendOp.recordSet) = _
      rw [hops, List.map_append, payload_append]
      have hheld : payload (s.follower.ops.map AppendOp.recordSet) = payload (s.sets.take j) :=
        h.records
      rw [hheld, ← payload_take_add]
      simp [recordSetAt, hrequest]
    · show (s.follower.accept _).shard.toLogHead.offsets.latest = _
      rw [hhead, hadmission, LogHead.replicated_latest]
      exact hlog.offsetsOf_take_add j n
  · obtain ⟨hsame, hnone, -⟩ := LogHead.appendReplica_of_not_admits hadmits
    refine ⟨k, h.le, ?_, ?_⟩
    · have hsets : (s.follower.accept
          (s.follower.shard.toLogHead.appendReplica request)).recordSets =
          s.follower.recordSets := by
        rw [Reactor.accept, hnone]
        rfl
      show payload (s.follower.accept _).recordSets = _
      rw [hsets]
      exact h.records
    · show (s.follower.accept _).shard.toLogHead.offsets.latest = _
      rw [hhead, hsame]
      exact h.latest

/-! ### Every run -/

structure FollowerInv (s : Following) : Prop where
  log : LeaderLog s.sets
  serves : s.leader.Serves s.sets
  holds : ∃ k, s.HoldsFirst k
  rounds : ∀ round ∈ s.rounds, Answers s.sets round

theorem followerInv_initial (h : s.Initial) : s.FollowerInv where
  log := h.log
  serves := h.serves
  holds := by
    obtain ⟨config, segmentBytes, alignment, halign, hfollower⟩ := h.follower
    refine ⟨0, Nat.zero_le _, ?_, ?_⟩
    · rw [hfollower]
      rfl
    · rw [hfollower]
      rfl
  rounds := by
    intro round hround
    rw [h.rounds] at hround
    cases hround

/-- The follower's own continuations leave its log as it is. -/
theorem HoldsFirst.shard (h : s.HoldsFirst k) {a : ReactorAction} (hcall : a.call = none)
    {follower : Reactor} (hstep : s.follower.step a = some follower) :
    { s with follower := follower }.HoldsFirst k := by
  suffices hsame : follower.recordSets = s.follower.recordSets ∧
      follower.shard.offsets.latest = s.follower.shard.offsets.latest by
    refine ⟨h.le, ?_, ?_⟩
    · show payload follower.recordSets = _
      rw [hsame.1]
      exact h.records
    · exact hsame.2.trans h.latest
  cases Reactor.logStep_of_step hstep with
  | quiet hsets hlatest => exact ⟨hsets, hlatest⟩
  | admitted admission recordSet hadmission =>
    rw [Reactor.admission, hcall] at hadmission
    cases hadmission
  | indexed n recordSet segmentBase position _ _ hsets hlatest => exact ⟨hsets, hlatest⟩

theorem FollowerInv.step {s' : Following} {a : FollowingAction} (h : s.FollowerInv)
    (hguard : s.Grows a) (hstep : s.step a = some s') : s'.FollowerInv := by
  obtain ⟨k, hk⟩ := h.holds
  cases a with
  | grow more leader =>
    obtain rfl := Option.some.inj hstep
    obtain ⟨hlog, hserves⟩ := hguard
    have htake : (s.sets ++ more).take k = s.sets.take k := List.take_append_of_le_length hk.le
    refine ⟨hlog, hserves, ⟨k, ?_, ?_, ?_⟩, fun round hround => (h.rounds round hround).mono more⟩
    · show k ≤ (s.sets ++ more).length
      rw [List.length_append]
      exact Nat.le_add_right_of_le hk.le
    · show _ = payload ((s.sets ++ more).take k)
      rw [htake]
      exact hk.records
    · show _ = offsetsOf ((s.sets ++ more).take k)
      rw [htake]
      exact hk.latest
  | replicaAppend i leaderHighWatermark =>
    obtain ⟨recordSet, hi, rfl⟩ := Option.map_eq_some_iff.mp hstep
    obtain ⟨hlt, hget⟩ := List.getElem?_eq_some_iff.mp hi
    have hbase := (h.log.placedLog.placed.endOffset hi).1
    have hbytes : recordSet.bytes = payload ((s.sets.drop i).take 1) := by
      rw [List.drop_eq_getElem_cons hlt, hget, List.take_succ_cons, List.take_zero, payload_cons,
        payload_nil, List.append_nil]
    refine ⟨h.log, h.serves, ?_, h.rounds⟩
    rw [hbase, hbytes]
    exact hk.appendReplica h.log (by omega) leaderHighWatermark
  | shard a =>
    simp only [Following.step] at hstep
    split at hstep
    · next hcall =>
        obtain ⟨follower, hfollower, rfl⟩ := Option.map_eq_some_iff.mp hstep
        exact ⟨h.log, h.serves, ⟨k, hk.shard hcall hfollower⟩, h.rounds⟩
    · cases hstep
  | catchUp =>
    obtain rfl := Option.some.inj hstep
    refine ⟨h.log, h.serves, ⟨k, hk.le, hk.records, hk.latest⟩, fun round hround => ?_⟩
    rcases List.mem_append.mp hround with hround | hround
    · exact h.rounds round hround
    · rw [List.mem_singleton.mp hround]
      exact ⟨k, hk.le, hk.latest, fun result hresult => nomatch hresult⟩
  | replicaFetch j maxBytes =>
    obtain ⟨round, hround, hstep⟩ := Option.bind_eq_some_iff.mp hstep
    obtain ⟨m, hm, hend, -⟩ := h.rounds round (List.mem_of_getElem? hround)
    obtain ⟨leader, result, hfetch, hserves, n, hn, hrecords⟩ :=
      fetchForReplica_served h.log h.serves hm maxBytes
    split at hstep
    · rw [hend, hfetch] at hstep
      obtain rfl := Option.some.inj hstep
      refine ⟨h.log, hserves, ⟨k, hk.le, hk.records, hk.latest⟩, fun other hother => ?_⟩
      rcases List.mem_or_eq_of_mem_set hother with hother | rfl
      · exact h.rounds other hother
      · refine ⟨m, hm, rfl, fun answer hanswer => ⟨n, hn, ?_⟩⟩
        obtain rfl := Option.some.inj hanswer
        exact hrecords
    · cases hstep
  | applyFetched j =>
    obtain ⟨round, hround, hstep⟩ := Option.bind_eq_some_iff.mp hstep
    obtain ⟨result, hreply, rfl⟩ := Option.map_eq_some_iff.mp hstep
    have hrounds : ∀ other ∈ s.rounds.eraseIdx j, Answers s.sets other :=
      fun other hother => h.rounds other (List.mem_of_mem_eraseIdx hother)
    split
    · exact ⟨h.log, h.serves, ⟨k, hk.le, hk.records, hk.latest⟩, hrounds⟩
    · obtain ⟨m, hm, hend, hanswer⟩ := h.rounds round (List.mem_of_getElem? hround)
      obtain ⟨n, hn, hrecords⟩ := hanswer result hreply
      obtain ⟨k', hk'⟩ := hk.appendReplica h.log hn result.leaderHighWatermark
      rw [hend, hrecords]
      exact ⟨h.log, h.serves, ⟨k', hk'.le, hk'.records, hk'.latest⟩, hrounds⟩
  | markReplicated =>
    obtain rfl := Option.some.inj hstep
    exact ⟨h.log, h.serves, ⟨k, hk.le, hk.records, hk.latest⟩, h.rounds⟩

/-- **A follower is always a leading part of its leader.**  Whatever calls arrive and
    whatever rounds are run, the follower's record sets are, byte for byte, the first `k`
    record sets of the leader's log for some `k`, and its log end is where the next one of
    the leader's starts. -/
theorem follower_holds_first {s : Following} (hreach : Transition.Reachable Initial step Grows s) :
    ∃ k ≤ s.sets.length,
      payload s.follower.recordSets = payload (s.sets.take k) ∧
      s.follower.shard.offsets.latest = offsetsOf (s.sets.take k) ∧
      ∀ next, s.sets[k]? = some next →
        s.follower.shard.offsets.latest = next.baseOffset := by
  have hinv : s.FollowerInv :=
    hreach.invariant (fun _ => followerInv_initial) fun _ _ _ hi hguard hstep =>
      hi.step hguard hstep
  obtain ⟨k, hk⟩ := hinv.holds
  refine ⟨k, hk.le, hk.records, hk.latest, fun next hnext => ?_⟩
  rw [hk.latest, (hinv.log.placedLog.placed.endOffset hnext).1]

/-! ### One record set -/

/-- A batch of one record: a header and nothing else. -/
def oneBatch : Bytes := List.replicate 11 0 ++ 49 :: List.replicate 49 0

def oneSet : RecordSet := recordSetAt 0 oneBatch

theorem leaderLog_oneSet : LeaderLog [oneSet] where
  ne_nil := by
    intro recordSet hmem
    rw [List.mem_singleton.mp hmem]
    decide
  chains := by
    intro recordSet hmem
    rw [List.mem_singleton.mp hmem]
    exact ⟨[oneBatch], List.forall_mem_singleton.mpr ⟨by decide, by decide⟩, by decide⟩
  placed := by
    intro k recordSet hk
    obtain ⟨hlt, rfl⟩ := List.getElem?_eq_some_iff.mp hk
    obtain rfl : k = 0 := Nat.lt_one_iff.mp hlt
    rfl

/-- A leader that has appended the record set. -/
def oneLeader : PartitionLogShard :=
  ((fresh defaultPartition 4096 512 (by decide)).append oneBatch 1).1

theorem serves_oneSet : oneLeader.Serves [oneSet] := by
  have hfresh := appendable_fresh defaultPartition 4096 512 (by decide)
  obtain ⟨leader, happend, happended, hhead⟩ := hfresh.append
    (by decide : LogHead.Admits _ oneBatch 1) (by decide) (by decide) (by decide)
  obtain rfl : leader = oneLeader := (congrArg Prod.fst happend).symm
  refine ⟨⟨1, happended.toHoldsLog⟩, ?_, ?_⟩
  · rw [hhead]
    rfl
  · rw [hhead]
    decide

/-- Two brokers with empty logs. -/
def begun : Following where
  leader := fresh defaultPartition 4096 512 (by decide)
  sets := []
  follower := Reactor.init defaultPartition 4096 512 (by decide)

/-- The record set is fetched and appended, and then its call arrives. -/
def fetchedFirst : List FollowingAction :=
  [.catchUp, .replicaFetch 0 100, .applyFetched 0, .replicaAppend 0 1]

/-- A record set that arrives both ways is appended once. -/
theorem follower_holds_first_oneSet :
    ∃ s, Transition.Reachable Initial step Grows s ∧ s.follower.shard.offsets.latest = 1 ∧
      ∃ k ≤ s.sets.length,
        payload s.follower.recordSets = payload (s.sets.take k) ∧
        s.follower.shard.offsets.latest = offsetsOf (s.sets.take k) ∧
        ∀ next, s.sets[k]? = some next →
          s.follower.shard.offsets.latest = next.baseOffset := by
  have hfresh := appendable_fresh defaultPartition 4096 512 (by decide)
  have hstart : Transition.Reachable Initial step Grows begun :=
    .start
      { log := ⟨by simp [begun], by simp [begun], by simp [begun]⟩
        serves := ⟨⟨0, hfresh.toHoldsLog⟩, rfl, rfl⟩
        follower := ⟨_, _, _, _, rfl⟩
        rounds := rfl }
  have hgrown : Transition.Reachable Initial step Grows
      { begun with sets := [oneSet], leader := oneLeader } :=
    .next (.grow [oneSet] oneLeader) hstart ⟨leaderLog_oneSet, serves_oneSet⟩ rfl
  have hrun : (Transition.run step { begun with sets := [oneSet], leader := oneLeader }
      fetchedFirst).map (fun s => s.follower.shard.offsets.latest) = some 1 := by
    decide +kernel
  obtain ⟨s, hs, hlatest⟩ := Option.map_eq_some_iff.mp hrun
  have hreach := hgrown.of_run fetchedFirst (by simp [fetchedFirst, Grows]) hs
  exact ⟨s, hreach, hlatest, follower_holds_first hreach⟩

end Following

end Mkmq
