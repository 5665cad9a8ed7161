import Mkmq.ReplicaTracking
import Mkmq.Transition

/-!
# The leader's high watermark and the followers' logs

When the calls of a request have all succeeded, the leader marks its log replicated
through its end, and reads that end anew; a restart declares all of the recovered log
replicated.  Neither is what the followers are known to hold: a later request may have
moved the log end in between, and recovery knows nothing of the followers.  The high
watermark stays behind every follower in the ISR as long as each successful request is
settled while it is still the last one in the log, and the leader restarts only when its
followers have all of its log.
-/

namespace Mkmq

open ByteCodec PartitionLogShard

variable {entries : List IndexEntry} {last : Int}

/-! ### Log ends after a recovery -/

/-- No entry that recovery can find in these files reaches past the offset `last`. -/
def DataDir.EndsBy (image : DataDir) (alignment : Nat) (last : Int) : Prop :=
  (∀ entry ∈ indexFound alignment image, entry.lastOffset < last) ∧
    ∀ entry ∈ scanFiles alignment image.segments, entry.lastOffset < last

instance (image : DataDir) (alignment : Nat) (last : Int) :
    Decidable (image.EndsBy alignment last) := by
  unfold DataDir.EndsBy
  infer_instance

theorem indexEnd_le (h : ∀ entry ∈ entries, entry.lastOffset < last) :
    indexEnd entries ≤ max 0 last := by
  have hfold : ∀ (rest : List IndexEntry) (latest : Int), latest ≤ max 0 last →
      (∀ entry ∈ rest, entry.lastOffset < last) →
      rest.foldl (fun latest entry => max latest (entry.lastOffset + 1)) latest ≤ max 0 last := by
    intro rest
    induction rest with
    | nil => exact fun latest hlatest _ => hlatest
    | cons entry rest ih =>
      intro latest hlatest hrest
      have hentry : entry.lastOffset + 1 ≤ last := hrest entry List.mem_cons_self
      exact ih _ (max_le hlatest (hentry.trans (le_max_right _ _)))
        fun other hother => hrest other (List.mem_cons_of_mem _ hother)
  exact hfold entries 0 (le_max_left _ _) h

theorem scanEnd_le (h : ∀ entry ∈ entries, entry.lastOffset < last) :
    scanEnd entries ≤ max 0 last := by
  unfold scanEnd
  cases hlast : entries.getLast? with
  | none => exact le_max_left _ _
  | some entry =>
    have hentry : entry.lastOffset + 1 ≤ last := h entry (List.mem_of_getLast? hlast)
    exact hentry.trans (le_max_right _ _)

theorem recoveredEnd_le {image : DataDir} {alignment : Nat} (h : image.EndsBy alignment last) :
    recoveredEnd alignment image ≤ max 0 last := by
  unfold recoveredEnd
  split
  · exact indexEnd_le h.1
  · exact scanEnd_le h.2

namespace Cluster

variable {config : BrokerConfig} {partition : PartitionConfig} {s s' : Cluster}
  {a : ClusterAction}

/-! ### The property and the runs that keep it -/

/-- A request whose calls have all succeeded is settled before the log end has moved past
    it, and the leader restarts only when every follower has reached its log end, on files
    that hold nothing past it. -/
def SettlesInOrder (s : Cluster) : ClusterAction → Prop
  | .replicationOver k =>
    ∀ p ∈ s.produces[k]?, s.replicated k p = true →
      s.leader.shard.offsets.latest ≤ p.plannedEnd
  | .restart image =>
    (∀ f ∈ isrFollowers s.config.nodeId s.partition,
      s.leader.shard.offsets.latest ≤ (s.reactors f).shard.offsets.latest) ∧
      image.EndsBy s.leader.shard.logFrameAlignment s.leader.shard.offsets.latest
  | _ => True

instance (s : Cluster) (a : ClusterAction) : Decidable (s.SettlesInOrder a) := by
  unfold SettlesInOrder
  split <;> infer_instance

/-- The high watermark is behind the log end of every follower in the ISR. -/
def Committed (s : Cluster) : Prop :=
  ∀ f ∈ isrFollowers s.config.nodeId s.partition,
    s.leader.shard.offsets.highWatermark ≤ (s.reactors f).shard.offsets.latest

structure CommitInv (config : BrokerConfig) (partition : PartitionConfig) (s : Cluster) : Prop
    extends TrackingInv config partition s where
  inside : ∀ f, f ≠ config.nodeId → (s.reactors f).EndsInside
  nonneg : ∀ f, f ≠ config.nodeId → 0 ≤ (s.reactors f).shard.offsets.latest
  committed : s.Committed

theorem commitInv_initial (h : Initial config partition s) : CommitInv config partition s where
  toTrackingInv := trackingInv_initial h
  inside := by
    intro f _ recordSet hmem
    obtain ⟨segmentBytes, alignment, halign, hr⟩ := h.reactors f
    rw [hr] at hmem
    cases hmem
  nonneg := by
    intro f _
    obtain ⟨segmentBytes, alignment, halign, hr⟩ := h.reactors f
    rw [hr]
    exact le_refl _
  committed := by
    intro f _
    obtain ⟨segmentBytes, alignment, halign, hr⟩ := h.reactors f
    obtain ⟨segmentBytes', alignment', halign', hr'⟩ := h.reactors s.config.nodeId
    unfold leader
    rw [hr, hr']
    exact le_refl _

/-! ### What moves the high watermark -/

/-- With more than one member in the ISR, an append leaves the high watermark alone. -/
theorem append_highWatermark {head : LogHead} (h : 1 < head.config.isr.length) (records : Bytes)
    (acks : Int) :
    (head.append records acks).head.offsets.highWatermark = head.offsets.highWatermark := by
  by_cases hadmits : head.Admits records acks
  · rw [LogHead.append_of_admits hadmits]
    exact if_neg (not_le.mpr h)
  · rw [(LogHead.append_of_not_admits hadmits).1]

theorem leader_setReactor_of_ne {brokerId : Int} (hne : brokerId ≠ s.config.nodeId) (r : Reactor) :
    (s.setReactor brokerId r).leader = s.leader := setReactor_of_ne hne.symm r

theorem leader_setReactor_self (r : Reactor) : (s.setReactor s.config.nodeId r).leader = r :=
  setReactor_self ..

/-- Only the end of a replication and a restart move the leader's high watermark. -/
theorem TrackingInv.highWatermark_step (h : TrackingInv config partition s)
    (hleader : partition.leader = config.nodeId) (hisr : 1 < partition.isr.length)
    (haddresses : DistinctAddresses config) (hstep : s.Steps a s')
    (hover : ∀ k, a ≠ .replicationOver k) (hrestart : ∀ image, a ≠ .restart image) :
    s'.leader.shard.offsets.highWatermark = s.leader.shard.offsets.highWatermark := by
  have hround : ∀ {c : Nat} {round : CatchUp}, s.catchUps[c]? = some round →
      round.follower ≠ s.config.nodeId := by
    intro c round hc
    rw [h.config_eq, ← hleader]
    exact h.rounds round (List.mem_of_getElem? hc)
  cases hstep with
  | @produced records renumbered acks =>
    have hmany : 1 < s.leader.shard.config.isr.length := by rwa [leader, h.configs]
    show ((s.setReactor s.config.nodeId _).leader).shard.toLogHead.offsets.highWatermark = _
    rw [leader_setReactor_self, Reactor.accept_head]
    exact append_highWatermark hmany renumbered acks
  | @shard brokerId a r hcall hr =>
    by_cases hb : brokerId = s.config.nodeId
    · subst hb
      rw [leader_setReactor_self, Reactor.offsets_step hcall hr]
      rfl
    · rw [leader_setReactor_of_ne hb]
  | @pushAccepted i push brokerId r hpush haddress =>
    have hb := h.receiver_ne haddresses hpush haddress
    exact congrArg (fun r => r.shard.offsets.highWatermark) (leader_setReactor_of_ne hb r)
  | replicationOver => exact absurd rfl (hover _)
  | @fetched c brokerId round state cache =>
    by_cases hb : brokerId = s.config.nodeId
    · subst hb
      exact congrArg (fun r => r.shard.offsets.highWatermark) (leader_setReactor_self (s := s) _)
    · exact congrArg (fun r => r.shard.offsets.highWatermark) (leader_setReactor_of_ne hb _)
  | fetchApplied hc =>
    exact congrArg (fun r => r.shard.offsets.highWatermark) (leader_setReactor_of_ne (hround hc) _)
  | caughtUp hc =>
    exact congrArg (fun r => r.shard.offsets.highWatermark) (leader_setReactor_of_ne (hround hc) _)
  | restarted => exact absurd rfl (hrestart _)
  | _ => rfl

/-- A settled request lifts the high watermark to the log end at most. -/
theorem highWatermark_replicationOver (k : Nat) (p : Produce) :
    (s.replicationOver k p).leader.shard.offsets.highWatermark =
      if s.replicated k p then
        min s.leader.shard.offsets.latest
          (max s.leader.shard.offsets.highWatermark s.leader.shard.offsets.latest)
      else s.leader.shard.offsets.highWatermark := by
  show ((s.setReactor s.config.nodeId _).leader).shard.toLogHead.offsets.highWatermark = _
  rw [leader_setReactor_self]
  unfold LogHead.afterReplication
  split <;> rfl

theorem CommitInv.step (h : CommitInv config partition s)
    (hleader : partition.leader = config.nodeId) (hisr : 1 < partition.isr.length)
    (haddresses : DistinctAddresses config) (hguard : s.SettlesInOrder a)
    (hstep : s.Steps a s') : CommitInv config partition s' := by
  have hgrows : ∀ f, f ≠ config.nodeId → (s.reactors f).Grows (s'.reactors f) :=
    fun f hf => hstep.grows f (Or.inl (h.config_eq ▸ hf))
  have hnext := h.toTrackingInv.step haddresses hstep
  have hfollowers : isrFollowers s'.config.nodeId s'.partition =
      isrFollowers s.config.nodeId s.partition := by
    rw [hnext.config_eq, hnext.partition_eq, h.config_eq, h.partition_eq]
  have hne : ∀ f ∈ isrFollowers s.config.nodeId s.partition, f ≠ config.nodeId :=
    fun f hf => h.config_eq ▸ (mem_isrFollowers.mp hf).2
  have hmoved : ∀ f ∈ isrFollowers s.config.nodeId s.partition,
      (s.reactors f).shard.offsets.latest ≤ (s'.reactors f).shard.offsets.latest :=
    fun f hf => (hgrows f (hne f hf)).latest
  refine
    { hnext with
      inside := fun f hf => (hgrows f hf).inside (h.inside f hf)
      nonneg := fun f hf => (h.nonneg f hf).trans (hgrows f hf).latest
      committed := ?_ }
  unfold Committed
  rw [hfollowers]
  intro f hf
  have hbefore := h.committed f hf
  by_cases hover : ∃ k, a = .replicationOver k
  · -- every follower holds the request's records, and the log ends with them
    obtain ⟨k, rfl⟩ := hover
    cases hstep with
    | catchUpMoved => exact hbefore
    | @replicationOver _ p hp hready =>
      rw [highWatermark_replicationOver]
      split
      · next hreplicated =>
          have hdispatched := h.produces k p hp hready.1
          have hholds := holds_of_replicated h.pushes (h.config_eq ▸ haddresses) hdispatched
            (h.partition_eq ▸ hisr) hreplicated f hf
          have hend := (h.inside f (hne f hf)).le_latest hholds
          calc min s.leader.shard.offsets.latest _ ≤ s.leader.shard.offsets.latest :=
                min_le_left _ _
            _ ≤ p.plannedEnd := hguard p hp hreplicated
            _ ≤ (s.reactors f).shard.offsets.latest := hdispatched.planned ▸ hend
            _ ≤ _ := hmoved f hf
      · exact hbefore.trans (hmoved f hf)
  by_cases hrestart : ∃ image, a = .restart image
  · obtain ⟨image, rfl⟩ := hrestart
    cases hstep with
    | catchUpMoved => exact hbefore
    | restarted =>
      obtain ⟨hreached, hends⟩ := hguard
      have hrestored := restored_start s.leader.shard.config image s.leader.shard.segmentBytes
        s.leader.shard.logFrameAlignment s.leader.shard.logFrameAlignment_pos
      show ((s.setReactor s.config.nodeId _).leader).shard.offsets.highWatermark ≤ _
      rw [leader_setReactor_self, hrestored.offsets]
      calc recoveredEnd s.leader.shard.logFrameAlignment image ≤
            max 0 s.leader.shard.offsets.latest := recoveredEnd_le hends
        _ ≤ (s.reactors f).shard.offsets.latest :=
            max_le (h.nonneg f (hne f hf)) (hreached f hf)
        _ ≤ _ := hmoved f hf
  · rw [h.toTrackingInv.highWatermark_step hleader hisr haddresses hstep
      (fun k hk => hover ⟨k, hk⟩) (fun image hi => hrestart ⟨image, hi⟩)]
    exact hbefore.trans (hmoved f hf)

/-- **Commit safety.**  When successful requests are settled in order and the leader
    restarts only with its log replicated, its high watermark never passes the log end of a
    follower in the ISR. -/
theorem highWatermark_le_followers (hleader : partition.leader = config.nodeId)
    (hisr : 1 < partition.isr.length) (haddresses : DistinctAddresses config)
    (hreach : Transition.Reachable (Initial config partition) step SettlesInOrder s) :
    ∀ f ∈ partition.isr, f ≠ config.nodeId →
      (s.reactors config.nodeId).shard.offsets.highWatermark ≤
        (s.reactors f).shard.offsets.latest := by
  have hinv : CommitInv config partition s :=
    hreach.invariant (fun _ => commitInv_initial) fun _ _ _ hi hguard hstep =>
      hi.step hleader hisr haddresses hguard (steps_of_step hstep)
  intro f hf hne
  have hcommitted := hinv.committed f
    (mem_isrFollowers.mpr ⟨hinv.partition_eq ▸ hf, hinv.config_eq ▸ hne⟩)
  rwa [leader, hinv.config_eq] at hcommitted

/-! ### Two brokers -/

/-- A partition led by broker 0 and followed by broker 1. -/
def pairPartition : PartitionConfig := { topic := "t", replicas := [0, 1], isr := [0, 1] }

def pairConfig : BrokerConfig where
  brokers := [{ id := 0, mercuryAddress := "a" }, { id := 1, mercuryAddress := "b" }]
  topics := [{ name := "t", partitions := [pairPartition] }]

theorem blockSize_pos : 0 < 512 := by decide

def pair : Cluster where
  config := pairConfig
  reactors := fun _ => Reactor.init pairPartition 4096 512 blockSize_pos

theorem initial_pair : Initial pairConfig pairPartition pair where
  config_eq := rfl
  reactors := fun _ => ⟨4096, 512, by decide, rfl⟩
  produces := rfl
  pushes := rfl
  catchUps := rfl

/-- Broker 1 takes the first call and writes it, and its answer arrives. -/
def firstReplicated : List ClusterAction :=
  [.produce [7] 1, .deliver 0 1, .shard 1 (.startWrite 0), .shard 1 (.writeDone 0),
    .shard 1 (.flush 0), .replicaWritten 0, .receive 0]

/-- Restarted on its first files, settled in time, the leader shows what broker 1 holds. -/
theorem highWatermark_le_followers_pair :
    ∃ s, Transition.Reachable (Initial pairConfig pairPartition) step SettlesInOrder s ∧
      (s.reactors 0).shard.offsets.highWatermark = 1 ∧
      ∀ f ∈ pairPartition.isr, f ≠ pairConfig.nodeId →
        (s.reactors pairConfig.nodeId).shard.offsets.highWatermark ≤
          (s.reactors f).shard.offsets.latest := by
  have hrun : (Transition.guardedRun step SettlesInOrder pair
      (.restart { segments := [(0, [])], index := some [] } ::
        firstReplicated ++ [.replicationOver 0, .produce [8] 1])).map
      (fun s => (s.reactors 0).shard.offsets.highWatermark) = some 1 := by
    decide +kernel
  obtain ⟨s, hs, hwatermark⟩ := Option.map_eq_some_iff.mp hrun
  have hreach : Transition.Reachable (Initial pairConfig pairPartition) step SettlesInOrder s :=
    .of_guardedRun (.start initial_pair) _ hs
  exact ⟨s, hreach, hwatermark,
    highWatermark_le_followers rfl (by decide) (by decide) hreach⟩

/-- The first request is settled after a second one has moved the log end. -/
theorem highWatermark_not_always_le_followers :
    ¬ ∀ (config : BrokerConfig) (partition : PartitionConfig) (s : Cluster),
      validateConfig config = .ok () → findPartition config "t" 0 = some partition →
      partition.leader = config.nodeId → config.nodeId ∈ partition.isr →
      1 < partition.isr.length → DistinctAddresses config →
      Transition.Reachable (Initial config partition) step (fun _ _ => True) s →
      ∀ f ∈ partition.isr, f ≠ config.nodeId →
        (s.reactors config.nodeId).shard.offsets.highWatermark ≤
          (s.reactors f).shard.offsets.latest := by
  intro hall
  have hrun : (Transition.guardedRun step (fun _ _ => True) pair
      (firstReplicated ++ [.produce [8] 1, .replicationOver 0])).map
      (fun s => ((s.reactors 0).shard.offsets.highWatermark,
        (s.reactors 1).shard.offsets.latest)) = some (2, 1) := by
    decide +kernel
  obtain ⟨s, hs, hends⟩ := Option.map_eq_some_iff.mp hrun
  obtain ⟨hwatermark, hlatest⟩ := Prod.mk.inj hends
  have hle := hall pairConfig pairPartition s rfl rfl rfl (by decide) (by decide) (by decide)
    (.of_guardedRun (.start initial_pair) _ hs) 1 (by decide) (by decide)
  rw [show pairConfig.nodeId = 0 from rfl, hwatermark, hlatest] at hle
  exact absurd hle (by decide)

end Cluster

end Mkmq
