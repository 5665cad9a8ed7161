import Mkmq.AcksAll

/-!
# What a follower shows

With `allow_follower_fetch` a follower serves reads up to its own high watermark.  Three
places set it: a `replica_append` call, which carries as `leader_high_watermark` the log
end planned for the very records it brings (`replicate_to_isr`); the append of a catch-up
round, which carries the leader's high watermark (`fetch_for_replica`); and
`mark_replicated_through` with the follower's own log end, once that append is written.  No
message tells a follower later how far the leader has come, so that it shows its records
when it has appended them: before the leader does, and also where the leader never will.
-/

namespace Mkmq

open ByteCodec PartitionLogShard

namespace Reactor

/-- An append of the log has failed. -/
def WriteFailed (r : Reactor) : Prop :=
  ∃ (n : Nat) (op : AppendOp), r.ops[n]? = some op ∧ op.phase = .failed

theorem WriteFailed.step {r r' : Reactor} {a : ReactorAction} (h : r.WriteFailed)
    (hstep : r.step a = some r') : r'.WriteFailed := by
  obtain ⟨n, op, hop, hfailed⟩ := h
  have hops := opsStep_of_step hstep
  refine ⟨n, op, ?_, hfailed⟩
  generalize r'.ops = ops' at hops
  cases hops with
  | same => exact hop
  | added other => exact append_ops_of_some hop other
  | @moved m other _ hother _ hrunning _ =>
    have hne : n ≠ m := by
      rintro rfl
      obtain rfl := Option.some.inj (hop.symm.trans hother)
      exact hrunning hfailed
    rw [set_ops_ne hne]
    exact hop

end Reactor

namespace Cluster

variable {config : BrokerConfig} {partition : PartitionConfig} {s s' : Cluster} {a : ClusterAction}
  {f : Int} {c : Nat}

theorem Steps.writeFailed_kept (h : s.Steps a s') (hf : f ≠ s.config.nodeId)
    (hfailed : (s.reactors f).WriteFailed) : (s'.reactors f).WriteFailed := by
  cases h.brokerStep f (Or.inl hf) with
  | log hstep => exact hfailed.step hstep
  | same hops =>
    unfold Reactor.WriteFailed
    rw [hops]
    exact hfailed

/-! ### Offsets -/

/-- The offsets of a log that has accepted an `append_replica`. -/
theorem appendReplica_offsets {request : ReplicaAppendRequest} {r : Reactor}
    (h : s.appendReplica f request = some r) :
    r.shard.offsets.latest = request.baseOffset + estimateRecordCount request.records ∧
      r.shard.offsets.highWatermark =
        min r.shard.offsets.latest request.leaderHighWatermark := by
  rw [appendReplica_eq] at h
  split at h
  · next hadmits =>
      obtain rfl := Option.some.inj h
      rw [Reactor.accept_head, LogHead.appendReplica_of_admits hadmits.2]
      exact ⟨rfl, rfl⟩
  · cases h

/-- Apart from the three places, no step moves the offsets of a follower. -/
theorem Steps.offsets_eq (h : s.Steps a s') (hf : f ≠ s.config.nodeId)
    (hdeliver : ∀ i, a ≠ .deliver i f) (happlied : ∀ c, a ≠ .applyFetched c)
    (hcaught : ∀ c, a ≠ .caughtUp c) :
    (s'.reactors f).shard.offsets = (s.reactors f).shard.offsets := by
  have hset : ∀ {brokerId : Int} {r : Reactor},
      (f = brokerId → r.shard.offsets = (s.reactors brokerId).shard.offsets) →
      ((s.setReactor brokerId r).reactors f).shard.offsets = (s.reactors f).shard.offsets := by
    intro brokerId r hr
    by_cases hsame : f = brokerId
    · subst hsame
      rw [setReactor_self]
      exact hr rfl
    · rw [setReactor_of_ne hsame]
  cases h with
  | produced => exact hset fun hsame => absurd hsame hf
  | shard hcall hstep => exact hset fun _ => Reactor.offsets_step hcall hstep
  | @pushAccepted i push brokerId =>
    refine hset fun hsame => ?_
    subst hsame
    exact absurd rfl (hdeliver i)
  | replicationOver => exact hset fun hsame => absurd hsame hf
  | fetched => exact hset fun _ => rfl
  | fetchApplied => exact absurd rfl (happlied _)
  | caughtUp => exact absurd rfl (hcaught _)
  | restarted => exact hset fun hsame => absurd hsame hf
  | _ => rfl

/-! ### Rounds that are being written -/

/-- A catch-up round of broker `f` waits for its append `n`, which ends at `logEnd`. -/
def Writes (s : Cluster) (f : Int) (n : Nat) (logEnd : Int) : Prop :=
  ∃ (c : Nat) (round : CatchUp), s.catchUps[c]? = some round ∧ round.follower = f ∧
    round.state = .writing n logEnd

section Rounds

variable {c n : Nat} {round round' : CatchUp} {logEnd : Int}

/-- What is being written after one round has moved. -/
theorem writes_of_set (hrounds : s'.catchUps = s.catchUps.set c round') (h : s'.Writes f n logEnd) :
    s.Writes f n logEnd ∨ round'.follower = f ∧ round'.state = .writing n logEnd := by
  obtain ⟨d, other, hd, hfollower, hstate⟩ := h
  rw [hrounds, List.getElem?_set] at hd
  split at hd
  · split at hd
    · obtain rfl := Option.some.inj hd
      exact Or.inr ⟨hfollower, hstate⟩
    · cases hd
  · exact Or.inl ⟨d, other, hd, hfollower, hstate⟩

/-- What was being written before one round has moved. -/
theorem writes_set (hround : s.catchUps[c]? = some round)
    (hrounds : s'.catchUps = s.catchUps.set c round') (h : s.Writes f n logEnd) :
    s'.Writes f n logEnd ∨ round.follower = f ∧ round.state = .writing n logEnd := by
  obtain ⟨d, other, hd, hfollower, hstate⟩ := h
  by_cases hcd : c = d
  · subst hcd
    obtain rfl := Option.some.inj (hround.symm.trans hd)
    exact Or.inr ⟨hfollower, hstate⟩
  · refine Or.inl ⟨d, other, ?_, hfollower, hstate⟩
    rw [hrounds, List.getElem?_set_ne hcd]
    exact hd

/-- A round that is not written before or after. -/
theorem writes_iff_of_set (hround : s.catchUps[c]? = some round)
    (hrounds : s'.catchUps = s.catchUps.set c round')
    (hbefore : ∀ n logEnd, round.state ≠ .writing n logEnd)
    (hafter : ∀ n logEnd, round'.state ≠ .writing n logEnd) :
    s'.Writes f n logEnd ↔ s.Writes f n logEnd := by
  refine ⟨fun h => ?_, fun h => ?_⟩
  · exact (writes_of_set hrounds h).resolve_right fun hnow => hafter _ _ hnow.2
  · exact (writes_set hround hrounds h).resolve_right fun hnow => hbefore _ _ hnow.2

theorem writes_congr (hrounds : s'.catchUps = s.catchUps) :
    s'.Writes f n logEnd ↔ s.Writes f n logEnd := by
  unfold Writes
  rw [hrounds]

theorem writes_restart (image : DataDir) (hf : f ≠ s.config.nodeId) :
    (s.restart image).Writes f n logEnd ↔ s.Writes f n logEnd := by
  have hrounds : ∀ d, (s.restart image).catchUps[d]? = s.catchUps[d]?.map fun (round : CatchUp) =>
      if round.follower = s.config.nodeId then { round with state := .over } else round :=
    fun d => List.getElem?_map ..
  unfold Writes
  refine exists_congr fun d => ⟨?_, ?_⟩
  · rintro ⟨round, hd, rfl, hstate⟩
    rw [hrounds] at hd
    obtain ⟨before, hbefore, rfl⟩ := Option.map_eq_some_iff.mp hd
    split at hstate
    · cases hstate
    · next hne => exact ⟨before, hbefore, by rw [if_neg hne], hstate⟩
  · rintro ⟨round, hd, rfl, hstate⟩
    refine ⟨round, ?_, rfl, hstate⟩
    rw [hrounds, hd, Option.map_some, if_neg hf]

/-- A catch-up round becomes one that is being written when it appends, and is one until the
    append is over. -/
theorem writes_step (h : s.step a = some s') (hf : f ≠ s.config.nodeId)
    (happlied : ∀ c, a ≠ .applyFetched c) (hcaught : ∀ c, a ≠ .caughtUp c) :
    s'.Writes f n logEnd ↔ s.Writes f n logEnd := by
  cases a with
  | produce =>
    exact writes_congr (by grind [step, produce, produced, setReactor, Option.map_eq_some_iff])
  | shard => exact writes_congr (by grind [step, setReactor, Option.map_eq_some_iff])
  | deliver =>
    exact writes_congr (by grind [step, deliver, setReactor, setPush, Option.bind_eq_some_iff])
  | replicaWritten =>
    exact writes_congr (by grind [step, replicaWritten, setPush, Option.bind_eq_some_iff])
  | receive => exact writes_congr (by grind [step, setPush, Option.bind_eq_some_iff])
  | giveUp => exact writes_congr (by grind [step, setPush, Option.bind_eq_some_iff])
  | writeOver =>
    exact writes_congr (by grind [step, writeOver, setProduce, Option.bind_eq_some_iff])
  | replicationOver =>
    exact writes_congr
      (by grind [step, replicationOver, setProduce, setReactor, Option.bind_eq_some_iff])
  | timeOut => exact writes_congr (by grind [step, timeOut, setProduce, Option.bind_eq_some_iff])
  | catchUp follower =>
    simp only [step, catchUp] at h
    split at h
    · obtain rfl := Option.some.inj h
      refine ⟨?_, ?_⟩
      · rintro ⟨d, round, hd, hfollower, hstate⟩
        rcases Reactor.getElem?_concat hd with ⟨-, rfl⟩ | hd
        · cases hstate
        · exact ⟨d, round, hd, hfollower, hstate⟩
      · rintro ⟨d, round, hd, hfollower, hstate⟩
        obtain ⟨hlt, -⟩ := List.getElem?_eq_some_iff.mp hd
        exact ⟨d, round, (List.getElem?_append_left hlt).trans hd, hfollower, hstate⟩
    · cases h
  | replicaFetch d brokerId =>
    obtain ⟨round, hround, h⟩ := Option.bind_eq_some_iff.mp h
    split at h
    · next hasked =>
        obtain rfl := Option.some.inj h
        have hbefore : ∀ n logEnd, round.state ≠ .writing n logEnd := by simp [hasked.1]
        unfold replicaFetch
        simp only
        split
        · exact writes_iff_of_set hround rfl hbefore (by simp)
        · split
          · exact writes_iff_of_set hround rfl hbefore (by simp)
          · exact writes_iff_of_set hround rfl hbefore (by simp)
    · cases h
  | applyFetched d => exact absurd rfl (happlied d)
  | caughtUp d => exact absurd rfl (hcaught d)
  | abandonCatchUp d =>
    obtain ⟨round, hround, h⟩ := Option.bind_eq_some_iff.mp h
    split at h
    · next hasked =>
        obtain rfl := Option.some.inj h
        exact writes_iff_of_set hround rfl (by simp [hasked]) (by simp)
    · cases h
  | restart image =>
    obtain rfl := Option.some.inj h
    exact writes_restart image hf

end Rounds

/-! ### Every run -/

/-- The calls carry the log end of their own records as the leader's high watermark. -/
def Carries (push : Push) : Prop :=
  push.request.leaderHighWatermark =
    push.request.baseOffset + estimateRecordCount push.request.records

theorem carries_step (h : ∀ push ∈ s.pushes, Carries push) (hstep : s.Steps a s') :
    ∀ push ∈ s'.pushes, Carries push := by
  intro push hpush
  rcases hstep.calls with hcalls | ⟨_, records, acks, -, -, rfl⟩
  · obtain ⟨before, hbefore, hcall⟩ := List.mem_map.mp (hcalls ▸ List.mem_map_of_mem hpush)
    have hrequest : before.request = push.request := congrArg (fun call => call.2.2) hcall
    unfold Carries
    rw [← hrequest]
    exact h before hbefore
  · rcases List.mem_append.mp hpush with hpush | hpush
    · exact h push hpush
    · split at hpush
      · obtain ⟨g, -, address, -, rfl⟩ := mem_replicaAppends.mp hpush
        rfl
      · cases hpush

/-- A log that shows what it has, or has something to wait for. -/
structure Shows (s : Cluster) (f : Int) : Prop where
  le_latest : (s.reactors f).shard.offsets.highWatermark ≤ (s.reactors f).shard.offsets.latest
  whole : (s.reactors f).shard.offsets.highWatermark = (s.reactors f).shard.offsets.latest ∨
    (∃ n logEnd, s.Writes f n logEnd) ∨ (s.reactors f).WriteFailed

structure ShowsInv (config : BrokerConfig) (s : Cluster) : Prop where
  config_eq : s.config = config
  pushes : ∀ push ∈ s.pushes, Carries push
  ends : ∀ f n logEnd, f ≠ config.nodeId → s.Writes f n logEnd →
    logEnd ≤ (s.reactors f).shard.offsets.latest
  followers : ∀ f, f ≠ config.nodeId → s.Shows f

/-- A broker whose offsets and rounds have not moved. -/
theorem Shows.mono (h : s.Shows f) (hstep : s.Steps a s') (hf : f ≠ s.config.nodeId)
    (hoffsets : (s'.reactors f).shard.offsets = (s.reactors f).shard.offsets)
    (hwrites : ∀ n logEnd, s.Writes f n logEnd → s'.Writes f n logEnd) : s'.Shows f := by
  refine ⟨by rw [hoffsets]; exact h.le_latest, ?_⟩
  rw [hoffsets]
  rcases h.whole with hwhole | ⟨n, logEnd, hwriting⟩ | hfailed
  · exact Or.inl hwhole
  · exact Or.inr (Or.inl ⟨n, logEnd, hwrites n logEnd hwriting⟩)
  · exact Or.inr (Or.inr (hstep.writeFailed_kept hf hfailed))

theorem shows_of_eq
    (h : (s.reactors f).shard.offsets.highWatermark = (s.reactors f).shard.offsets.latest) :
    s.Shows f := ⟨le_of_eq h, Or.inl h⟩

/-- A call brings a follower to the end of its records, and shows them. -/
theorem ShowsInv.deliver (h : ShowsInv config s) {i : Nat}
    (hstep : s.Steps (.deliver i f) s') (hf : f ≠ config.nodeId)
    (hwrites : ∀ n logEnd, s.Writes f n logEnd → s'.Writes f n logEnd) : s'.Shows f := by
  have hkept := (h.followers f hf).mono hstep (h.config_eq ▸ hf)
  cases hstep with
  | pushRefused => exact hkept rfl hwrites
  | catchUpMoved => exact hkept rfl hwrites
  | @pushAccepted _ push _ r hpush _ happend =>
    obtain ⟨hlatest, hwatermark⟩ := appendReplica_offsets happend
    have hcarries : Carries push := h.pushes push (List.mem_of_getElem? hpush)
    refine shows_of_eq ?_
    show ((s.setReactor f r).reactors f).shard.offsets.highWatermark =
      ((s.setReactor f r).reactors f).shard.offsets.latest
    rw [setReactor_self, hwatermark, hcarries, hlatest, min_self]

/-- One catch-up round moves, and what is left to see is its follower. -/
theorem ShowsInv.of_set (h : ShowsInv config s) (hstep : s.Steps a s') {round : CatchUp}
    {state : CatchUpState} (hround : s.catchUps[c]? = some round)
    (hrounds : s'.catchUps = s.catchUps.set c { round with state := state })
    (hothers : ∀ f, f ≠ round.follower →
      (s'.reactors f).shard.offsets = (s.reactors f).shard.offsets)
    (hends : ∀ n logEnd, state = .writing n logEnd →
      logEnd ≤ (s'.reactors round.follower).shard.offsets.latest)
    (hfollower : round.follower ≠ config.nodeId → s'.Shows round.follower) :
    ShowsInv config s' where
  config_eq := hstep.config_eq.trans h.config_eq
  pushes := carries_step h.pushes hstep
  ends := by
    intro f n logEnd hf hwrites
    rcases writes_of_set hrounds hwrites with hwrites | ⟨rfl, hstate⟩
    · exact (h.ends f n logEnd hf hwrites).trans (hstep.grows f (Or.inl (h.config_eq ▸ hf))).latest
    · exact hends n logEnd hstate
  followers := by
    intro f hf
    by_cases hsame : f = round.follower
    · subst hsame
      exact hfollower hf
    · refine (h.followers f hf).mono hstep (h.config_eq ▸ hf) (hothers f hsame)
        fun n logEnd hw => ?_
      exact (writes_set hround hrounds hw).resolve_right fun hnow => hsame hnow.1.symm

/-- A round that ends without an append. -/
theorem ShowsInv.over (h : ShowsInv config s) {round : CatchUp}
    (hround : s.catchUps[c]? = some round)
    (hstep : s.Steps a (s.setCatchUp c { round with state := .over }))
    (hstate : ∀ n logEnd, round.state = .writing n logEnd →
    (s.reactors round.follower).WriteFailed) :
    ShowsInv config (s.setCatchUp c { round with state := .over }) := by
  refine h.of_set hstep hround rfl (fun _ _ => rfl) (by simp) fun hf => ?_
  have hshows := h.followers round.follower hf
  have hset : (s.setCatchUp c { round with state := .over }).catchUps =
      s.catchUps.set c { round with state := .over } := rfl
  refine ⟨hshows.le_latest, ?_⟩
  rcases hshows.whole with hwhole | ⟨n, logEnd, hwrites⟩ | hfailed
  · exact Or.inl hwhole
  · rcases writes_set hround hset hwrites with hwrites | ⟨-, hnow⟩
    · exact Or.inr (Or.inl ⟨n, logEnd, hwrites⟩)
    · exact Or.inr (Or.inr (hstate n logEnd hnow))
  · exact Or.inr (Or.inr hfailed)

/-- What a round has fetched is appended and not shown until it is written. -/
theorem ShowsInv.applyFetched (h : ShowsInv config s) (hstep : s.step (.applyFetched c) = some s') :
    ShowsInv config s' := by
  have hsteps := steps_of_step hstep
  obtain ⟨round, hround, hstep⟩ := Option.bind_eq_some_iff.mp hstep
  split at hstep
  case h_2 => cases hstep
  next result hfetched =>
  obtain rfl := Option.some.inj hstep
  have hstate : ∀ n logEnd, round.state = .writing n logEnd →
      (s.reactors round.follower).WriteFailed := by simp [hfetched]
  unfold Cluster.applyFetched at hsteps ⊢
  simp only at hsteps ⊢
  split at hsteps
  · next hempty =>
      rw [if_pos hempty]
      exact h.over hround hsteps hstate
  · next hempty =>
      rw [if_neg hempty]
      split at hsteps
      · exact h.over hround hsteps hstate
      · next r happend =>
          obtain ⟨hlatest, hwatermark⟩ := appendReplica_offsets happend
          have hreactor : ∀ {state : CatchUpState},
              (((s.setReactor round.follower r).setCatchUp c
                { round with state := state }).reactors round.follower) = r :=
            setReactor_self ..
          refine h.of_set hsteps hround rfl ?_ ?_ fun _ => ⟨?_, Or.inr (Or.inl ?_)⟩
          · intro f hf
            exact congrArg (fun r => r.shard.offsets) (setReactor_of_ne hf r)
          · intro n logEnd hnow
            obtain ⟨-, rfl⟩ := CatchUpState.writing.inj hnow
            rw [hreactor, hlatest]
          · rw [hreactor, hwatermark]
            exact min_le_left _ _
          · obtain ⟨hlt, -⟩ := List.getElem?_eq_some_iff.mp hround
            exact ⟨_, _, c, _, List.getElem?_set_self hlt, rfl, rfl⟩

/-- Once it is written, all of the log is shown. -/
theorem ShowsInv.caughtUp (h : ShowsInv config s) (hstep : s.step (.caughtUp c) = some s') :
    ShowsInv config s' := by
  have hsteps := steps_of_step hstep
  obtain ⟨round, hround, hstep⟩ := Option.bind_eq_some_iff.mp hstep
  split at hstep
  case h_2 => cases hstep
  next n logEnd hwriting =>
  have hwrites : s.Writes round.follower n logEnd := ⟨c, round, hround, rfl, hwriting⟩
  simp only [Cluster.caughtUp] at hstep
  split at hstep
  · -- the log has not become shorter since the append
    obtain rfl := Option.some.inj hstep
    refine h.of_set hsteps hround rfl ?_ (by simp) fun hf => ?_
    · intro f hf
      exact congrArg (fun r => r.shard.offsets) (setReactor_of_ne hf _)
    · have hend : (s.reactors round.follower).shard.offsets.latest ≥ logEnd :=
        h.ends round.follower n logEnd hf hwrites
      simp only [if_pos hend]
      refine shows_of_eq ?_
      show ((s.setReactor round.follower _).reactors round.follower).shard.offsets.highWatermark =
        ((s.setReactor round.follower _).reactors round.follower).shard.offsets.latest
      rw [setReactor_self]
      exact min_eq_left (le_max_right _ _)
  · next hphase =>
      obtain rfl := Option.some.inj hstep
      obtain ⟨op, hop, hfailed⟩ := Option.map_eq_some_iff.mp hphase
      exact h.over hround hsteps fun _ _ _ => ⟨n, op, hop, hfailed⟩
  · cases hstep

theorem ShowsInv.step (h : ShowsInv config s) (hstep : s.step a = some s') :
    ShowsInv config s' := by
  by_cases happlied : ∃ c, a = .applyFetched c
  · obtain ⟨c, rfl⟩ := happlied
    exact h.applyFetched hstep
  by_cases hcaught : ∃ c, a = .caughtUp c
  · obtain ⟨c, rfl⟩ := hcaught
    exact h.caughtUp hstep
  push Not at happlied hcaught
  have hsteps := steps_of_step hstep
  have hwrites : ∀ {f n logEnd}, f ≠ config.nodeId →
      (s'.Writes f n logEnd ↔ s.Writes f n logEnd) := fun hf =>
    writes_step hstep (h.config_eq ▸ hf) happlied hcaught
  refine ⟨hsteps.config_eq.trans h.config_eq, carries_step h.pushes hsteps, ?_, ?_⟩
  · intro f n logEnd hf hw
    exact (h.ends f n logEnd hf ((hwrites hf).mp hw)).trans
      (hsteps.grows f (Or.inl (h.config_eq ▸ hf))).latest
  · intro f hf
    by_cases hdeliver : ∃ i, a = .deliver i f
    · obtain ⟨i, rfl⟩ := hdeliver
      exact h.deliver hsteps hf fun n logEnd => (hwrites hf).mpr
    · push Not at hdeliver
      exact (h.followers f hf).mono hsteps (h.config_eq ▸ hf)
        (hsteps.offsets_eq (h.config_eq ▸ hf) hdeliver happlied hcaught)
        fun n logEnd => (hwrites hf).mpr

theorem showsInv_initial (h : Initial config partition s) : ShowsInv config s where
  config_eq := h.config_eq
  pushes := by
    intro push hpush
    rw [h.pushes] at hpush
    cases hpush
  ends := by
    rintro f n logEnd - ⟨c, round, hround, -, -⟩
    rw [h.catchUps] at hround
    cases hround
  followers := by
    intro f _
    obtain ⟨segmentBytes, alignment, halign, hr⟩ := h.reactors f
    refine shows_of_eq ?_
    rw [hr]
    rfl

/-- **A follower shows what it has appended.**  Its high watermark is its own log end, and
    falls short of that only while a catch-up round is being written or when an append has
    failed; the leader's high watermark is no bound for it. -/
theorem follower_highWatermark
    (hreach : Transition.Reachable (Initial config partition) step (fun _ _ => True) s)
    (hf : f ≠ config.nodeId) :
    (s.reactors f).shard.offsets.highWatermark ≤ (s.reactors f).shard.offsets.latest ∧
      ((s.reactors f).shard.offsets.highWatermark = (s.reactors f).shard.offsets.latest ∨
        (∃ n logEnd, s.Writes f n logEnd) ∨ (s.reactors f).WriteFailed) := by
  have hinv : ShowsInv config s :=
    hreach.invariant (fun _ => showsInv_initial) fun _ _ _ hi _ hstep => hi.step hstep
  exact ⟨(hinv.followers f hf).le_latest, (hinv.followers f hf).whole⟩

/-- Broker 1 has missed a call and fetches the record, which the leader does not show: until
    its append is written, it does not show it either. -/
theorem follower_highWatermark_catchingUp :
    ∃ s, Transition.Reachable (Initial pairConfig pairPartition) step (fun _ _ => True) s ∧
      (s.reactors 1).shard.offsets.highWatermark = 0 ∧ (s.reactors 1).shard.offsets.latest = 1 ∧
      (s.reactors 1).shard.offsets.highWatermark ≤ (s.reactors 1).shard.offsets.latest ∧
      ((s.reactors 1).shard.offsets.highWatermark = (s.reactors 1).shard.offsets.latest ∨
        (∃ n logEnd, s.Writes 1 n logEnd) ∨ (s.reactors 1).WriteFailed) := by
  have hrun : (Transition.run step pair
      (.produce [7] 1 :: leaderWrites ++
        [.giveUp 0, .catchUp 1, .replicaFetch 0 0, .applyFetched 0])).map
      (fun s => ((s.reactors 1).shard.offsets.highWatermark, (s.reactors 1).shard.offsets.latest)) =
        some (0, 1) := by
    decide +kernel
  obtain ⟨s, hs, hoffsets⟩ := Option.map_eq_some_iff.mp hrun
  obtain ⟨hwatermark, hlatest⟩ := Prod.mk.inj hoffsets
  have hreach : Transition.Reachable (Initial pairConfig pairPartition) step (fun _ _ => True) s :=
    .of_run (.start initial_pair) _ (fun _ _ _ => trivial) hs
  exact ⟨s, hreach, hwatermark, hlatest, follower_highWatermark hreach (by decide)⟩

/-- Broker 1 shows a record whose request was answered with `NotEnoughReplicas`, because its
    answer was lost, and which the leader does not show. -/
theorem follower_not_always_le_leader :
    ¬ ∀ (config : BrokerConfig) (partition : PartitionConfig) (s : Cluster),
      validateConfig config = .ok () → findPartition config "t" 0 = some partition →
      partition.leader = config.nodeId → config.nodeId ∈ partition.isr →
      1 < partition.isr.length → DistinctAddresses config →
      Transition.Reachable (Initial config partition) step Uninterrupted s →
      ∀ f ∈ partition.isr, f ≠ config.nodeId →
        (s.reactors f).shard.offsets.highWatermark ≤
          (s.reactors config.nodeId).shard.offsets.highWatermark := by
  intro hall
  have hrun : (Transition.guardedRun step Uninterrupted pair
      ([.produce [7] (-1), .deliver 0 1, .giveUp 0] ++ leaderWrites ++ [.replicationOver 0])).map
      (fun s => ((s.reactors 0).shard.offsets.highWatermark,
        (s.reactors 1).shard.offsets.highWatermark)) = some (0, 1) := by
    decide +kernel
  obtain ⟨s, hs, hends⟩ := Option.map_eq_some_iff.mp hrun
  obtain ⟨hleader, hfollower⟩ := Prod.mk.inj hends
  have hle := hall pairConfig pairPartition s rfl rfl rfl (by decide) (by decide) (by decide)
    (.of_guardedRun (.start initial_pair) _ hs) 1 (by decide) (by decide)
  rw [show pairConfig.nodeId = 0 from rfl, hleader, hfollower] at hle
  exact absurd hle (by decide)

end Cluster

end Mkmq
