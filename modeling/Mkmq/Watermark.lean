import Mkmq.Recovery

/-!
# The high watermark of one partition

Five operations of `PartitionLogShard` assign `offsets_.high_watermark` or the offsets it
lies between.  `mark_replicated_through` takes the larger of the present watermark and the
new one; `append_replica` takes what the leader sent, bounded by the log end only.  A push
carries the end of the record set it brings, so the watermark moves to the log end with it.
The reply to a catch-up round carries the watermark of the leader, which may be behind the
one an earlier push has left here.
-/

namespace Mkmq

open ByteCodec

/-- What happens to the head of a log between two starts.  `settled` is the end of an
    append, which gives its place in the queue back. -/
inductive HeadAction where
  | append (records : Bytes) (acks : Int)
  | pushed (request : ReplicaAppendRequest)
  | fetched (request : ReplicaAppendRequest)
  | settled
  | markReplicatedThrough (offset : Int)
  | markDegraded
  | updateConfig (config : PartitionConfig)
deriving DecidableEq, Repr

/-- `replicate_to_isr` sends the planned log end as the watermark. -/
def ReplicaAppendRequest.asPushed (request : ReplicaAppendRequest) : ReplicaAppendRequest :=
  { request with
    leaderHighWatermark := request.baseOffset + estimateRecordCount request.records }

namespace LogHead

def act (head : LogHead) : HeadAction → LogHead
  | .append records acks => (head.append records acks).head
  | .pushed request => (head.appendReplica request.asPushed).head
  | .fetched request => (head.appendReplica request).head
  | .settled => head.settle
  | .markReplicatedThrough offset => head.markReplicatedThrough offset
  | .markDegraded => head.markDegraded
  | .updateConfig config => { head with config := config }

/-- The watermark lies inside the log. -/
def InBounds (head : LogHead) : Prop :=
  head.offsets.earliest ≤ head.offsets.highWatermark ∧
    head.offsets.highWatermark ≤ head.offsets.latest

instance (head : LogHead) : Decidable head.InBounds := by
  unfold InBounds
  infer_instance

/-- The reply to a catch-up round, if it is accepted, is not behind the watermark. -/
def UpToDate (head : LogHead) : HeadAction → Prop
  | .fetched request =>
    head.AdmitsReplica request → head.offsets.highWatermark ≤ request.leaderHighWatermark
  | _ => True

/-! ### One action -/

/-- How an action moves the offsets: up, the watermark inside the log again; or a reply
    sets the watermark. -/
theorem act_cases (head : LogHead) (h : head.InBounds) (a : HeadAction) :
    ((head.act a).InBounds ∧ head.offsets.highWatermark ≤ (head.act a).offsets.highWatermark) ∨
    ∃ request, a = .fetched request ∧ head.AdmitsReplica request ∧
      (head.act a).offsets.earliest = head.offsets.earliest ∧
      head.offsets.latest ≤ (head.act a).offsets.latest ∧
      (head.act a).offsets.highWatermark =
        min (head.act a).offsets.latest request.leaderHighWatermark := by
  obtain ⟨hlow, hhigh⟩ := h
  unfold InBounds
  cases a with
  | append records acks =>
    left
    rw [act]
    by_cases hadmits : head.Admits records acks
    · have hcount := estimateRecordCount_nonneg records
      rw [append_of_admits hadmits]
      simp only [appended]
      split <;> omega
    · rw [(append_of_not_admits hadmits).1]
      exact ⟨⟨hlow, hhigh⟩, le_refl _⟩
  | pushed request =>
    left
    rw [act]
    by_cases hadmits : head.AdmitsReplica request.asPushed
    · have hcount := estimateRecordCount_nonneg request.records
      have hbase : request.baseOffset = head.offsets.latest := hadmits.2.1
      rw [appendReplica_of_admits hadmits]
      simp only [replicated, ReplicaAppendRequest.asPushed, min_self]
      omega
    · rw [(appendReplica_of_not_admits hadmits).1]
      exact ⟨⟨hlow, hhigh⟩, le_refl _⟩
  | fetched request =>
    rw [act]
    by_cases hadmits : head.AdmitsReplica request
    · have hcount := estimateRecordCount_nonneg request.records
      have hbase : request.baseOffset = head.offsets.latest := hadmits.2.1
      refine Or.inr ⟨request, rfl, hadmits, ?_⟩
      rw [appendReplica_of_admits hadmits]
      simp only [replicated, and_true, true_and]
      omega
    · left
      rw [(appendReplica_of_not_admits hadmits).1]
      exact ⟨⟨hlow, hhigh⟩, le_refl _⟩
  | settled => exact Or.inl ⟨⟨hlow, hhigh⟩, le_refl _⟩
  | markReplicatedThrough offset =>
    left
    simp only [act, markReplicatedThrough]
    omega
  | markDegraded => exact Or.inl ⟨⟨hlow, hhigh⟩, le_refl _⟩
  | updateConfig config => exact Or.inl ⟨⟨hlow, hhigh⟩, le_refl _⟩

/-- **An action keeps the watermark exactly when it is up to date.** -/
theorem act_keeps_iff (head : LogHead) (h : head.InBounds) (a : HeadAction) :
    ((head.act a).InBounds ∧ head.offsets.highWatermark ≤ (head.act a).offsets.highWatermark) ↔
      head.UpToDate a := by
  rcases head.act_cases h a with hkept | ⟨request, rfl, hadmits, hearliest, hlatest, hmark⟩
  · refine iff_of_true hkept ?_
    cases a with
    | fetched request =>
      intro hadmits
      obtain ⟨-, hle⟩ := hkept
      rw [act, appendReplica_of_admits hadmits] at hle
      simp only [replicated] at hle
      omega
    | _ => trivial
  · obtain ⟨hlow, hhigh⟩ := h
    unfold UpToDate InBounds
    constructor
    · rintro ⟨-, hle⟩ _
      omega
    · intro hcurrent
      have hle := hcurrent hadmits
      omega

/-! ### Runs -/

/-- The watermark lies inside the log all along and never moves back. -/
def WatermarkKept : LogHead → List HeadAction → Prop
  | head, [] => head.InBounds
  | head, a :: rest =>
    head.InBounds ∧ head.offsets.highWatermark ≤ (head.act a).offsets.highWatermark ∧
      WatermarkKept (head.act a) rest

/-- Every reply of the run is up to date when it is applied. -/
def RepliesUpToDate : LogHead → List HeadAction → Prop
  | _, [] => True
  | head, a :: rest => head.UpToDate a ∧ RepliesUpToDate (head.act a) rest

theorem WatermarkKept.inBounds {head : LogHead} {actions : List HeadAction}
    (h : head.WatermarkKept actions) : head.InBounds := by
  cases actions with
  | nil => exact h
  | cons a rest => exact h.1

/-- **The watermark is monotone and inside the log exactly in the runs whose catch-up
    replies are up to date.** -/
theorem watermark_kept_iff (head : LogHead) (hbounds : head.InBounds)
    (actions : List HeadAction) : head.WatermarkKept actions ↔ head.RepliesUpToDate actions := by
  induction actions generalizing head with
  | nil => exact iff_of_true hbounds trivial
  | cons a rest ih =>
    have hstep := head.act_keeps_iff hbounds a
    constructor
    · rintro ⟨-, hle, hrest⟩
      have hinside := hrest.inBounds
      exact ⟨hstep.mp ⟨hinside, hle⟩, (ih (head.act a) hinside).mp hrest⟩
    · rintro ⟨hcurrent, hrest⟩
      obtain ⟨hinside, hle⟩ := hstep.mpr hcurrent
      exact ⟨hbounds, hle, (ih (head.act a) hinside).mpr hrest⟩

/-- One push, and a reply of a leader that has committed it. -/
theorem watermark_kept_committed : LogHead.WatermarkKept { config := defaultPartition }
      [.pushed { records := [1] }, .settled,
        .fetched { baseOffset := 1, leaderHighWatermark := 1, records := [2] }, .settled,
        .markReplicatedThrough 2] := by
  refine (watermark_kept_iff { config := defaultPartition } (by decide) _).mpr ?_
  refine ⟨trivial, trivial, ?_, trivial, trivial, trivial⟩
  intro _
  decide +kernel

/-- One push, and a reply of a leader that has not: the watermark moves back. -/
theorem watermark_not_always_kept :
    ¬ ∀ (head : LogHead) (actions : List HeadAction), head.InBounds →
        (∀ request, .fetched request ∈ actions → 0 ≤ request.leaderHighWatermark) →
        head.WatermarkKept actions := by
  intro hall
  have hkept := hall { config := defaultPartition }
    [.pushed { records := [1] }, .settled, .fetched { baseOffset := 1, records := [2] }]
    (by decide) (by simp)
  have hle := hkept.2.2.2.2.2.1
  exact absurd hle (by decide +kernel)

end LogHead

end Mkmq
