import Mkmq.BatchWalks
import Mkmq.Watermark

/-!
# How far offsets go

`offsets_.latest` is a `std::int64_t` that every accepted record set moves up by what
`estimate_record_count` makes of its batch headers.  The count is taken in 64 bits and is at
least one, so a single set neither overflows it nor leaves the log end where it was.  But a
header may claim `2 ^ 31` offsets whatever its size, and nothing compares the log end with
what is left below `2 ^ 63`: how far a run gets is decided by the headers it brings.
-/

namespace Mkmq

open ByteCodec ChainWalk

/-! ### What the headers of a record set claim -/

/-- The offsets of the batches the length fields lead to, but at least one for a record set
    that is not empty. -/
def offsetsClaimed (records : Bytes) : Int :=
  if records = [] then 0 else max 1 (offsetsTaken (countCut.visits records))

/-- The loop reads each batch where it stands, with everything behind it. -/
theorem estimateLoop_eq_visits {fuel : Nat} {records : Bytes} (hfuel : records.length ≤ fuel)
    (total : Int) :
    estimateLoop fuel records total = total + offsetsTaken (countCut.visits records) := by
  induction records using countCut.induction generalizing fuel total with
  | stop rest hsize =>
    rw [estimateLoop_stop hsize, Cut.visits_of_none hsize, offsetsTaken_nil, add_zero]
  | piece rest n hsize ih =>
    have hlt := Cut.length_drop_lt hsize
    obtain ⟨fuel, rfl⟩ : ∃ m, fuel = m + 1 := ⟨fuel - 1, by omega⟩
    rw [estimateLoop_batch hsize, ih (by omega), Cut.visits_of_some hsize, offsetsTaken_cons,
      add_assoc]

theorem estimateRecordCount_eq_claimed (records : Bytes) :
    estimateRecordCount records = offsetsClaimed records := by
  unfold estimateRecordCount offsetsClaimed
  split
  · rfl
  · simp only [estimateLoop_eq_visits (le_refl _), zero_add]
    -- a sum of positive counts is zero only when there is no batch
    by_cases hnone : countCut.visits records = []
    · rw [hnone]
      rfl
    · have hpos := offsetsTaken_pos hnone
      rw [if_neg (by omega), max_eq_right (by omega)]

theorem offsetsClaimed_nonneg (records : Bytes) : 0 ≤ offsetsClaimed records := by
  rw [← estimateRecordCount_eq_claimed]
  exact estimateRecordCount_nonneg records

theorem one_le_offsetsClaimed {records : Bytes} (h : records ≠ []) :
    1 ≤ offsetsClaimed records := by
  unfold offsetsClaimed
  rw [if_neg h]
  exact le_max_left _ _

/-- The offsets of several record sets. -/
def offsetsClaimedBy (recordSets : List Bytes) : Int := (recordSets.map offsetsClaimed).sum

@[simp] theorem offsetsClaimedBy_nil : offsetsClaimedBy [] = 0 := rfl

@[simp] theorem offsetsClaimedBy_append (front back : List Bytes) :
    offsetsClaimedBy (front ++ back) = offsetsClaimedBy front + offsetsClaimedBy back := by
  unfold offsetsClaimedBy
  rw [List.map_append, List.sum_append]

@[simp] theorem offsetsClaimedBy_singleton (records : Bytes) :
    offsetsClaimedBy [records] = offsetsClaimed records := by
  unfold offsetsClaimedBy
  rw [List.map_singleton, List.sum_singleton]

theorem offsetsClaimedBy_nonneg (recordSets : List Bytes) : 0 ≤ offsetsClaimedBy recordSets := by
  refine List.sum_nonneg ?_
  intro claimed hclaimed
  obtain ⟨records, -, rfl⟩ := List.mem_map.mp hclaimed
  exact offsetsClaimed_nonneg records

/-! ### One action -/

/-- The request an action hands to the log, if it is one. -/
def HeadAction.call : HeadAction → Option LogCall
  | .append records acks => some (.append records acks)
  | .pushed request => some (.appendReplica request.asPushed)
  | .fetched request => some (.appendReplica request)
  | _ => none

namespace LogHead

variable {a : HeadAction} {head : LogHead}

/-- An action as the log gets it: `BrokerShard::append` renumbers the batches of a produce
    from the log end.  `none` is a renumbering without a defined result. -/
def received (head : LogHead) : HeadAction → Option HeadAction
  | .append records acks =>
    (rewriteRecordBatchOffsets records head.offsets.latest).map (.append · acks)
  | a => some a

/-- The record sets an action gets into the log: its own, unless the request is refused. -/
def accepted (head : LogHead) (a : HeadAction) : List Bytes :=
  match a.call with
  | some call => if (call.admission head).recordSet.isSome then [call.records] else []
  | none => []

theorem act_of_call {call : LogCall} (h : a.call = some call) :
    head.act a = (call.admission head).head := by
  cases a <;> cases h <;> rfl

theorem act_latest_of_no_call (h : a.call = none) :
    (head.act a).offsets.latest = head.offsets.latest := by
  cases a with
  | append records acks => cases h
  | pushed request => cases h
  | fetched request => cases h
  | _ => rfl

theorem accepted_of_call {call : LogCall} (h : a.call = some call) :
    head.accepted a = if (call.admission head).recordSet.isSome then [call.records] else [] := by
  unfold accepted
  rw [h]

theorem accepted_of_no_call (h : a.call = none) : head.accepted a = [] := by
  unfold accepted
  rw [h]

/-- **The log end moves by what the accepted headers claim.** -/
theorem act_latest (head : LogHead) (a : HeadAction) :
    (head.act a).offsets.latest = head.offsets.latest + offsetsClaimedBy (head.accepted a) := by
  cases hcall : a.call with
  | none =>
    rw [act_latest_of_no_call hcall, accepted_of_no_call hcall, offsetsClaimedBy_nil, add_zero]
  | some call =>
    rw [act_of_call hcall, accepted_of_call hcall]
    rcases call.admission_cases head with ⟨hset, hlatest, -, -⟩ | ⟨hnone, hhead, -⟩
    · rw [hlatest, estimateRecordCount_eq_claimed, hset, if_pos Option.isSome_some,
        offsetsClaimedBy_singleton]
    · rw [hhead, hnone, if_neg (by simp), offsetsClaimedBy_nil, add_zero]

theorem claimed_pos_of_mem {records : Bytes} (h : records ∈ head.accepted a) (hne : records ≠ []) :
    0 < offsetsClaimedBy (head.accepted a) := by
  cases hcall : a.call with
  | none =>
    rw [accepted_of_no_call hcall] at h
    cases h
  | some call =>
    rw [accepted_of_call hcall] at h ⊢
    split at h
    · next hsome =>
        obtain rfl := List.mem_singleton.mp h
        rw [if_pos hsome, offsetsClaimedBy_singleton]
        exact one_le_offsetsClaimed hne
    · cases h

/-! ### Runs -/

/-- The record sets a run gets into the log, as they are written. -/
def acceptedSets : LogHead → List HeadAction → List Bytes
  | _, [] => []
  | head, a :: rest =>
    match head.received a with
    | some a => head.accepted a ++ acceptedSets (head.act a) rest
    | none => []

/-- The log end is a 64-bit number all along, and each record set that is not empty moves it
    up.  A renumbering without a defined result ends what can be said. -/
def OffsetsKept : LogHead → List HeadAction → Prop
  | head, [] => FitsInt64 head.offsets.latest
  | head, a :: rest =>
    FitsInt64 head.offsets.latest ∧ ∀ action ∈ head.received a,
      (∀ records ∈ head.accepted action, records ≠ [] →
        head.offsets.latest < (head.act action).offsets.latest) ∧
      OffsetsKept (head.act action) rest

/-- In a run that keeps the offsets, all that was claimed fits. -/
theorem OffsetsKept.claimed_lt {actions : List HeadAction} (h : head.OffsetsKept actions) :
    head.offsets.latest + offsetsClaimedBy (head.acceptedSets actions) < 2 ^ 63 := by
  induction actions generalizing head with
  | nil =>
    rw [acceptedSets, offsetsClaimedBy_nil, add_zero]
    exact h.2
  | cons a rest ih =>
    obtain ⟨hfits, hrest⟩ := h
    rw [acceptedSets]
    cases hreceived : head.received a with
    | none =>
      simp only [offsetsClaimedBy_nil, add_zero]
      exact hfits.2
    | some action =>
      have hlt := ih (hrest action hreceived).2
      rw [act_latest, add_assoc, ← offsetsClaimedBy_append] at hlt
      exact hlt

/-- **Offsets stay below `2 ^ 63` and keep growing exactly in the runs whose accepted headers
    claim no more than what is left.** -/
theorem offsets_kept_iff (head : LogHead) (hfits : FitsInt64 head.offsets.latest)
    (actions : List HeadAction) :
    head.OffsetsKept actions ↔
      head.offsets.latest + offsetsClaimedBy (head.acceptedSets actions) < 2 ^ 63 := by
  refine ⟨OffsetsKept.claimed_lt, fun hroom => ?_⟩
  induction actions generalizing head with
  | nil => exact hfits
  | cons a rest ih =>
    refine ⟨hfits, fun action hreceived => ?_⟩
    have hlatest := head.act_latest action
    rw [acceptedSets, hreceived] at hroom
    simp only [offsetsClaimedBy_append] at hroom
    have hstep := offsetsClaimedBy_nonneg (head.accepted action)
    have hlater := offsetsClaimedBy_nonneg ((head.act action).acceptedSets rest)
    refine ⟨?_, ih (head.act action) ?_ ?_⟩
    · intro records hrecords hne
      have hpos := claimed_pos_of_mem hrecords hne
      omega
    · obtain ⟨hlow, -⟩ := hfits
      exact ⟨by omega, by omega⟩
    · omega

/-- One header of 61 bytes, and what is left of `2 ^ 63` in a log that has one offset. -/
theorem offsets_kept_headerOnly :
    LogHead.OffsetsKept { config := defaultPartition, offsets := { latest := 1 } }
      [.append headerOnly 1, .settled] := by
  refine (offsets_kept_iff { config := defaultPartition, offsets := { latest := 1 } }
    (by decide) _).mpr ?_
  decide +kernel

/-! ### Headers that claim more than they hold -/

/-- A header without records whose `last_offset_delta` is `2 ^ 31 - 1`. -/
def farBatch : Bytes :=
  List.replicate 8 0 ++ beBytes 4 49 ++ List.replicate 11 0 ++ [0x7f, 0xff, 0xff, 0xff] ++
    List.replicate 34 0

theorem wholeBatch_farBatch : WholeBatch farBatch := ⟨by decide, by decide⟩

theorem rewrite_farBatch (baseOffset : Int) :
    rewriteRecordBatchOffsets farBatch baseOffset = some (renumbered baseOffset farBatch) := by
  have hall : ∀ batch ∈ [farBatch], WholeBatch batch := by
    intro batch hbatch
    rw [List.mem_singleton.mp hbatch]
    exact wholeBatch_farBatch
  simpa [renumberedChain] using rewriteRecordBatchOffsets_flatten hall baseOffset

theorem offsetsClaimed_renumbered_farBatch (baseOffset : Int) :
    offsetsClaimed (renumbered baseOffset farBatch) = 2 ^ 31 := by
  have hall : ∀ batch ∈ [renumbered baseOffset farBatch], WholeBatch batch := by
    intro batch hbatch
    rw [List.mem_singleton.mp hbatch]
    exact wholeBatch_farBatch.renumbered baseOffset
  have hcount := estimateRecordCount_flatten hall
  simp only [List.flatten_cons, List.flatten_nil, List.append_nil, offsetsTaken_cons,
    offsetsTaken_nil, add_zero] at hcount
  rw [← estimateRecordCount_eq_claimed, hcount, batchCount_renumbered (by decide)]
  decide

/-- Produces of `farBatch`, each settled before the next. -/
def farProduces : Nat → List HeadAction
  | 0 => []
  | n + 1 => .append farBatch 1 :: .settled :: farProduces n

/-- Each of them is accepted and takes `2 ^ 31` offsets. -/
theorem claimed_farProduces (n : Nat) (head : LogHead) (hconfig : head.config = defaultPartition)
    (hidle : head.queueDepth = 0) :
    offsetsClaimedBy (head.acceptedSets (farProduces n)) = n * 2 ^ 31 := by
  induction n generalizing head with
  | zero => rfl
  | succ n ih =>
    have hlength := length_renumbered (by decide : 21 ≤ farBatch.length) head.offsets.latest
    have hclaimed := offsetsClaimed_renumbered_farBatch head.offsets.latest
    have hadmits : head.Admits (renumbered head.offsets.latest farBatch) 1 := by
      unfold Admits
      rw [hconfig, hidle, hlength]
      decide
    have haccepted : head.accepted (.append (renumbered head.offsets.latest farBatch) 1) =
        [renumbered head.offsets.latest farBatch] := by
      rw [accepted_of_call rfl, LogCall.admission, append_of_admits hadmits]
      rfl
    have hact : head.act (.append (renumbered head.offsets.latest farBatch) 1) =
        head.appended (renumbered head.offsets.latest farBatch) := by
      rw [act, append_of_admits hadmits]
    rw [farProduces, acceptedSets, received, rewrite_farBatch]
    simp only [Option.map_some, haccepted, hact, acceptedSets, received]
    rw [offsetsClaimedBy_append, offsetsClaimedBy_append, offsetsClaimedBy_singleton, hclaimed,
      accepted_of_no_call rfl, offsetsClaimedBy_nil, ih]
    · push_cast
      ring
    · exact hconfig
    · simp [act, settle, appended, hidle]

/-- `2 ^ 32` such headers, 61 bytes each, take the log end of a new partition to `2 ^ 63`. -/
theorem offsets_not_always_kept :
    ¬ ∀ (head : LogHead) (actions : List HeadAction), FitsInt64 head.offsets.latest →
        head.OffsetsKept actions := by
  intro hall
  have hkept := hall { config := defaultPartition } (farProduces (2 ^ 32)) (by decide)
  have hlt := hkept.claimed_lt
  rw [claimed_farProduces _ _ rfl rfl] at hlt
  norm_num at hlt

end LogHead

end Mkmq
