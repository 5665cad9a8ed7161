import Mkmq.CatchUpRound

/-!
# Offsets after a catch-up round

The leader counts the records of every record set it accepts; a follower that catches up
counts the records of the answer, which may be several record sets in one.  Both use
`estimate_record_count`, which walks from header to header by the batch lengths, stops
where no batch follows, and takes at least one offset for what is not empty
(`src/partition_log_shard.cpp`).  The two counts agree when each record set is a chain
that its own length fields lead through to the end.  Bytes behind the last batch, which
the broker never looks at, shift the walk over every later record set of the answer, and a
record set without any batch takes an offset only when it stands alone.
-/

namespace Mkmq

open ByteCodec PartitionLogShard

variable {out rest records : Bytes}

/-! ### Chains -/

/-- The length fields lead from batch to batch to the end, and no batch starts within the
    last 26 bytes. -/
inductive BatchChain : Bytes → Prop where
  | nil : BatchChain []
  | batch {batch rest : Bytes} (header : 27 ≤ (batch ++ rest).length)
      (records : 0 < batchLengthField batch) (size : batch.length = batchLengthField batch + 12)
      (chain : BatchChain rest) : BatchChain (batch ++ rest)

/-! ### The walk of the count -/

/-- No batch to count at the head of `rest`. -/
def Stops (rest : Bytes) : Prop :=
  rest.length < 27 ∨ batchLengthField rest = 0 ∨ rest.length < batchLengthField rest + 12

/-- The walk over `records` counts `total` and leaves `rest` unread. -/
inductive Walk : Bytes → Int → Bytes → Prop where
  | stop {rest : Bytes} (stops : Stops rest) : Walk rest 0 rest
  | batch {records rest : Bytes} {total : Int} (goes : ¬ Stops records)
      (walk : Walk (records.drop (batchLengthField records + 12)) total rest) :
      Walk records (batchCount records + total) rest

theorem exists_walk (records : Bytes) : ∃ total rest, Walk records total rest := by
  induction hlen : records.length using Nat.strong_induction_on generalizing records with
  | _ n ih =>
    by_cases hstops : Stops records
    · exact ⟨0, records, .stop hstops⟩
    · have hlong : 27 ≤ records.length := by
        by_contra hshort
        exact hstops (Or.inl (by omega))
      obtain ⟨total, rest, hwalk⟩ := ih (n - (batchLengthField records + 12)) (by omega)
        (records.drop (batchLengthField records + 12)) (by rw [List.length_drop, hlen])
      exact ⟨_, rest, .batch hstops hwalk⟩

section Walks

variable {records rest : Bytes} {total : Int}

theorem Walk.total_nonneg (h : Walk records total rest) : 0 ≤ total := by
  induction h with
  | stop => exact le_refl 0
  | batch _ _ ih => exact add_nonneg (le_trans zero_le_one (one_le_batchCount _)) ih

theorem Walk.total_pos (h : Walk records total rest) (hgoes : ¬ Stops records) : 0 < total := by
  cases h with
  | stop hstops => exact absurd hstops hgoes
  | batch _ hwalk => exact add_pos_of_pos_of_nonneg (one_le_batchCount _) hwalk.total_nonneg

theorem Walk.eq_zero (h : Walk records total rest) (hstops : Stops records) :
    total = 0 ∧ rest = records := by
  cases h with
  | stop => exact ⟨rfl, rfl⟩
  | batch hgoes => exact absurd hstops hgoes

/-- The loop of the count follows the walk. -/
theorem Walk.estimateLoop (h : Walk records total rest) {fuel : Nat}
    (hfuel : records.length ≤ fuel) (counted : Int) :
    Mkmq.estimateLoop fuel records counted = counted + total := by
  induction h generalizing fuel counted with
  | @stop records hstops =>
    cases fuel with
    | zero => rw [Mkmq.estimateLoop, add_zero]
    | succ fuel =>
      rw [Mkmq.estimateLoop, add_zero]
      split
      · next hheader =>
          have hbreak : batchLengthField records = 0 ∨
              batchLengthField records + 12 > records.length :=
            hstops.resolve_left (by omega)
          simp only [if_pos hbreak]
      · rfl
  | @batch records rest total hgoes _ ih =>
    unfold Stops at hgoes
    push Not at hgoes
    obtain ⟨hheader, hlength, hsize⟩ := hgoes
    obtain ⟨fuel, rfl⟩ : ∃ m, fuel = m + 1 := ⟨fuel - 1, by omega⟩
    rw [Mkmq.estimateLoop, if_pos hheader]
    simp only
    rw [if_neg (by omega), ih (by rw [List.length_drop]; omega), add_assoc]

/-- What is not empty takes what the walk counts, but at least one offset. -/
theorem Walk.estimateRecordCount (h : Walk records total rest) (hne : records ≠ []) :
    Mkmq.estimateRecordCount records = if total = 0 then 1 else total := by
  unfold Mkmq.estimateRecordCount
  rw [if_neg hne]
  simp only [h.estimateLoop (le_refl _), zero_add]

/-- More bytes do not change where a batch is. -/
theorem goes_append (hgoes : ¬ Stops records) (more : Bytes) :
    ¬ Stops (records ++ more) ∧
      batchLengthField (records ++ more) = batchLengthField records ∧
      batchCount (records ++ more) = batchCount records ∧
      (records ++ more).drop (batchLengthField records + 12) =
        records.drop (batchLengthField records + 12) ++ more := by
  unfold Stops at hgoes ⊢
  push Not at hgoes ⊢
  obtain ⟨hheader, hlength, hsize⟩ := hgoes
  have hfield := batchLengthField_append (by omega : 12 ≤ records.length) more
  refine ⟨⟨?_, ?_, ?_⟩, hfield, batchCount_append hheader more,
    List.drop_append_of_le_length hsize⟩
  · rw [List.length_append]
    omega
  · rwa [hfield]
  · rw [hfield, List.length_append]
    omega

/-- **Behind what the walk leaves unread it goes on with whatever follows.** -/
theorem Walk.append (h : Walk records total rest) {more rest' : Bytes} {total' : Int}
    (hmore : Walk (rest ++ more) total' rest') : Walk (records ++ more) (total + total') rest' := by
  induction h with
  | stop =>
    rw [zero_add]
    exact hmore
  | batch hgoes _ ih =>
    obtain ⟨hgoes', hfield, hcount, hdrop⟩ := goes_append hgoes more
    rw [add_assoc, ← hcount]
    refine .batch hgoes' ?_
    rw [hfield, hdrop]
    exact ih hmore

/-! ### Chains are what the walk reads to the end -/

theorem stops_nil : Stops [] := Or.inl (by decide)

theorem batchChain_iff_of_stops (hstops : Stops records) : BatchChain records ↔ records = [] := by
  refine ⟨fun hchain => ?_, fun hnil => hnil ▸ .nil⟩
  cases hchain with
  | nil => rfl
  | @batch batch rest header length size _ =>
    exfalso
    have hfield := batchLengthField_append (by omega : 12 ≤ batch.length) rest
    unfold Stops at hstops
    rw [hfield, List.length_append] at hstops
    rw [List.length_append] at header
    omega

theorem batchChain_iff_of_goes (hgoes : ¬ Stops records) :
    BatchChain records ↔ BatchChain (records.drop (batchLengthField records + 12)) := by
  constructor
  · intro hchain
    cases hchain with
    | nil => exact absurd stops_nil hgoes
    | @batch batch rest header length size chain =>
      rw [batchLengthField_append (by omega : 12 ≤ batch.length) rest, ← size, List.drop_left]
      exact chain
  · intro hchain
    unfold Stops at hgoes
    push Not at hgoes
    obtain ⟨hheader, hlength, hsize⟩ := hgoes
    have hsplit := List.take_append_drop (batchLengthField records + 12) records
    have hsize' : (records.take (batchLengthField records + 12)).length =
        batchLengthField records + 12 := by
      rw [List.length_take]
      omega
    have hfield : batchLengthField (records.take (batchLengthField records + 12)) =
        batchLengthField records := by
      have happend := batchLengthField_append
        (by omega : 12 ≤ (records.take (batchLengthField records + 12)).length)
        (records.drop (batchLengthField records + 12))
      rw [hsplit] at happend
      exact happend.symm
    rw [← hsplit]
    refine .batch (by rwa [hsplit]) (by rw [hfield]; omega) ?_ hchain
    rw [hfield]
    exact hsize'

theorem Walk.rest_eq_nil_iff (h : Walk records total rest) : rest = [] ↔ BatchChain records := by
  induction h with
  | stop hstops => exact (batchChain_iff_of_stops hstops).symm
  | batch hgoes _ ih => exact ih.trans (batchChain_iff_of_goes hgoes).symm

/-- A chain is counted to its end, and takes exactly what is counted. -/
theorem BatchChain.walk (h : BatchChain records) :
    Walk records (estimateRecordCount records) [] := by
  obtain ⟨total, rest, hwalk⟩ := exists_walk records
  obtain rfl := hwalk.rest_eq_nil_iff.mpr h
  by_cases hne : records = []
  · subst hne
    exact .stop stops_nil
  · have hgoes : ¬ Stops records := fun hstops => hne ((batchChain_iff_of_stops hstops).mp h)
    rw [hwalk.estimateRecordCount hne, if_neg (ne_of_gt (hwalk.total_pos hgoes))]
    exact hwalk

end Walks

theorem BatchChain.append {front back : Bytes} (hfront : BatchChain front)
    (hback : BatchChain back) : BatchChain (front ++ back) := by
  induction hfront with
  | nil => exact hback
  | @batch batch rest header length size _ ih =>
    rw [List.append_assoc]
    refine .batch ?_ length size ih
    rw [List.length_append] at header
    rw [List.length_append, List.length_append]
    omega

/-- **The records of merged chains add up.** -/
theorem estimateRecordCount_chains {sets : List RecordSet}
    (h : ∀ recordSet ∈ sets, BatchChain recordSet.bytes) :
    BatchChain (payload sets) ∧ estimateRecordCount (payload sets) = offsetsOf sets := by
  induction sets with
  | nil => exact ⟨.nil, rfl⟩
  | cons recordSet rest ih =>
    have hfirst := h recordSet List.mem_cons_self
    obtain ⟨hrest, hcount⟩ := ih fun r hr => h r (List.mem_cons_of_mem _ hr)
    have hchain := hfirst.append hrest
    refine ⟨hchain, ?_⟩
    have hwalk : Walk (recordSet.bytes ++ payload rest)
        (estimateRecordCount recordSet.bytes + estimateRecordCount (payload rest)) [] :=
      hfirst.walk.append hrest.walk
    rw [payload_cons, offsetsOf_cons, ← hcount]
    by_cases hne : recordSet.bytes ++ payload rest = []
    · obtain ⟨hnil, hnil'⟩ := List.append_eq_nil_iff.mp hne
      rw [hnil, hnil']
      rfl
    · have hgoes : ¬ Stops (recordSet.bytes ++ payload rest) :=
        fun hstops => hne ((batchChain_iff_of_stops hstops).mp hchain)
      rw [hwalk.estimateRecordCount hne, if_neg (ne_of_gt (hwalk.total_pos hgoes))]

/-! ### Renumbering does not move a batch -/

/-- One turn of the renumbering: it is over, or it renumbers a batch the count sees. -/
theorem rewriteLoop_succ {fuel : Nat} {nextBase : Int}
    (h : rewriteLoop (fuel + 1) rest nextBase = some out) :
    out = rest ∨ ¬ Stops rest ∧ 21 ≤ batchLengthField rest + 12 ∧ ∃ head tail later,
      head.length = batchLengthField rest + 12 ∧
        batchLengthField head = batchLengthField rest ∧
        rewriteLoop fuel (rest.drop (batchLengthField rest + 12)) later = some tail ∧
        out = head ++ tail := by
  cases hsize : rewriteCut.size rest with
  | none =>
    rw [rewriteLoop_stop hsize] at h
    exact Or.inl (Option.some.inj h).symm
  | some n =>
    obtain ⟨hheader, hpos, hn, hfits⟩ := signedSize_eq_some_iff.mp hsize
    rw [toNat_signed_of_pos (by omega) hpos] at hn
    by_cases hlong : 21 ≤ n
    · rw [rewriteLoop_batch hsize hlong] at h
      obtain ⟨tail, htail, rfl⟩ := Option.map_eq_some_iff.mp h
      have hlength : (rest.take n).length = n := by
        rw [List.length_take]
        omega
      have hfield : batchLengthField (rest.take n) = batchLengthField rest := by
        rw [← batchLengthField_append (by omega) (rest.drop n), List.take_append_drop]
      have hgoes : ¬ Stops rest := by
        rintro (hshort | hzero | hpast)
        · omega
        · rw [hzero] at hpos
          exact absurd hpos (by decide)
        · omega
      subst hn
      exact Or.inr ⟨hgoes, hlong, _, tail, _,
        (length_renumbered (by omega) nextBase).trans hlength,
        (batchLengthField_renumbered (by omega) nextBase).trans hfield, htail, rfl⟩
    · rw [rewriteLoop_short hsize (by omega)] at h
      cases h

/-- Renumbering keeps chains, and makes none. -/
theorem rewriteLoop_chain {fuel : Nat} {nextBase : Int}
    (h : rewriteLoop fuel rest nextBase = some out) :
    (Stops out ↔ Stops rest) ∧ (BatchChain out ↔ BatchChain rest) := by
  induction fuel generalizing rest out nextBase with
  | zero =>
    obtain rfl := Option.some.inj h
    exact ⟨Iff.rfl, Iff.rfl⟩
  | succ fuel ih =>
    rcases rewriteLoop_succ h with
      rfl | ⟨hgoes, hsize, head, tail, later, hlength, hfield, htail, rfl⟩
    · exact ⟨Iff.rfl, Iff.rfl⟩
    have hsame := length_rewriteLoop h
    have hlook : batchLengthField (head ++ tail) = batchLengthField rest := by
      rw [batchLengthField_append (by omega), hfield]
    have hstops : Stops (head ++ tail) ↔ Stops rest := by
      unfold Stops
      rw [hlook, hsame]
    refine ⟨hstops, ?_⟩
    rw [batchChain_iff_of_goes (fun hs => hgoes (hstops.mp hs)), batchChain_iff_of_goes hgoes,
      hlook, ← hlength, List.drop_left, hlength]
    exact (ih htail).2

/-- Whether renumbering has a defined result does not depend on the offsets. -/
theorem isSome_rewriteLoop (fuel : Nat) (rest : Bytes) (base base' : Int) :
    (rewriteLoop fuel rest base).isSome = (rewriteLoop fuel rest base').isSome := by
  induction fuel generalizing rest base base' with
  | zero => rfl
  | succ fuel ih =>
    cases hsize : rewriteCut.size rest with
    | none => rw [rewriteLoop_stop hsize, rewriteLoop_stop hsize]
    | some n =>
      by_cases hlong : 21 ≤ n
      · rw [rewriteLoop_batch hsize hlong, rewriteLoop_batch hsize hlong, Option.isSome_map,
          Option.isSome_map]
        exact ih _ _ _
      · rw [rewriteLoop_short hsize (by omega), rewriteLoop_short hsize (by omega)]

/-- What the count finds no batch in, the renumbering leaves as it is. -/
theorem rewriteRecordBatchOffsets_of_stops (hstops : Stops records) {baseOffset : Int}
    (h : rewriteRecordBatchOffsets records baseOffset = some out) : out = records := by
  unfold rewriteRecordBatchOffsets at h
  cases hfuel : records.length with
  | zero =>
    rw [hfuel] at h
    exact (Option.some.inj h).symm
  | succ fuel =>
    rw [hfuel] at h
    rcases rewriteLoop_succ h with hsame | ⟨hgoes, -⟩
    · exact hsame
    · exact absurd hstops hgoes

/-! ### A shifted walk -/

/-- One batch of 27 bytes that takes `delta + 1` offsets. -/
def shortBatch (delta : UInt8) : Bytes :=
  List.replicate 11 0 ++ 15 :: List.replicate 14 0 ++ [delta]

theorem batchChain_shortBatch (delta : UInt8) : BatchChain (shortBatch delta) := by
  have hfield : batchLengthField (shortBatch delta) = 15 := rfl
  have hchain : BatchChain (shortBatch delta ++ []) :=
    .batch (by simp [shortBatch]) (by rw [hfield]; decide) (by rw [hfield]; rfl) .nil
  rwa [List.append_nil] at hchain

/-- Behind any byte, two such batches look the same to the header that covers it. -/
theorem headers_shortBatch (hne : rest ≠ []) (delta delta' : UInt8) :
    batchLengthField (rest ++ shortBatch delta) = batchLengthField (rest ++ shortBatch delta') ∧
      batchCount (rest ++ shortBatch delta) = batchCount (rest ++ shortBatch delta') := by
  have hpos := List.length_pos_of_ne_nil hne
  set front : Bytes := rest ++ (List.replicate 11 0 ++ 15 :: List.replicate 14 0) with hfront
  have hlong : 27 ≤ front.length := by
    simp only [hfront, List.length_append, List.length_cons, List.length_replicate]
    omega
  have hsplit : ∀ d : UInt8, rest ++ shortBatch d = front ++ [d] := by
    intro d
    rw [hfront, List.append_assoc]
    rfl
  have hfield : ∀ d : UInt8, batchLengthField (rest ++ shortBatch d) = batchLengthField front := by
    intro d
    rw [hsplit d]
    exact batchLengthField_append (by omega) [d]
  have hcount : ∀ d : UInt8, batchCount (rest ++ shortBatch d) = batchCount front := by
    intro d
    rw [hsplit d]
    exact batchCount_append hlong [d]
  exact ⟨(hfield delta).trans (hfield delta').symm, (hcount delta).trans (hcount delta').symm⟩

/-- **A walk that does not start at the batch does not see how many records it has**, or
    comes to it after counting something else. -/
theorem walk_shortBatch {unread unread' : Bytes} (hne : rest ≠ []) {total total' : Int}
    (h : Walk (rest ++ shortBatch 0) total unread) (h' : Walk
    (rest ++ shortBatch 1) total' unread') : total = total' ∨ 2 ≤ total := by
  induction hlen : rest.length using Nat.strong_induction_on generalizing rest total total' with
  | _ n ih =>
    obtain ⟨hfield, hcount⟩ := headers_shortBatch hne 0 1
    have hlength : (rest ++ shortBatch 0).length = (rest ++ shortBatch 1).length := by
      rw [List.length_append, List.length_append]
      rfl
    have hsame : Stops (rest ++ shortBatch 0) ↔ Stops (rest ++ shortBatch 1) := by
      unfold Stops
      rw [hfield, hlength]
    cases h with
    | stop hstops => exact Or.inl (h'.eq_zero (hsame.mp hstops)).1.symm
    | @batch _ _ later hgoes hwalk =>
      cases h' with
      | stop hstops => exact absurd (hsame.mpr hstops) hgoes
      | @batch _ _ later' hgoes' hwalk' =>
        rw [← hfield] at hwalk'
        rw [← hcount]
        set size := batchLengthField (rest ++ shortBatch 0) + 12 with hsize
        have hone := one_le_batchCount (rest ++ shortBatch 0)
        rcases Nat.lt_trichotomy size rest.length with hlt | heq | hgt
        · -- the batch ends before the short one: the rest of `rest` is still in front
          rw [List.drop_append_of_le_length (by omega)] at hwalk hwalk'
          have hrest : rest.drop size ≠ [] := by
            rw [Ne, List.drop_eq_nil_iff]
            omega
          rcases ih (n - size) (by omega) hrest hwalk hwalk'
            (by rw [List.length_drop, hlen]) with hequal | hmore
          · exact Or.inl (by rw [hequal])
          · exact Or.inr (by omega)
        · -- it ends where the short one starts, which is then counted on top
          rw [heq, List.drop_left] at hwalk
          have hgoes'' : ¬ Stops (shortBatch 0) := by
            rintro (hshort | hzero | hlong)
            · exact absurd hshort (by decide)
            · exact absurd hzero (by decide)
            · exact absurd hlong (by decide)
          have := hwalk.total_pos hgoes''
          exact Or.inr (by omega)
        · -- it ends within the short one, and too little is left for a header
          have hshort : ∀ delta : UInt8, Stops ((rest ++ shortBatch delta).drop size) := by
            intro delta
            refine Or.inl ?_
            have hbytes : (shortBatch delta).length = 27 := rfl
            rw [List.length_drop, List.length_append, hbytes]
            omega
          rw [(hwalk.eq_zero (hshort 0)).1, (hwalk'.eq_zero (hshort 1)).1]
          exact Or.inl rfl

theorem estimateRecordCount_shortBatch :
    estimateRecordCount (shortBatch 0) = 1 ∧ estimateRecordCount (shortBatch 1) = 2 := by
  decide

/-- Behind a chain, a record set without a batch is not counted at all. -/
theorem count_behind_chain (hne : records ≠ []) (hstops : Stops records) :
    estimateRecordCount (shortBatch 0 ++ records) ≠
      estimateRecordCount (shortBatch 0) + estimateRecordCount records := by
  have hrecords : Walk records 0 records := .stop hstops
  have hwalk : Walk (shortBatch 0 ++ records) (estimateRecordCount (shortBatch 0) + 0) records :=
    (batchChain_shortBatch 0).walk.append hrecords
  rw [hwalk.estimateRecordCount (by simp [hne]), hrecords.estimateRecordCount hne,
    estimateRecordCount_shortBatch.1]
  decide

/-- In front of a batch, what follows the last batch hides records or adds some. -/
theorem count_before_chain (hgoes : ¬ Stops records) (hnot : ¬ BatchChain records) :
    ∃ delta, estimateRecordCount (records ++ shortBatch delta) ≠
      estimateRecordCount records + estimateRecordCount (shortBatch delta) := by
  by_contra hadds
  push Not at hadds
  have hne : records ≠ [] := fun hnil => hgoes (hnil ▸ stops_nil)
  obtain ⟨total, rest, hwalk⟩ := exists_walk records
  have hrest : rest ≠ [] := fun hnil => hnot (hwalk.rest_eq_nil_iff.mp hnil)
  have htotal := hwalk.total_pos hgoes
  have hcount : ∀ (delta : UInt8) (later : Int) (unread : Bytes),
      Walk (rest ++ shortBatch delta) later unread →
        later = estimateRecordCount (shortBatch delta) := by
    intro delta later unread hlater
    have hsum := hadds delta
    have hnonneg := hlater.total_nonneg
    rw [(hwalk.append hlater).estimateRecordCount (by simp [hne]), if_neg (by omega),
      hwalk.estimateRecordCount hne, if_neg (by omega)] at hsum
    omega
  obtain ⟨one, unread, hone⟩ := exists_walk (rest ++ shortBatch 0)
  obtain ⟨two, unread', htwo⟩ := exists_walk (rest ++ shortBatch 1)
  have hone' := (hcount 0 one unread hone).trans estimateRecordCount_shortBatch.1
  have htwo' := (hcount 1 two unread' htwo).trans estimateRecordCount_shortBatch.2
  rcases walk_shortBatch hrest hone htwo with hsame | hmore
  · omega
  · omega

theorem estimateRecordCount_le (records : Bytes) :
    estimateRecordCount records ≤ 2 ^ 31 * records.length := by
  obtain ⟨total, rest, hwalk⟩ := exists_walk records
  have htotal : total ≤ 2 ^ 31 * records.length := by
    induction hwalk with
    | stop => positivity
    | @batch records rest total hgoes _ ih =>
      have hcount : batchCount records ≤ 2 ^ 31 := by
        have hbounds := signed_bounds 32 (beNat (slice records 23 4))
        unfold batchCount lastOffsetDelta
        omega
      unfold Stops at hgoes
      rw [List.length_drop] at ih
      omega
  by_cases hne : records = []
  · rw [hne]
    decide
  · have hpos := List.length_pos_of_ne_nil hne
    rw [hwalk.estimateRecordCount hne]
    split <;> omega

/-! ### The leader's entries -/

/-- The leader's log and the record sets it has accepted, in order. -/
structure LeaderEntries where
  config : BrokerConfig
  shard : PartitionLogShard
  sets : List RecordSet := []

/-- A produce request, and where `replica_append` is answered with error 0. -/
structure ProduceCall where
  records : Bytes
  acks : Int
  answers : String → Bool

namespace LeaderEntries

variable {records renumbered : Bytes} {call : ProduceCall} {s s' : LeaderEntries}

/-- `BrokerShard::append` on the leader, for a request its log accepts. -/
def produce (s : LeaderEntries) (call : ProduceCall) : Option LeaderEntries :=
  if s.shard.config.leader ≠ s.config.nodeId then none
  else
    (rewriteRecordBatchOffsets call.records s.shard.offsets.latest).bind fun renumbered =>
      (s.shard.toLogHead.append renumbered call.acks).recordSet.bind fun recordSet =>
        (brokerAppend s.config call.answers s.shard call.records call.acks).map fun outcome =>
          { s with shard := outcome.1, sets := s.sets ++ [recordSet] }

/-- A leader with an empty log. -/
structure Initial (s : LeaderEntries) : Prop where
  shard : ∃ partition segmentBytes alignment, ∃ h : 0 < alignment,
    s.shard = fresh partition segmentBytes alignment h
  sets : s.sets = []

/-- The requests are of a kind, and came in a Kafka frame. -/
def Sent (kind : Bytes → Prop) (_ : LeaderEntries) (call : ProduceCall) : Prop :=
  kind call.records ∧ call.records.length ≤ kMaxKafkaFrameBytes

/-- Whenever the leader answers with the entries from `first` to `last`, a follower whose
    log ends where `first` starts is, once it has appended them, where `last` ends. -/
def Aligned (s : LeaderEntries) : Prop :=
  ∀ (k n : Nat) (first last : RecordSet) (maxBytes : Int) (shard : PartitionLogShard)
    (result : ReplicaFetchResult),
    s.sets[k]? = some first → s.sets[k + n]? = some last →
    s.shard.fetchForReplica first.baseOffset maxBytes = (shard, .ok result) →
    result.records = payload ((s.sets.drop k).take (n + 1)) →
    ∀ (follower : LogHead) (request : ReplicaAppendRequest),
      follower.offsets.latest = first.baseOffset → request.baseOffset = first.baseOffset →
      request.records = result.records → follower.AdmitsReplica request →
      (follower.appendReplica request).head.offsets.latest = last.endOffset

/-! ### Chains keep followers aligned -/

theorem afterReplication_offsets (head : LogHead) (replicated : Bool) :
    (head.afterReplication replicated).offsets.latest = head.offsets.latest ∧
      (head.afterReplication replicated).offsets.earliest = head.offsets.earliest ∧
      (head.afterReplication replicated).config = head.config ∧
      (head.afterReplication replicated).queueDepth = head.queueDepth := by
  unfold LogHead.afterReplication
  split
  · exact ⟨rfl, rfl, rfl, rfl⟩
  · exact ⟨rfl, rfl, rfl, rfl⟩

/-- The broker's log ends where its own append has put the end. -/
theorem latest_brokerAppend {config : BrokerConfig} {answers : String → Bool}
    {s : PartitionLogShard} (hleader : s.config.leader = config.nodeId)
    (hrenumbered : rewriteRecordBatchOffsets records s.offsets.latest = some renumbered)
    {acks : Int} {outcome : PartitionLogShard × Except String ProducePartitionResult}
    (h : brokerAppend config answers s records acks = some outcome) :
    outcome.1.offsets.latest = (s.toLogHead.append renumbered acks).head.offsets.latest := by
  have hoffsets : (s.append renumbered acks).1.offsets =
      (s.toLogHead.append renumbered acks).head.offsets := complete_offsets s _
  rcases happend : s.append renumbered acks with ⟨after, result⟩
  rw [happend] at hoffsets
  unfold brokerAppend at h
  rw [if_neg (not_not.mpr hleader), hrenumbered] at h
  simp only [Option.map_some, happend] at h
  obtain rfl := Option.some.inj h
  rw [← hoffsets]
  split
  · cases result with
    | error message => rfl
    | ok response =>
      simp only [settleAll]
      split
      · rfl
      · exact (afterReplication_offsets _ _).1
  · exact (afterReplication_offsets _ _).1

/-- What an accepted request adds. -/
theorem produce_eq_some (h : s.produce call = some s') :
    ∃ renumbered,
      rewriteRecordBatchOffsets call.records s.shard.offsets.latest = some renumbered ∧
        s'.sets = s.sets ++ [recordSetAt s.shard.offsets.latest renumbered] ∧
        s'.shard.offsets.latest = s.shard.offsets.latest + estimateRecordCount renumbered := by
  unfold produce at h
  split at h
  · cases h
  next hleader =>
  obtain ⟨renumbered, hrenumbered, h⟩ := Option.bind_eq_some_iff.mp h
  obtain ⟨recordSet, hset, h⟩ := Option.bind_eq_some_iff.mp h
  obtain ⟨outcome, hbroker, rfl⟩ := Option.map_eq_some_iff.mp h
  have hlatest := latest_brokerAppend (not_not.mp hleader) hrenumbered hbroker
  have hadmits : s.shard.toLogHead.Admits renumbered call.acks := by
    by_contra hrefused
    rw [(LogHead.append_of_not_admits hrefused).2.1] at hset
    cases hset
  rw [LogHead.append_of_admits hadmits] at hset hlatest
  obtain rfl := Option.some.inj hset
  exact ⟨renumbered, hrenumbered, rfl, hlatest⟩

/-- Every entry is a chain, and they are at consecutive offsets. -/
structure ChainLog (s : LeaderEntries) : Prop where
  consecutive : Consecutive s.sets
  latest : s.shard.offsets.latest = offsetsOf s.sets
  chains : ∀ recordSet ∈ s.sets, BatchChain recordSet.bytes

theorem ChainLog.produce (h : s.ChainLog) (hchain : BatchChain call.records)
    (hstep : s.produce call = some s') : s'.ChainLog := by
  obtain ⟨renumbered, hrenumbered, hsets, hlatest⟩ := produce_eq_some hstep
  rw [h.latest] at hsets hlatest
  refine ⟨?_, ?_, ?_⟩
  · rw [hsets]
    exact h.consecutive.append renumbered
  · rw [hlatest, hsets, offsetsOf_append, offsetsOf_cons, offsetsOf_nil, add_zero]
    rfl
  · intro recordSet hmem
    rw [hsets] at hmem
    rcases List.mem_append.mp hmem with hmem | hmem
    · exact h.chains recordSet hmem
    · rw [List.mem_singleton.mp hmem]
      exact (rewriteLoop_chain hrenumbered).2.mpr hchain

theorem ChainLog.aligned (h : s.ChainLog) : s.Aligned := by
  intro k n first last maxBytes shard result hfirst hlast _ hrecords follower request hbehind hbase
    hrequest hadmits
  have hchains : ∀ recordSet ∈ (s.sets.drop k).take (n + 1), BatchChain recordSet.bytes :=
    fun recordSet hmem => h.chains recordSet (List.mem_of_mem_drop (List.mem_of_mem_take hmem))
  rw [LogHead.appendReplica_of_admits hadmits, LogHead.replicated_latest, hrequest, hrecords,
    (estimateRecordCount_chains hchains).2, hbase, (h.consecutive.endOffset hfirst).1,
    ← offsetsOf_append, ← List.take_add]
  exact (h.consecutive.endOffset hlast).2.symm

/-! ### Anything else does not -/

theorem leads_withHead {s : PartitionLogShard} {sets : List RecordSet} (h : s.Leads sets)
    {head : LogHead} (hlatest : head.offsets.latest = s.offsets.latest)
    (hearliest : head.offsets.earliest = s.offsets.earliest) (hconfig : head.config = s.config) :
    { s with toLogHead := head }.Leads sets where
  log := h.log
  holds := (h.appendable.withHead head).toHoldsLog
  earliest := hearliest.trans h.earliest
  latest := hlatest.trans h.latest
  accepted := by
    show ∀ recordSet ∈ sets, recordSet.bytes.length ≤ head.config.maxFrameBytes
    rw [hconfig]
    exact h.accepted
  appendable := by
    show PartitionLogShard.Appendable _ sets head.offsets.latest
    rw [hlatest]
    exact h.appendable.withHead head

/-- A request that is not empty leaves the leader at rest, with its entry last. -/
theorem produce_leads (h : s.shard.Leads s.sets) (hleader : s.shard.config.leader = s.config.nodeId)
    (hrenumbered : rewriteRecordBatchOffsets records s.shard.offsets.latest = some renumbered)
    (hadmits : s.shard.toLogHead.Admits renumbered 1) (hne : renumbered ≠ [])
    (hsize : renumbered.length < 2 ^ 31) (hbase : FitsInt64 s.shard.offsets.latest) :
    ∃ s', s.produce ⟨records, 1, fun _ => true⟩ = some s' ∧ s'.shard.Leads s'.sets ∧
      s'.sets = s.sets ++ [recordSetAt (offsetsOf s.sets) renumbered] ∧ s'.config = s.config ∧
      s'.shard.config = s.shard.config ∧ s'.shard.queueDepth = s.shard.queueDepth := by
  obtain ⟨hleads, hconfig⟩ := h.append hadmits hne hsize hbase
  obtain ⟨after, happend, -, hhead⟩ := h.appendable.append hadmits hne hsize hbase
  rw [happend] at hleads hconfig
  obtain ⟨replicated, hbroker⟩ : ∃ replicated,
      brokerAppend s.config (fun _ => true) s.shard records 1 =
        some ({ after with toLogHead := after.toLogHead.afterReplication replicated },
          .ok (s.shard.toLogHead.append renumbered 1).response) := by
    refine ⟨if s.shard.config.isr.length > 1 then
      replicateToIsr s.config s.shard.config (fun _ => true) else true, ?_⟩
    unfold brokerAppend
    rw [if_neg (not_not.mpr hleader), hrenumbered]
    simp only [Option.map_some, happend]
    rfl
  obtain ⟨hlatest, hearliest, hsame, hdepth⟩ := afterReplication_offsets after.toLogHead replicated
  have hset := congrArg Admission.recordSet (LogHead.append_of_admits hadmits)
  refine ⟨{ s with
      shard := { after with toLogHead := after.toLogHead.afterReplication replicated }
      sets := s.sets ++ [recordSetAt s.shard.offsets.latest renumbered] },
    ?_, ?_, ?_, rfl, hsame.trans hconfig, ?_⟩
  · unfold produce
    rw [if_neg (not_not.mpr hleader), hrenumbered]
    simp only [Option.bind_some, hset, hbroker, Option.map_some]
  · rw [h.latest]
    exact leads_withHead hleads hlatest hearliest hsame
  · rw [h.latest]
  · show (after.toLogHead.afterReplication replicated).queueDepth = _
    rw [hdepth, hhead]
    rfl

/-- An empty leader that takes whatever a Kafka frame can carry. -/
def roomyLeader : LeaderEntries :=
  { config := {}
    shard := fresh { defaultPartition with maxFrameBytes := kMaxKafkaFrameBytes } 4096 512
      frameBlock_pos }

/-- Two requests, one after the other. -/
theorem reachable_pair {kind : Bytes → Prop} {a b a' b' : Bytes} (ha : kind a) (hb : kind b)
    (hasize : a.length ≤ kMaxKafkaFrameBytes) (hbsize : b.length ≤ kMaxKafkaFrameBytes)
    (ha' : rewriteRecordBatchOffsets a 0 = some a')
    (hb' : rewriteRecordBatchOffsets b (estimateRecordCount a') = some b') (hane : a' ≠ [])
    (hbne : b' ≠ []) :
    ∃ s, Transition.Reachable Initial produce (Sent kind) s ∧ s.shard.Leads s.sets ∧
      s.sets = [recordSetAt 0 a', recordSetAt (estimateRecordCount a') b'] := by
  have hkafka : kMaxKafkaFrameBytes = 104857600 := rfl
  have halen := length_rewriteRecordBatchOffsets ha'
  have hblen := length_rewriteRecordBatchOffsets hb'
  have hbound := estimateRecordCount_le a'
  have hnonneg := estimateRecordCount_nonneg a'
  have hempty : Transition.Reachable Initial produce (Sent kind) roomyLeader :=
    .start ⟨⟨_, _, _, _, rfl⟩, rfl⟩
  obtain ⟨s, hstep, hleads, hsets, hconfig, hpartition, hdepth⟩ :=
    produce_leads (s := roomyLeader) (leads_fresh _ _ _ _) rfl ha'
      ⟨by rw [halen]; exact hasize, by decide, by decide, by decide⟩ hane (by omega) (by decide)
  have hone : s.sets = [recordSetAt 0 a'] := hsets
  have hlatest : s.shard.offsets.latest = estimateRecordCount a' := by
    rw [hleads.latest, hone, offsetsOf_cons, offsetsOf_nil, add_zero]
    rfl
  obtain ⟨t, hstep', hleads', hsets', -⟩ :=
    produce_leads hleads (by rw [hpartition, hconfig]; rfl) (by rw [hlatest]; exact hb')
      ⟨by rw [hblen, hpartition]; exact hbsize, by rw [hdepth, hpartition]; decide, by decide,
        by decide⟩ hbne (by omega)
      (by rw [hlatest]; unfold FitsInt64; omega)
  refine ⟨t, .next _ (.next _ hempty ⟨ha, hasize⟩ hstep) ⟨hb, hbsize⟩ hstep', hleads', ?_⟩
  rw [hsets', ← hleads.latest, hlatest, hone]
  rfl

/-- A leader with two entries answers with both, so alignment means that their records add
    up. -/
theorem estimateRecordCount_of_aligned (hleads : s.shard.Leads s.sets) {a b : Bytes}
    (hsets : s.sets = [recordSetAt 0 a, recordSetAt (estimateRecordCount a) b])
    (haligned : s.Aligned) :
    estimateRecordCount (a ++ b) = estimateRecordCount a + estimateRecordCount b := by
  have hpayload : payload s.sets = a ++ b := by
    rw [hsets]
    exact congrArg (a ++ ·) (List.append_nil b)
  have hane : a ≠ [] :=
    hleads.log.ne_nil (recordSetAt 0 a) (by rw [hsets]; exact List.mem_cons_self)
  have hpos := List.length_pos_of_ne_nil hane
  obtain ⟨cache, hfetch, -⟩ := Following.fetchForReplica_eq hleads.log
    (by rw [List.take_length]; exact hleads.holds) hleads.earliest hleads.latest
    (Nat.zero_le s.sets.length) ((a ++ b).length : Int)
  have hlimit : s.shard.fetchLimit ((a ++ b).length : Int) = (a ++ b).length := by
    unfold fetchLimit
    rw [List.length_append, if_neg (by omega), Int.toNat_natCast]
  rw [List.take_length, List.drop_zero, hlimit, takeWithin_all hleads.visible []
    (by rw [hpayload, List.length_nil, Nat.zero_add]), List.nil_append, hpayload] at hfetch
  let follower : LogHead := { config := { defaultPartition with maxFrameBytes := (a ++ b).length } }
  let request : ReplicaAppendRequest := { records := a ++ b }
  have hadmits : follower.AdmitsReplica request := ⟨le_refl _, rfl, (by decide : 0 < 8192)⟩
  have hend := haligned 0 1 (recordSetAt 0 a) (recordSetAt (estimateRecordCount a) b) _ _ _
    (by rw [hsets]; rfl) (by rw [hsets]; rfl) hfetch
    (by rw [hsets]; exact congrArg (a ++ ·) (List.append_nil b).symm) follower request rfl rfl rfl
    hadmits
  rw [LogHead.appendReplica_of_admits hadmits, LogHead.replicated_latest, recordSetAt_endOffset]
    at hend
  exact (zero_add _).symm.trans hend

theorem rewriteRecordBatchOffsets_of_short (h : records.length < 57) (baseOffset : Int) :
    rewriteRecordBatchOffsets records baseOffset = some records := by
  unfold rewriteRecordBatchOffsets
  cases records.length with
  | zero => rfl
  | succ fuel =>
    unfold rewriteLoop
    rw [if_neg (by omega)]

/-- **Followers stay aligned exactly when every record set is a chain.**  Whatever kinds of
    record sets clients may send, as long as chains are among them: every answer of every
    leader moves its follower to the leader's end offset if and only if there are no others,
    those apart whose renumbering has no defined result. -/
theorem catch_up_aligned_iff {kind : Bytes → Prop} (hchains : ∀ records, BatchChain records →
      kind records) :
    (∀ s, Transition.Reachable Initial produce (Sent kind) s → s.Aligned) ↔
      ∀ records, kind records → records.length ≤ kMaxKafkaFrameBytes →
        (rewriteRecordBatchOffsets records 0).isSome → BatchChain records := by
  constructor
  · intro haligned records hkind hsize hdefined
    by_contra hnot
    have hne : records ≠ [] := fun hnil => hnot (hnil ▸ .nil)
    have hadds : ∀ {a b a' b' : Bytes}, kind a → kind b → a.length ≤ kMaxKafkaFrameBytes →
        b.length ≤ kMaxKafkaFrameBytes → rewriteRecordBatchOffsets a 0 = some a' →
        rewriteRecordBatchOffsets b (estimateRecordCount a') = some b' → a' ≠ [] → b' ≠ [] →
        estimateRecordCount (a' ++ b') = estimateRecordCount a' + estimateRecordCount b' := by
      intro a b a' b' ha hb hasize hbsize ha' hb' hane hbne
      obtain ⟨s, hreach, hleads, hsets⟩ := reachable_pair ha hb hasize hbsize ha' hb' hane hbne
      exact estimateRecordCount_of_aligned hleads hsets (haligned s hreach)
    have hshort : ∀ delta : UInt8, (shortBatch delta).length = 27 := fun _ => rfl
    have hshortSize : ∀ delta : UInt8, (shortBatch delta).length ≤ kMaxKafkaFrameBytes := by
      intro delta
      rw [hshort]
      decide
    by_cases hstops : Stops records
    · obtain ⟨out, hout⟩ := Option.isSome_iff_exists.mp
        ((isSome_rewriteLoop records.length records 0
          (estimateRecordCount (shortBatch 0))).symm.trans hdefined)
      obtain rfl := rewriteRecordBatchOffsets_of_stops hstops hout
      exact count_behind_chain hne hstops
        (hadds (hchains _ (batchChain_shortBatch 0)) hkind (hshortSize 0) hsize
          (rewriteRecordBatchOffsets_of_short (by rw [hshort]; omega) 0) hout (by decide) hne)
    · obtain ⟨out, hout⟩ := Option.isSome_iff_exists.mp hdefined
      obtain ⟨hstops', hchain'⟩ := rewriteLoop_chain hout
      have hgoes : ¬ Stops out := fun hs => hstops (hstops'.mp hs)
      have houtne : out ≠ [] := fun hnil => hgoes (hnil ▸ stops_nil)
      obtain ⟨delta, hdelta⟩ := count_before_chain hgoes (fun hchain => hnot (hchain'.mp hchain))
      exact hdelta (hadds hkind (hchains _ (batchChain_shortBatch delta)) hsize (hshortSize delta)
        hout (rewriteRecordBatchOffsets_of_short (by rw [hshort]; omega) _) houtne
        (by rw [Ne, ← List.length_eq_zero_iff, hshort]; decide))
  · intro honly s hreach
    have hlog : s.ChainLog := by
      refine hreach.invariant ?_ ?_
      · intro s0 hinitial
        obtain ⟨partition, segmentBytes, alignment, halign, hshard⟩ := hinitial.shard
        refine ⟨?_, ?_, ?_⟩
        · rw [hinitial.sets]
          intro k recordSet hk
          simp at hk
        · rw [hinitial.sets, hshard]
          rfl
        · rw [hinitial.sets]
          intro recordSet hmem
          cases hmem
      · intro s0 call s1 hinv hsent hstep
        obtain ⟨renumbered, hrenumbered, -⟩ := produce_eq_some hstep
        refine hinv.produce (honly _ hsent.1 hsent.2 ?_) hstep
        have hdefined := isSome_rewriteLoop call.records.length call.records 0
          s0.shard.offsets.latest
        unfold rewriteRecordBatchOffsets at hrenumbered ⊢
        rw [hdefined, hrenumbered]
        rfl
    exact hlog.aligned

/-- Clients that send nothing but chains keep every follower aligned, that of a leader with
    two of them in its log for one. -/
theorem catch_up_aligned_chains :
    ∃ s, Transition.Reachable Initial produce (Sent BatchChain) s ∧ s.sets.length = 2 ∧
      s.Aligned := by
  have hsize : (shortBatch 0).length ≤ kMaxKafkaFrameBytes := by decide
  obtain ⟨s, hreach, -, hsets⟩ := reachable_pair (batchChain_shortBatch 0) (batchChain_shortBatch 0)
    hsize hsize (rewriteRecordBatchOffsets_of_short (by decide) 0)
    (rewriteRecordBatchOffsets_of_short (by decide) _) (by decide) (by decide)
  exact ⟨s, hreach, by rw [hsets]; rfl,
    (catch_up_aligned_iff fun _ hchain => hchain).mpr (fun _ hchain _ _ => hchain) s hreach⟩

/-- Two record sets of one byte each take two offsets at the leader, and one in the answer
    that carries both. -/
theorem catch_up_not_always_aligned :
    ¬ ∀ s, Transition.Reachable Initial produce (Sent fun _ => True) s → s.Aligned := by
  intro haligned
  obtain ⟨s, hreach, hleads, hsets⟩ : ∃ s,
      Transition.Reachable Initial produce (Sent fun _ => True) s ∧ s.shard.Leads s.sets ∧
        s.sets = [recordSetAt 0 [7], recordSetAt (estimateRecordCount [7]) [8]] :=
    reachable_pair (a := [7]) (b := [8]) trivial trivial (by decide) (by decide)
      (rewriteRecordBatchOffsets_of_short (by decide) 0)
      (rewriteRecordBatchOffsets_of_short (by decide) _) (by decide) (by decide)
  have hsum := estimateRecordCount_of_aligned hleads hsets (haligned s hreach)
  exact absurd hsum (by decide)

end LeaderEntries

end Mkmq
