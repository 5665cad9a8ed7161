import Mkmq.BatchWalks
import Mkmq.Transition

/-!
# Renumbering in place

`rewrite_record_batch_offsets` works on the buffer of the produce request, at positions it
computes from length fields a client has written (`src/kafka_protocol.cpp`).  Here its loop
is a machine on that buffer, next to the ranges of the buffer each turn reads or writes.
The machine computes what `rewriteLoop` does on the rest of the buffer.

A turn uses the header up to the last offset delta, whatever length the batch claims: a
batch of less than 27 bytes is processed with bytes that are not its own, and below 21
bytes the length handed to `crc32c` wraps around.  Behind the last batch that is renumbered
there can be one that only the count sees.
-/

namespace Mkmq

open ByteCodec ChainWalk

/-! ### The loop -/

structure RewriteState where
  records : Bytes
  pos : Nat
  nextBase : Int

/-- How one turn of the loop ends. -/
inductive RewriteTurn where
  | leave
  | undefined
  | next (s : RewriteState)

namespace RewriteState

/-- `batch_size`, unless the loop is left before it is used. -/
def batchSize (s : RewriteState) : Option Nat :=
  if s.pos + 57 ≤ s.records.length then
    let batchLength := signed 32 (beNat (slice s.records (s.pos + 8) 4))
    if batchLength ≤ 0 then none
    else
      let batchSize := batchLength.toNat + 12
      if s.pos + batchSize > s.records.length then none else some batchSize
  else none

def turn (s : RewriteState) : RewriteTurn :=
  match s.batchSize with
  | none => .leave
  | some batchSize =>
    -- `crc32c` is handed a length that has wrapped around
    if batchSize < 21 then .undefined
    else
      let records := splice s.records s.pos (i64be s.nextBase)
      let crc := crc32c (slice records (s.pos + 21) (batchSize - 21))
      let records := splice records (s.pos + 17) (beBytes 4 crc.toNat)
      let lastOffsetDelta := signed 32 (beNat (slice records (s.pos + 23) 4))
      .next { records, pos := s.pos + batchSize,
              nextBase := s.nextBase + max 1 (lastOffsetDelta + 1) }

def step (s : RewriteState) (_ : Unit) : Option RewriteState :=
  match s.turn with
  | .next s' => some s'
  | .leave | .undefined => none

/-- The states at the head of the loop. -/
def Reached (records : Bytes) (baseOffset : Int) : RewriteState → Prop :=
  Transition.Reachable (fun s => s = ⟨records, 0, baseOffset⟩) step (fun _ _ => True)

/-! ### What a turn touches -/

/-- Subtraction of `std::size_t`. -/
def sizeSub (a b : Nat) : Nat := (a + 2 ^ 64 - b) % 2 ^ 64

/-- A range of the buffer, and the batch it is used for. -/
structure Access where
  batchStart : Nat
  batchEnd : Nat
  start : Nat
  length : Nat

/-- Inside its batch and inside a buffer of `size` bytes. -/
def Access.Inside (size : Nat) (access : Access) : Prop :=
  access.batchStart ≤ access.start ∧ access.start + access.length ≤ access.batchEnd ∧
    access.start + access.length ≤ size

/-- The ranges a turn reads or writes, in order: the batch length, the base offset, what
    the CRC covers, the CRC, the last offset delta.  Where the length field shows no batch
    that fits, it alone is read, and all that is left counts as the batch. -/
def accesses (s : RewriteState) : List Access :=
  if s.pos + 57 ≤ s.records.length then
    match s.batchSize with
    | none => [⟨s.pos, s.records.length, s.pos + 8, 4⟩]
    | some batchSize =>
      [⟨s.pos, s.pos + batchSize, s.pos + 8, 4⟩,
       ⟨s.pos, s.pos + batchSize, s.pos, 8⟩,
       ⟨s.pos, s.pos + batchSize, s.pos + 21, sizeSub batchSize 21⟩,
       ⟨s.pos, s.pos + batchSize, s.pos + 17, 4⟩,
       ⟨s.pos, s.pos + batchSize, s.pos + 23, 4⟩]
  else []

end RewriteState

open RewriteState

/-- Every range is inside its batch and the buffer, the length for the CRC does not wrap
    around, and the loop comes to its end. -/
structure RewriteSafe (records : Bytes) (baseOffset : Int) : Prop where
  inside : ∀ s, Reached records baseOffset s →
    ∀ access ∈ s.accesses, access.Inside s.records.length
  crcLength : ∀ s batchSize, Reached records baseOffset s → s.batchSize = some batchSize →
    21 ≤ batchSize
  ends : ∃ s, Reached records baseOffset s ∧ s.turn = .leave

/-! ### The machine and the walk -/

section Turn

variable (front rest : Bytes) (nextBase : Int)

theorem batchSize_append :
    RewriteState.batchSize ⟨front ++ rest, front.length, nextBase⟩ = rewriteCut.size rest := by
  show RewriteState.batchSize _ = signedSize 57 rest
  unfold RewriteState.batchSize signedSize
  simp only [slice_append_right, List.length_append, Nat.add_le_add_iff_left, gt_iff_lt,
    Nat.add_lt_add_iff_left]
  show (if 57 ≤ rest.length then
      if signed 32 (batchLengthField rest) ≤ 0 then none
      else if rest.length < (signed 32 (batchLengthField rest)).toNat + 12 then none else _
    else none) = _
  by_cases hheader : 57 ≤ rest.length
  · by_cases hpos : signed 32 (batchLengthField rest) ≤ 0
    · rw [if_pos hheader, if_pos hpos, if_neg (by omega)]
    · by_cases hfits : rest.length < (signed 32 (batchLengthField rest)).toNat + 12
      · rw [if_pos hheader, if_neg hpos, if_pos hfits, if_neg (by omega)]
      · rw [if_pos hheader, if_neg hpos, if_neg hfits, if_pos (by omega)]
        rfl
  · rw [if_neg hheader, if_neg (by omega)]

variable {front rest nextBase}

theorem turn_leave (hsize : rewriteCut.size rest = none) :
    RewriteState.turn ⟨front ++ rest, front.length, nextBase⟩ = .leave := by
  unfold RewriteState.turn
  rw [batchSize_append, hsize]

theorem turn_undefined {n : Nat} (hsize : rewriteCut.size rest = some n) (hshort : n < 21) :
    RewriteState.turn ⟨front ++ rest, front.length, nextBase⟩ = .undefined := by
  unfold RewriteState.turn
  rw [batchSize_append, hsize]
  simp only [if_pos hshort]

/-- A turn renumbers the batch at its position and goes behind it. -/
theorem turn_next {n : Nat} (hsize : rewriteCut.size rest = some n) (hlong : 21 ≤ n) :
    RewriteState.turn ⟨front ++ rest, front.length, nextBase⟩ =
      .next ⟨(front ++ renumbered nextBase (rest.take n)) ++ rest.drop n,
        (front ++ renumbered nextBase (rest.take n)).length, nextBase + batchCount rest⟩ := by
  obtain ⟨hheader, -, -, hfits⟩ := signedSize_eq_some_iff.mp hsize
  obtain ⟨hwrites, hrenumbered⟩ := renumberHead_take hlong hfits nextBase
  have hbased : splice (front ++ rest) front.length (i64be nextBase) =
      front ++ splice rest 0 (i64be nextBase) := splice_append_add front rest 0 _
  unfold RewriteState.turn
  rw [batchSize_append, hsize]
  simp only [if_neg (by omega : ¬ n < 21), hbased, slice_append_right, splice_append_add]
  show RewriteTurn.next ⟨front ++ renumberHead rest n nextBase, front.length + n,
    nextBase + batchCount (renumberHead rest n nextBase)⟩ = _
  rw [batchCount_renumberHead (by omega), hwrites, List.append_assoc, List.length_append,
    hrenumbered]

end Turn

/-- Where the loop is after the batches `done`, all of them long enough, with `rest` to
    come. -/
structure Walked (records : Bytes) (baseOffset : Int) (s : RewriteState) (done : List Bytes)
    (rest : Bytes) : Prop where
  batches : rewriteCut.pieces records = done ++ rewriteCut.pieces rest
  left : rewriteCut.rest records = rewriteCut.rest rest
  state : s = ⟨(renumberedChain baseOffset done).flatten ++ rest,
    (renumberedChain baseOffset done).flatten.length, baseOffset + offsetsTaken done⟩

section Walked

variable {records rest : Bytes} {baseOffset : Int} {s s' : RewriteState} {done : List Bytes}
  {n : Nat}

theorem walked_start (records : Bytes) (baseOffset : Int) :
    Walked records baseOffset ⟨records, 0, baseOffset⟩ [] records :=
  ⟨rfl, rfl, by rw [offsetsTaken_nil, add_zero]; rfl⟩

theorem Walked.batchSize_eq (h : Walked records baseOffset s done rest) :
    s.batchSize = rewriteCut.size rest := by
  rw [h.state, batchSize_append]

/-- The batch at the head of `rest` is one of the batches of the buffer. -/
theorem Walked.mem_pieces (h : Walked records baseOffset s done rest)
    (hsize : rewriteCut.size rest = some n) : rest.take n ∈ rewriteCut.pieces records := by
  rw [h.batches, Cut.pieces_of_some hsize]
  exact List.mem_append_right _ List.mem_cons_self

theorem Walked.next (h : Walked records baseOffset s done rest)
    (hsize : rewriteCut.size rest = some n) (hlong : 27 ≤ n) :
    ∃ s', s.turn = .next s' ∧
      Walked records baseOffset s' (done ++ [rest.take n]) (rest.drop n) := by
  have hle := rewriteCut.size_le rest n hsize
  refine ⟨_, by rw [h.state]; exact turn_next hsize (by omega), ?_, ?_, ?_⟩
  · rw [h.batches, Cut.pieces_of_some hsize, List.append_assoc, List.singleton_append]
  · rw [h.left, Cut.rest_of_some hsize]
  · have hchain : (renumberedChain baseOffset (done ++ [rest.take n])).flatten =
        (renumberedChain baseOffset done).flatten ++
          renumbered (baseOffset + offsetsTaken done) (rest.take n) := by
      rw [renumberedChain_append, List.flatten_append]
      simp only [renumberedChain, List.flatten_cons, List.flatten_nil, List.append_nil]
    rw [hchain, ← batchCount_take hlong hle, offsetsTaken_append, offsetsTaken_cons,
      offsetsTaken_nil, add_zero, add_assoc]

theorem reached_of_turn (h : Reached records baseOffset s) (hturn : s.turn = .next s') :
    Reached records baseOffset s' := by
  refine .next () h trivial ?_
  unfold RewriteState.step
  rw [hturn]

/-- What holds at first and is kept by every turn holds at the head of the loop. -/
theorem reached_induction {P : RewriteState → Prop} (start : P ⟨records, 0, baseOffset⟩)
    (turn : ∀ s s', P s → s.turn = .next s' → P s') (h : Reached records baseOffset s) : P s := by
  refine Transition.Reachable.invariant (fun s hs => hs ▸ start) ?_ h
  intro s _ s' hs _ hstep
  unfold RewriteState.step at hstep
  split at hstep
  · next hturn =>
      obtain rfl := Option.some.inj hstep
      exact turn s _ hs hturn
  · cases hstep
  · cases hstep

/-- A loop that stays inside only meets batches that hold the header it uses. -/
theorem long_of_safe (hsafe : RewriteSafe records baseOffset)
    (hreached : Reached records baseOffset s) (h : Walked records baseOffset s done rest) :
    ∀ batch ∈ rewriteCut.pieces rest, 27 ≤ batch.length := by
  induction rest using rewriteCut.induction generalizing s done with
  | stop rest hsize =>
    rw [Cut.pieces_of_none hsize]
    exact fun _ hbatch => absurd hbatch List.not_mem_nil
  | piece rest n hsize ih =>
    have hle := rewriteCut.size_le rest n hsize
    have hheader := (signedSize_eq_some_iff.mp hsize).1
    -- the last offset delta is read from bytes 23 to 26
    have hlong : 27 ≤ n := by
      have hdelta : (⟨s.pos, s.pos + n, s.pos + 23, 4⟩ : Access) ∈ s.accesses := by
        unfold RewriteState.accesses
        rw [h.batchSize_eq, hsize, if_pos (by rw [h.state]; simp only [List.length_append]; omega)]
        simp only [List.mem_cons, true_or, or_true]
      have hinside := (hsafe.inside s hreached _ hdelta).2.1
      simp only at hinside
      omega
    obtain ⟨s', hturn, hwalked⟩ := h.next hsize hlong
    rw [Cut.pieces_of_some hsize, List.forall_mem_cons]
    refine ⟨by rw [List.length_take]; omega, ?_⟩
    exact ih (reached_of_turn hreached hturn) hwalked

variable (hlong : ∀ batch ∈ rewriteCut.pieces records, 27 ≤ batch.length)

include hlong

theorem Walked.long (h : Walked records baseOffset s done rest)
    (hsize : rewriteCut.size rest = some n) : 27 ≤ n := by
  have hfirst := hlong _ (h.mem_pieces hsize)
  rw [List.length_take] at hfirst
  omega

/-- Long enough batches are walked one after another. -/
theorem exists_walked (h : Reached records baseOffset s) :
    ∃ done rest, Walked records baseOffset s done rest := by
  refine reached_induction (P := fun s => ∃ done rest, Walked records baseOffset s done rest)
    ⟨[], records, walked_start records baseOffset⟩ ?_ h
  rintro s s' ⟨done, rest, hwalked⟩ hturn
  cases hsize : rewriteCut.size rest with
  | none =>
    rw [hwalked.state, turn_leave hsize] at hturn
    cases hturn
  | some n =>
    obtain ⟨next, hnext, hwalked'⟩ := hwalked.next hsize (hwalked.long hlong hsize)
    obtain rfl := RewriteTurn.next.inj (hnext.symm.trans hturn)
    exact ⟨_, _, hwalked'⟩

theorem exists_leave (hreached : Reached records baseOffset s)
    (h : Walked records baseOffset s done rest) :
    ∃ s', Reached records baseOffset s' ∧ s'.turn = .leave := by
  induction rest using rewriteCut.induction generalizing s done with
  | stop rest hsize => exact ⟨s, hreached, by rw [h.state, turn_leave hsize]⟩
  | piece rest n hsize ih =>
    obtain ⟨s', hturn, hwalked⟩ := h.next hsize (h.long hlong hsize)
    exact ih (reached_of_turn hreached hturn) hwalked

/-- The ranges of a turn over a batch that holds the header. -/
theorem inside_of_long (h : Walked records baseOffset s done rest) :
    ∀ access ∈ s.accesses, access.Inside s.records.length := by
  have hlength : s.records.length = s.pos + rest.length := by
    rw [h.state, List.length_append]
  intro access haccess
  unfold RewriteState.accesses at haccess
  rw [h.batchSize_eq] at haccess
  split at haccess
  · next hheader =>
      cases hsize : rewriteCut.size rest with
      | none =>
        rw [hsize] at haccess
        obtain rfl := List.mem_singleton.mp haccess
        exact ⟨by simp only; omega, by simp only; omega, by simp only; omega⟩
      | some n =>
        rw [hsize] at haccess
        have hn := h.long hlong hsize
        obtain ⟨-, -, hfield, hfits⟩ := signedSize_eq_some_iff.mp hsize
        have hbound := (signed_bounds 32 (batchLengthField rest)).2
        have hcrc : sizeSub n 21 = n - 21 := by
          unfold sizeSub
          omega
        simp only [List.mem_cons, List.not_mem_nil, or_false] at haccess
        rw [hcrc] at haccess
        unfold Access.Inside
        rcases haccess with rfl | rfl | rfl | rfl | rfl <;> simp only <;> omega
  · exact absurd haccess List.not_mem_nil

theorem rewriteSafe_of_long (baseOffset : Int) : RewriteSafe records baseOffset where
  inside := by
    intro s hreached
    obtain ⟨done, rest, hwalked⟩ := exists_walked hlong hreached
    exact inside_of_long hlong hwalked
  crcLength := by
    intro s batchSize hreached hsize
    obtain ⟨done, rest, hwalked⟩ := exists_walked hlong hreached
    rw [hwalked.batchSize_eq] at hsize
    exact le_trans (by omega) (hwalked.long hlong hsize)
  ends := exists_leave hlong (.start rfl) (walked_start records baseOffset)

end Walked

/-- **Renumbering stays inside the batches and the buffer exactly when no batch on its way
    is shorter than the 27 bytes of header it uses.** -/
theorem rewriteSafe_iff (records : Bytes) (baseOffset : Int) :
    RewriteSafe records baseOffset ↔ ∀ batch ∈ rewriteCut.pieces records, 27 ≤ batch.length :=
  ⟨fun hsafe => long_of_safe hsafe (.start rfl) (walked_start records baseOffset),
    fun hlong => rewriteSafe_of_long hlong baseOffset⟩

/-- A buffer of 57 bytes whose length field says 1. -/
def tinyBatch : Bytes := List.replicate 8 0 ++ beBytes 4 1 ++ List.replicate 45 0

/-- Its batch has 13 bytes, and the CRC covers eight bytes less than `2 ^ 64`. -/
theorem rewrite_not_always_safe :
    ¬ ∀ (records : Bytes) (baseOffset : Int), RewriteSafe records baseOffset := by
  intro hall
  have hlength := (hall tinyBatch 0).crcLength ⟨tinyBatch, 0, 0⟩ 13 (.start rfl) (by decide)
  omega

/-! ### The machine computes what the loop on the rest does -/

/-- What the loop on the rest of the buffer still does, from where the machine is. -/
structure Agrees (records : Bytes) (baseOffset : Int) (s : RewriteState) (front rest : Bytes)
    (fuel : Nat) : Prop where
  state : s = ⟨front ++ rest, front.length, s.nextBase⟩
  enough : rest.length ≤ fuel
  result : rewriteRecordBatchOffsets records baseOffset =
    (rewriteLoop fuel rest s.nextBase).map (front ++ ·)

section Agrees

variable {records front rest : Bytes} {baseOffset : Int} {s s' : RewriteState} {fuel : Nat}

theorem Agrees.turn_eq (h : Agrees records baseOffset s front rest fuel) :
    s.turn = RewriteState.turn ⟨front ++ rest, front.length, s.nextBase⟩ :=
  congrArg RewriteState.turn h.state

theorem Agrees.next (h : Agrees records baseOffset s front rest fuel) (hturn : s.turn = .next s') :
    ∃ front rest fuel, Agrees records baseOffset s' front rest fuel := by
  rw [h.turn_eq] at hturn
  cases hsize : rewriteCut.size rest with
  | none =>
    rw [turn_leave hsize] at hturn
    cases hturn
  | some n =>
    by_cases hshort : n < 21
    · rw [turn_undefined hsize hshort] at hturn
      cases hturn
    · rw [turn_next hsize (by omega)] at hturn
      obtain rfl := RewriteTurn.next.inj hturn
      have hlt := Cut.length_drop_lt hsize
      have hfuel := h.enough
      obtain ⟨fuel, rfl⟩ : ∃ m, fuel = m + 1 := ⟨fuel - 1, by omega⟩
      refine ⟨_, rest.drop n, fuel, rfl, by omega, ?_⟩
      rw [h.result, rewriteLoop_batch hsize (by omega), Option.map_map]
      simp only [Function.comp_def, List.append_assoc]

/-- **Where the loop is left, the buffer is what `rewriteRecordBatchOffsets` returns.** -/
theorem rewriteRecordBatchOffsets_of_leave (h : Reached records baseOffset s)
    (hleave : s.turn = .leave) : rewriteRecordBatchOffsets records baseOffset = some s.records := by
  obtain ⟨front, rest, fuel, hagrees⟩ := reached_induction
    (P := fun s => ∃ front rest fuel, Agrees records baseOffset s front rest fuel)
    ⟨[], records, records.length, rfl, le_refl _, Option.map_id_apply.symm⟩
    (fun _ _ ⟨_, _, _, hagrees⟩ hturn => hagrees.next hturn) h
  rw [hagrees.turn_eq] at hleave
  cases hsize : rewriteCut.size rest with
  | none =>
    rw [hagrees.result, rewriteLoop_stop hsize, Option.map_some, hagrees.state]
  | some n =>
    by_cases hshort : n < 21
    · rw [turn_undefined hsize hshort] at hleave
      cases hleave
    · rw [turn_next hsize (by omega)] at hleave
      cases hleave

end Agrees

/-! ### Counting what was renumbered -/

/-- The count walks the batches of the renumbered buffer that were renumbered, finds them
    numbered one behind another, and ends where `next_base` stands. -/
structure CountFollows (records : Bytes) (baseOffset : Int) (s : RewriteState) : Prop where
  batches : countCut.pieces s.records =
    renumberedChain baseOffset (rewriteCut.pieces records)
  baseOffsets : ∀ front batch back, countCut.pieces s.records = front ++ batch :: back →
    slice batch 0 8 = i64be (baseOffset + offsetsTaken front)
  nextBase : countCut.pieces s.records ≠ [] →
    s.nextBase = baseOffset + estimateRecordCount s.records

section Count

variable {records : Bytes} {baseOffset : Int} {s : RewriteState} {batches : List Bytes}

/-- The length field of a batch the walk cuts off is its size, renumbered or not. -/
theorem batchLengthField_of_mem {batch : Bytes} (h : batch ∈ rewriteCut.pieces records)
    (hlong : 27 ≤ batch.length) : batchLengthField batch + 12 = batch.length := by
  induction records using rewriteCut.induction with
  | stop rest hsize =>
    rw [Cut.pieces_of_none hsize] at h
    exact absurd h List.not_mem_nil
  | piece rest n hsize ih =>
    rw [Cut.pieces_of_some hsize] at h
    rcases List.mem_cons.mp h with rfl | hrest
    · obtain ⟨hheader, hpos, hfield, hfits⟩ := signedSize_eq_some_iff.mp hsize
      rw [toNat_signed_of_pos (by omega) hpos] at hfield
      rw [← batchLengthField_append (by omega) (rest.drop n), List.take_append_drop, ← hfield,
        List.length_take]
      omega
    · exact ih hrest

theorem mem_renumberedChain {new : Bytes} (h : new ∈ renumberedChain baseOffset batches) :
    ∃ batch ∈ batches, ∃ b, new = renumbered b batch := by
  induction batches generalizing baseOffset with
  | nil => exact absurd h List.not_mem_nil
  | cons batch batches ih =>
    rcases List.mem_cons.mp h with rfl | hrest
    · exact ⟨batch, List.mem_cons_self, baseOffset, rfl⟩
    · obtain ⟨other, hother, b, hb⟩ := ih hrest
      exact ⟨other, List.mem_cons_of_mem _ hother, b, hb⟩

/-- A batch in a renumbered chain starts with the base offset that is its turn. -/
theorem slice_renumberedChain {front back : List Bytes} {new : Bytes}
    (h : renumberedChain baseOffset batches = front ++ new :: back)
    (hlong : ∀ batch ∈ batches, 21 ≤ batch.length) :
    slice new 0 8 = i64be (baseOffset + offsetsTaken front) := by
  induction front generalizing baseOffset batches with
  | nil =>
    cases batches with
    | nil => cases h
    | cons batch batches =>
      obtain ⟨rfl, -⟩ := List.cons.inj h
      have hbase : slice (renumbered baseOffset batch) 0 8 = i64be baseOffset := by
        unfold renumbered
        rw [List.append_assoc, List.append_assoc, slice_append_left (by simp)]
        have hself := slice_zero_length (i64be baseOffset)
        rwa [length_i64be] at hself
      rw [hbase, offsetsTaken_nil, add_zero]
  | cons first front ih =>
    cases batches with
    | nil => cases h
    | cons batch batches =>
      rw [List.forall_mem_cons] at hlong
      obtain ⟨rfl, hrest⟩ := List.cons.inj h
      rw [ih hrest hlong.2, offsetsTaken_cons, batchCount_renumbered hlong.1, add_assoc]

/-- The buffer and `next_base` where a loop over long enough batches is left. -/
theorem eq_of_leave (hlong : ∀ batch ∈ rewriteCut.pieces records, 27 ≤ batch.length)
    (h : Reached records baseOffset s) (hleave : s.turn = .leave) :
    s.records = (renumberedChain baseOffset (rewriteCut.pieces records)).flatten ++
        rewriteCut.rest records ∧
      s.nextBase = baseOffset + offsetsTaken (rewriteCut.pieces records) := by
  obtain ⟨done, rest, hwalked⟩ := exists_walked hlong h
  cases hsize : rewriteCut.size rest with
  | none =>
    rw [hwalked.batches, hwalked.left, Cut.pieces_of_none hsize, Cut.rest_of_none hsize,
      List.append_nil, hwalked.state]
    exact ⟨rfl, rfl⟩
  | some n =>
    obtain ⟨s', hturn, -⟩ := hwalked.next hsize (hwalked.long hlong hsize)
    rw [hturn] at hleave
    cases hleave

/-- The batches counted in the renumbered buffer: those that were renumbered, and those the
    count finds in what the renumbering left. -/
theorem countPieces_of_leave (hlong : ∀ batch ∈ rewriteCut.pieces records, 27 ≤ batch.length)
    (h : Reached records baseOffset s) (hleave : s.turn = .leave) :
    countCut.pieces s.records = renumberedChain baseOffset (rewriteCut.pieces records) ++
      countCut.pieces (rewriteCut.rest records) := by
  rw [(eq_of_leave hlong h hleave).1]
  refine countCut.pieces_flatten_append ?_ _
  intro new hnew
  obtain ⟨batch, hbatch, b, rfl⟩ := mem_renumberedChain hnew
  have hbytes := hlong batch hbatch
  have hlength := length_renumbered (by omega : 21 ≤ batch.length) b
  refine countSize_append (by omega) ?_
  rw [batchLengthField_renumbered (by omega), batchLengthField_of_mem hbatch hbytes, hlength]

end Count

/-- **The count walks exactly what was renumbered when it finds no batch in what the
    renumbering left**: less than 27 bytes, an empty batch, or one that does not fit. -/
theorem countFollows_iff (records : Bytes) (baseOffset : Int) (s : RewriteState)
    (hsafe : RewriteSafe records baseOffset) (hreached : Reached records baseOffset s)
    (hleave : s.turn = .leave) :
    CountFollows records baseOffset s ↔
      (rewriteCut.rest records).length < 27 ∨ batchLengthField (rewriteCut.rest records) = 0 ∨
        (rewriteCut.rest records).length < batchLengthField (rewriteCut.rest records) + 12 := by
  have hlong := long_of_safe hsafe (.start rfl) (walked_start records baseOffset)
  have hpieces := countPieces_of_leave hlong hreached hleave
  have hrest : countCut.pieces (rewriteCut.rest records) = [] ↔
      (rewriteCut.rest records).length < 27 ∨ batchLengthField (rewriteCut.rest records) = 0 ∨
        (rewriteCut.rest records).length < batchLengthField (rewriteCut.rest records) + 12 := by
    rw [Cut.pieces_eq_nil_iff]
    exact countSize_eq_none_iff
  rw [← hrest]
  constructor
  · intro hfollows
    rw [hfollows.batches] at hpieces
    exact List.self_eq_append_right.mp hpieces
  · intro hnil
    rw [hnil, List.append_nil] at hpieces
    have hlong' : ∀ batch ∈ rewriteCut.pieces records, 21 ≤ batch.length :=
      fun batch hbatch => le_trans (by omega) (hlong batch hbatch)
    refine ⟨hpieces, ?_, ?_⟩
    · intro front batch back hsplit
      exact slice_renumberedChain (hpieces.symm.trans hsplit) hlong'
    · intro hne
      have hcounted : ∀ batch ∈ countCut.pieces s.records, 27 ≤ batch.length := by
        intro new hnew
        rw [hpieces] at hnew
        obtain ⟨batch, hbatch, b, rfl⟩ := mem_renumberedChain hnew
        rw [length_renumbered (hlong' batch hbatch)]
        exact hlong batch hbatch
      rw [estimateRecordCount_eq hcounted hne, hpieces, (eq_of_leave hlong hreached hleave).2,
        offsetsTaken_renumberedChain hlong']

/-- A whole batch, and nothing behind it. -/
theorem countFollows_headerOnly :
    ∃ s, Reached headerOnly 5 s ∧ s.turn = .leave ∧ CountFollows headerOnly 5 s := by
  have hsafe : RewriteSafe headerOnly 5 := rewriteSafe_of_long (by decide) 5
  obtain ⟨s, hreached, hleave⟩ := hsafe.ends
  refine ⟨s, hreached, hleave, ?_⟩
  exact (countFollows_iff headerOnly 5 s hsafe hreached hleave).mpr (Or.inl (by decide))

/-- A batch of 27 bytes: enough to be counted, too little to be renumbered. -/
def countedOnly : Bytes := List.replicate 8 0 ++ beBytes 4 15 ++ List.replicate 15 0

theorem count_not_always_follows :
    ¬ ∀ (records : Bytes) (baseOffset : Int) (s : RewriteState),
        RewriteSafe records baseOffset → Reached records baseOffset s → s.turn = .leave →
        CountFollows records baseOffset s := by
  intro hall
  have hfollows := hall countedOnly 5 ⟨countedOnly, 0, 5⟩ (rewriteSafe_of_long (by decide) 5)
    (.start rfl) rfl
  exact absurd hfollows.batches (by decide)

end Mkmq
