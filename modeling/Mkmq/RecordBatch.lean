import Mathlib.Algebra.Order.BigOperators.Group.List
import Mkmq.ByteCodec
import Mkmq.Crc32c

/-!
# Record batches: counting and renumbering

A produce request carries a chain of Kafka record batches.  Each batch starts with
a big-endian header: base offset at byte 0, batch length (the size minus 12) at 8,
CRC at 17, last offset delta at 23.  Two functions of the broker walk that chain:

* `estimateRecordCount` (`src/partition_log_shard.cpp`) adds up the offsets the
  batches take;
* `rewriteRecordBatchOffsets` (`src/kafka_protocol.cpp`) renumbers the batches from
  a base offset and recomputes their CRCs.

Both loops advance a position through the buffer.  Here the loop state is the rest
of the buffer from that position on, so each iteration reads at fixed offsets, and
`fuel` bounds the iterations by the length of the buffer (each one consumes bytes).
The second half of the module is about whole batches and what renumbering makes of them.
-/

namespace Mkmq

open ByteCodec

variable {rest batch : Bytes} {batches : List Bytes}

/-! ### The header fields -/

/-- The batch length field as an unsigned number, as `estimate_record_count` reads it. -/
def batchLengthField (rest : Bytes) : Nat := beNat (slice rest 8 4)

/-- `last_offset_delta`, signed. -/
def lastOffsetDelta (rest : Bytes) : Int := signed 32 (beNat (slice rest 23 4))

/-- The base offset field, signed. -/
def baseOffsetField (rest : Bytes) : Int := signed 64 (beNat (slice rest 0 8))

/-- How many offsets the batch at the head of `rest` takes: at least one. -/
def batchCount (rest : Bytes) : Int := max 1 (lastOffsetDelta rest + 1)

theorem one_le_batchCount (rest : Bytes) : 1 ≤ batchCount rest := le_max_left _ _

/-! ### Counting -/

/-- The loop of `estimate_record_count`. -/
def estimateLoop : Nat → Bytes → Int → Int
  | 0, _, total => total
  | fuel + 1, rest, total =>
    if 27 ≤ rest.length then
      let batchLength := batchLengthField rest
      let totalBatchSize := batchLength + 12
      if batchLength = 0 ∨ totalBatchSize > rest.length then total
      else estimateLoop fuel (rest.drop totalBatchSize) (total + batchCount rest)
    else total

def estimateRecordCount (records : Bytes) : Int :=
  if records = [] then 0
  else
    let total := estimateLoop records.length records 0
    if total = 0 then 1 else total

theorem le_estimateLoop (fuel : Nat) (rest : Bytes) (total : Int) :
    total ≤ estimateLoop fuel rest total := by
  induction fuel generalizing rest total with
  | zero => exact le_refl total
  | succ fuel ih =>
    unfold estimateLoop
    by_cases hheader : 27 ≤ rest.length
    · rw [if_pos hheader]
      simp only
      split
      · exact le_refl total
      · have hcount := one_le_batchCount rest
        have hrest := ih (rest.drop (batchLengthField rest + 12)) (total + batchCount rest)
        omega
    · rw [if_neg hheader]

theorem estimateRecordCount_nil : estimateRecordCount [] = 0 := rfl

/-- A non-empty record set always takes at least one offset. -/
theorem one_le_estimateRecordCount {records : Bytes} (h : records ≠ []) :
    1 ≤ estimateRecordCount records := by
  have hloop := le_estimateLoop records.length records 0
  unfold estimateRecordCount
  rw [if_neg h]
  simp only
  split
  · exact le_refl 1
  · omega

theorem estimateRecordCount_nonneg (records : Bytes) : 0 ≤ estimateRecordCount records := by
  by_cases h : records = []
  · rw [h, estimateRecordCount_nil]
  · have := one_le_estimateRecordCount h
    omega

/-! ### Renumbering -/

/-- The two in-place writes of one iteration: the base offset, then the CRC over the
    batch's bytes from position 21 on. -/
def renumberHead (rest : Bytes) (batchSize : Nat) (nextBase : Int) : Bytes :=
  let based := splice rest 0 (i64be nextBase)
  let crc := crc32c (slice based 21 (batchSize - 21))
  splice based 17 (beBytes 4 crc.toNat)

/-- The loop of `rewrite_record_batch_offsets`.  `none` is a batch shorter than 21 bytes:
    the length `batch_size - 21` handed to `crc32c` wraps around and the CRC reads
    outside the buffer, which has no defined result. -/
def rewriteLoop : Nat → Bytes → Int → Option Bytes
  | 0, rest, _ => some rest
  | fuel + 1, rest, nextBase =>
    if 57 ≤ rest.length then
      let batchLength := signed 32 (batchLengthField rest)
      if batchLength ≤ 0 then some rest
      else
        let batchSize := batchLength.toNat + 12
        if batchSize > rest.length then some rest
        else if batchSize < 21 then none
        else
          let rest := renumberHead rest batchSize nextBase
          (rewriteLoop fuel (rest.drop batchSize) (nextBase + batchCount rest)).map
            (rest.take batchSize ++ ·)
    else some rest

def rewriteRecordBatchOffsets (records : Bytes) (baseOffset : Int) : Option Bytes :=
  rewriteLoop records.length records baseOffset

theorem length_renumberHead {batchSize : Nat} {nextBase : Int} (h : 21 ≤ rest.length) :
    (renumberHead rest batchSize nextBase).length = rest.length := by
  simp only [renumberHead, length_splice, length_i64be, length_beBytes]
  omega

/-- Renumbering changes bytes in place: the buffer keeps its length. -/
theorem length_rewriteLoop {fuel : Nat} {out : Bytes} {nextBase : Int}
    (h : rewriteLoop fuel rest nextBase = some out) : out.length = rest.length := by
  induction fuel generalizing rest out nextBase with
  | zero =>
    simp only [rewriteLoop, Option.some.injEq] at h
    rw [h]
  | succ fuel ih =>
    unfold rewriteLoop at h
    by_cases hheader : 57 ≤ rest.length
    · rw [if_pos hheader] at h
      simp only at h
      split at h
      · simp only [Option.some.injEq] at h
        rw [h]
      split at h
      · simp only [Option.some.injEq] at h
        rw [h]
      split at h
      · cases h
      next hfits _ =>
        obtain ⟨tail, htail, rfl⟩ := Option.map_eq_some_iff.mp h
        have hlen := ih htail
        have hhead : (renumberHead rest ((signed 32 (batchLengthField rest)).toNat + 12)
            nextBase).length = rest.length := length_renumberHead (by omega)
        simp only [List.length_append, List.length_take, hlen, List.length_drop]
        omega
    · rw [if_neg hheader] at h
      simp only [Option.some.injEq] at h
      rw [h]

theorem length_rewriteRecordBatchOffsets {records out : Bytes} {baseOffset : Int}
    (h : rewriteRecordBatchOffsets records baseOffset = some out) : out.length = records.length :=
  length_rewriteLoop h

/-! ### Whole batches -/

/-- A record batch with a complete header whose length field matches its size. -/
structure WholeBatch (batch : Bytes) : Prop where
  header : 61 ≤ batch.length
  lengthField : signed 32 (batchLengthField batch) = batch.length - 12

theorem WholeBatch.batchLengthField_eq (h : WholeBatch batch) :
    batchLengthField batch + 12 = batch.length ∧ 49 ≤ batchLengthField batch := by
  have hlt : batchLengthField batch < 256 ^ 4 := by
    have hlen : (slice batch 8 4).length = 4 := length_slice_of_le (by have := h.header; omega)
    have := beNat_lt (slice batch 8 4)
    rwa [hlen] at this
  have hfield := h.lengthField
  have hheader := h.header
  unfold signed at hfield
  rw [Int.bmod_def] at hfield
  split at hfield <;> omega

/-- A header field that ends inside `batch` reads the same in any buffer that starts
    with `batch`. -/
theorem batchLengthField_append (h : 12 ≤ batch.length) (rest : Bytes) :
    batchLengthField (batch ++ rest) = batchLengthField batch := by
  unfold batchLengthField
  rw [slice_append_left (by omega)]

theorem batchCount_append (h : 27 ≤ batch.length) (rest : Bytes) :
    batchCount (batch ++ rest) = batchCount batch := by
  unfold batchCount lastOffsetDelta
  rw [slice_append_left (by omega)]

theorem batchCount_take {n : Nat} (h : 27 ≤ n) (hle : n ≤ rest.length) :
    batchCount (rest.take n) = batchCount rest := by
  have hlength : 27 ≤ (rest.take n).length := by
    rw [List.length_take]
    omega
  rw [← batchCount_append hlength (rest.drop n), List.take_append_drop]

/-- The offsets a chain of batches takes. -/
def offsetsTaken (batches : List Bytes) : Int := (batches.map batchCount).sum

@[simp] theorem offsetsTaken_nil : offsetsTaken [] = 0 := rfl

@[simp] theorem offsetsTaken_cons (batch : Bytes) (batches : List Bytes) :
    offsetsTaken (batch :: batches) = batchCount batch + offsetsTaken batches := by
  unfold offsetsTaken
  rw [List.map_cons, List.sum_cons]

@[simp] theorem offsetsTaken_append (front back : List Bytes) :
    offsetsTaken (front ++ back) = offsetsTaken front + offsetsTaken back := by
  unfold offsetsTaken
  rw [List.map_append, List.sum_append]

theorem offsetsTaken_nonneg (batches : List Bytes) : 0 ≤ offsetsTaken batches := by
  induction batches with
  | nil => exact le_refl 0
  | cons batch batches ih =>
    rw [offsetsTaken_cons]
    exact add_nonneg (le_trans zero_le_one (one_le_batchCount batch)) ih

theorem length_le_length_flatten_of_ne_nil {α : Type} {groups : List (List α)}
    (h : ∀ group ∈ groups, group ≠ []) : groups.length ≤ groups.flatten.length := by
  induction groups with
  | nil => simp
  | cons group groups ih =>
    have hgroup := List.length_pos_of_ne_nil (h group List.mem_cons_self)
    have hrest := ih (fun g hg => h g (List.mem_cons_of_mem _ hg))
    simp only [List.length_cons, List.flatten_cons, List.length_append]
    omega

theorem WholeBatch.ne_nil (h : WholeBatch batch) : batch ≠ [] := by
  rintro rfl
  exact absurd h.header (by simp)

theorem length_le_length_flatten (h : ∀ batch ∈ batches, WholeBatch batch) :
    batches.length ≤ batches.flatten.length :=
  length_le_length_flatten_of_ne_nil fun batch hbatch => (h batch hbatch).ne_nil

theorem offsetsTaken_pos (hne : batches ≠ []) : 0 < offsetsTaken batches := by
  cases batches with
  | nil => exact absurd rfl hne
  | cons batch batches =>
    rw [offsetsTaken_cons]
    exact add_pos_of_pos_of_nonneg (one_le_batchCount batch) (offsetsTaken_nonneg batches)

/-! ### Renumbering whole batches -/

/-- What a renumbered batch looks like: the base offset and the CRC replaced, every
    other byte as it was. -/
def renumbered (baseOffset : Int) (batch : Bytes) : Bytes :=
  i64be baseOffset ++ slice batch 8 9 ++ beBytes 4 (crc32c (batch.drop 21)).toNat ++ batch.drop 21

/-- Consecutive renumbering of a chain from `baseOffset`. -/
def renumberedChain : Int → List Bytes → List Bytes
  | _, [] => []
  | baseOffset, batch :: batches =>
    renumbered baseOffset batch :: renumberedChain (baseOffset + batchCount batch) batches

@[simp] theorem length_renumberedChain (baseOffset : Int) (batches : List Bytes) :
    (renumberedChain baseOffset batches).length = batches.length := by
  induction batches generalizing baseOffset with
  | nil => rfl
  | cons batch batches ih => rw [renumberedChain, List.length_cons, ih, List.length_cons]

theorem length_renumbered (h : 21 ≤ batch.length) (baseOffset : Int) :
    (renumbered baseOffset batch).length = batch.length := by
  have hmid : (slice batch 8 9).length = 9 := length_slice_of_le (by omega)
  simp only [renumbered, List.length_append, length_i64be, hmid, length_beBytes, List.length_drop]
  omega

/-- Bytes 8 to 16 of a renumbered batch are untouched. -/
theorem slice_renumbered_mid (h : 21 ≤ batch.length) (baseOffset : Int) {pos len : Nat}
    (hlo : 8 ≤ pos) (hhi : pos + len ≤ 17) :
    slice (renumbered baseOffset batch) pos len = slice batch pos len := by
  have hmid : (slice batch 8 9).length = 9 := length_slice_of_le (by omega)
  obtain ⟨k, rfl⟩ := Nat.exists_eq_add_of_le hlo
  unfold renumbered
  rw [List.append_assoc, List.append_assoc]
  have hfront := slice_append_right (i64be baseOffset)
    (slice batch 8 9 ++ (beBytes 4 (crc32c (batch.drop 21)).toNat ++ batch.drop 21)) k len
  rw [length_i64be] at hfront
  rw [hfront, slice_append_left (by omega), slice_slice (by omega)]

/-- Bytes from 21 on of a renumbered batch are untouched. -/
theorem drop_renumbered (h : 21 ≤ batch.length) (baseOffset : Int) :
    (renumbered baseOffset batch).drop 21 = batch.drop 21 := by
  have hmid : (slice batch 8 9).length = 9 := length_slice_of_le (by omega)
  unfold renumbered
  apply List.drop_left'
  simp [hmid]

theorem slice_renumbered_tail (h : 21 ≤ batch.length) (baseOffset : Int) {pos : Nat}
    (hlo : 21 ≤ pos) (len : Nat) :
    slice (renumbered baseOffset batch) pos len = slice batch pos len := by
  obtain ⟨k, rfl⟩ := Nat.exists_eq_add_of_le hlo
  rw [← slice_drop, drop_renumbered h, slice_drop]

theorem lastOffsetDelta_renumbered (h : 21 ≤ batch.length) (baseOffset : Int) :
    lastOffsetDelta (renumbered baseOffset batch) = lastOffsetDelta batch := by
  unfold lastOffsetDelta
  rw [slice_renumbered_tail h baseOffset (by omega)]

theorem batchLengthField_renumbered (h : 21 ≤ batch.length) (baseOffset : Int) :
    batchLengthField (renumbered baseOffset batch) = batchLengthField batch := by
  unfold batchLengthField
  rw [slice_renumbered_mid h baseOffset (by omega) (by omega)]

theorem batchCount_renumbered (h : 21 ≤ batch.length) (baseOffset : Int) :
    batchCount (renumbered baseOffset batch) = batchCount batch := by
  unfold batchCount
  rw [lastOffsetDelta_renumbered h]

theorem WholeBatch.renumbered (h : WholeBatch batch) (baseOffset : Int) :
    WholeBatch (renumbered baseOffset batch) := by
  have hheader := h.header
  have hlen := length_renumbered (by omega : 21 ≤ batch.length) baseOffset
  refine ⟨by omega, ?_⟩
  rw [batchLengthField_renumbered (by omega), hlen]
  exact h.lengthField

theorem baseOffsetField_renumbered {baseOffset : Int} (hfits : FitsInt64 baseOffset)
    (batch : Bytes) : baseOffsetField (renumbered baseOffset batch) = baseOffset := by
  unfold baseOffsetField renumbered
  rw [List.append_assoc, List.append_assoc, slice_append_left (by simp)]
  have hself : slice (i64be baseOffset) 0 8 = i64be baseOffset := by
    have := slice_zero_length (i64be baseOffset)
    rwa [length_i64be] at this
  rw [hself, signed_beNat_i64be hfits]

/-- One iteration's writes, on a whole batch followed by anything. -/
theorem renumberHead_append (h : 21 ≤ batch.length) (rest : Bytes) (nextBase : Int) :
    renumberHead (batch ++ rest) batch.length nextBase = renumbered nextBase batch ++ rest := by
  have hbased : splice (batch ++ rest) 0 (i64be nextBase) =
      i64be nextBase ++ batch.drop 8 ++ rest := by
    rw [splice_append_left rest (by simp; omega)]
    simp [splice]
  have hlen : (i64be nextBase ++ batch.drop 8).length = batch.length := by
    simp only [List.length_append, length_i64be, List.length_drop]
    omega
  have htail : slice (i64be nextBase ++ batch.drop 8 ++ rest) 21 (batch.length - 21) =
      batch.drop 21 := by
    rw [slice_append_left (by omega)]
    have hright := slice_append_right (i64be nextBase) (batch.drop 8) 13 (batch.length - 21)
    rw [length_i64be] at hright
    rw [hright, slice_drop]
    unfold slice
    rw [List.take_of_length_le (by simp)]
  unfold renumberHead
  simp only [hbased, htail]
  rw [splice_append_left rest (by rw [hlen, length_beBytes]; omega)]
  congr 1
  have hsplit : i64be nextBase ++ batch.drop 8 =
      (i64be nextBase ++ slice batch 8 9) ++ batch.drop 17 := by
    have : batch.drop 8 = slice batch 8 9 ++ batch.drop 17 := by
      have := (List.take_append_drop 9 (batch.drop 8)).symm
      rwa [List.drop_drop] at this
    rw [this, List.append_assoc]
  have hfront : (i64be nextBase ++ slice batch 8 9).length = 17 := by
    rw [List.length_append, length_i64be, length_slice_of_le (by omega)]
  have hdrop : ((i64be nextBase ++ slice batch 8 9) ++ batch.drop 17).drop 21 =
      batch.drop 21 := by
    rw [List.drop_append, hfront, List.drop_of_length_le (by omega), List.drop_drop]
    simp
  unfold splice renumbered
  rw [length_beBytes, hlen, Nat.sub_eq_zero_of_le (by omega), hsplit, List.take_left' hfront,
    hdrop]
  simp

theorem wholeBatch_renumberedChain (h : ∀ batch ∈ batches, WholeBatch batch) (baseOffset : Int) :
    ∀ batch ∈ renumberedChain baseOffset batches, WholeBatch batch := by
  induction batches generalizing baseOffset with
  | nil => simp [renumberedChain]
  | cons batch batches ih =>
    intro b hb
    rcases List.mem_cons.mp hb with rfl | hrest
    · exact (h batch (by simp)).renumbered baseOffset
    · exact ih (fun b hb => h b (by simp [hb])) _ b hrest

theorem offsetsTaken_renumberedChain (h : ∀ batch ∈ batches, 21 ≤ batch.length) (baseOffset : Int) :
    offsetsTaken (renumberedChain baseOffset batches) = offsetsTaken batches := by
  induction batches generalizing baseOffset with
  | nil => rfl
  | cons batch batches ih =>
    rw [renumberedChain, offsetsTaken_cons, offsetsTaken_cons,
      batchCount_renumbered (h batch List.mem_cons_self),
      ih fun other hother => h other (List.mem_cons_of_mem _ hother)]

theorem renumberedChain_append (baseOffset : Int) (front back : List Bytes) :
    renumberedChain baseOffset (front ++ back) =
      renumberedChain baseOffset front ++
        renumberedChain (baseOffset + offsetsTaken front) back := by
  induction front generalizing baseOffset with
  | nil => simp [renumberedChain]
  | cons batch front ih =>
    rw [List.cons_append, renumberedChain, ih, renumberedChain, List.cons_append,
      offsetsTaken_cons, add_assoc]

end Mkmq
