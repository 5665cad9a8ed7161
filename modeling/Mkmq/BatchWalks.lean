import Mkmq.ChainWalk
import Mkmq.RecordBatch

/-!
# The walks over a chain of batches

Counting and renumbering are loops that were written apart from each other.  Each is a walk
in the sense of `ChainWalk`, and what it returns is a function of the batches it cuts off.
The count asks for 27 bytes and takes the length field as unsigned, the renumbering asks
for 57 and takes it as signed.  On chains of whole batches neither difference shows.
-/

namespace Mkmq

open ByteCodec ChainWalk

variable {n fuel : Nat} {rest records batch : Bytes} {batches : List Bytes}

/-! ### What each loop takes for a batch -/

/-- `estimate_record_count`: 27 bytes of header, and an unsigned length. -/
def countSize (rest : Bytes) : Option Nat :=
  if 27 ≤ rest.length ∧ 0 < batchLengthField rest ∧ batchLengthField rest + 12 ≤ rest.length then
    some (batchLengthField rest + 12)
  else none

/-- The loops of `src/kafka_protocol.cpp`: a signed length, and as many bytes of header as
    each of them asks for. -/
def signedSize (header : Nat) (rest : Bytes) : Option Nat :=
  if header ≤ rest.length ∧ 0 < signed 32 (batchLengthField rest) ∧
      (signed 32 (batchLengthField rest)).toNat + 12 ≤ rest.length then
    some ((signed 32 (batchLengthField rest)).toNat + 12)
  else none

theorem countSize_eq_some_iff :
    countSize rest = some n ↔ 27 ≤ rest.length ∧ 0 < batchLengthField rest ∧
      n = batchLengthField rest + 12 ∧ n ≤ rest.length := by
  unfold countSize
  constructor
  · intro h
    split at h
    · next hbatch =>
        obtain rfl := Option.some.inj h
        exact ⟨hbatch.1, hbatch.2.1, rfl, hbatch.2.2⟩
    · cases h
  · rintro ⟨hheader, hpos, rfl, hfits⟩
    rw [if_pos ⟨hheader, hpos, hfits⟩]

theorem countSize_eq_none_iff :
    countSize rest = none ↔ rest.length < 27 ∨ batchLengthField rest = 0 ∨
      rest.length < batchLengthField rest + 12 := by
  unfold countSize
  split
  · simp only [reduceCtorEq, false_iff]
    omega
  · simp only [true_iff]
    omega

theorem signedSize_eq_some_iff {header : Nat} :
    signedSize header rest = some n ↔ header ≤ rest.length ∧
      0 < signed 32 (batchLengthField rest) ∧
      n = (signed 32 (batchLengthField rest)).toNat + 12 ∧ n ≤ rest.length := by
  unfold signedSize
  constructor
  · intro h
    split at h
    · next hbatch =>
        obtain rfl := Option.some.inj h
        exact ⟨hbatch.1, hbatch.2.1, rfl, hbatch.2.2⟩
    · cases h
  · rintro ⟨hheader, hpos, rfl, hfits⟩
    rw [if_pos ⟨hheader, hpos, hfits⟩]

theorem signedSize_eq_none_iff {header : Nat} :
    signedSize header rest = none ↔ ¬ (header ≤ rest.length ∧
      0 < signed 32 (batchLengthField rest) ∧
      (signed 32 (batchLengthField rest)).toNat + 12 ≤ rest.length) := by
  unfold signedSize
  split
  · next hbatch => simp only [reduceCtorEq, hbatch, and_self, not_true_eq_false]
  · next hbatch => simp only [hbatch, not_false_eq_true]

theorem countSize_pos (rest : Bytes) (n : Nat) (h : countSize rest = some n) : 0 < n := by
  have hsize := (countSize_eq_some_iff.mp h).2.2.1
  omega

theorem countSize_le (rest : Bytes) (n : Nat) (h : countSize rest = some n) : n ≤ rest.length :=
  (countSize_eq_some_iff.mp h).2.2.2

theorem signedSize_pos (header : Nat) (rest : Bytes) (n : Nat)
    (h : signedSize header rest = some n) : 0 < n := by
  have hsize := (signedSize_eq_some_iff.mp h).2.2.1
  omega

theorem signedSize_le (header : Nat) (rest : Bytes) (n : Nat)
    (h : signedSize header rest = some n) : n ≤ rest.length :=
  (signedSize_eq_some_iff.mp h).2.2.2

/-- The batches `estimate_record_count` counts. -/
def countCut : Cut UInt8 where
  size := countSize
  size_pos := countSize_pos
  size_le := countSize_le

def signedCut (header : Nat) : Cut UInt8 where
  size := signedSize header
  size_pos := signedSize_pos header
  size_le := signedSize_le header

/-- The batches `rewrite_record_batch_offsets` renumbers. -/
def rewriteCut : Cut UInt8 := signedCut 57

/-- A length that is positive as a signed number is the one the count reads. -/
theorem toNat_signed_of_pos (h : 12 ≤ rest.length) (hpos : 0 < signed 32 (batchLengthField rest)) :
    (signed 32 (batchLengthField rest)).toNat = batchLengthField rest := by
  have hlen : (slice rest 8 4).length = 4 := length_slice_of_le (by omega)
  have hlt : batchLengthField rest < 256 ^ 4 := by
    have hbound := beNat_lt (slice rest 8 4)
    rwa [hlen] at hbound
  unfold signed at hpos ⊢
  rw [Int.bmod_def] at hpos ⊢
  split at hpos <;> split <;> omega

/-! ### The loops follow the walks -/

/-- The writes of a turn leave the field behind the CRC as it was. -/
theorem batchCount_renumberHead (h : 27 ≤ rest.length) (batchSize : Nat) (nextBase : Int) :
    batchCount (renumberHead rest batchSize nextBase) = batchCount rest := by
  unfold batchCount lastOffsetDelta renumberHead
  rw [slice_splice_of_disjoint (by rw [length_splice]; omega)
      (Or.inr (by rw [length_beBytes]; omega)),
    slice_splice_of_disjoint (by omega) (Or.inr (by rw [length_i64be]; omega))]

/-- They renumber the batch, and leave what is behind it. -/
theorem renumberHead_take (hlong : 21 ≤ n) (hfits : n ≤ rest.length) (nextBase : Int) :
    renumberHead rest n nextBase = renumbered nextBase (rest.take n) ++ rest.drop n ∧
      (renumbered nextBase (rest.take n)).length = n := by
  have hlength : (rest.take n).length = n := by
    rw [List.length_take]
    omega
  have hwrites := renumberHead_append (by omega : 21 ≤ (rest.take n).length) (rest.drop n) nextBase
  rw [List.take_append_drop, hlength] at hwrites
  exact ⟨hwrites, (length_renumbered (by omega) nextBase).trans hlength⟩

/-- One batch of the renumbering. -/
theorem rewriteLoop_batch (hsize : rewriteCut.size rest = some n) (hlong : 21 ≤ n)
    (nextBase : Int) :
    rewriteLoop (fuel + 1) rest nextBase =
      (rewriteLoop fuel (rest.drop n) (nextBase + batchCount rest)).map
        (renumbered nextBase (rest.take n) ++ ·) := by
  obtain ⟨hheader, hpos, hn, hfits⟩ := signedSize_eq_some_iff.mp hsize
  obtain ⟨hwrites, hrenumbered⟩ := renumberHead_take hlong hfits nextBase
  rw [rewriteLoop, if_pos hheader]
  simp only [← hn]
  rw [if_neg (by omega), if_neg (by omega), if_neg (by omega),
    batchCount_renumberHead (by omega), hwrites, List.drop_left' hrenumbered,
    List.take_left' hrenumbered]

/-- A batch without room for the header fields that are written. -/
theorem rewriteLoop_short (hsize : rewriteCut.size rest = some n) (hshort : n < 21)
    (nextBase : Int) : rewriteLoop (fuel + 1) rest nextBase = none := by
  obtain ⟨hheader, hpos, hn, hfits⟩ := signedSize_eq_some_iff.mp hsize
  rw [rewriteLoop, if_pos hheader]
  simp only [← hn]
  rw [if_neg (by omega), if_neg (by omega), if_pos (by omega)]

theorem rewriteLoop_stop (hsize : rewriteCut.size rest = none) (nextBase : Int) :
    rewriteLoop fuel rest nextBase = some rest := by
  cases fuel with
  | zero => rfl
  | succ fuel =>
    have hno := signedSize_eq_none_iff.mp hsize
    rw [rewriteLoop]
    split
    · next hheader =>
        simp only
        split
        · rfl
        · next hpos => rw [if_pos (by omega)]
    · rfl

/-- **What the renumbering returns**, when no batch on its way is shorter than the header
    fields it uses. -/
theorem rewriteLoop_eq (hlong : ∀ batch ∈ rewriteCut.pieces records, 27 ≤ batch.length)
    (hfuel : records.length ≤ fuel) (nextBase : Int) :
    rewriteLoop fuel records nextBase =
      some ((renumberedChain nextBase (rewriteCut.pieces records)).flatten ++
        rewriteCut.rest records) := by
  induction records using rewriteCut.induction generalizing fuel nextBase with
  | stop rest hsize =>
    rw [rewriteLoop_stop hsize, Cut.pieces_of_none hsize, Cut.rest_of_none hsize]
    rfl
  | piece rest n hsize ih =>
    have hle := rewriteCut.size_le rest n hsize
    have hlt := Cut.length_drop_lt hsize
    rw [Cut.pieces_of_some hsize] at hlong ⊢
    rw [List.forall_mem_cons] at hlong
    obtain ⟨fuel, rfl⟩ : ∃ m, fuel = m + 1 := ⟨fuel - 1, by omega⟩
    have hn : 27 ≤ n := by
      have hfirst := hlong.1
      rw [List.length_take] at hfirst
      omega
    rw [rewriteLoop_batch hsize (by omega), ← batchCount_take hn hle, ih hlong.2 (by omega),
      Cut.rest_of_some hsize]
    simp only [Option.map_some, renumberedChain, List.flatten_cons, List.append_assoc]

theorem estimateLoop_batch (hsize : countCut.size rest = some n) (total : Int) :
    estimateLoop (fuel + 1) rest total =
      estimateLoop fuel (rest.drop n) (total + batchCount rest) := by
  obtain ⟨hheader, hpos, hn, hfits⟩ := countSize_eq_some_iff.mp hsize
  rw [estimateLoop, if_pos hheader]
  simp only [← hn]
  rw [if_neg (by omega)]

theorem estimateLoop_stop (hsize : countCut.size rest = none) (total : Int) :
    estimateLoop fuel rest total = total := by
  cases fuel with
  | zero => rfl
  | succ fuel =>
    have hstop := countSize_eq_none_iff.mp hsize
    rw [estimateLoop]
    split
    · simp only
      rw [if_pos (by omega)]
    · rfl

/-- What the count adds up, when its batches hold the header field it reads. -/
theorem estimateLoop_eq (hlong : ∀ batch ∈ countCut.pieces records, 27 ≤ batch.length)
    (hfuel : records.length ≤ fuel) (total : Int) :
    estimateLoop fuel records total = total + offsetsTaken (countCut.pieces records) := by
  induction records using countCut.induction generalizing fuel total with
  | stop rest hsize =>
    rw [estimateLoop_stop hsize, Cut.pieces_of_none hsize, offsetsTaken_nil, add_zero]
  | piece rest n hsize ih =>
    have hle := countCut.size_le rest n hsize
    have hlt := Cut.length_drop_lt hsize
    rw [Cut.pieces_of_some hsize] at hlong ⊢
    rw [List.forall_mem_cons] at hlong
    obtain ⟨fuel, rfl⟩ : ∃ m, fuel = m + 1 := ⟨fuel - 1, by omega⟩
    have hn : 27 ≤ n := by
      have hfirst := hlong.1
      rw [List.length_take] at hfirst
      omega
    rw [estimateLoop_batch hsize, ih hlong.2 (by omega), offsetsTaken_cons,
      ← batchCount_take hn hle, add_assoc]

/-- A record set with a batch takes what its batches take. -/
theorem estimateRecordCount_eq (hlong : ∀ batch ∈ countCut.pieces records, 27 ≤ batch.length)
    (hne : countCut.pieces records ≠ []) :
    estimateRecordCount records = offsetsTaken (countCut.pieces records) := by
  have hpos := offsetsTaken_pos hne
  have hrecords : records ≠ [] := by
    rintro rfl
    exact hne (Cut.pieces_of_none rfl)
  unfold estimateRecordCount
  rw [if_neg hrecords]
  simp only [estimateLoop_eq hlong (le_refl _), zero_add]
  rw [if_neg (by omega)]

/-! ### Whole batches -/

theorem countSize_append (hheader : 27 ≤ batch.length)
    (hfield : batchLengthField batch + 12 = batch.length) (behind : Bytes) :
    countCut.size (batch ++ behind) = some batch.length := by
  have happend := batchLengthField_append (by omega : 12 ≤ batch.length) behind
  refine countSize_eq_some_iff.mpr ?_
  rw [happend, List.length_append]
  omega

theorem WholeBatch.rewriteSize_append (h : WholeBatch batch) (behind : Bytes) :
    rewriteCut.size (batch ++ behind) = some batch.length := by
  have hheader := h.header
  have hfield := h.lengthField
  have happend := batchLengthField_append (by omega : 12 ≤ batch.length) behind
  refine signedSize_eq_some_iff.mpr ?_
  rw [happend, List.length_append]
  omega

section Chains

variable {batches : List Bytes} (h : ∀ batch ∈ batches, WholeBatch batch)

include h

theorem countPieces_flatten : countCut.pieces batches.flatten = batches := by
  have hparts : ∀ batch ∈ batches, ∀ behind,
      countCut.size (batch ++ behind) = some batch.length := by
    intro batch hbatch
    have hheader := (h batch hbatch).header
    exact countSize_append (by omega) (h batch hbatch).batchLengthField_eq.1
  have hpieces := countCut.pieces_flatten_append hparts []
  rwa [List.append_nil, Cut.pieces_of_none (show countCut.size [] = none from rfl),
    List.append_nil] at hpieces

theorem rewritePieces_flatten :
    rewriteCut.pieces batches.flatten = batches ∧ rewriteCut.rest batches.flatten = [] := by
  have hpieces := rewriteCut.pieces_flatten_append
    (fun batch hbatch => (h batch hbatch).rewriteSize_append) []
  rw [List.append_nil, Cut.pieces_of_none (show rewriteCut.size [] = none from rfl),
    List.append_nil] at hpieces
  refine ⟨hpieces, ?_⟩
  have hall := rewriteCut.flatten_pieces_append_rest batches.flatten
  rw [hpieces] at hall
  exact List.append_right_eq_self.mp hall

/-- **Counting is additive over whole batches.** -/
theorem estimateRecordCount_flatten :
    estimateRecordCount batches.flatten = offsetsTaken batches := by
  have hpieces := countPieces_flatten h
  by_cases hne : batches = []
  · rw [hne]
    rfl
  · rw [estimateRecordCount_eq ?_ (by rwa [hpieces]), hpieces]
    intro batch hbatch
    rw [hpieces] at hbatch
    exact le_trans (by omega) (h batch hbatch).header

/-- **Renumbering a chain of whole batches is defined and renumbers every batch.** -/
theorem rewriteRecordBatchOffsets_flatten (baseOffset : Int) :
    rewriteRecordBatchOffsets batches.flatten baseOffset =
      some (renumberedChain baseOffset batches).flatten := by
  obtain ⟨hpieces, hrest⟩ := rewritePieces_flatten h
  have hlong : ∀ batch ∈ rewriteCut.pieces batches.flatten, 27 ≤ batch.length := by
    intro batch hbatch
    rw [hpieces] at hbatch
    exact le_trans (by omega) (h batch hbatch).header
  have hloop := rewriteLoop_eq hlong (le_refl _) baseOffset
  rwa [hpieces, hrest, List.append_nil] at hloop

end Chains

/-! ### What renumbering leaves alone -/

/-- `new` is `batch` with another base offset, and the CRC of its bytes from 21 on. -/
structure HeadRewritten (batch new : Bytes) : Prop where
  length : new.length = batch.length
  frame : ∀ i, 8 ≤ i → i < 17 ∨ 21 ≤ i → new[i]? = batch[i]?
  crc : slice new 17 4 = beBytes 4 (crc32c (new.drop 21)).toNat

theorem headRewritten_renumbered (h : 21 ≤ batch.length) (baseOffset : Int) :
    HeadRewritten batch (renumbered baseOffset batch) where
  length := length_renumbered h baseOffset
  frame := by
    intro i hlo hi
    have hbyte : ∀ b : Bytes, (slice b i 1)[0]? = b[i]? := fun b => by
      rw [getElem?_slice, if_pos Nat.zero_lt_one, Nat.add_zero]
    rcases hi with hmid | htail
    · rw [← hbyte, ← hbyte, slice_renumbered_mid h baseOffset hlo (by omega)]
    · rw [← hbyte, ← hbyte, slice_renumbered_tail h baseOffset htail]
  crc := by
    rw [drop_renumbered h]
    have hfront : (i64be baseOffset ++ slice batch 8 9).length = 17 := by
      rw [List.length_append, length_i64be, length_slice_of_le (by omega)]
    have hfield := slice_append_exact (i64be baseOffset ++ slice batch 8 9)
      (beBytes 4 (crc32c (batch.drop 21)).toNat) (batch.drop 21)
    rwa [hfront, length_beBytes] at hfield

/-- The base offset and the CRC of a batch are all that renumbering depends on, so the
    last renumbering counts. -/
theorem renumbered_renumbered (h : 21 ≤ batch.length) (b c : Int) :
    renumbered c (renumbered b batch) = renumbered c batch := by
  unfold renumbered
  have hmid := slice_renumbered_mid h b (by omega : 8 ≤ 8) (by omega : 8 + 9 ≤ 17)
  have htail := drop_renumbered h b
  unfold renumbered at hmid htail
  rw [hmid, htail]

theorem renumberedChain_renumberedChain (h : ∀ batch ∈ batches, WholeBatch batch) (b c : Int) :
    renumberedChain c (renumberedChain b batches) = renumberedChain c batches := by
  induction batches generalizing b c with
  | nil => rfl
  | cons batch batches ih =>
    have hheader := (h batch List.mem_cons_self).header
    rw [renumberedChain, renumberedChain, renumberedChain,
      renumbered_renumbered (by omega), batchCount_renumbered (by omega),
      ih fun other hother => h other (List.mem_cons_of_mem _ hother)]

theorem headRewritten_renumberedChain (h : ∀ batch ∈ batches, WholeBatch batch) (baseOffset : Int) :
    List.Forall₂ HeadRewritten batches (renumberedChain baseOffset batches) := by
  induction batches generalizing baseOffset with
  | nil => exact .nil
  | cons batch batches ih =>
    have hheader := (h batch List.mem_cons_self).header
    refine .cons (headRewritten_renumbered (by omega) baseOffset) ?_
    exact ih (fun other hother => h other (List.mem_cons_of_mem _ hother)) _

/-- **Renumbering a chain of whole batches touches the base offsets and the CRCs only, and
    renumbering it again forgets the first time.** -/
theorem rewriteRecordBatchOffsets_frame (batches : List Bytes)
    (h : ∀ batch ∈ batches, WholeBatch batch) (b c : Int) :
    ∃ rewritten : List Bytes,
      rewriteRecordBatchOffsets batches.flatten b = some rewritten.flatten ∧
        rewritten.flatten.length = batches.flatten.length ∧
        List.Forall₂ HeadRewritten batches rewritten ∧
        rewriteRecordBatchOffsets rewritten.flatten c =
          rewriteRecordBatchOffsets batches.flatten c := by
  have hfirst := rewriteRecordBatchOffsets_flatten h b
  refine ⟨renumberedChain b batches, hfirst, length_rewriteRecordBatchOffsets hfirst,
    headRewritten_renumberedChain h b, ?_⟩
  rw [rewriteRecordBatchOffsets_flatten (wholeBatch_renumberedChain h b),
    rewriteRecordBatchOffsets_flatten h, renumberedChain_renumberedChain h]

/-- A batch of one record without payload: a header and nothing behind it. -/
def headerOnly : Bytes := List.replicate 8 0 ++ beBytes 4 49 ++ List.replicate 49 0

theorem wholeBatch_headerOnly : WholeBatch headerOnly := ⟨by decide, by decide⟩

theorem rewriteRecordBatchOffsets_frame_headerOnly :
    ∃ rewritten : List Bytes,
      rewriteRecordBatchOffsets [headerOnly, headerOnly].flatten 7 = some rewritten.flatten ∧
        rewritten.flatten.length = [headerOnly, headerOnly].flatten.length ∧
        List.Forall₂ HeadRewritten [headerOnly, headerOnly] rewritten ∧
        rewriteRecordBatchOffsets rewritten.flatten 9 =
          rewriteRecordBatchOffsets [headerOnly, headerOnly].flatten 9 := by
  refine rewriteRecordBatchOffsets_frame [headerOnly, headerOnly] ?_ 7 9
  intro batch hbatch
  rcases List.mem_cons.mp hbatch with rfl | hlast
  · exact wholeBatch_headerOnly
  · rw [List.mem_singleton.mp hlast]
    exact wholeBatch_headerOnly

end Mkmq
