import Mkmq.ByteCodec

/-!
# On-disk format: log frames and index entries

A segment file is a sequence of frames, an index file a sequence of fixed-size
entries; both are padded to the DMA alignment of the file (`log_frame_alignment_`).
This module embeds the encoders and decoders of `src/partition_log_shard.cpp` and the
integer helpers of `src/broker_shard_detail.hpp`, and proves that each part of an
encoded frame or entry reads back.
-/

namespace Mkmq

open ByteCodec

variable {alignment : Nat}

def kLogMagic : Bytes := [0x4D, 0x4B, 0x4D, 0x51, 0x4C, 0x4F, 0x47, 0x31]
def kIndexMagic : Bytes := [0x4D, 0x4B, 0x4D, 0x51, 0x49, 0x44, 0x58, 0x31]
def kIndexEntryPayloadSize : Nat := 48

def roundUp (value alignment : Nat) : Nat := ((value + alignment - 1) / alignment) * alignment

def getI64 (buffer : Bytes) (pos : Nat) : Int := signed 64 (leNat (slice buffer pos 8))
def getI32 (buffer : Bytes) (pos : Nat) : Int := signed 32 (leNat (slice buffer pos 4))

/-! ### Rounding -/

theorem le_roundUp (h : 0 < alignment) (value : Nat) : value ≤ roundUp value alignment := by
  unfold roundUp
  have hdiv := Nat.div_add_mod (value + alignment - 1) alignment
  have hmod := Nat.mod_lt (value + alignment - 1) h
  rw [Nat.mul_comm] at hdiv
  omega

theorem dvd_roundUp (value alignment : Nat) : alignment ∣ roundUp value alignment :=
  ⟨_, Nat.mul_comm _ _⟩

theorem roundUp_eq_alignment {value : Nat} (hpos : 0 < value) (hle : value ≤ alignment) :
    roundUp value alignment = alignment := by
  unfold roundUp
  have hdiv : (value + alignment - 1) / alignment = 1 := by
    apply Nat.div_eq_of_lt_le <;> omega
  rw [hdiv, Nat.one_mul]

theorem alignment_le_roundUp {value : Nat} (hpos : 0 < value) (ha : 0 < alignment) :
    alignment ≤ roundUp value alignment := by
  have hle := le_roundUp ha value
  exact Nat.le_of_dvd (by omega) (dvd_roundUp value alignment)

/-! ### Frames -/

/-- The bytes of file a record set of `recordBytes` bytes takes. -/
def frameSize (alignment recordBytes : Nat) : Nat := roundUp (20 + recordBytes) alignment

/-- The buffer `write_record_set` fills: magic, base offset, byte count, records, zeros. -/
def encodeFrame (alignment : Nat) (baseOffset : Int) (bytes : Bytes) : Bytes :=
  kLogMagic ++ i64le baseOffset ++ i32le bytes.length ++ bytes ++
    List.replicate (frameSize alignment bytes.length - (20 + bytes.length)) 0

theorem le_frameSize (h : 0 < alignment) (recordBytes : Nat) :
    20 + recordBytes ≤ frameSize alignment recordBytes := le_roundUp h _

theorem alignment_le_frameSize (h : 0 < alignment) (recordBytes : Nat) :
    alignment ≤ frameSize alignment recordBytes := alignment_le_roundUp (by omega) h

theorem length_kLogMagic : kLogMagic.length = 8 := rfl

@[simp] theorem length_encodeFrame (h : 0 < alignment) (baseOffset : Int) (bytes : Bytes) :
    (encodeFrame alignment baseOffset bytes).length = frameSize alignment bytes.length := by
  have hle := le_frameSize h bytes.length
  simp only [encodeFrame, List.length_append, length_kLogMagic, length_i64le, length_i32le,
    List.length_replicate]
  omega

section FrameFields

variable (alignment : Nat) (baseOffset : Int) (bytes : Bytes)

theorem slice_encodeFrame_magic :
    slice (encodeFrame alignment baseOffset bytes) 0 8 = kLogMagic := by
  unfold encodeFrame
  rw [List.append_assoc, List.append_assoc, List.append_assoc]
  exact slice_append_exact [] kLogMagic _

theorem slice_encodeFrame_base :
    slice (encodeFrame alignment baseOffset bytes) 8 8 = i64le baseOffset := by
  unfold encodeFrame
  rw [List.append_assoc, List.append_assoc]
  have h := slice_append_exact kLogMagic (i64le baseOffset)
    (i32le bytes.length ++ (bytes ++
      List.replicate (frameSize alignment bytes.length - (20 + bytes.length)) 0))
  rwa [length_kLogMagic, length_i64le] at h

theorem slice_encodeFrame_count :
    slice (encodeFrame alignment baseOffset bytes) 16 4 = i32le bytes.length := by
  unfold encodeFrame
  rw [List.append_assoc]
  have h := slice_append_exact (kLogMagic ++ i64le baseOffset) (i32le bytes.length)
    (bytes ++ List.replicate (frameSize alignment bytes.length - (20 + bytes.length)) 0)
  rwa [List.length_append, length_kLogMagic, length_i64le, length_i32le] at h

theorem slice_encodeFrame_payload :
    slice (encodeFrame alignment baseOffset bytes) 20 bytes.length = bytes := by
  unfold encodeFrame
  have h := slice_append_exact (kLogMagic ++ i64le baseOffset ++ i32le bytes.length) bytes
    (List.replicate (frameSize alignment bytes.length - (20 + bytes.length)) 0)
  rwa [List.length_append, List.length_append, length_kLogMagic, length_i64le,
    length_i32le] at h

theorem getI64_encodeFrame (h : FitsInt64 baseOffset) :
    getI64 (encodeFrame alignment baseOffset bytes) 8 = baseOffset := by
  unfold getI64
  rw [slice_encodeFrame_base, signed_leNat_i64le h]

theorem getI32_encodeFrame (h : bytes.length < 2 ^ 31) :
    getI32 (encodeFrame alignment baseOffset bytes) 16 = bytes.length := by
  unfold getI32
  rw [slice_encodeFrame_count]
  exact signed_leNat_i32le (by omega) (by omega)

end FrameFields

/-- A frame field read through a larger buffer: the header fields only depend on the
    frame that starts at `pos`. -/
theorem getI64_of_slice {buffer frame : Bytes} {pos n off : Nat}
    (h : slice buffer pos n = frame) (hoff : off + 8 ≤ n) :
    getI64 buffer (pos + off) = getI64 frame off := by
  unfold getI64
  rw [← h, slice_slice hoff]

theorem getI32_of_slice {buffer frame : Bytes} {pos n off : Nat}
    (h : slice buffer pos n = frame) (hoff : off + 4 ≤ n) :
    getI32 buffer (pos + off) = getI32 frame off := by
  unfold getI32
  rw [← h, slice_slice hoff]

/-! ### Index entries -/

structure IndexEntry where
  baseOffset : Int := 0
  lastOffset : Int := -1
  segmentBase : Int := 0
  segmentPosition : Nat := 0
  recordBytes : Int := 0
deriving DecidableEq, Repr

def indexEntrySize (alignment : Nat) : Nat := roundUp kIndexEntryPayloadSize alignment

def encodeIndexEntry (alignment : Nat) (entry : IndexEntry) : Bytes :=
  kIndexMagic ++ i64le entry.baseOffset ++ i64le entry.lastOffset ++ i64le entry.segmentBase ++
    leBytes 8 entry.segmentPosition ++ i32le entry.recordBytes ++
    List.replicate (indexEntrySize alignment - 44) 0

/-- Rejects a wrong magic, a non-positive byte count and an offset range that is empty. -/
def decodeIndexEntry (bytes : Bytes) : Option IndexEntry :=
  if slice bytes 0 8 ≠ kIndexMagic then none
  else
    let entry : IndexEntry :=
      { baseOffset := getI64 bytes 8
        lastOffset := getI64 bytes 16
        segmentBase := getI64 bytes 24
        segmentPosition := leNat (slice bytes 32 8)
        recordBytes := getI32 bytes 40 }
    if entry.recordBytes ≤ 0 ∨ entry.lastOffset < entry.baseOffset then none else some entry

/-- The fields of an entry fit the integer types they are stored in. -/
structure IndexEntry.Storable (entry : IndexEntry) : Prop where
  baseOffset : FitsInt64 entry.baseOffset
  lastOffset : FitsInt64 entry.lastOffset
  segmentBase : FitsInt64 entry.segmentBase
  segmentPosition : entry.segmentPosition < 2 ^ 64
  recordBytes : -2 ^ 31 ≤ entry.recordBytes ∧ entry.recordBytes < 2 ^ 31

theorem le_indexEntrySize (h : 0 < alignment) : 48 ≤ indexEntrySize alignment := le_roundUp h _

theorem length_encodeIndexEntry (h : 0 < alignment) (entry : IndexEntry) :
    (encodeIndexEntry alignment entry).length = indexEntrySize alignment := by
  have hle := le_indexEntrySize h
  have hmagic : kIndexMagic.length = 8 := rfl
  simp only [encodeIndexEntry, List.length_append, hmagic, length_i64le, length_i32le,
    length_leBytes, List.length_replicate]
  omega

section EntryFields

variable (alignment : Nat) (entry : IndexEntry)

theorem slice_encodeIndexEntry_magic :
    slice (encodeIndexEntry alignment entry) 0 8 = kIndexMagic := by
  unfold encodeIndexEntry
  simp only [List.append_assoc]
  exact slice_append_exact [] kIndexMagic _

theorem slice_encodeIndexEntry_base :
    slice (encodeIndexEntry alignment entry) 8 8 = i64le entry.baseOffset := by
  unfold encodeIndexEntry
  have h := slice_append_exact kIndexMagic (i64le entry.baseOffset)
    (i64le entry.lastOffset ++ i64le entry.segmentBase ++ leBytes 8 entry.segmentPosition ++
      i32le entry.recordBytes ++ List.replicate (indexEntrySize alignment - 44) 0)
  simp only [List.append_assoc] at h ⊢
  rwa [length_i64le] at h

theorem slice_encodeIndexEntry_last :
    slice (encodeIndexEntry alignment entry) 16 8 = i64le entry.lastOffset := by
  unfold encodeIndexEntry
  have h := slice_append_exact (kIndexMagic ++ i64le entry.baseOffset) (i64le entry.lastOffset)
    (i64le entry.segmentBase ++ leBytes 8 entry.segmentPosition ++
      i32le entry.recordBytes ++ List.replicate (indexEntrySize alignment - 44) 0)
  rw [List.length_append, length_i64le, length_i64le] at h
  simp only [List.append_assoc] at h ⊢
  exact h

theorem slice_encodeIndexEntry_segmentBase :
    slice (encodeIndexEntry alignment entry) 24 8 = i64le entry.segmentBase := by
  unfold encodeIndexEntry
  have h := slice_append_exact
    (kIndexMagic ++ i64le entry.baseOffset ++ i64le entry.lastOffset) (i64le entry.segmentBase)
    (leBytes 8 entry.segmentPosition ++ i32le entry.recordBytes ++
      List.replicate (indexEntrySize alignment - 44) 0)
  rw [List.length_append, List.length_append, length_i64le, length_i64le, length_i64le] at h
  simp only [List.append_assoc] at h ⊢
  exact h

theorem slice_encodeIndexEntry_position :
    slice (encodeIndexEntry alignment entry) 32 8 = leBytes 8 entry.segmentPosition := by
  unfold encodeIndexEntry
  have h := slice_append_exact
    (kIndexMagic ++ i64le entry.baseOffset ++ i64le entry.lastOffset ++ i64le entry.segmentBase)
    (leBytes 8 entry.segmentPosition)
    (i32le entry.recordBytes ++ List.replicate (indexEntrySize alignment - 44) 0)
  simp only [List.length_append, length_i64le, length_leBytes] at h
  simp only [List.append_assoc] at h ⊢
  exact h

theorem slice_encodeIndexEntry_recordBytes :
    slice (encodeIndexEntry alignment entry) 40 4 = i32le entry.recordBytes := by
  unfold encodeIndexEntry
  have h := slice_append_exact
    (kIndexMagic ++ i64le entry.baseOffset ++ i64le entry.lastOffset ++ i64le entry.segmentBase ++
      leBytes 8 entry.segmentPosition) (i32le entry.recordBytes)
    (List.replicate (indexEntrySize alignment - 44) 0)
  simp only [List.length_append, length_i64le, length_leBytes, length_i32le] at h
  exact h

end EntryFields

/-- **Index entries round-trip** when their byte count is positive and their offset range
    is not empty; any other entry is rejected on the way back. -/
theorem decodeIndexEntry_encode (alignment : Nat) {entry : IndexEntry} (h : entry.Storable) :
    decodeIndexEntry (encodeIndexEntry alignment entry) =
      if entry.recordBytes ≤ 0 ∨ entry.lastOffset < entry.baseOffset then none
      else some entry := by
  have hbase : getI64 (encodeIndexEntry alignment entry) 8 = entry.baseOffset := by
    unfold getI64
    rw [slice_encodeIndexEntry_base, signed_leNat_i64le h.baseOffset]
  have hlast : getI64 (encodeIndexEntry alignment entry) 16 = entry.lastOffset := by
    unfold getI64
    rw [slice_encodeIndexEntry_last, signed_leNat_i64le h.lastOffset]
  have hsegment : getI64 (encodeIndexEntry alignment entry) 24 = entry.segmentBase := by
    unfold getI64
    rw [slice_encodeIndexEntry_segmentBase, signed_leNat_i64le h.segmentBase]
  have hposition : leNat (slice (encodeIndexEntry alignment entry) 32 8) =
      entry.segmentPosition := by
    rw [slice_encodeIndexEntry_position, leNat_leBytes]
    exact Nat.mod_eq_of_lt (by simpa using h.segmentPosition)
  have hrecords : getI32 (encodeIndexEntry alignment entry) 40 = entry.recordBytes := by
    unfold getI32
    rw [slice_encodeIndexEntry_recordBytes,
      signed_leNat_i32le h.recordBytes.1 h.recordBytes.2]
  unfold decodeIndexEntry
  rw [if_neg (not_not.mpr (slice_encodeIndexEntry_magic alignment entry))]
  simp only [hbase, hlast, hsegment, hposition, hrecords]

end Mkmq
