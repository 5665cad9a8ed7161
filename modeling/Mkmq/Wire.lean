import Mkmq.WriteProgram

/-!
# The Kafka wire primitives (`src/protocol/wire.cpp`)

`WireReader` reads fields off a buffer, `WireWriter` appends them to one.  A `std::string` is
its bytes, and integers have the widths of the source.  Every read begins with `require`, so
each of them is made of `readRaw`, which takes a number of bytes or throws.

`remaining()` is `size_ - pos_` in `size_t`.  The position never passes the size, so the
subtraction does not wrap (`ReadProgram.Running.Reached.pos_le`).
-/

namespace Mkmq

open ByteCodec ReadProgram ReadProgram.Program WriteProgram

variable {n : Nat} {value : Option Bytes} {count : Int32}

/-- The exceptions that are thrown, with their `what()`. -/
inductive Thrown where
  | protocolError (what : String)
  | invalidArgument (what : String)
  | runtimeError (what : String)
deriving DecidableEq, Repr

def Thrown.IsProtocolError : Thrown → Prop
  | .protocolError _ => True
  | .invalidArgument _ | .runtimeError _ => False

abbrev Reading := Program Thrown

abbrev Writing := WriteProgram.Writer Thrown Unit

/-! ### The reader -/

namespace WireReader

def readRaw (size : Nat) : Reading Bytes :=
  .take size (.protocolError "Kafka frame ended while decoding") .done

/-- `data_[pos_++]` after `require(1)`. -/
def readByte : Reading UInt8 := do
  let bytes ← readRaw 1
  return bytes.headD 0

def readInt8 : Reading Int8 := do
  let bytes ← readRaw 1
  return .ofBitVec (.ofNat 8 (beNat bytes))

def readBool : Reading Bool := do
  let value ← readInt8
  return value ≠ 0

def readInt16 : Reading Int16 := do
  let bytes ← readRaw 2
  return .ofBitVec (.ofNat 16 (beNat bytes))

def readInt32 : Reading Int32 := do
  let bytes ← readRaw 4
  return .ofBitVec (.ofNat 32 (beNat bytes))

def readInt64 : Reading Int64 := do
  let bytes ← readRaw 8
  return .ofBitVec (.ofNat 64 (beNat bytes))

/-- The loop of `read_unsigned_varint`. -/
def readVarintLoop : Nat → Nat → UInt32 → Reading UInt32
  | 0, _, _ => .fail (.protocolError "Kafka unsigned varint is too large")
  | turns + 1, shift, value => do
      let byte ← readByte
      let value := value ||| (byte &&& 0x7f).toUInt32 <<< UInt32.ofNat shift
      if byte &&& 0x80 = 0 then return value else readVarintLoop turns (shift + 7) value

/-- `shift` is below 32 for five turns. -/
def readUnsignedVarint : Reading UInt32 := readVarintLoop 5 0 0

def readString : Reading Bytes := do
  let size ← readInt16
  if size < 0 then .fail (.protocolError "Kafka string cannot be null")
  else readRaw size.toNatClampNeg

def readNullableString : Reading (Option Bytes) := do
  let size ← readInt16
  if size < 0 then return none
  else
    let bytes ← readRaw size.toNatClampNeg
    return some bytes

def readCompactString : Reading Bytes := do
  let sizePlusOne ← readUnsignedVarint
  if sizePlusOne = 0 then .fail (.protocolError "Kafka compact string cannot be null")
  else readRaw (sizePlusOne - 1).toNat

def readCompactNullableString : Reading (Option Bytes) := do
  let sizePlusOne ← readUnsignedVarint
  if sizePlusOne = 0 then return none
  else
    let bytes ← readRaw (sizePlusOne - 1).toNat
    return some bytes

def readBytes : Reading Bytes := do
  let size ← readInt32
  if size < 0 then .fail (.protocolError "Kafka bytes cannot be null")
  else readRaw size.toNatClampNeg

def readNullableBytes : Reading (Option Bytes) := do
  let size ← readInt32
  if size < 0 then return none
  else
    let bytes ← readRaw size.toNatClampNeg
    return some bytes

def readCompactNullableBytes : Reading (Option Bytes) := do
  let sizePlusOne ← readUnsignedVarint
  if sizePlusOne = 0 then return none
  else
    let bytes ← readRaw (sizePlusOne - 1).toNat
    return some bytes

def readArrayCount (flexible : Bool) (nullable : Bool := false) : Reading Int32 :=
  if !flexible then do
    let count ← readInt32
    if count < 0 ∧ !nullable then .fail (.protocolError "Kafka array cannot be null")
    else return count
  else do
    let countPlusOne ← readUnsignedVarint
    if countPlusOne = 0 then
      if !nullable then .fail (.protocolError "Kafka compact array cannot be null")
      else return -1
    else if countPlusOne > 0x7fffffff then
      .fail (.protocolError "Kafka compact array is too large")
    else return (countPlusOne - 1).toInt32

def skip (size : Nat) : Reading Unit := do
  let _ ← readRaw size
  return ()

/-- The loop of `skip_tagged_fields`, with the fields left, the index of the next one and the
    tag before it. -/
def skipTaggedFieldsLoop : Nat → Nat → UInt32 → Reading Unit
  | 0, _, _ => return ()
  | left + 1, i, previousTag => do
      let tag ← readUnsignedVarint
      if i > 0 ∧ tag ≤ previousTag then
        .fail (.protocolError "Kafka tagged fields are not strictly increasing")
      else
        let size ← readUnsignedVarint
        skip size.toNat
        skipTaggedFieldsLoop left (i + 1) tag

def skipTaggedFields : Reading Unit := do
  let fields ← readUnsignedVarint
  skipTaggedFieldsLoop fields.toNat 0 0

end WireReader

/-! ### The writer -/

namespace WireWriter

def writeRaw (value : Bytes) : Writing := append value

def writeInt8 (value : Int8) : Writing := writeRaw (beBytes 1 value.toBitVec.toNat)

def writeBool (value : Bool) : Writing := writeInt8 (if value then 1 else 0)

def writeInt16 (value : Int16) : Writing := writeRaw (beBytes 2 value.toBitVec.toNat)

def writeInt32 (value : Int32) : Writing := writeRaw (beBytes 4 value.toBitVec.toNat)

def writeInt64 (value : Int64) : Writing := writeRaw (beBytes 8 value.toBitVec.toNat)

/-- The loop of `write_unsigned_varint`; a 32-bit value has five groups of seven bits. -/
def writeVarintLoop : Nat → UInt32 → Writing
  | 0, value => writeRaw [value.toUInt8]
  | turns + 1, value =>
    if value &&& 0xffffff80 ≠ 0 then do
      writeRaw [((value &&& 0x7f) ||| 0x80).toUInt8]
      writeVarintLoop turns (value >>> 7)
    else writeRaw [value.toUInt8]

def writeUnsignedVarint (value : UInt32) : Writing := writeVarintLoop 5 value

def writeString (value : Bytes) : Writing :=
  if value.length > 32767 then fails (.protocolError "Kafka string is too large")
  else do
    writeInt16 (.ofNat value.length)
    writeRaw value

def writeNullableString (value : Option Bytes) : Writing :=
  match value with
  | none => writeInt16 (-1)
  | some value => writeString value

def writeCompactString (value : Bytes) : Writing := do
  writeUnsignedVarint (.ofNat (value.length + 1))
  writeRaw value

def writeCompactNullableString (value : Option Bytes) : Writing :=
  match value with
  | none => writeUnsignedVarint 0
  | some value => writeCompactString value

def writeBytes (value : Bytes) : Writing := do
  writeInt32 (.ofNat value.length)
  writeRaw value

def writeNullableBytes (value : Option Bytes) : Writing :=
  match value with
  | none => writeInt32 (-1)
  | some value => writeBytes value

def writeCompactNullableBytes (value : Option Bytes) : Writing :=
  match value with
  | none => writeUnsignedVarint 0
  | some value => do
      writeUnsignedVarint (.ofNat (value.length + 1))
      writeRaw value

def writeArrayCount (count : Int32) (flexible : Bool) : Writing :=
  if count < 0 then fails (.protocolError "Kafka array count cannot be negative")
  else if flexible then writeUnsignedVarint (count + 1).toUInt32
  else writeInt32 count

def writeNullableArrayCount (count : Int32) (flexible : Bool) : Writing :=
  if count < 0 then
    if flexible then writeUnsignedVarint 0 else writeInt32 (-1)
  else writeArrayCount count flexible

def writeEmptyTaggedFields : Writing := writeUnsignedVarint 0

def patchInt32 (offset : Nat) (value : Int32) : Writing := fun data =>
  if offset + 4 > data.length then .error (.protocolError "cannot patch int32 outside buffer")
  else .ok ((), splice data offset (beBytes 4 value.toBitVec.toNat))

/-- `take_bytes` of a writer that has written `w`. -/
def takeBytes (w : Writing) : Except Thrown Bytes := (w []).map Prod.snd

end WireWriter

open WireReader WireWriter

/-! ### Fixed-width fields -/

theorem reads_raw {bytes : Bytes} (hn : bytes.length = n) : Reads (readRaw n) bytes bytes :=
  reads_take hn _

theorem writes_raw (bytes : Bytes) : Writes (writeRaw bytes) bytes := writes_append bytes

theorem carries_raw (bytes : Bytes) : Carries (writeRaw bytes) (readRaw bytes.length) bytes :=
  ⟨bytes, writes_raw bytes, reads_raw rfl⟩

theorem beNat_beBytes_bitVec {w : Nat} (v : BitVec w) (hw : 2 ^ w = 256 ^ n) :
    BitVec.ofNat w (beNat (beBytes n v.toNat)) = v := by
  rw [beNat_beBytes, ← hw, Nat.mod_eq_of_lt v.isLt, BitVec.ofNat_toNat, BitVec.setWidth_eq]

/-- A big-endian field of `n` bytes, read as the bit pattern it was written as. -/
theorem carries_bits {α : Type} {w : Nat} (v : BitVec w) (hw : 2 ^ w = 256 ^ n)
    {decode : BitVec w → α} {value : α} (hdecode : decode v = value) :
    Carries (writeRaw (beBytes n v.toNat))
      (readRaw n >>= fun bytes => pure (decode (.ofNat w (beNat bytes)))) value := by
  have hraw := carries_raw (beBytes n v.toNat)
  rw [length_beBytes] at hraw
  refine hraw.ends ?_
  rw [beNat_beBytes_bitVec v hw, hdecode]

theorem carries_int8 (value : Int8) : Carries (writeInt8 value) readInt8 value :=
  carries_bits value.toBitVec rfl (Int8.ofBitVec_toBitVec value)

theorem carries_int16 (value : Int16) : Carries (writeInt16 value) readInt16 value :=
  carries_bits value.toBitVec rfl (Int16.ofBitVec_toBitVec value)

theorem carries_int32 (value : Int32) : Carries (writeInt32 value) readInt32 value :=
  carries_bits value.toBitVec rfl (Int32.ofBitVec_toBitVec value)

theorem carries_int64 (value : Int64) : Carries (writeInt64 value) readInt64 value :=
  carries_bits value.toBitVec rfl (Int64.ofBitVec_toBitVec value)

theorem carries_bool (value : Bool) : Carries (writeBool value) readBool value :=
  (carries_int8 _).ends (congrArg _ (by cases value <;> decide))

/-! ### Varints -/

theorem carries_byte (byte : UInt8) : Carries (writeRaw [byte]) readByte byte :=
  (carries_raw [byte]).ends rfl

theorem toBitVec_shiftLeft_ofNat (a : UInt32) {s : Nat} (hs : s < 32) :
    (a <<< UInt32.ofNat s).toBitVec = a.toBitVec <<< s := by
  rw [UInt32.toBitVec_shiftLeft, BitVec.shiftLeft_eq']
  congr 1
  simp
  omega

theorem toBitVec_low7 (value : UInt32) :
    (value &&& 0x7f).toBitVec = value.toBitVec &&& 127#32 := rfl

theorem toBitVec_high (value : UInt32) : (value >>> 7).toBitVec = value.toBitVec >>> 7 := by
  rw [UInt32.toBitVec_shiftRight]
  rfl

theorem getLsbD_low7 (v : BitVec 32) (j : Nat) :
    (v &&& 127#32).getLsbD j = (v.getLsbD j && decide (j < 7)) := by
  rw [BitVec.getLsbD_and, show (127#32) = BitVec.ofNat 32 (2 ^ 7 - 1) from rfl,
    BitVec.getLsbD_ofNat, Nat.testBit_two_pow_sub_one]
  by_cases hj : j < 7
  · have : j < 32 := by omega
    simp [hj, this]
  · simp [hj]

theorem varint_group (value : UInt32) {shift : Nat} (hshift : shift < 25) :
    (value &&& 0x7f) <<< UInt32.ofNat shift ||| (value >>> 7) <<< UInt32.ofNat (shift + 7) =
      value <<< UInt32.ofNat shift := by
  apply UInt32.toBitVec_inj.mp
  rw [UInt32.toBitVec_or, toBitVec_shiftLeft_ofNat _ (by omega),
    toBitVec_shiftLeft_ofNat _ (by omega), toBitVec_shiftLeft_ofNat _ (by omega), toBitVec_low7,
    toBitVec_high]
  apply BitVec.eq_of_getLsbD_eq
  intro i hi
  rw [BitVec.getLsbD_or, BitVec.getLsbD_shiftLeft, BitVec.getLsbD_shiftLeft,
    BitVec.getLsbD_shiftLeft, getLsbD_low7, BitVec.getLsbD_ushiftRight]
  by_cases hlow : i < shift + 7
  · by_cases hbelow : i < shift
    · simp [hlow, hbelow]
    · have : i - shift < 7 := by omega
      simp [hlow, hbelow, this]
  · have : ¬ i < shift := by omega
    have : ¬ i - shift < 7 := by omega
    have : 7 + (i - (shift + 7)) = i - shift := by omega
    simp [*]

/-- The bits above the lowest seven. -/
theorem toNat_and_mask (value : UInt32) :
    (value &&& 0xffffff80).toNat = value.toNat / 128 * 128 := by
  have hlt := value.toNat_lt
  rw [UInt32.toNat_and]
  apply Nat.eq_of_testBit_eq
  intro i
  have hmask : (UInt32.toNat 0xffffff80) = (2 ^ 25 - 1) * 2 ^ 7 := by decide
  rw [Nat.testBit_and, hmask, show (128 : Nat) = 2 ^ 7 from rfl, Nat.testBit_mul_two_pow,
    Nat.testBit_two_pow_sub_one, Nat.testBit_mul_two_pow, Nat.testBit_div_two_pow]
  by_cases h7 : 7 ≤ i
  · by_cases h32 : i < 32
    · have : i - 7 < 25 := by omega
      have : i - 7 + 7 = i := by omega
      simp [*]
    · have : value.toNat.testBit i = false :=
        Nat.testBit_lt_two_pow (lt_of_lt_of_le hlt (Nat.pow_le_pow_right (by decide) (by omega)))
      have : i - 7 + 7 = i := by omega
      simp [*]
  · simp [h7]

/-- The loop goes on while a bit above the lowest seven is set. -/
theorem more_groups_iff (value : UInt32) : value &&& 0xffffff80 ≠ 0 ↔ 128 ≤ value.toNat := by
  have h := toNat_and_mask value
  rw [ne_eq, ← UInt32.toNat_inj, h, UInt32.toNat_zero]
  omega

theorem toNat_low7 (value : UInt32) : (value &&& 0x7f).toNat = value.toNat % 128 := by
  rw [UInt32.toNat_and]
  exact Nat.and_two_pow_sub_one_eq_mod _ 7

theorem toNat_low7_byte (byte : UInt8) : (byte &&& 0x7f).toNat = byte.toNat % 128 := by
  rw [UInt8.toNat_and]
  exact Nat.and_two_pow_sub_one_eq_mod _ 7

theorem high_bit_iff (byte : UInt8) : byte &&& 0x80 = 0 ↔ byte.toNat < 128 := by
  have hcases : ∀ b : BitVec 8, b &&& 128#8 = 0#8 ↔ b.toNat < 128 := by decide +kernel
  rw [← UInt8.toBitVec_inj]
  exact hcases byte.toBitVec

theorem last_group {value : UInt32} (h : value.toNat < 128) :
    value.toUInt8 &&& 0x80 = 0 ∧ (value.toUInt8 &&& 0x7f).toUInt32 = value := by
  have hbyte : value.toUInt8.toNat = value.toNat := by
    rw [UInt32.toNat_toUInt8]
    omega
  refine ⟨(high_bit_iff _).mpr (by omega), UInt32.toNat_inj.mp ?_⟩
  rw [UInt8.toNat_toUInt32, toNat_low7_byte]
  omega

theorem marked_group (value : UInt32) :
    ((value &&& 0x7f) ||| 0x80).toUInt8 &&& 0x80 ≠ 0 ∧
      ((((value &&& 0x7f) ||| 0x80).toUInt8) &&& 0x7f).toUInt32 = value &&& 0x7f := by
  have hor : ((value &&& 0x7f) ||| 0x80).toNat = value.toNat % 128 + 128 := by
    rw [UInt32.toNat_or, toNat_low7]
    have := Nat.two_pow_add_eq_or_of_lt (Nat.mod_lt value.toNat (by decide : 2 ^ 7 > 0)) 1
    rw [Nat.or_comm]
    simp at this ⊢
    omega
  have hbyte : ((value &&& 0x7f) ||| 0x80).toUInt8.toNat = value.toNat % 128 + 128 := by
    rw [UInt32.toNat_toUInt8, hor]
    omega
  refine ⟨fun h => ?_, UInt32.toNat_inj.mp ?_⟩
  · have := (high_bit_iff _).mp h
    omega
  · rw [UInt8.toNat_toUInt32, toNat_low7_byte, hbyte, toNat_low7]
    omega

/-- The last group of a value. -/
theorem carries_lastGroup (turns shift : Nat) {value : UInt32} (acc : UInt32)
    (hsmall : value.toNat < 128) :
    Carries (writeVarintLoop (turns + 1) value) (readVarintLoop (turns + 1) shift acc)
      (acc ||| value <<< UInt32.ofNat shift) := by
  obtain ⟨hlast, hgroup⟩ := last_group hsmall
  rw [writeVarintLoop, if_neg (by rw [more_groups_iff]; omega)]
  refine (carries_byte value.toUInt8).ends ?_
  simp only [hlast, hgroup, if_true]

/-- The two loops, group by group: `acc` holds the bits below `shift`. -/
theorem carries_varintLoop (turns shift : Nat) (value acc : UInt32)
    (hvalue : value.toNat < 2 ^ (7 * (turns + 1))) (hshift : shift + 7 * turns ≤ 28) :
    Carries (writeVarintLoop (turns + 1) value) (readVarintLoop (turns + 1) shift acc)
      (acc ||| value <<< UInt32.ofNat shift) := by
  induction turns generalizing shift value acc with
  | zero => exact carries_lastGroup 0 shift acc (by simpa using hvalue)
  | succ turns ih =>
    by_cases hsmall : value.toNat < 128
    · exact carries_lastGroup _ shift acc hsmall
    · obtain ⟨hmarked, hgroup⟩ := marked_group value
      have hrest : (value >>> 7).toNat < 2 ^ (7 * (turns + 1)) := by
        have hpow : 2 ^ (7 * (turns + 1 + 1)) = 2 ^ (7 * (turns + 1)) * 128 := by
          rw [Nat.mul_succ 7 (turns + 1), Nat.pow_add]
        have hshift : (value >>> 7).toNat = value.toNat / 128 := by
          rw [UInt32.toNat_shiftRight]
          exact Nat.shiftRight_eq_div_pow _ 7
        rw [hshift, Nat.div_lt_iff_lt_mul (by decide)]
        exact lt_of_lt_of_eq hvalue hpow
      have hlater := ih (shift + 7) (value >>> 7)
        (acc ||| (value &&& 0x7f) <<< UInt32.ofNat shift) hrest (by omega)
      rw [UInt32.or_assoc, varint_group value (by omega)] at hlater
      rw [writeVarintLoop, if_pos (by rw [more_groups_iff]; omega)]
      refine (carries_byte _).seq ?_
      simp only [hmarked, hgroup, if_false]
      exact hlater

theorem carries_unsignedVarint (value : UInt32) :
    Carries (writeUnsignedVarint value) readUnsignedVarint value := by
  have hvalue : (0 : UInt32) ||| value <<< UInt32.ofNat 0 = value := by
    apply UInt32.toBitVec_inj.mp
    rw [UInt32.toBitVec_or, toBitVec_shiftLeft_ofNat _ (by decide), BitVec.shiftLeft_zero]
    exact BitVec.zero_or
  have h := carries_varintLoop 4 0 value 0 (lt_trans value.toNat_lt (by decide)) (by omega)
  rwa [hvalue] at h

/-! ### Strings and bytes -/

theorem size_int16 (h : n ≤ 32767) : ¬ Int16.ofNat n < 0 ∧ (Int16.ofNat n).toNatClampNeg = n := by
  have hint := Int16.toInt_ofNat_of_lt (lt_of_le_of_lt h (by decide : 32767 < 2 ^ 15))
  refine ⟨fun hneg => ?_, ?_⟩
  · rw [Int16.lt_iff_toInt_lt, hint] at hneg
    exact absurd hneg (by simp)
  · rw [Int16.toNatClampNeg, hint, Int.toNat_natCast]

theorem size_int32 (h : n < 2 ^ 31) : ¬ Int32.ofNat n < 0 ∧ (Int32.ofNat n).toNatClampNeg = n := by
  have hint := Int32.toInt_ofNat_of_lt h
  refine ⟨fun hneg => ?_, ?_⟩
  · rw [Int32.lt_iff_toInt_lt, hint] at hneg
    exact absurd hneg (by simp)
  · rw [Int32.toNatClampNeg, hint, Int.toNat_natCast]

theorem size_varint (h : n + 1 < 2 ^ 32) :
    UInt32.ofNat (n + 1) ≠ 0 ∧ (UInt32.ofNat (n + 1) - 1).toNat = n := by
  have hnat : (UInt32.ofNat (n + 1)).toNat = n + 1 := UInt32.toNat_ofNat_of_lt' h
  refine ⟨fun hzero => ?_, ?_⟩
  · rw [hzero] at hnat
    exact absurd hnat.symm (Nat.succ_ne_zero n)
  · rw [UInt32.toNat_sub_of_le _ _ (UInt32.le_iff_toNat_le.mpr (by rw [hnat]; simp)), hnat]
    rfl

theorem carries_string {value : Bytes} (h : value.length ≤ 32767) :
    Carries (writeString value) readString value := by
  obtain ⟨hsign, hsize⟩ := size_int16 h
  rw [writeString, if_neg (by omega)]
  refine (carries_int16 _).seq ?_
  rw [if_neg hsign, hsize]
  exact carries_raw value

theorem carries_nullableString (h : ∀ bytes ∈ value, bytes.length ≤ 32767) :
    Carries (writeNullableString value) readNullableString value := by
  cases value with
  | none => exact (carries_int16 (-1)).ends rfl
  | some bytes =>
    obtain ⟨hsign, hsize⟩ := size_int16 (h bytes rfl)
    rw [writeNullableString, writeString, if_neg (by have := h bytes rfl; omega)]
    refine (carries_int16 _).seq ?_
    rw [if_neg hsign, hsize]
    exact (carries_raw bytes).ends rfl

theorem carries_bytes {value : Bytes} (h : value.length < 2 ^ 31) :
    Carries (writeBytes value) readBytes value := by
  obtain ⟨hsign, hsize⟩ := size_int32 h
  refine (carries_int32 _).seq ?_
  rw [if_neg hsign, hsize]
  exact carries_raw value

theorem carries_nullableBytes (h : ∀ bytes ∈ value, bytes.length < 2 ^ 31) :
    Carries (writeNullableBytes value) readNullableBytes value := by
  cases value with
  | none => exact (carries_int32 (-1)).ends rfl
  | some bytes =>
    obtain ⟨hsign, hsize⟩ := size_int32 (h bytes rfl)
    refine (carries_int32 _).seq ?_
    rw [if_neg hsign, hsize]
    exact (carries_raw bytes).ends rfl

theorem carries_compactString {value : Bytes} (h : value.length + 1 < 2 ^ 32) :
    Carries (writeCompactString value) readCompactString value := by
  obtain ⟨hzero, hsize⟩ := size_varint h
  refine (carries_unsignedVarint _).seq ?_
  rw [if_neg hzero, hsize]
  exact carries_raw value

/-- `read_compact_nullable_string` and `read_compact_nullable_bytes` are the same. -/
theorem carries_compactNullableBytes (h : ∀ bytes ∈ value, bytes.length + 1 < 2 ^ 32) :
    Carries (writeCompactNullableBytes value) readCompactNullableBytes value := by
  cases value with
  | none => exact (carries_unsignedVarint 0).ends rfl
  | some bytes =>
    obtain ⟨hzero, hsize⟩ := size_varint (h bytes rfl)
    refine (carries_unsignedVarint _).seq ?_
    rw [if_neg hzero, hsize]
    exact (carries_raw bytes).ends rfl

theorem carries_compactNullableString (h : ∀ bytes ∈ value, bytes.length + 1 < 2 ^ 32) :
    Carries (writeCompactNullableString value) readCompactNullableString value := by
  cases value with
  | none => exact carries_compactNullableBytes h
  | some bytes => exact carries_compactNullableBytes h

/-! ### Array counts and tagged fields -/

/-- The varint of a count: neither null nor too large, and one more than the count. -/
theorem count_varint (hlo : 0 ≤ count) (hhi : count < 0x7fffffff) :
    (count + 1).toUInt32 ≠ 0 ∧ ¬ (count + 1).toUInt32 > 0x7fffffff ∧
      ((count + 1).toUInt32 - 1).toInt32 = count := by
  have hone : (count + 1).toUInt32 = count.toUInt32 + 1 := Int32.toUInt32_add count 1
  have hbound : count.toNatClampNeg < 0x7fffffff := by
    have hint : count.toInt < 0x7fffffff := Int32.lt_iff_toInt_lt.mp hhi
    have hclamp : count.toNatClampNeg = count.toInt.toNat := rfl
    omega
  have hnat : (count.toUInt32 + 1).toNat = count.toNatClampNeg + 1 := by
    rw [UInt32.toNat_add, Int32.toNat_toUInt32_of_le hlo]
    exact Nat.mod_eq_of_lt (by rw [UInt32.toNat_one]; omega)
  rw [hone]
  refine ⟨fun hzero => ?_, fun hlarge => ?_, ?_⟩
  · rw [hzero, UInt32.toNat_zero] at hnat
    exact absurd hnat.symm (Nat.succ_ne_zero _)
  · have hlt := UInt32.lt_iff_toNat_lt.mp hlarge
    rw [hnat] at hlt
    exact absurd hlt (by change ¬ 0x7fffffff < _; omega)
  · rw [UInt32.add_sub_cancel, Int32.toInt32_toUInt32]

/-- The count of an array that is there. -/
theorem carries_arrayCount (hlo : 0 ≤ count) (hhi : count < 0x7fffffff) (flexible nullable : Bool) :
    Carries (writeArrayCount count flexible) (readArrayCount flexible nullable) count := by
  have hsign : ¬ count < 0 := Int32.not_lt.mpr hlo
  rw [writeArrayCount, if_neg hsign]
  cases flexible with
  | false =>
    refine (carries_int32 count).ends ?_
    rw [if_neg fun h => hsign h.1]
  | true =>
    obtain ⟨hnull, hlarge, hcount⟩ := count_varint hlo hhi
    refine (carries_unsignedVarint _).ends ?_
    rw [if_neg hnull, if_neg hlarge, hcount]

/-- A count that may be that of a null array. -/
theorem carries_nullableArrayCount (hlo : -1 ≤ count) (hhi : count < 0x7fffffff) (flexible : Bool) :
    Carries (writeNullableArrayCount count flexible) (readArrayCount flexible true) count := by
  by_cases hsign : count < 0
  · have hnull : -1 = count := by
      refine Int32.le_antisymm hlo ?_
      have hlt := Int32.lt_iff_toInt_lt.mp hsign
      exact Int32.le_iff_toInt_le.mpr (Int.le_of_lt_add_one hlt)
    rw [writeNullableArrayCount, if_pos hsign, ← hnull]
    cases flexible with
    | false => exact (carries_int32 (-1)).ends rfl
    | true => exact (carries_unsignedVarint 0).ends rfl
  · rw [writeNullableArrayCount, if_neg hsign]
    exact carries_arrayCount (Int32.not_lt.mp hsign) hhi flexible true

/-- The count of a list, as a `std::int32_t`. -/
theorem carries_listCount (h : n < 0x7fffffff) (nullable : Bool) :
    Carries (writeArrayCount (.ofNat n) true) (readArrayCount true nullable) (.ofNat n) := by
  have hint := Int32.toInt_ofNat_of_lt (lt_trans h (by decide))
  refine carries_arrayCount ?_ ?_ true nullable
  · exact Int32.not_lt.mp (size_int32 (lt_trans h (by decide))).1
  · refine Int32.lt_iff_toInt_lt.mpr ?_
    rw [hint]
    exact Int.ofNat_lt.mpr h

theorem carries_emptyTaggedFields : Carries writeEmptyTaggedFields skipTaggedFields () :=
  (carries_unsignedVarint 0).ends rfl

end Mkmq
