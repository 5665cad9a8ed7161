import Mkmq.BitPolynomial
import Mkmq.Crc32c

/-!
# CRC-32C word by word and byte by byte

The SSE4.2 `CRC32` instruction is defined by polynomial division: the operand and the register
are reflected, shifted against each other, added, and the remainder by the Castagnoli
polynomial is reflected back.  `mmCrc32U8`, `mmCrc32U32` and `mmCrc32U64` compute exactly that.
The three loops of `crc32c` together equal the usual bitwise algorithm that takes one byte at a
time.
-/

namespace Mkmq

open ByteCodec BitPolynomial Polynomial

variable {w : Nat}

/-- `11EDC6F41H`, the Castagnoli polynomial with its leading term. -/
def castagnoli : BitVec 33 := 0x11EDC6F41#33

/-- The definition of the `CRC32` instruction for a source operand of `w` bits: `TEMP1` and
    `TEMP2` are the reflected operands, `TEMP3` to `TEMP5` their shifted sum, and the result is
    the reflected remainder of that sum. -/
def IsCrc32 {w : Nat} (dest : BitVec 32) (src : BitVec w) (result : BitVec 32) : Prop :=
  let temp1 := src.reverse
  let temp2 := dest.reverse
  let temp3 : BitVec (w + 32) := temp1.setWidth (w + 32) <<< 32
  let temp4 : BitVec (w + 32) := temp2.setWidth (w + 32) <<< w
  let temp5 := temp3 ^^^ temp4
  ofBits temp5 %ₘ ofBits castagnoli = ofBits result.reverse

/-- The bitwise algorithm: the byte is added to the register, which is then shifted eight times
    and reduced by the reflected polynomial whenever a one leaves it. -/
def crcByte (crc : BitVec 32) (byte : UInt8) : BitVec 32 :=
  let shift (crc : BitVec 32) : BitVec 32 :=
    if crc.getLsbD 0 then (crc >>> 1) ^^^ (0x1EDC6F41#32).reverse else crc >>> 1
  shift^[8] (crc ^^^ byte.toBitVec.setWidth 32)

/-- The reference CRC-32C, one byte at a time. -/
def crc32cBytewise (data : Bytes) : BitVec 32 := data.foldl crcByte 0xffffffff#32 ^^^ 0xffffffff#32

/-! ### One bit is one division step -/

theorem castagnoli_bits : ∀ i < 32, castagnoli.getLsbD i = (0x82F63B78#32).getLsbD (31 - i) := by
  decide

theorem getLsbD_crcShift (crc : BitVec 32) (i : Nat) :
    (crcShift crc).getLsbD i =
      (crc.getLsbD (i + 1) ^^ (crc.getLsbD 0 && (0x82F63B78#32).getLsbD i)) := by
  unfold crcShift
  cases crc.getLsbD 0 with
  | false =>
    simp only [Bool.false_eq_true, if_false, Bool.false_and, Bool.xor_false]
    rw [BitVec.getLsbD_ushiftRight, Nat.add_comm]
  | true =>
    simp only [if_true, Bool.true_and]
    rw [BitVec.getLsbD_xor, BitVec.getLsbD_ushiftRight, Nat.add_comm]

theorem bitCoeff_and (a b : Bool) : bitCoeff (a && b) = bitCoeff a * bitCoeff b := by
  cases a <;> cases b <;> decide

theorem getLsbD_reverse_of_lt (crc : BitVec 32) {i : Nat} (h : i < 32) :
    crc.reverse.getLsbD i = crc.getLsbD (31 - i) := by
  rw [BitVec.getLsbD_reverse, BitVec.getMsbD, decide_eq_true h, Bool.true_and]

theorem ofBits_crcShift (crc : BitVec 32) :
    ofBits (crcShift crc).reverse =
      X * ofBits crc.reverse + ofBits castagnoli * C (bitCoeff (crc.getLsbD 0)) := by
  ext i
  rw [coeff_add, coeff_mul_C, coeff_ofBits, coeff_ofBits]
  rcases Nat.lt_trichotomy i 32 with hi | rfl | hi
  · rw [getLsbD_reverse_of_lt _ hi, getLsbD_crcShift, bitCoeff_xor, bitCoeff_and,
      castagnoli_bits i hi, mul_comm (bitCoeff (crc.getLsbD 0))]
    congr 1
    cases i with
    | zero =>
      rw [coeff_X_mul_zero, BitVec.getLsbD_of_ge _ _ (by decide)]
      rfl
    | succ i =>
      rw [coeff_X_mul, coeff_ofBits, getLsbD_reverse_of_lt _ (by omega)]
      congr 2
      omega
  · rw [BitVec.getLsbD_of_ge _ _ (le_refl 32), coeff_X_mul, coeff_ofBits,
      getLsbD_reverse_of_lt _ (by decide)]
    cases crc.getLsbD 0 <;> decide
  · obtain ⟨j, rfl⟩ : ∃ j, i = j + 1 := ⟨i - 1, by omega⟩
    rw [BitVec.getLsbD_of_ge _ _ (by omega), coeff_X_mul, coeff_ofBits,
      BitVec.getLsbD_of_ge _ _ (by omega), BitVec.getLsbD_of_ge castagnoli _ (by omega)]
    simp [bitCoeff]

theorem ofBits_xor_bit (crc : BitVec 32) (bit : Bool) :
    ofBits (crc ^^^ (if bit then 1#32 else 0#32)).reverse =
      ofBits crc.reverse + C (bitCoeff bit) * X ^ 31 := by
  ext i
  rw [coeff_add, coeff_C_mul_X_pow, coeff_ofBits, coeff_ofBits]
  by_cases hi : i < 32
  · rw [getLsbD_reverse_of_lt _ hi, getLsbD_reverse_of_lt _ hi, BitVec.getLsbD_xor, bitCoeff_xor]
    congr 1
    cases bit with
    | false => rw [if_neg Bool.false_ne_true, BitVec.getLsbD_zero]; exact (ite_self _).symm
    | true =>
      rw [if_pos rfl, BitVec.getLsbD_one]
      by_cases hlast : i = 31
      · simp [hlast]
      · have : ¬ 31 - i = 0 := by omega
        simp [hlast, this, bitCoeff]
  · rw [BitVec.getLsbD_of_ge _ _ (by omega), BitVec.getLsbD_of_ge _ _ (by omega), if_neg (by omega)]
    rfl

/-- A message as a polynomial: the bit fed first has the highest degree. -/
noncomputable def ofMessage : List Bool → (ZMod 2)[X]
  | [] => 0
  | bit :: bits => C (bitCoeff bit) * X ^ bits.length + ofMessage bits

/-- The register after a message is congruent to the message and the register before it, moved
    up by their places. -/
theorem ofBits_feed (bits : List Bool) (crc : BitVec 32) :
    ∃ q, ofBits (bits.foldl crcFeedBit crc).reverse =
      ofMessage bits * X ^ 32 + ofBits crc.reverse * X ^ bits.length + ofBits castagnoli * q := by
  induction bits generalizing crc with
  | nil => exact ⟨0, by simp [ofMessage]⟩
  | cons bit bits ih =>
    obtain ⟨q, hq⟩ := ih (crcFeedBit crc bit)
    have hstep := ofBits_crcShift (crc ^^^ (if bit then 1#32 else 0#32))
    rw [ofBits_xor_bit] at hstep
    refine ⟨C (bitCoeff ((crc ^^^ (if bit then 1#32 else 0#32)).getLsbD 0)) * X ^ bits.length + q,
      ?_⟩
    rw [List.foldl_cons, hq, crcFeedBit, hstep, ofMessage, List.length_cons]
    ring

theorem coeff_ofMessage (bits : List Bool) (i : Nat) :
    (ofMessage bits).coeff i =
      if i < bits.length then bitCoeff (bits.getD (bits.length - 1 - i) false) else 0 := by
  induction bits with
  | nil => simp [ofMessage]
  | cons bit bits ih =>
    rw [ofMessage, coeff_add, coeff_C_mul_X_pow, ih, List.length_cons, Nat.add_sub_cancel]
    rcases Nat.lt_trichotomy i bits.length with hi | rfl | hi
    · obtain ⟨j, hj⟩ : ∃ j, bits.length - i = j + 1 := ⟨bits.length - i - 1, by omega⟩
      have hj' : bits.length - 1 - i = j := by omega
      rw [if_neg (by omega), if_pos hi, if_pos (by omega), hj, hj', List.getD_cons_succ, zero_add]
    · simp
    · rw [if_neg (by omega), if_neg (by omega), if_neg (by omega), zero_add]

theorem length_operandBits (w v : Nat) : (operandBits w v).length = w := by
  simp [operandBits]

theorem getD_operandBits (w v : Nat) {i : Nat} (h : i < w) :
    (operandBits w v).getD i false = v.testBit i := by
  rw [operandBits, List.getD_eq_getElem?_getD, List.getElem?_map, List.getElem?_range h]
  rfl

/-- The bits of an operand, least significant first, are the reflected operand. -/
theorem ofMessage_operandBits (v : BitVec w) :
    ofMessage (operandBits w v.toNat) = ofBits v.reverse := by
  ext i
  rw [coeff_ofMessage, length_operandBits, coeff_ofBits, BitVec.getLsbD_reverse, BitVec.getMsbD]
  by_cases hi : i < w
  · rw [if_pos hi, getD_operandBits _ _ (by omega), decide_eq_true hi, Bool.true_and]
    rfl
  · rw [if_neg hi, decide_eq_false hi, Bool.false_and]
    rfl

/-! ### The instructions -/

theorem coeff_castagnoli : (ofBits castagnoli).coeff 32 = 1 := by
  rw [coeff_ofBits]
  decide

theorem monic_castagnoli : (ofBits castagnoli).Monic := by
  refine monic_of_degree_le 32 ?_ coeff_castagnoli
  rw [degree_le_iff_coeff_zero]
  intro i hi
  rw [coeff_ofBits, BitVec.getLsbD_of_ge _ _ (by exact_mod_cast hi)]
  rfl

/-- Feeding the bits of an operand is the instruction. -/
theorem isCrc32_feed (crc : BitVec 32) (v : BitVec w) :
    IsCrc32 crc v ((operandBits w v.toNat).foldl crcFeedBit crc) := by
  obtain ⟨q, hq⟩ := ofBits_feed (operandBits w v.toNat) crc
  rw [ofMessage_operandBits, length_operandBits] at hq
  unfold IsCrc32
  simp only
  rw [ofBits_xor, ofBits_shiftLeft _ (le_refl _), ofBits_shiftLeft _ (by omega)]
  refine modByMonic_eq_ofBits monic_castagnoli ?_ hq
  exact le_degree_of_ne_zero (by rw [coeff_castagnoli]; exact one_ne_zero)

/-! ### Bits, bytes and words -/

theorem operandBits_succ (w v : Nat) :
    operandBits (w + 1) v = v.testBit 0 :: operandBits w (v / 2) := by
  rw [operandBits, operandBits, List.range_succ_eq_map, List.map_cons, List.map_map]
  congr 1
  exact List.map_congr_left fun i _ => Nat.testBit_succ v i

theorem operandBits_add (a w v : Nat) :
    operandBits (a + w) v = operandBits a v ++ operandBits w (v / 2 ^ a) := by
  rw [operandBits, operandBits, operandBits, List.range_add, List.map_append, List.map_map]
  congr 1
  refine List.map_congr_left fun i _ => ?_
  rw [Function.comp_apply, Nat.testBit_div_two_pow, Nat.add_comm]

/-- Little-endian loads: the bits of a word are the bits of its bytes, first byte first. -/
theorem operandBits_leNat (bytes : Bytes) :
    operandBits (8 * bytes.length) (leNat bytes) =
      bytes.flatMap fun byte => operandBits 8 byte.toNat := by
  induction bytes with
  | nil => rfl
  | cons byte bytes ih =>
    have hbyte := byte.toNat_lt
    have hlow : operandBits 8 (leNat (byte :: bytes)) = operandBits 8 byte.toNat := by
      refine List.map_congr_left fun i hi => ?_
      have hmod : leNat (byte :: bytes) % 2 ^ 8 = byte.toNat := by
        rw [leNat]
        omega
      rw [← hmod, Nat.testBit_mod_two_pow, decide_eq_true (List.mem_range.mp hi), Bool.true_and]
    have hhigh : leNat (byte :: bytes) / 2 ^ 8 = leNat bytes := by
      rw [leNat]
      omega
    rw [List.length_cons, Nat.mul_succ, Nat.add_comm, operandBits_add, hlow, hhigh, ih,
      List.flatMap_cons]

/-- A shift after the low bit was added, and the other bits one place further down. -/
theorem crcShift_xor (crc v : BitVec 32) :
    crcShift (crc ^^^ v) = crcFeedBit crc (v.getLsbD 0) ^^^ (v >>> 1) := by
  have hlow : (if v.getLsbD 0 then 1#32 else 0#32).getLsbD 0 = v.getLsbD 0 := by
    cases v.getLsbD 0 <;> rfl
  have hhigh : ∀ i, (if v.getLsbD 0 then 1#32 else 0#32).getLsbD (i + 1) = false := by
    intro i
    cases v.getLsbD 0 with
    | false => exact BitVec.getLsbD_zero
    | true =>
      rw [if_pos rfl, BitVec.getLsbD_one]
      simp
  apply BitVec.eq_of_getLsbD_eq
  intro i hi
  rw [crcFeedBit, BitVec.getLsbD_xor, getLsbD_crcShift, getLsbD_crcShift,
    BitVec.getLsbD_ushiftRight,
    BitVec.getLsbD_xor, BitVec.getLsbD_xor, BitVec.getLsbD_xor, BitVec.getLsbD_xor, hlow, hhigh,
    Nat.add_comm 1 i, Bool.xor_false]
  exact Bool.xor_right_comm _ _ _

/-- Feeding `w` bits of `v` one at a time, or adding `v` at once and shifting `w` times: the
    bits not yet fed stand below. -/
theorem feed_xor_shiftRight (w : Nat) (crc v : BitVec 32) :
    (operandBits w v.toNat).foldl crcFeedBit crc ^^^ (v >>> w) = crcShift^[w] (crc ^^^ v) := by
  induction w generalizing crc v with
  | zero =>
    rw [BitVec.ushiftRight_zero]
    rfl
  | succ w ih =>
    have hhalf : v.toNat / 2 = (v >>> 1).toNat := by
      rw [BitVec.toNat_ushiftRight, Nat.shiftRight_eq_div_pow, Nat.pow_one]
    have hlow : v.toNat.testBit 0 = v.getLsbD 0 := rfl
    rw [operandBits_succ, List.foldl_cons, hhalf, hlow, Nat.add_comm w 1, BitVec.shiftRight_add, ih,
      Nat.add_comm 1 w, Function.iterate_succ_apply, crcShift_xor]

theorem feed_byte (crc : BitVec 32) (byte : UInt8) :
    (operandBits 8 byte.toNat).foldl crcFeedBit crc = crcByte crc byte := by
  have hnat : (byte.toBitVec.setWidth 32).toNat = byte.toNat := by
    rw [BitVec.toNat_setWidth_of_le (by decide)]
    rfl
  have hrest : byte.toBitVec.setWidth 32 >>> 8 = 0#32 := by
    apply BitVec.eq_of_toNat_eq
    have := byte.toNat_lt
    rw [BitVec.toNat_ushiftRight, hnat, Nat.shiftRight_eq_div_pow]
    simp
    omega
  have hreflected : (0x1EDC6F41#32).reverse = 0x82F63B78#32 := by decide +kernel
  have h := feed_xor_shiftRight 8 crc (byte.toBitVec.setWidth 32)
  rw [hnat, hrest, BitVec.xor_zero] at h
  rw [h, crcByte, hreflected]
  rfl

theorem feed_word {bytes : Bytes} (hw : 8 * bytes.length = w) (crc : BitVec 32) :
    (operandBits w (leNat bytes)).foldl crcFeedBit crc = bytes.foldl crcByte crc := by
  rw [← hw, operandBits_leNat, List.foldl_flatMap]
  simp only [feed_byte]

/-! ### The three loops -/

theorem crcLoop8_eq (crc : BitVec 32) (data : Bytes) :
    crcLoop8 crc data = data.foldl crcByte crc := by
  induction data generalizing crc with
  | nil => rfl
  | cons byte data ih =>
    rw [crcLoop8, ih, List.foldl_cons, mmCrc32U8, feed_byte]

theorem crcLoop32_eq (crc : BitVec 32) (data : Bytes) :
    (crcLoop32 crc data).2.foldl crcByte (crcLoop32 crc data).1 = data.foldl crcByte crc := by
  fun_induction crcLoop32 crc data with
  | case1 crc b0 b1 b2 b3 rest ih =>
    rw [ih, mmCrc32U32, feed_word (w := 32) rfl]
    rfl
  | case2 => rfl

/-- The register of the eight-byte loop is 64 bits wide with the upper half clear. -/
theorem crcLoop64_eq (crc : BitVec 64) (data : Bytes) :
    (crcLoop64 crc data).2.foldl crcByte ((crcLoop64 crc data).1.setWidth 32) =
      data.foldl crcByte (crc.setWidth 32) := by
  fun_induction crcLoop64 crc data with
  | case1 crc b0 b1 b2 b3 b4 b5 b6 b7 rest ih =>
    rw [ih, mmCrc32U64, BitVec.setWidth_setWidth_of_le _ (by decide), BitVec.setWidth_eq,
      feed_word (w := 64) rfl]
    rfl
  | case2 => rfl

/-- **The chunked CRC is the bytewise CRC-32C**, with instructions that are the ones Intel
    defines. -/
theorem chunked_crc_eq_bytewise :
    (∀ (crc : BitVec 32) (v : BitVec 8), IsCrc32 crc v (mmCrc32U8 crc v.toNat)) ∧
    (∀ (crc v : BitVec 32), IsCrc32 crc v (mmCrc32U32 crc v.toNat)) ∧
    (∀ (crc v : BitVec 64), IsCrc32 (crc.setWidth 32) v ((mmCrc32U64 crc v.toNat).setWidth 32) ∧
      (mmCrc32U64 crc v.toNat).toNat < 2 ^ 32) ∧
    ∀ data : Bytes, crc32c data = crc32cBytewise data := by
  refine ⟨fun crc v => isCrc32_feed crc v, fun crc v => isCrc32_feed crc v, fun crc v => ⟨?_, ?_⟩,
    fun data => ?_⟩
  · rw [mmCrc32U64, BitVec.setWidth_setWidth_of_le _ (by decide), BitVec.setWidth_eq]
    exact isCrc32_feed _ v
  · rw [mmCrc32U64, BitVec.toNat_setWidth_of_le (by decide)]
    exact BitVec.isLt _
  · have h64 := crcLoop64_eq 0xffffffff#64 data
    have h32 := crcLoop32_eq ((crcLoop64 0xffffffff#64 data).1.setWidth 32)
      (crcLoop64 0xffffffff#64 data).2
    rw [crc32c, crc32cBytewise]
    simp only [crcLoop8_eq, h32, h64]
    rfl

end Mkmq
