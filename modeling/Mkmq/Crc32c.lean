import Mkmq.ByteCodec

/-!
# CRC-32C (`src/crc32c.cpp`)

`crc32c` consumes its input eight bytes at a time, then four, then one, with the
SSE4.2 instructions.  The instructions are modelled by the shift register they
implement: the operand's bits enter least significant first, and the register
reduces by the reflected Castagnoli polynomial (`0x1EDC6F41`, reflected
`0x82F63B78`).  Loads are little-endian, as on the x86-64 hosts the build requires.
-/

namespace Mkmq

open ByteCodec

/-- Shift one bit out of the reflected CRC register. -/
def crcShift (crc : BitVec 32) : BitVec 32 :=
  if crc.getLsbD 0 then (crc >>> 1) ^^^ 0x82F63B78#32 else crc >>> 1

/-- Shift one message bit through the register. -/
def crcFeedBit (crc : BitVec 32) (bit : Bool) : BitVec 32 :=
  crcShift (crc ^^^ (if bit then 1#32 else 0#32))

/-- The low `width` bits of an operand, least significant first. -/
def operandBits (width v : Nat) : List Bool := (List.range width).map v.testBit

/-- `_mm_crc32_u8`, `_mm_crc32_u32` and `_mm_crc32_u64`; the last keeps its result
    zero-extended in a 64-bit register. -/
def mmCrc32U8 (crc : BitVec 32) (v : Nat) : BitVec 32 := (operandBits 8 v).foldl crcFeedBit crc
def mmCrc32U32 (crc : BitVec 32) (v : Nat) : BitVec 32 := (operandBits 32 v).foldl crcFeedBit crc
def mmCrc32U64 (crc : BitVec 64) (v : Nat) : BitVec 64 :=
  ((operandBits 64 v).foldl crcFeedBit (crc.setWidth 32)).setWidth 64

/-- The eight-byte loop; returns the register and the bytes left over. -/
def crcLoop64 : BitVec 64 → Bytes → BitVec 64 × Bytes
  | crc, b0 :: b1 :: b2 :: b3 :: b4 :: b5 :: b6 :: b7 :: rest =>
    crcLoop64 (mmCrc32U64 crc (leNat [b0, b1, b2, b3, b4, b5, b6, b7])) rest
  | crc, rest => (crc, rest)

/-- The four-byte loop. -/
def crcLoop32 : BitVec 32 → Bytes → BitVec 32 × Bytes
  | crc, b0 :: b1 :: b2 :: b3 :: rest => crcLoop32 (mmCrc32U32 crc (leNat [b0, b1, b2, b3])) rest
  | crc, rest => (crc, rest)

/-- The byte loop. -/
def crcLoop8 : BitVec 32 → Bytes → BitVec 32
  | crc, b :: rest => crcLoop8 (mmCrc32U8 crc b.toNat) rest
  | crc, [] => crc

def crc32c (data : Bytes) : BitVec 32 :=
  let (crc, data) := crcLoop64 0xffffffff#64 data
  let (crc32, data) := crcLoop32 (crc.setWidth 32) data
  crcLoop8 crc32 data ^^^ 0xffffffff#32

-- The standard check value of CRC-32C, over the ASCII digits 1 to 9.
example : crc32c [0x31, 0x32, 0x33, 0x34, 0x35, 0x36, 0x37, 0x38, 0x39] = 0xE3069283#32 := by
  decide +kernel

end Mkmq
