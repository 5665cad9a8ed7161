import Mkmq.Wire

/-!
# Fields in sequence

A Kafka message is a sequence of fields, each with a length encoding, a null marker and a
sign of its own, and nothing between them.  Both sides know the types.  Reading the types in
order off what was written for the values gives the values back, and ends exactly behind
them.
-/

namespace Mkmq

open ByteCodec ReadProgram ReadProgram.Program WriteProgram WireReader WireWriter

/-- The field types `WireReader` and `WireWriter` have.  A count is that of an array that
    must be there, or of one that may be null. -/
inductive FieldType where
  | int8
  | bool
  | int16
  | int32
  | int64
  | unsignedVarint
  | string
  | nullableString
  | compactString
  | compactNullableString
  | bytes
  | nullableBytes
  | compactNullableBytes
  | arrayCount (flexible : Bool)
  | nullableArrayCount (flexible : Bool)
  | taggedFields
deriving DecidableEq, Repr

namespace FieldType

def Value : FieldType → Type
  | int8 => Int8
  | bool => Bool
  | int16 => Int16
  | int32 | arrayCount _ | nullableArrayCount _ => Int32
  | int64 => Int64
  | unsignedVarint => UInt32
  | string | compactString | bytes => Bytes
  | nullableString | compactNullableString | nullableBytes | compactNullableBytes => Option Bytes
  | taggedFields => Unit

def write : (type : FieldType) → type.Value → Writing
  | int8, value => writeInt8 value
  | bool, value => writeBool value
  | int16, value => writeInt16 value
  | int32, value => writeInt32 value
  | int64, value => writeInt64 value
  | unsignedVarint, value => writeUnsignedVarint value
  | string, value => writeString value
  | nullableString, value => writeNullableString value
  | compactString, value => writeCompactString value
  | compactNullableString, value => writeCompactNullableString value
  | bytes, value => writeBytes value
  | nullableBytes, value => writeNullableBytes value
  | compactNullableBytes, value => writeCompactNullableBytes value
  | arrayCount flexible, count => writeArrayCount count flexible
  | nullableArrayCount flexible, count => writeNullableArrayCount count flexible
  | taggedFields, _ => writeEmptyTaggedFields

def read : (type : FieldType) → Reading type.Value
  | int8 => readInt8
  | bool => readBool
  | int16 => readInt16
  | int32 => readInt32
  | int64 => readInt64
  | unsignedVarint => readUnsignedVarint
  | string => readString
  | nullableString => readNullableString
  | compactString => readCompactString
  | compactNullableString => readCompactNullableString
  | bytes => readBytes
  | nullableBytes => readNullableBytes
  | compactNullableBytes => readCompactNullableBytes
  | arrayCount flexible => readArrayCount flexible
  | nullableArrayCount flexible => readArrayCount flexible true
  | taggedFields => skipTaggedFields

/-- A count no less than `least` and below `2 ^ 31 - 1`. -/
def CountFrom (least count : Int32) : Prop := least ≤ count ∧ count < 0x7fffffff

/-- The values a type can carry: lengths that fit the length field, counts below `2 ^ 31 - 1`,
    and -1 as the count of a null array. -/
def InRange : (type : FieldType) → type.Value → Prop
  | string, value => value.length ≤ 32767
  | nullableString, value => ∀ bytes : Bytes, value = some bytes → bytes.length ≤ 32767
  | bytes, value => value.length < 2 ^ 31
  | nullableBytes, value => ∀ bytes : Bytes, value = some bytes → bytes.length < 2 ^ 31
  | compactString, value => value.length + 1 < 2 ^ 32
  | compactNullableString, value | compactNullableBytes, value =>
    ∀ bytes : Bytes, value = some bytes → bytes.length + 1 < 2 ^ 32
  | arrayCount _, count => CountFrom 0 count
  | nullableArrayCount _, count => CountFrom (-1) count
  | int8, _ | bool, _ | int16, _ | int32, _ | int64, _ | unsignedVarint, _ | taggedFields, _ => True

end FieldType

structure Field where
  type : FieldType
  value : type.Value

def writeFields (fields : List Field) : Writing :=
  fields.forM fun field => field.type.write field.value

def readFields : List FieldType → Reading (List Field)
  | [] => return []
  | type :: types => do
      let value ← type.read
      let others ← readFields types
      return ⟨type, value⟩ :: others

/-- One field, of any type. -/
theorem carries_field : ∀ (type : FieldType) (value : type.Value), type.InRange value →
    Carries (type.write value) type.read value
  | .int8, value, _ => carries_int8 value
  | .bool, value, _ => carries_bool value
  | .int16, value, _ => carries_int16 value
  | .int32, value, _ => carries_int32 value
  | .int64, value, _ => carries_int64 value
  | .unsignedVarint, value, _ => carries_unsignedVarint value
  | .string, _, h => carries_string h
  | .nullableString, _, h => carries_nullableString h
  | .compactString, _, h => carries_compactString h
  | .compactNullableString, _, h => carries_compactNullableString h
  | .bytes, _, h => carries_bytes h
  | .nullableBytes, _, h => carries_nullableBytes h
  | .compactNullableBytes, _, h => carries_compactNullableBytes h
  | .arrayCount flexible, _, h => carries_arrayCount h.1 h.2 flexible false
  | .nullableArrayCount flexible, _, h => carries_nullableArrayCount h.1 h.2 flexible
  | .taggedFields, _, _ => carries_emptyTaggedFields

theorem carries_fields {fields : List Field}
    (h : ∀ field ∈ fields, field.type.InRange field.value) :
    Carries (writeFields fields) (readFields (fields.map Field.type)) fields := by
  induction fields with
  | nil => exact carries_pure []
  | cons field fields ih =>
    have hfirst := carries_field field.type field.value (h field List.mem_cons_self)
    have hothers := ih fun other hother => h other (List.mem_cons_of_mem _ hother)
    exact hfirst.seq (hothers.ends rfl)

/-- **Fields compose.**  After whatever is in the buffer already and before whatever follows,
    the fields read back as they were written, and the reader stands behind the last of
    them. -/
theorem wire_fields_compose (fields : List Field)
    (h : ∀ field ∈ fields, field.type.InRange field.value) (before further : Bytes) :
    ∃ written, writeFields fields before = .ok ((), before ++ written) ∧
      (readFields (fields.map Field.type)).exec (before ++ written ++ further) before.length =
        .ok (fields, before.length + written.length) := by
  obtain ⟨written, hwrites, hreads⟩ := carries_fields h
  exact ⟨written, hwrites before, hreads before further⟩

/-- A null string, a five-byte varint, a null array, an empty compact string and the largest
    count, behind one byte and before two. -/
theorem wire_fields_compose_boundaries :
    ∃ written, writeFields [⟨.nullableString, none⟩, ⟨.unsignedVarint, (0xffffffff : UInt32)⟩,
        ⟨.nullableArrayCount true, (-1 : Int32)⟩, ⟨.compactString, []⟩,
        ⟨.arrayCount true, (0x7ffffffe : Int32)⟩] [7] = .ok ((), [7] ++ written) ∧
      (readFields [.nullableString, .unsignedVarint, .nullableArrayCount true, .compactString,
          .arrayCount true]).exec ([7] ++ written ++ [8, 9]) 1 =
        .ok ([⟨.nullableString, none⟩, ⟨.unsignedVarint, (0xffffffff : UInt32)⟩,
          ⟨.nullableArrayCount true, (-1 : Int32)⟩, ⟨.compactString, []⟩,
          ⟨.arrayCount true, (0x7ffffffe : Int32)⟩], 1 + written.length) := by
  refine wire_fields_compose [⟨.nullableString, none⟩, ⟨.unsignedVarint, (0xffffffff : UInt32)⟩,
    ⟨.nullableArrayCount true, (-1 : Int32)⟩, ⟨.compactString, []⟩,
    ⟨.arrayCount true, (0x7ffffffe : Int32)⟩] ?_ [7] [8, 9]
  simp only [List.forall_mem_cons, List.not_mem_nil, false_implies, implies_true, and_true]
  refine ⟨?_, trivial, ⟨by decide, by decide⟩, (by decide : 0 + 1 < 2 ^ 32), by decide, by decide⟩
  intro bytes hbytes
  cases hbytes

end Mkmq
