import Mathlib.Data.List.Basic
import Mathlib.Tactic.Ring
import Mathlib.Tactic.Linarith

/-!
# Byte strings: slices, in-place writes and fixed-width integers

A file or a buffer is a list of bytes.  This module collects what a verification
of a binary format needs of them: reading a range (`slice`), writing a range in
place with zero fill (`splice`), and the little- and big-endian encodings of
unsigned and two's-complement integers, each with its round trip.

Nothing here depends on a particular format.
-/

namespace ByteCodec

variable {b a d : Bytes} {len pos n p : Nat} {writes : List (Nat × Bytes)} {i : Int}

/-- A buffer or the contents of a file. -/
abbrev Bytes := List UInt8

/-! ### Ranges -/

/-- The bytes `[pos, pos + len)` of `b`; shorter when `b` ends before. -/
def slice (b : Bytes) (pos len : Nat) : Bytes := (b.drop pos).take len

/-- Write `d` at `pos`: bytes of `b` outside `[pos, pos + d.length)` stay, and a
    gap between the end of `b` and `pos` reads as zeros. -/
def splice (b : Bytes) (pos : Nat) (d : Bytes) : Bytes :=
  b.take pos ++ List.replicate (pos - b.length) 0 ++ d ++ b.drop (pos + d.length)

theorem length_slice (b : Bytes) (pos len : Nat) :
    (slice b pos len).length = min len (b.length - pos) := by
  simp [slice]

theorem length_slice_of_le (h : pos + len ≤ b.length) : (slice b pos len).length = len := by
  rw [length_slice]
  omega

theorem slice_append_left (h : pos + len ≤ a.length) :
    slice (a ++ b) pos len = slice a pos len := by
  unfold slice
  rw [List.drop_append_of_le_length (by omega), List.take_append_of_le_length]
  simp only [List.length_drop]
  omega

theorem slice_append_right (a b : Bytes) (pos len : Nat) :
    slice (a ++ b) (a.length + pos) len = slice b pos len := by
  unfold slice
  rw [List.drop_append, List.drop_of_length_le (by omega)]
  simp

theorem slice_append_exact (a b c : Bytes) : slice (a ++ b ++ c) a.length b.length = b := by
  have h := slice_append_right a (b ++ c) 0 b.length
  rw [Nat.add_zero] at h
  rw [List.append_assoc, h]
  simp [slice]

@[simp] theorem slice_zero_length (b : Bytes) : slice b 0 b.length = b := by
  simp [slice]

theorem slice_drop (b : Bytes) (n pos len : Nat) :
    slice (b.drop n) pos len = slice b (n + pos) len := by
  simp [slice, List.drop_drop]

theorem slice_slice (h : p + n ≤ len) : slice (slice b pos len) p n = slice b (pos + p) n := by
  unfold slice
  rw [List.drop_take, List.take_take, List.drop_drop]
  congr 1
  omega

theorem getElem?_slice (b : Bytes) (pos len i : Nat) :
    (slice b pos len)[i]? = if i < len then b[pos + i]? else none := by
  unfold slice
  rw [List.getElem?_take]
  split
  · rw [List.getElem?_drop]
  · rfl

theorem slice_eq_of_getElem? (h : ∀ i, pos ≤ i → i < pos + len → a[i]? = b[i]?) :
    slice a pos len = slice b pos len := by
  apply List.ext_getElem?
  intro i
  rw [getElem?_slice, getElem?_slice]
  split
  · exact h (pos + i) (by omega) (by omega)
  · rfl

/-! ### In-place writes -/

@[simp] theorem length_splice (b : Bytes) (pos : Nat) (d : Bytes) :
    (splice b pos d).length = max b.length (pos + d.length) := by
  simp only [splice, List.length_append, List.length_take, List.length_replicate,
    List.length_drop]
  omega

/-- Writing at the end of a buffer appends. -/
theorem splice_end (b d : Bytes) : splice b b.length d = b ++ d := by
  unfold splice
  rw [List.take_length, Nat.sub_self, List.drop_of_length_le (by omega)]
  simp

theorem splice_append_left (c : Bytes) (h : pos + d.length ≤ a.length) :
    splice (a ++ c) pos d = splice a pos d ++ c := by
  unfold splice
  rw [List.take_append_of_le_length (by omega), List.drop_append_of_le_length h,
    List.length_append, Nat.sub_eq_zero_of_le (by omega : pos ≤ a.length + c.length),
    Nat.sub_eq_zero_of_le (by omega : pos ≤ a.length)]
  simp

/-- Writing where the first part ends replaces the beginning of the second. -/
theorem splice_append_right (a b d : Bytes) :
    splice (a ++ b) a.length d = a ++ d ++ b.drop d.length := by
  unfold splice
  rw [List.take_left, List.length_append, Nat.sub_eq_zero_of_le (Nat.le_add_right _ _),
    List.replicate_zero, List.append_nil, List.drop_append, List.drop_of_length_le (by omega),
    Nat.add_sub_cancel_left, List.nil_append]

/-- Writing behind the first part leaves it alone. -/
theorem splice_append_add (a b : Bytes) (pos : Nat) (d : Bytes) :
    splice (a ++ b) (a.length + pos) d = a ++ splice b pos d := by
  unfold splice
  rw [List.take_append, List.take_of_length_le (by omega), List.length_append,
    Nat.add_sub_add_left, Nat.add_assoc, List.drop_append, List.drop_of_length_le (by omega),
    Nat.add_sub_cancel_left, Nat.add_sub_cancel_left, List.nil_append]
  simp only [List.append_assoc]

/-- The zero-filled part in front of a write. -/
theorem length_splice_front (b : Bytes) (pos : Nat) :
    (b.take pos ++ List.replicate (pos - b.length) (0 : UInt8)).length = pos := by
  simp only [List.length_append, List.length_take, List.length_replicate]
  omega

theorem getElem?_splice_of_lt {i : Nat} (d : Bytes) (hi : i < pos) (hb : i < b.length) :
    (splice b pos d)[i]? = b[i]? := by
  have hl := length_splice_front b pos
  unfold splice
  rw [List.append_assoc, List.getElem?_append_left (by omega),
    List.getElem?_append_left (by rw [List.length_take]; omega), List.getElem?_take, if_pos hi]

theorem getElem?_splice_mid {i : Nat} (hi : i < d.length) : (splice b pos d)[pos + i]? = d[i]? := by
  have hl := length_splice_front b pos
  unfold splice
  rw [List.append_assoc, List.getElem?_append_right (by omega), hl,
    List.getElem?_append_left (by omega), Nat.add_sub_cancel_left]

theorem getElem?_splice_of_ge {i : Nat} (hi : pos + d.length ≤ i) :
    (splice b pos d)[i]? = b[i]? := by
  have hl : (b.take pos ++ List.replicate (pos - b.length) (0 : UInt8) ++ d).length =
      pos + d.length := by
    rw [List.length_append, length_splice_front]
  unfold splice
  rw [List.getElem?_append_right (by omega), hl, List.getElem?_drop,
    Nat.add_sub_of_le hi]

/-- What was just written reads back. -/
theorem slice_splice_self (b : Bytes) (pos : Nat) (d : Bytes) :
    slice (splice b pos d) pos d.length = d := by
  apply List.ext_getElem?
  intro i
  rw [getElem?_slice]
  split
  · next hi => exact getElem?_splice_mid hi
  · next hi => exact (List.getElem?_eq_none (by omega)).symm

/-- A range disjoint from the written one keeps its bytes. -/
theorem slice_splice_of_disjoint (hb : p + n ≤ b.length) (hd : p + n ≤ pos ∨ pos + d.length ≤ p) :
    slice (splice b pos d) p n = slice b p n := by
  apply slice_eq_of_getElem?
  intro i hlo hhi
  rcases hd with hd | hd
  · exact getElem?_splice_of_lt d (by omega) (by omega)
  · exact getElem?_splice_of_ge (by omega)

/-- Several writes, one after another. -/
def spliceAll (b : Bytes) (writes : List (Nat × Bytes)) : Bytes :=
  writes.foldl (fun b write => splice b write.1 write.2) b

/-- A range that none of the writes touches keeps its bytes. -/
theorem slice_spliceAll_of_disjoint (hb : p + n ≤ b.length)
    (h : ∀ write ∈ writes, p + n ≤ write.1 ∨ write.1 + write.2.length ≤ p) :
    slice (spliceAll b writes) p n = slice b p n := by
  induction writes generalizing b with
  | nil => rfl
  | cons first writes ih =>
    have hfirst := slice_splice_of_disjoint hb (h first List.mem_cons_self)
    rw [← hfirst]
    refine ih ?_ fun write hwrite => h write (List.mem_cons_of_mem _ hwrite)
    rw [length_splice]
    omega

/-- Writes of disjoint ranges inside a buffer all read back. -/
theorem slice_spliceAll (hinside : ∀ write ∈ writes, write.1 + write.2.length ≤ b.length)
    (hdisjoint : writes.Pairwise fun earlier later =>
      earlier.1 + earlier.2.length ≤ later.1 ∨ later.1 + later.2.length ≤ earlier.1) :
    (spliceAll b writes).length = b.length ∧
      ∀ write ∈ writes, slice (spliceAll b writes) write.1 write.2.length = write.2 := by
  induction writes generalizing b with
  | nil => exact ⟨rfl, fun _ hwrite => nomatch hwrite⟩
  | cons first writes ih =>
    obtain ⟨hfirst, hrest⟩ := List.pairwise_cons.mp hdisjoint
    have hlength : (splice b first.1 first.2).length = b.length := by
      have := hinside first List.mem_cons_self
      rw [length_splice]
      omega
    obtain ⟨hall, hback⟩ := ih (b := splice b first.1 first.2) (fun write hwrite => by
      rw [hlength]
      exact hinside write (List.mem_cons_of_mem _ hwrite)) hrest
    refine ⟨hall.trans hlength, List.forall_mem_cons.mpr ⟨?_, hback⟩⟩
    have hkept := slice_spliceAll_of_disjoint (b := splice b first.1 first.2) (p := first.1)
      (n := first.2.length) (by rw [length_splice]; omega) hfirst
    exact hkept.trans (slice_splice_self b first.1 first.2)

/-! ### Unsigned fixed-width integers -/

/-- The `n` low-order bytes of `v`, least significant first. -/
def leBytes : Nat → Nat → Bytes
  | 0, _ => []
  | n + 1, v => UInt8.ofNat v :: leBytes n (v / 256)

/-- The number whose bytes, least significant first, are given. -/
def leNat : Bytes → Nat
  | [] => 0
  | b :: rest => b.toNat + 256 * leNat rest

/-- The `n` low-order bytes of `v`, most significant first. -/
def beBytes (n v : Nat) : Bytes := (leBytes n v).reverse

/-- The number whose bytes, most significant first, are given. -/
def beNat (b : Bytes) : Nat := leNat b.reverse

@[simp] theorem length_leBytes (n v : Nat) : (leBytes n v).length = n := by
  induction n generalizing v with
  | zero => rfl
  | succ n ih => simp [leBytes, ih]

@[simp] theorem length_beBytes (n v : Nat) : (beBytes n v).length = n := by
  simp [beBytes]

theorem leNat_leBytes (n v : Nat) : leNat (leBytes n v) = v % 256 ^ n := by
  induction n generalizing v with
  | zero => simp [leBytes, leNat, Nat.mod_one]
  | succ n ih =>
    have hbyte : (UInt8.ofNat v).toNat = v % 256 := by simp
    rw [leBytes, leNat, ih, hbyte, Nat.pow_succ, Nat.mul_comm (256 ^ n) 256, Nat.mod_mul]

theorem beNat_beBytes (n v : Nat) : beNat (beBytes n v) = v % 256 ^ n := by
  simp [beNat, beBytes, leNat_leBytes]

theorem leNat_lt (b : Bytes) : leNat b < 256 ^ b.length := by
  induction b with
  | nil => simp [leNat]
  | cons x rest ih =>
    have hx := x.toNat_lt
    simp only [leNat, List.length_cons, Nat.pow_succ]
    omega

theorem beNat_lt (b : Bytes) : beNat b < 256 ^ b.length := by
  have h := leNat_lt b.reverse
  rwa [List.length_reverse] at h

/-! ### Two's-complement fixed-width integers -/

/-- Reinterpret a `w`-bit pattern as a signed number. -/
def signed (w v : Nat) : Int := Int.bmod v (2 ^ w)

/-- The `w`-bit pattern of a signed number (the conversion wraps). -/
def unsigned (w : Nat) (i : Int) : Nat := (i % (2 ^ w : Nat)).toNat

theorem unsigned_lt (w : Nat) (i : Int) : unsigned w i < 2 ^ w := by
  have hpos : (0 : Int) < (2 ^ w : Nat) := by exact_mod_cast Nat.two_pow_pos w
  have h := Int.emod_lt_of_pos i hpos
  have h0 := Int.emod_nonneg i (Int.ne_of_gt hpos)
  unfold unsigned
  omega

theorem signed_unsigned {w : Nat} (hlo : -(2 ^ w : Nat) ≤ i * 2) (hhi : i * 2 < (2 ^ w : Nat)) :
    signed w (unsigned w i) = i := by
  have hpos : (0 : Int) < (2 ^ w : Nat) := by exact_mod_cast Nat.two_pow_pos w
  unfold signed unsigned
  rw [Int.toNat_of_nonneg (Int.emod_nonneg i (Int.ne_of_gt hpos)), Int.emod_bmod]
  exact Int.bmod_eq_of_le_mul_two hlo hhi

theorem signed_eq_self {w v : Nat} (h : v * 2 < 2 ^ w) : signed w v = v := by
  unfold signed
  exact Int.bmod_eq_of_le_mul_two (by omega) (by exact_mod_cast h)

theorem signed_bounds (w v : Nat) :
    -(2 ^ w : Nat) ≤ signed w v * 2 ∧ signed w v * 2 < (2 ^ w : Nat) := by
  have hpos : 0 < 2 ^ w := Nat.two_pow_pos w
  have hlo := Int.le_bmod (x := v) hpos
  have hhi := Int.bmod_lt (x := v) hpos
  have heven : 2 ^ w = 1 ∨ ∃ half, 2 ^ w = 2 * half := by
    cases w with
    | zero => exact Or.inl rfl
    | succ w => exact Or.inr ⟨2 ^ w, by rw [Nat.pow_succ, Nat.mul_comm]⟩
  unfold signed
  rcases heven with hone | ⟨half, htwice⟩ <;> constructor <;> omega

/-- A signed 64-bit value. -/
def FitsInt64 (i : Int) : Prop := -2 ^ 63 ≤ i ∧ i < 2 ^ 63

instance (i : Int) : Decidable (FitsInt64 i) := by unfold FitsInt64; infer_instance

/-- Little-endian two's complement, as a host of that byte order stores it. -/
def i64le (i : Int) : Bytes := leBytes 8 (unsigned 64 i)
def i32le (i : Int) : Bytes := leBytes 4 (unsigned 32 i)

/-- Big-endian two's complement, as network formats store it. -/
def i64be (i : Int) : Bytes := beBytes 8 (unsigned 64 i)
def i32be (i : Int) : Bytes := beBytes 4 (unsigned 32 i)

@[simp] theorem length_i64le (i : Int) : (i64le i).length = 8 := by simp [i64le]
@[simp] theorem length_i32le (i : Int) : (i32le i).length = 4 := by simp [i32le]
@[simp] theorem length_i64be (i : Int) : (i64be i).length = 8 := by simp [i64be]
theorem signed_leNat_i64le (h : FitsInt64 i) : signed 64 (leNat (i64le i)) = i := by
  have hlt := unsigned_lt 64 i
  rw [i64le, leNat_leBytes, Nat.mod_eq_of_lt (by simpa using hlt)]
  unfold FitsInt64 at h
  exact signed_unsigned (by omega) (by omega)

theorem signed_leNat_i32le (hlo : -2 ^ 31 ≤ i) (hhi : i < 2 ^ 31) :
    signed 32 (leNat (i32le i)) = i := by
  have hlt := unsigned_lt 32 i
  rw [i32le, leNat_leBytes, Nat.mod_eq_of_lt (by simpa using hlt)]
  exact signed_unsigned (by omega) (by omega)

theorem signed_beNat_i64be (h : FitsInt64 i) : signed 64 (beNat (i64be i)) = i := by
  have hlt := unsigned_lt 64 i
  rw [i64be, beNat_beBytes, Nat.mod_eq_of_lt (by simpa using hlt)]
  unfold FitsInt64 at h
  exact signed_unsigned (by omega) (by omega)

end ByteCodec
