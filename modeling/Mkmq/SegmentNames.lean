import Mathlib.Data.List.Forall2
import Mathlib.Tactic.Ring
import Mkmq.Config

/-!
# File names (`src/broker_shard_detail.cpp`, `src/partition_log_shard.cpp`)

All partitions of a shard keep their files in one directory.  A segment file is named
after the topic, the partition and the offset of its first record, the index file after
the topic and the partition.  In the topic a slash or a colon becomes an underscore, and
the parts are joined by dashes, so the name says which partition the file belongs to as
long as the topics differ in more than these characters and no partition is negative.
-/

namespace Mkmq

/-! ### Names -/

def sanitizedTopicName (name : String) : String :=
  name.map fun ch => if ch = '/' ∨ ch = ':' then '_' else ch

def segmentPrefix (config : PartitionConfig) : String :=
  sanitizedTopicName config.topic ++ "-" ++ toString config.partition ++ "-"

def segmentName (config : PartitionConfig) (baseOffset : Int) : String :=
  segmentPrefix config ++ String.ofList ((toString baseOffset).toList.leftpad 20 '0') ++ ".segment"

/-- The last part of `index_path`. -/
def indexName (config : PartitionConfig) : String :=
  sanitizedTopicName config.topic ++ "-" ++ toString config.partition ++ ".index"

/-- `std::stoll` of a string of digits, which throws if the number does not fit. -/
def stoll (digits : List Char) : Except String Int :=
  let value := Nat.ofDigitChars 10 digits 0
  if value < 2 ^ 63 then .ok value else .error "stoll"

def segmentBaseOffsetFromName (config : PartitionConfig) (filename : String) :
    Except String (Option Int) :=
  let name := filename.toList
  let front := (segmentPrefix config).toList
  let back := ".segment".toList
  if name.length ≤ front.length + back.length ∨ ¬ front <+: name ∨
      name.drop (name.length - back.length) ≠ back then .ok none
  else
    let digits := (name.drop front.length).take (name.length - front.length - back.length)
    if digits = [] ∨ digits.all Char.isDigit = false then .ok none
    else (stoll digits).map some

/-! ### Decimal numbers -/

theorem notMem_toDigits_dash (n : Nat) : '-' ∉ Nat.toDigits 10 n := by
  intro hmem
  have hdigit := Nat.isDigit_of_mem_toDigits (by decide) (by decide) hmem
  exact absurd hdigit (by decide)

theorem toDigits_inj {m n : Nat} (h : Nat.toDigits 10 m = Nat.toDigits 10 n) : m = n := by
  have hvalue := congrArg (fun digits => Nat.ofDigitChars 10 digits 0) h
  simpa using hvalue

/-- A number is its digits, behind a dash if it is negative. -/
theorem toList_toString_int (n : Int) :
    (toString n).toList =
      if 0 ≤ n then Nat.toDigits 10 n.toNat else '-' :: Nat.toDigits 10 (-n).toNat := by
  rw [Int.toString_eq_repr, Int.repr_eq_if]
  split
  · exact Nat.toList_repr
  · rw [String.toList_append, Nat.toList_repr]
    rfl

/-- What stands before and behind the last dash. -/
theorem append_dash_inj {front front' back back' : List Char} (hback : '-' ∉ back)
    (hback' : '-' ∉ back') (h : front ++ '-' :: back = front' ++ '-' :: back') :
    front = front' ∧ back = back' := by
  rcases List.append_eq_append_iff.mp h with ⟨mid, rfl, hmid⟩ | ⟨mid, rfl, hmid⟩
  · cases mid with
    | nil => simpa using hmid
    | cons ch mid =>
      obtain ⟨-, rfl⟩ := List.cons.inj hmid
      exact absurd (List.mem_append_right _ List.mem_cons_self) hback
  · cases mid with
    | nil => simpa using hmid.symm
    | cons ch mid =>
      obtain ⟨-, rfl⟩ := List.cons.inj hmid
      exact absurd (List.mem_append_right _ List.mem_cons_self) hback'

/-! ### The parts of a name -/

/-- What all file names of a partition start with. -/
def stem (config : PartitionConfig) : List Char :=
  (sanitizedTopicName config.topic).toList ++ '-' :: (toString config.partition).toList

/-- The offset in a segment name. -/
def padded (baseOffset : Int) : List Char := (toString baseOffset).toList.leftpad 20 '0'

theorem toList_segmentPrefix (config : PartitionConfig) :
    (segmentPrefix config).toList = stem config ++ ['-'] := by
  simp [segmentPrefix, stem]

theorem toList_segmentName (config : PartitionConfig) (baseOffset : Int) :
    (segmentName config baseOffset).toList =
      stem config ++ '-' :: (padded baseOffset ++ ".segment".toList) := by
  simp [segmentName, toList_segmentPrefix, padded]

theorem toList_indexName (config : PartitionConfig) :
    (indexName config).toList = stem config ++ ".index".toList := by
  simp [indexName, stem]

section Padded

variable {baseOffset : Int} (hlow : 0 ≤ baseOffset)

include hlow

theorem padded_eq : padded baseOffset =
    List.replicate (20 - (Nat.toDigits 10 baseOffset.toNat).length) '0' ++
      Nat.toDigits 10 baseOffset.toNat := by
  unfold padded
  rw [toList_toString_int, if_pos hlow]
  rfl

theorem isDigit_of_mem_padded {ch : Char} (h : ch ∈ padded baseOffset) : ch.isDigit = true := by
  rw [padded_eq hlow] at h
  rcases List.mem_append.mp h with hzero | hdigit
  · rw [List.eq_of_mem_replicate hzero]
    rfl
  · exact Nat.isDigit_of_mem_toDigits (by decide) (by decide) hdigit

theorem ofDigitChars_padded : Nat.ofDigitChars 10 (padded baseOffset) 0 = baseOffset.toNat := by
  rw [padded_eq hlow, Nat.ofDigitChars_append, Nat.ofDigitChars_replicate_zero]
  simp

theorem length_padded (hhigh : baseOffset < 2 ^ 63) : (padded baseOffset).length = 20 := by
  have hdigits : (Nat.toDigits 10 baseOffset.toNat).length ≤ 20 := by
    rw [Nat.length_toDigits_le_iff (by decide) (by decide)]
    omega
  rw [padded_eq hlow, List.length_append, List.length_replicate]
  omega

theorem notMem_padded_dash : '-' ∉ padded baseOffset := by
  intro hmem
  exact absurd (isDigit_of_mem_padded hlow hmem) (by decide)

end Padded

theorem notMem_segment_dash : '-' ∉ ".segment".toList := by decide

/-! ### Reading a name -/

/-- What is accepted is the stem, a dash, digits and the ending. -/
theorem digits_of_segmentBaseOffsetFromName {config : PartitionConfig} {filename : String}
    (h : segmentBaseOffsetFromName config filename ≠ .ok none) :
    ∃ digits, filename.toList = stem config ++ '-' :: (digits ++ ".segment".toList) ∧
      ∀ ch ∈ digits, ch.isDigit = true := by
  have hback : (".segment".toList).length = 8 := rfl
  unfold segmentBaseOffsetFromName at h
  simp only [toList_segmentPrefix] at h
  split at h
  · exact absurd rfl h
  · next hcut =>
      obtain ⟨hlong, hfront, hends⟩ := not_or.mp hcut |>.imp id not_or.mp
      obtain ⟨rest, hrest⟩ := not_not.mp hfront
      rw [← hrest] at h hlong hends ⊢
      have hlength : (stem config ++ ['-'] ++ rest).length =
          (stem config ++ ['-']).length + rest.length := List.length_append
      rw [hlength] at h hlong hends
      rw [Nat.add_sub_cancel_left, List.drop_left, hback] at h
      split at h
      · exact absurd rfl h
      · next hdigits =>
          have hall := List.all_eq_true.mp (Bool.of_not_eq_false (not_or.mp hdigits).2)
          have hlast : (stem config ++ ['-']).length + rest.length - (".segment".toList).length =
              (stem config ++ ['-']).length + (rest.length - 8) := by
            omega
          have hsuffix := not_not.mp hends
          rw [hlast, ← List.drop_drop, List.drop_left] at hsuffix
          refine ⟨rest.take (rest.length - 8), ?_, hall⟩
          rw [← hsuffix, List.take_append_drop]
          simp

/-- **A segment name is read by the partitions that have its stem**, and they read its
    offset. -/
theorem segmentBaseOffsetFromName_segmentName (config other : PartitionConfig)
    {baseOffset : Int} (hlow : 0 ≤ baseOffset) (hhigh : baseOffset < 2 ^ 63) :
    segmentBaseOffsetFromName config (segmentName other baseOffset) =
      if stem config = stem other then .ok (some baseOffset) else .ok none := by
  by_cases hstem : stem config = stem other
  · rw [if_pos hstem]
    have hback : (".segment".toList).length = 8 := rfl
    unfold segmentBaseOffsetFromName
    simp only [toList_segmentName, toList_segmentPrefix]
    rw [hstem]
    have hname : stem other ++ '-' :: (padded baseOffset ++ ".segment".toList) =
        (stem other ++ ['-'] ++ padded baseOffset) ++ ".segment".toList := by
      simp
    have hlength := length_padded hlow hhigh
    have hdigits : ((stem other ++ ['-'] ++ padded baseOffset ++ ".segment".toList).drop
          (stem other ++ ['-']).length).take
            ((stem other ++ ['-'] ++ padded baseOffset ++ ".segment".toList).length -
              (stem other ++ ['-']).length - (".segment".toList).length) = padded baseOffset := by
      rw [List.append_assoc _ (padded baseOffset), List.drop_left]
      apply List.take_left'
      simp only [List.length_append]
      omega
    rw [hname, if_neg, hdigits, if_neg]
    · unfold stoll
      simp only
      rw [ofDigitChars_padded hlow, if_pos (by omega), Int.toNat_of_nonneg hlow]
      rfl
    · rintro (hnil | hall)
      · rw [hnil] at hlength
        cases hlength
      · have htrue : (padded baseOffset).all Char.isDigit = true :=
          List.all_eq_true.mpr fun ch => isDigit_of_mem_padded hlow
        rw [htrue] at hall
        cases hall
    · rintro (hshort | hfront | hends)
      · simp only [List.length_append, hlength] at hshort
        omega
      · exact hfront ⟨padded baseOffset ++ ".segment".toList, by simp⟩
      · apply hends
        apply List.drop_left'
        simp only [List.length_append]
        omega
  · rw [if_neg hstem]
    by_contra hread
    obtain ⟨digits, hname, hdigits⟩ := digits_of_segmentBaseOffsetFromName hread
    rw [toList_segmentName] at hname
    -- no dash behind either stem
    have hdash : '-' ∉ digits ++ ".segment".toList := by
      intro hmem
      rcases List.mem_append.mp hmem with hdigit | hending
      · exact absurd (hdigits _ hdigit) (by decide)
      · exact notMem_segment_dash hending
    have hother : '-' ∉ padded baseOffset ++ ".segment".toList := by
      intro hmem
      rcases List.mem_append.mp hmem with hpadded | hending
      · exact notMem_padded_dash hlow hpadded
      · exact notMem_segment_dash hending
    exact hstem (append_dash_inj hother hdash hname).1.symm

/-! ### Names of different partitions -/

/-- The topics differ at most in which of the characters slash, colon and underscore they
    have at a place. -/
def Confusable (name other : List Char) : Prop :=
  List.Forall₂ (fun x y => x = y ∨ (x ∈ ['/', ':', '_'] ∧ y ∈ ['/', ':', '_'])) name other

/-- Two partitions have the same names: the topics are confusable and the numbers equal, or
    one number is the negative of the other and the dash of its sign passes for the end of
    the other topic. -/
def Collide (config other : PartitionConfig) : Prop :=
  (Confusable config.topic.toList other.topic.toList ∧ config.partition = other.partition) ∨
  (Confusable config.topic.toList (other.topic.toList ++ ['-']) ∧ 0 < config.partition ∧
    other.partition = -config.partition) ∨
  (Confusable (config.topic.toList ++ ['-']) other.topic.toList ∧ 0 < other.partition ∧
    config.partition = -other.partition)

/-- The character `sanitized_topic_name` puts in place of `ch`. -/
def sanitizedChar (ch : Char) : Char := if ch = '/' ∨ ch = ':' then '_' else ch

theorem sanitizedChar_eq_iff (x y : Char) :
    sanitizedChar x = sanitizedChar y ↔
      x = y ∨ (x ∈ ['/', ':', '_'] ∧ y ∈ ['/', ':', '_']) := by
  unfold sanitizedChar
  simp only [List.mem_cons, List.not_mem_nil, or_false]
  grind

theorem map_sanitizedChar_eq_iff (name other : List Char) :
    name.map sanitizedChar = other.map sanitizedChar ↔ Confusable name other := by
  unfold Confusable
  rw [← List.forall₂_eq_eq_eq, List.forall₂_map_left_iff, List.forall₂_map_right_iff]
  simp only [sanitizedChar_eq_iff]

theorem toList_sanitizedTopicName (name : String) :
    (sanitizedTopicName name).toList = name.toList.map sanitizedChar := by
  unfold sanitizedTopicName
  rw [String.toList_map]
  rfl

/-- A stem ends in a dash and digits; the sign of the number counts for the part before. -/
theorem stem_eq (config : PartitionConfig) :
    stem config = (config.topic.toList ++ if 0 ≤ config.partition then [] else ['-']).map
      sanitizedChar ++ '-' :: Nat.toDigits 10 config.partition.natAbs := by
  unfold stem
  rw [toList_sanitizedTopicName, toList_toString_int]
  have hdash : sanitizedChar '-' = '-' := rfl
  split
  · next hsign =>
      have habs : config.partition.natAbs = config.partition.toNat := by omega
      rw [habs, List.append_nil]
  · next hsign =>
      have habs : config.partition.natAbs = (-config.partition).toNat := by omega
      rw [habs, List.map_append]
      simp [hdash]

/-- **When two partitions have the same stem.** -/
theorem stem_eq_iff (config other : PartitionConfig) :
    stem config = stem other ↔ Collide config other := by
  have hsplit : stem config = stem other ↔
      Confusable (config.topic.toList ++ if 0 ≤ config.partition then [] else ['-'])
        (other.topic.toList ++ if 0 ≤ other.partition then [] else ['-']) ∧
      config.partition.natAbs = other.partition.natAbs := by
    rw [stem_eq, stem_eq, ← map_sanitizedChar_eq_iff]
    constructor
    · intro hsame
      obtain ⟨hfront, hdigits⟩ := append_dash_inj (notMem_toDigits_dash _) (notMem_toDigits_dash _)
        hsame
      exact ⟨hfront, toDigits_inj hdigits⟩
    · rintro ⟨hfront, habs⟩
      rw [hfront, habs]
  have hsigned : Confusable (config.topic.toList ++ ['-']) (other.topic.toList ++ ['-']) ↔
      Confusable config.topic.toList other.topic.toList := by
    rw [← map_sanitizedChar_eq_iff, ← map_sanitizedChar_eq_iff, List.map_append, List.map_append,
      List.append_left_inj]
  rw [hsplit]
  unfold Collide
  -- the signs decide which of the three ways is left
  by_cases hp : 0 ≤ config.partition
  · by_cases hq : 0 ≤ other.partition
    · rw [if_pos hp, if_pos hq, List.append_nil, List.append_nil]
      constructor
      · rintro ⟨htopics, habs⟩
        exact Or.inl ⟨htopics, by omega⟩
      · rintro (⟨htopics, heq⟩ | ⟨-, hpos, hneg⟩ | ⟨-, hpos, hneg⟩)
        · exact ⟨htopics, by omega⟩
        · omega
        · omega
    · rw [if_pos hp, if_neg hq, List.append_nil]
      constructor
      · rintro ⟨htopics, habs⟩
        exact Or.inr (Or.inl ⟨htopics, by omega, by omega⟩)
      · rintro (⟨-, heq⟩ | ⟨htopics, hpos, hneg⟩ | ⟨-, hpos, hneg⟩)
        · omega
        · exact ⟨htopics, by omega⟩
        · omega
  · by_cases hq : 0 ≤ other.partition
    · rw [if_neg hp, if_pos hq, List.append_nil]
      constructor
      · rintro ⟨htopics, habs⟩
        exact Or.inr (Or.inr ⟨htopics, by omega, by omega⟩)
      · rintro (⟨-, heq⟩ | ⟨-, hpos, hneg⟩ | ⟨htopics, hpos, hneg⟩)
        · omega
        · omega
        · exact ⟨htopics, by omega⟩
    · rw [if_neg hp, if_neg hq, hsigned]
      constructor
      · rintro ⟨htopics, habs⟩
        exact Or.inl ⟨htopics, by omega⟩
      · rintro (⟨htopics, heq⟩ | ⟨-, hpos, hneg⟩ | ⟨-, hpos, hneg⟩)
        · exact ⟨htopics, by omega⟩
        · omega
        · omega

/-- The 64-bit offsets a file can be named after. -/
def IsOffset (baseOffset : Int) : Prop := 0 ≤ baseOffset ∧ baseOffset < 2 ^ 63

/-- No file of one partition is taken for one of the other. -/
structure FilesApart (config other : PartitionConfig) : Prop where
  segments : ∀ b b', IsOffset b → IsOffset b' → segmentName config b ≠ segmentName other b'
  indexes : indexName config ≠ indexName other
  mixed : ∀ b, IsOffset b → segmentName config b ≠ indexName other ∧
    segmentName other b ≠ indexName config
  unread : ∀ b, IsOffset b →
    segmentBaseOffsetFromName config (segmentName other b) = .ok none ∧
      segmentBaseOffsetFromName other (segmentName config b) = .ok none
  own : ∀ b, IsOffset b →
    segmentBaseOffsetFromName config (segmentName config b) = .ok (some b) ∧
      segmentBaseOffsetFromName other (segmentName other b) = .ok (some b)

theorem segmentName_ne_indexName (config other : PartitionConfig) (b : Int) :
    segmentName config b ≠ indexName other := by
  intro hsame
  have hsegment : (segmentName config b).toList.getLast? = some 't' := by
    rw [toList_segmentName, ← List.cons_append, ← List.append_assoc, List.getLast?_append]
    rfl
  have hindex : (indexName other).toList.getLast? = some 'x' := by
    rw [toList_indexName, List.getLast?_append]
    rfl
  rw [hsame, hindex] at hsegment
  exact absurd hsegment (by decide)

/-- **Two partitions share no file exactly when their names do not collide.** -/
theorem filesApart_iff (config other : PartitionConfig) :
    FilesApart config other ↔ ¬ Collide config other := by
  rw [← stem_eq_iff]
  constructor
  · intro hapart hstem
    apply hapart.indexes
    apply String.toList_injective
    rw [toList_indexName, toList_indexName, hstem]
  · intro hstem
    have hunread : ∀ b, IsOffset b →
        segmentBaseOffsetFromName config (segmentName other b) = .ok none ∧
          segmentBaseOffsetFromName other (segmentName config b) = .ok none := by
      intro b hb
      rw [segmentBaseOffsetFromName_segmentName _ _ hb.1 hb.2,
        segmentBaseOffsetFromName_segmentName _ _ hb.1 hb.2, if_neg hstem, if_neg (Ne.symm hstem)]
      exact ⟨rfl, rfl⟩
    have hown : ∀ (c : PartitionConfig) (b : Int), IsOffset b →
        segmentBaseOffsetFromName c (segmentName c b) = .ok (some b) := by
      intro c b hb
      rw [segmentBaseOffsetFromName_segmentName _ _ hb.1 hb.2, if_pos rfl]
    refine ⟨?_, ?_, ?_, hunread, fun b hb => ⟨hown config b hb, hown other b hb⟩⟩
    · intro b b' hb hb' hsame
      -- the name would be read as the partition's own and as foreign
      have hread := hown config b hb
      rw [hsame, (hunread b' hb').1] at hread
      cases hread
    · intro hsame
      apply hstem
      have hnames := congrArg String.toList hsame
      rw [toList_indexName, toList_indexName] at hnames
      exact List.append_cancel_right hnames
    · intro b _
      exact ⟨segmentName_ne_indexName _ _ _, segmentName_ne_indexName _ _ _⟩

/-- Two topics that differ in a slash and a colon, on one shard. -/
def confusedTopics : BrokerConfig :=
  { brokers := [{}]
    topics := [⟨"a/b", [{ defaultPartition with topic := "a/b" }]⟩,
      ⟨"a:b", [{ defaultPartition with topic := "a:b" }]⟩] }

/-- Both keep their records in the same files. -/
theorem files_not_always_apart :
    ¬ ∀ config : BrokerConfig, validateConfig config = .ok () →
        ∀ p ∈ config.topics.flatMap TopicConfig.partitions,
        ∀ q ∈ config.topics.flatMap TopicConfig.partitions,
        (p.topic, p.partition) ≠ (q.topic, q.partition) → p.shard = q.shard → FilesApart p q := by
  intro hall
  have hapart := hall confusedTopics (by decide +kernel) { defaultPartition with topic := "a/b" }
    (by simp [confusedTopics]) { defaultPartition with topic := "a:b" } (by simp [confusedTopics])
    (by simp) rfl
  exact hapart.indexes (by decide +kernel)

end Mkmq
