import Mkmq.LowerBound
import Mkmq.Reload
import Mkmq.Transition

/-!
# The partition table (`BrokerShard::find_partition_log`, `emplace_partition_log`)

`partitions_` is a flat vector sorted by key, searched with `std::lower_bound`, and
`hot_partition_` remembers where the last search found its entry.  An insert moves entries, so
a pointer from before it would show another partition's log: the insert clears the slot first.
What the two functions amount to is a map from keys to the logs first made for them.

A log is named by the number of logs constructed before it.
-/

namespace Mkmq

open LowerBound

/-- A `PartitionEntry*`: the storage it points into and the position there. -/
structure EntryPointer where
  storage : Nat
  position : Nat
deriving DecidableEq, Repr

structure PartitionTable where
  partitions : List (TopicPartition × Nat) := []
  /-- The storage `partitions_` stands in.  Pointers do not survive an insert, whether it moves
      the vector or only its elements. -/
  storage : Nat := 0
  hotPartition : Option EntryPointer := none
  /-- The logs constructed so far. -/
  constructed : Nat := 0
deriving DecidableEq

namespace PartitionTable

variable {table : PartitionTable} {key : TopicPartition}

/-- The entry a pointer shows, while it is valid. -/
def entryAt (table : PartitionTable) (pointer : EntryPointer) : Option (TopicPartition × Nat) :=
  if pointer.storage = table.storage then table.partitions[pointer.position]? else none

/-- The comparison given to `std::lower_bound`. -/
def entryBelow (key : TopicPartition) (entry : TopicPartition × Nat) : Bool :=
  if (ofLex entry.1).1 ≠ (ofLex key).1 then (ofLex entry.1).1 < (ofLex key).1
  else (ofLex entry.1).2 < (ofLex key).2

/-- The search both functions make: where the key stands or would stand, and its log. -/
def search (table : PartitionTable) (key : TopicPartition) : Nat × Option Nat :=
  let it := lowerBound (entryBelow key) table.partitions
  match table.partitions[it]? with
  | some entry => (it, if entry.1 = key then some entry.2 else none)
  | none => (it, none)

/-- The log of the remembered entry, if that is the entry of `key`. -/
def hotLog (table : PartitionTable) (key : TopicPartition) : Option Nat :=
  match table.hotPartition.bind table.entryAt with
  | some entry => if entry.1 = key then some entry.2 else none
  | none => none

def findPartitionLog (table : PartitionTable) (key : TopicPartition) :
    PartitionTable × Option Nat :=
  match table.hotLog key with
  | some log => (table, some log)
  | none =>
    match table.search key with
    | (it, some log) => ({ table with hotPartition := some ⟨table.storage, it⟩ }, some log)
    | (_, none) => (table, none)

def emplacePartitionLog (table : PartitionTable) (key : TopicPartition) : PartitionTable × Nat :=
  match table.search key with
  | (_, some log) => (table, log)
  | (it, none) =>
    ({ partitions :=
         table.partitions.take it ++ (key, table.constructed) :: table.partitions.drop it
       storage := table.storage + 1
       hotPartition := none
       constructed := table.constructed + 1 },
      table.constructed)

/-! ### The search -/

theorem entryBelow_iff (key : TopicPartition) (entry : TopicPartition × Nat) :
    entryBelow key entry = true ↔ entry.1 < key := by
  unfold entryBelow
  rw [Prod.Lex.lt_iff]
  by_cases htopic : (ofLex entry.1).1 = (ofLex key).1
  · simp [htopic]
  · simp [htopic]

/-- Every valid table splits at a key, and that is where the search ends. -/
theorem search_split (hs : OrderedStore.Ascending table.partitions) (key : TopicPartition) :
    ∃ front back, table.partitions = front ++ back ∧ (∀ entry ∈ front, entry.1 < key) ∧
      (∀ entry ∈ back, key ≤ entry.1) ∧
      table.search key = (front.length, OrderedStore.find key table.partitions) := by
  obtain ⟨front, back, hsplit, hfront, hback⟩ := hs.exists_split key
  refine ⟨front, back, hsplit, hfront, hback, ?_⟩
  have hit : lowerBound (entryBelow key) table.partitions = front.length := by
    rw [hsplit]
    refine lowerBound_partitioned _ _ _ (fun entry hentry => ?_) fun entry hentry => ?_
    · exact (entryBelow_iff key entry).mpr (hfront entry hentry)
    · rw [← Bool.not_eq_true, entryBelow_iff]
      exact not_lt.mpr (hback entry hentry)
  have hbackSorted : OrderedStore.Ascending back := by
    rw [hsplit] at hs
    exact (List.pairwise_append.mp hs).2.1
  have hentry : table.partitions[front.length]? = back[0]? := by
    rw [hsplit, List.getElem?_append_right (le_refl _), Nat.sub_self]
  have hfind : OrderedStore.find key table.partitions = OrderedStore.find key back := by
    rw [hsplit, OrderedStore.find_append_of_lt hfront]
  rw [search, hit, hentry, hfind, hbackSorted.find_of_le hback]
  cases back with
  | nil => rfl
  | cons head rest => rfl

/-! ### What every table keeps -/

structure Valid (table : PartitionTable) : Prop where
  sorted : OrderedStore.Ascending table.partitions
  hot : ∀ pointer, table.hotPartition = some pointer →
    pointer.storage = table.storage ∧ pointer.position < table.partitions.length
  logs : ∀ entry ∈ table.partitions, entry.2 < table.constructed

theorem valid_empty : Valid {} where
  sorted := List.Pairwise.nil
  hot := fun _ h => nomatch h
  logs := fun _ h => nomatch h

/-- A valid pointer shows an entry of the table. -/
theorem Valid.entryAt_eq (h : table.Valid) {pointer : EntryPointer}
    (hhot : table.hotPartition = some pointer) :
    ∃ entry ∈ table.partitions, table.entryAt pointer = some entry := by
  obtain ⟨hstorage, hposition⟩ := h.hot pointer hhot
  refine ⟨_, List.getElem_mem hposition, ?_⟩
  rw [entryAt, if_pos hstorage, List.getElem?_eq_getElem hposition]

/-- The slot never answers for another key. -/
theorem Valid.find_of_hotLog (h : table.Valid) {log : Nat} (hlog : table.hotLog key = some log) :
    OrderedStore.find key table.partitions = some log := by
  unfold hotLog at hlog
  cases hhot : table.hotPartition with
  | none =>
    rw [hhot] at hlog
    cases hlog
  | some pointer =>
    obtain ⟨entry, hmem, hentry⟩ := h.entryAt_eq hhot
    rw [hhot, Option.bind_some, hentry] at hlog
    simp only at hlog
    split at hlog
    · next hkey =>
        obtain rfl := Option.some.inj hlog
        exact h.sorted.find_of_mem (hkey ▸ hmem)
    · cases hlog

/-- **A lookup** returns what the map has, and moves at most the slot, to a position in the
    vector as it is. -/
theorem Valid.findPartitionLog_eq (h : table.Valid) (key : TopicPartition) :
    ∃ hot, table.findPartitionLog key =
        ({ table with hotPartition := hot }, OrderedStore.find key table.partitions) ∧
      Valid { table with hotPartition := hot } := by
  unfold findPartitionLog
  cases hhot : table.hotLog key with
  | some log => exact ⟨table.hotPartition, by rw [h.find_of_hotLog hhot], h⟩
  | none =>
    obtain ⟨front, back, hsplit, hfront, -, hsearch⟩ := search_split h.sorted key
    simp only [hsearch]
    cases hfind : OrderedStore.find key table.partitions with
    | none => exact ⟨table.hotPartition, rfl, h⟩
    | some log =>
      refine ⟨some ⟨table.storage, front.length⟩, rfl, h.sorted, ?_, h.logs⟩
      rintro pointer ⟨⟩
      refine ⟨rfl, ?_⟩
      -- an entry was found, so the front is not all of the table
      have hback : back ≠ [] := by
        rintro rfl
        have hmem := OrderedStore.mem_of_find hfind
        rw [hsplit, List.append_nil] at hmem
        exact lt_irrefl key (hfront _ hmem)
      have := List.length_pos_of_ne_nil hback
      simp only [hsplit, List.length_append]
      omega

/-- **An emplace of a present key** returns its log and changes nothing. -/
theorem Valid.emplacePartitionLog_of_found (h : table.Valid) {log : Nat}
    (hfind : OrderedStore.find key table.partitions = some log) :
    table.emplacePartitionLog key = (table, log) := by
  obtain ⟨front, back, -, -, -, hsearch⟩ := search_split h.sorted key
  rw [emplacePartitionLog, hsearch, hfind]

/-- **An emplace of a new key** puts a new log under it and clears the slot. -/
theorem Valid.emplacePartitionLog_of_missing (h : table.Valid)
    (hfind : OrderedStore.find key table.partitions = none) :
    table.emplacePartitionLog key =
      ({ partitions := OrderedStore.put key table.constructed table.partitions
         storage := table.storage + 1
         hotPartition := none
         constructed := table.constructed + 1 }, table.constructed) := by
  obtain ⟨front, back, hsplit, hfront, hback, hsearch⟩ := search_split h.sorted key
  have hbackLt : ∀ entry ∈ back, key < entry.1 := by
    intro entry hentry
    refine lt_of_le_of_ne (hback entry hentry) ?_
    rintro rfl
    have hfound := h.sorted.find_of_mem (hsplit ▸ List.mem_append_right front hentry)
    rw [hfound] at hfind
    cases hfind
  rw [emplacePartitionLog, hsearch, hfind]
  simp only
  rw [hsplit, List.take_left, List.drop_left, OrderedStore.put_append_of_lt hfront,
    OrderedStore.put_of_lt hbackLt]

theorem Valid.emplacePartitionLog (h : table.Valid) (key : TopicPartition) :
    (table.emplacePartitionLog key).1.Valid := by
  cases hfind : OrderedStore.find key table.partitions with
  | some log =>
    rw [h.emplacePartitionLog_of_found hfind]
    exact h
  | none =>
    rw [h.emplacePartitionLog_of_missing hfind]
    refine ⟨h.sorted.put key _, (fun _ hhot => nomatch hhot), ?_⟩
    rintro ⟨k, log⟩ hentry
    rcases OrderedStore.mem_put hentry with heq | hold
    · obtain ⟨-, rfl⟩ := Prod.mk.inj heq
      exact Nat.lt_succ_self _
    · exact Nat.lt_succ_of_lt (h.logs _ hold)

end PartitionTable

/-! ### Runs of calls -/

inductive TableCall where
  | emplace (key : TopicPartition)
  | find (key : TopicPartition)
deriving DecidableEq

/-- A table with the calls made on it since it was empty and what each returned. -/
structure TableUse where
  table : PartitionTable := {}
  history : List (TableCall × Option Nat) := []

namespace TableUse

variable {s : TableUse}

def call (s : TableUse) : TableCall → TableUse
  | .emplace key =>
    let (table, log) := s.table.emplacePartitionLog key
    { table, history := s.history ++ [(.emplace key, some log)] }
  | .find key =>
    let (table, log) := s.table.findPartitionLog key
    { table, history := s.history ++ [(.find key, log)] }

def Reached : TableUse → Prop :=
  Transition.Reachable (fun s => s = {}) (fun s call => some (s.call call)) fun _ _ => True

/-- What the first emplace of `key` returned, if there was one. -/
def firstLog (s : TableUse) (key : TopicPartition) : Option Nat :=
  s.history.findSome? fun entry => if entry.1 = .emplace key then entry.2 else none

/-- The table is the map of first logs, and no log but those of the history exists. -/
structure Kept (s : TableUse) : Prop where
  valid : s.table.Valid
  map : ∀ key, OrderedStore.find key s.table.partitions = s.firstLog key
  returned : ∀ entry ∈ s.history, ∀ log, entry.2 = some log → log < s.table.constructed

theorem firstLog_concat (history : List (TableCall × Option Nat)) (table table' : PartitionTable)
    (entry : TableCall × Option Nat) (key : TopicPartition) :
    firstLog ⟨table', history ++ [entry]⟩ key =
      (firstLog ⟨table, history⟩ key).or
        (if entry.1 = .emplace key then entry.2 else none) := by
  unfold firstLog
  rw [List.findSome?_append]
  congr 1
  simp only [List.findSome?_cons, List.findSome?_nil]
  split <;> simp_all

theorem Kept.find (h : s.Kept) (key : TopicPartition) : (s.call (.find key)).Kept := by
  obtain ⟨hot, hfind, hvalid⟩ := h.valid.findPartitionLog_eq key
  simp only [call, hfind]
  refine ⟨hvalid, fun other => ?_, fun entry hentry log hlog => ?_⟩
  · rw [firstLog_concat _ s.table, if_neg (fun h => nomatch h), Option.or_none]
    exact h.map other
  · rcases List.mem_append.mp hentry with hold | hnew
    · exact h.returned entry hold log hlog
    · obtain rfl := List.mem_singleton.mp hnew
      exact h.valid.logs _ (OrderedStore.mem_of_find hlog)

theorem Kept.emplace (h : s.Kept) (key : TopicPartition) : (s.call (.emplace key)).Kept := by
  have hvalid := h.valid.emplacePartitionLog key
  cases hfind : OrderedStore.find key s.table.partitions with
  | some log =>
    simp only [call, h.valid.emplacePartitionLog_of_found hfind] at hvalid ⊢
    refine ⟨hvalid, fun other => ?_, fun entry hentry log' hlog => ?_⟩
    · rw [firstLog_concat _ s.table, ← h.map other]
      by_cases hother : other = key
      · rw [hother, hfind, Option.some_or]
      · rw [if_neg (fun heq => hother (TableCall.emplace.inj heq).symm), Option.or_none]
    · rcases List.mem_append.mp hentry with hold | hnew
      · exact h.returned entry hold log' hlog
      · obtain rfl := List.mem_singleton.mp hnew
        obtain rfl := Option.some.inj hlog
        exact h.valid.logs _ (OrderedStore.mem_of_find hfind)
  | none =>
    simp only [call, h.valid.emplacePartitionLog_of_missing hfind] at hvalid ⊢
    refine ⟨hvalid, fun other => ?_, fun entry hentry log' hlog => ?_⟩
    · rw [firstLog_concat _ s.table, ← h.map other, OrderedStore.find_put]
      by_cases hother : other = key
      · rw [if_pos hother, if_pos (by rw [hother]), hother, hfind, Option.none_or]
      · rw [if_neg hother, if_neg (fun heq => hother (TableCall.emplace.inj heq).symm),
          Option.or_none]
    · rcases List.mem_append.mp hentry with hold | hnew
      · exact Nat.lt_succ_of_lt (h.returned entry hold log' hlog)
      · obtain rfl := List.mem_singleton.mp hnew
        obtain rfl := Option.some.inj hlog
        exact Nat.lt_succ_self _

theorem kept_of_reached (h : s.Reached) : s.Kept := by
  unfold Reached at h
  induction h with
  | start hstart =>
    obtain rfl := hstart
    exact ⟨PartitionTable.valid_empty, fun _ => rfl, fun _ hentry => nomatch hentry⟩
  | next call _ _ hstep ih =>
    obtain rfl := Option.some.inj hstep
    cases call with
    | emplace key => exact ih.emplace key
    | find key => exact ih.find key

end TableUse

/-- **The cached partition table is a map.**  After any calls on an empty table it is sorted
    without duplicates, the slot shows an entry where it now stands, a lookup returns the log
    of the first emplace of its key or null, an emplace of a present key returns that log and
    changes nothing, and one of a new key returns a log nobody has. -/
theorem partition_table_is_a_map {s : TableUse} (h : s.Reached) :
    s.table.partitions.Pairwise (fun a b => a.1 < b.1) ∧
    (∀ pointer, s.table.hotPartition = some pointer →
      ∃ entry ∈ s.table.partitions, s.table.entryAt pointer = some entry) ∧
    ∀ key, (s.table.findPartitionLog key).2 = s.firstLog key ∧
      (∀ log, s.firstLog key = some log → s.table.emplacePartitionLog key = (s.table, log)) ∧
      (s.firstLog key = none → ∀ entry ∈ s.history,
        entry.2 ≠ some (s.table.emplacePartitionLog key).2) := by
  have hkept := TableUse.kept_of_reached h
  refine ⟨hkept.valid.sorted, fun pointer hhot => hkept.valid.entryAt_eq hhot, fun key => ?_⟩
  refine ⟨?_, fun log hlog => ?_, fun hnone entry hentry hsame => ?_⟩
  · obtain ⟨hot, hfind, -⟩ := hkept.valid.findPartitionLog_eq key
    rw [hfind, hkept.map]
  · exact hkept.valid.emplacePartitionLog_of_found ((hkept.map key).trans hlog)
  · have hlt := hkept.returned entry hentry _ hsame
    rw [hkept.valid.emplacePartitionLog_of_missing ((hkept.map key).trans hnone)] at hlt
    exact lt_irrefl _ hlt

/-- Two partitions of one topic, the second emplaced before the first is looked up again. -/
theorem partition_table_is_a_map_two :
    ((((({} : TableUse).call (.emplace (toLex ("orders", 1)))).call
        (.find (toLex ("orders", 1)))).call
          (.emplace (toLex ("orders", 0)))).table.findPartitionLog (toLex ("orders", 1))).2 =
      some 0 :=
  ((partition_table_is_a_map (.next (.emplace (toLex ("orders", 0)))
    (.next (.find (toLex ("orders", 1))) (.next (.emplace (toLex ("orders", 1))) (.start rfl)
      trivial rfl) trivial rfl) trivial rfl)).2.2 _).1.trans (by decide)

end Mkmq
