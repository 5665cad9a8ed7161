import Mathlib.Data.List.AList
import Mathlib.Algebra.GroupWithZero.Nat
import Mathlib.Algebra.BigOperators.Group.List.Basic

/-!
# Accounts of things that move

Things with a number (handles, calls, addresses) are made one after another and then move
between places: lists, and the entries of a table.  `total` counts what the entries of a
table hold, and follows an entry that is written or erased.  `Conserved` says that each thing
made so far is found exactly once over all places, and nothing else is found.
-/

namespace Accounts

variable {found found' : Nat → Nat} {made : Nat}

/-! ### Tables -/

section Tables

variable {κ ν : Type}

/-- The sum of a weight over the entries of a table. -/
def total (weight : ν → Nat) (table : AList fun _ : κ => ν) : Nat :=
  (table.entries.map fun entry => weight entry.2).sum

/-- What an optional entry weighs. -/
def weightOf (weight : ν → Nat) (entry : Option ν) : Nat := (entry.map weight).getD 0

@[simp] theorem weightOf_some (weight : ν → Nat) (value : ν) :
    weightOf weight (some value) = weight value := rfl

@[simp] theorem total_empty (weight : ν → Nat) : total weight (∅ : AList fun _ : κ => ν) = 0 := rfl

/-- Counting over the entries is counting in all their lists together. -/
theorem count_flatMap_entries (f : ν → List Nat) (table : AList fun _ : κ => ν) (x : Nat) :
    ((table.entries.map Sigma.snd).flatMap f).count x =
      total (fun value => (f value).count x) table := by
  unfold total
  rw [List.count_flatMap, List.map_map]
  rfl

variable [DecidableEq κ]

/-- Weights that agree on what the table holds have the same total. -/
theorem total_congr {weight weight' : ν → Nat} {table : AList fun _ : κ => ν}
    (h : ∀ key value, table.lookup key = some value → weight value = weight' value) :
    total weight table = total weight' table := by
  unfold total
  refine congrArg List.sum (List.map_congr_left fun entry hentry => ?_)
  exact h entry.1 entry.2 (AList.mem_lookup_iff.mpr hentry)

theorem sum_kerase (weight : ν → Nat) (key : κ) (entries : List (Sigma fun _ : κ => ν)) :
    ((entries.kerase key).map fun entry => weight entry.2).sum +
        weightOf weight (entries.dlookup key) =
      (entries.map fun entry => weight entry.2).sum := by
  induction entries with
  | nil => rfl
  | cons head rest ih =>
    obtain ⟨k, value⟩ := head
    by_cases hkey : key = k
    · subst hkey
      have hfirst : List.kerase key (⟨key, value⟩ :: rest) = rest := List.kerase_cons_eq rfl
      rw [hfirst, List.dlookup_cons_eq, weightOf_some, List.map_cons, List.sum_cons, Nat.add_comm]
    · rw [List.kerase_cons_ne hkey, List.dlookup_cons_ne _ _ hkey, List.map_cons, List.map_cons,
        List.sum_cons, List.sum_cons, Nat.add_assoc, ih]

theorem total_erase (weight : ν → Nat) (key : κ) (table : AList fun _ : κ => ν) :
    total weight (table.erase key) + weightOf weight (table.lookup key) = total weight table :=
  sum_kerase weight key table.entries

theorem total_insert (weight : ν → Nat) (key : κ) (value : ν) (table : AList fun _ : κ => ν) :
    total weight (table.insert key value) + weightOf weight (table.lookup key) =
      total weight table + weight value := by
  have hrest := total_erase weight key table
  have hnew : total weight (table.insert key value) =
      weight value + total weight (table.erase key) := by
    unfold total
    rw [AList.entries_insert, List.map_cons, List.sum_cons]
    rfl
  omega

end Tables

/-! ### Lists -/

/-- What is found in a list can be taken out of it. -/
theorem eraseP_of_find? {α : Type} {p : α → Bool} {items : List α} {x : α}
    (h : items.find? p = some x) :
    ∃ front back, items = front ++ x :: back ∧ items.eraseP p = front ++ back := by
  obtain ⟨hp, front, back, hsplit, hfront⟩ := List.find?_eq_some_iff_append.mp h
  refine ⟨front, back, hsplit, ?_⟩
  rw [hsplit, List.eraseP_append_right _ (by simpa using hfront), List.eraseP_cons_of_pos hp]

/-- What is in a list once is at one place of it. -/
theorem eq_of_getElem?_of_count_le_one {α : Type} [BEq α] [LawfulBEq α] {items : List α} {x : α}
    {i j : Nat} (h : items.count x ≤ 1) (hi : items[i]? = some x) (hj : items[j]? = some x) :
    i = j := by
  induction items generalizing i j with
  | nil => cases hi
  | cons head rest ih =>
    -- at the head and in the rest it would be there twice
    have htwice : ∀ k : Nat, head = x → rest[k]? = some x → False := by
      rintro k rfl hk
      have hpos := List.count_pos_iff.mpr (List.mem_of_getElem? hk)
      rw [List.count_cons_self] at h
      omega
    cases i with
    | zero =>
      cases j with
      | zero => rfl
      | succ j => exact (htwice j (Option.some.inj hi) hj).elim
    | succ i =>
      cases j with
      | zero => exact (htwice i (Option.some.inj hj) hi).elim
      | succ j => rw [ih (le_trans List.count_le_count_cons h) hi hj]

/-! ### Conservation -/

/-- Each of the things made so far is found once, and nothing else is found. -/
def Conserved (found : Nat → Nat) (made : Nat) : Prop := ∀ x, found x = if x < made then 1 else 0

theorem Conserved.congr (h : Conserved found made) (heq : ∀ x, found' x = found x) :
    Conserved found' made := by
  intro x
  rw [heq]
  exact h x

/-- One more is made, and found. -/
theorem Conserved.make (h : Conserved found made) (heq : ∀ x, found' x = found x + [made].count x) :
    Conserved found' (made + 1) := by
  intro x
  rw [heq, h x, List.count_singleton]
  by_cases hx : made = x
  · subst hx
    simp
  · simp only [beq_iff_eq, hx, if_false]
    split <;> split <;> omega

/-- None of the things made so far is found twice, and nothing else is found. -/
def AtMostOnce (found : Nat → Nat) (made : Nat) : Prop := ∀ x, found x ≤ if x < made then 1 else 0

theorem AtMostOnce.mono (h : AtMostOnce found made) (hle : ∀ x, found' x ≤ found x) :
    AtMostOnce found' made :=
  fun x => le_trans (hle x) (h x)

theorem AtMostOnce.le_one (h : AtMostOnce found made) (x : Nat) : found x ≤ 1 := by
  refine le_trans (h x) ?_
  split <;> omega

/-- What is found has been made. -/
theorem AtMostOnce.lt_of_pos {x : Nat} (h : AtMostOnce found made) (hpos : 0 < found x) :
    x < made := by
  have hx := h x
  split at hx
  · assumption
  · omega

/-- One more is made, and may be found. -/
theorem AtMostOnce.make (h : AtMostOnce found made)
    (hle : ∀ x, found' x ≤ found x + [made].count x) : AtMostOnce found' (made + 1) := by
  intro x
  have hx := h x
  refine le_trans (hle x) ?_
  rw [List.count_singleton]
  by_cases hmade : made = x
  · subst hmade
    simpa using hx
  · simp only [beq_iff_eq, hmade, if_false]
    split at hx <;> split <;> omega

end Accounts
