import Mathlib.Data.List.Basic
import Mathlib.Data.List.TakeDrop

/-!
# Lists in order of use

A bounded cache keeps its entries with the most recently used one in front: a use moves its
entry to the front, a new entry is put there, and what does not fit falls off at the end.
An entry among the first `n` is among the first `n + 1` after one more operation, so it falls
off only after as many operations as the cache has places.
-/

namespace Recency

variable {α : Type}

/-- Put an entry in front of what fits behind it. -/
def push (limit : Nat) (x : α) (entries : List α) : List α := x :: entries.take (limit - 1)

theorem length_push_le {limit : Nat} (hpos : 0 < limit) (x : α) (entries : List α) :
    (push limit x entries).length ≤ limit := by
  rw [push, List.length_cons, List.length_take]
  omega

theorem mem_take_push {limit n : Nat} {x y : α} {entries : List α} (h : y ∈ entries.take n)
    (hn : n < limit) : y ∈ (push limit x entries).take (n + 1) := by
  rw [push, List.take_succ_cons, List.mem_cons, List.take_take, Nat.min_eq_left (by omega)]
  exact Or.inr h

section Touch

variable [BEq α] [LawfulBEq α] {entries : List α} {x : α}

/-- Move an entry to the front. -/
def touch (x : α) (entries : List α) : List α := x :: entries.erase x

theorem touch_perm (h : x ∈ entries) : (touch x entries).Perm entries :=
  (List.perm_cons_erase h).symm

theorem mem_take_erase {y : α} (hne : y ≠ x) {n : Nat} (h : y ∈ entries.take n) :
    y ∈ (entries.erase x).take n := by
  induction entries generalizing n with
  | nil => exact h
  | cons head rest ih =>
    cases n with
    | zero => cases h
    | succ n =>
      rw [List.take_succ_cons, List.mem_cons] at h
      by_cases hhead : head = x
      · subst hhead
        rw [List.erase_cons_head]
        rcases h with h | h
        · exact absurd h hne
        · exact List.take_subset_take_left rest (Nat.le_succ n) h
      · rw [List.erase_cons_tail (by simpa using hhead), List.take_succ_cons, List.mem_cons]
        exact h.imp_right ih

theorem mem_take_touch {y : α} {n : Nat} (h : y ∈ entries.take n) :
    y ∈ (touch x entries).take (n + 1) := by
  rw [touch, List.take_succ_cons, List.mem_cons]
  by_cases hxy : y = x
  · exact Or.inl hxy
  · exact Or.inr (mem_take_erase hxy h)

/-- The entry that a search finds is the first one of its value. -/
theorem erase_eq_eraseP {p : α → Bool} (h : entries.find? p = some x) :
    entries.erase x = entries.eraseP p := by
  induction entries with
  | nil => cases h
  | cons head rest ih =>
    cases hp : p head with
    | true =>
      obtain rfl : head = x := by simpa [List.find?_cons, hp] using h
      rw [List.erase_cons_head, List.eraseP_cons_of_pos hp]
    | false =>
      have hrest : rest.find? p = some x := by simpa [List.find?_cons, hp] using h
      have hne : head ≠ x := fun heq => by
        rw [heq, List.find?_some hrest] at hp
        cases hp
      rw [List.erase_cons_tail (by simpa using hne), List.eraseP_cons_of_neg (by simp [hp]),
        ih hrest]

end Touch

end Recency
