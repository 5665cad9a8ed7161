import Mathlib.Data.List.Basic

/-!
# Binary search for a partition point

`std::lower_bound` with a predicate: halve the range until it is empty.  The search
itself asks nothing of the list; only on a list whose elements below the target come
first is the result the number of those elements.
-/

namespace LowerBound

variable {α : Type}

/-- The loop over the range of `len` elements from `first`.  The range at least halves,
    so `fuel` is enough once it is no less than `len`. -/
def lowerBoundLoop (below : α → Bool) (xs : List α) : Nat → Nat → Nat → Nat
  | 0, first, _ => first
  | fuel + 1, first, len =>
    if len = 0 then first
    else
      let half := len / 2
      match xs[first + half]? with
      | none => first
      | some x =>
        if below x then lowerBoundLoop below xs fuel (first + half + 1) (len - half - 1)
        else lowerBoundLoop below xs fuel first half

def lowerBound (below : α → Bool) (xs : List α) : Nat :=
  lowerBoundLoop below xs xs.length 0 xs.length

variable {below : α → Bool} {front back : List α}

/-- The partition point never leaves the range. -/
theorem lowerBoundLoop_partitioned (hfront : ∀ x ∈ front, below x = true)
    (hback : ∀ x ∈ back, below x = false) (fuel first len : Nat) (hfuel : len ≤ fuel)
    (hlo : first ≤ front.length) (hhi : front.length ≤ first + len)
    (hlen : first + len ≤ (front ++ back).length) :
    lowerBoundLoop below (front ++ back) fuel first len = front.length := by
  induction fuel generalizing first len with
  | zero =>
    unfold lowerBoundLoop
    omega
  | succ fuel ih =>
    unfold lowerBoundLoop
    by_cases hzero : len = 0
    · rw [if_pos hzero]
      omega
    · rw [if_neg hzero]
      have hmid : first + len / 2 < (front ++ back).length := by omega
      simp only [List.getElem?_eq_getElem hmid]
      by_cases hside : first + len / 2 < front.length
      · rw [List.getElem_append_left hside, if_pos (hfront _ (List.getElem_mem hside))]
        exact ih _ _ (by omega) (by omega) (by omega) (by omega)
      · have hright := hback _ (List.getElem_mem (l := back)
          (n := first + len / 2 - front.length) (by rw [List.length_append] at hmid; omega))
        rw [List.getElem_append_right (Nat.le_of_not_lt hside), hright, if_neg (by decide)]
        exact ih _ _ (by omega) hlo (by omega) (by omega)

theorem lowerBound_partitioned (below : α → Bool) (front back : List α)
    (hfront : ∀ x ∈ front, below x = true) (hback : ∀ x ∈ back, below x = false) :
    lowerBound below (front ++ back) = front.length :=
  lowerBoundLoop_partitioned hfront hback _ 0 _ (Nat.le_refl _) (Nat.zero_le _)
    (by rw [List.length_append]; omega) (by omega)

end LowerBound
