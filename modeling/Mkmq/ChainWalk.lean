import Mathlib.Data.List.Basic

/-!
# Walking a chain of pieces

A buffer that holds pieces one behind another is read from the front: the head of what is
left tells how long its piece is, and the reader goes on behind it, until the head is no
piece.  A `Cut` is what one such reader takes for a piece.  This module collects what two
readers of one buffer need: the pieces a reader cuts off and the rest it leaves, that a
buffer put together from its pieces is taken apart into them, and that a reader which
takes all that a stricter one takes continues where the stricter one stops.
-/

namespace ChainWalk

variable {α : Type*}

/-- What a reader takes for a piece: the size of the one at the head of a list, or `none`
    where the walk ends. -/
structure Cut (α : Type*) where
  size : List α → Option Nat
  size_pos : ∀ l n, size l = some n → 0 < n
  size_le : ∀ l n, size l = some n → n ≤ l.length

namespace Cut

variable (cut : Cut α)

/-- The walk, for at most `fuel` pieces: what is left at each of them. -/
def visitsWithin : Nat → List α → List (List α)
  | 0, _ => []
  | fuel + 1, l =>
    match cut.size l with
    | none => []
    | some n => l :: visitsWithin fuel (l.drop n)

def restWithin : Nat → List α → List α
  | 0, l => l
  | fuel + 1, l =>
    match cut.size l with
    | none => l
    | some n => restWithin fuel (l.drop n)

/-- What is left of the list at each piece of the walk. -/
def visits (l : List α) : List (List α) := cut.visitsWithin l.length l

/-- What the walk leaves. -/
def rest (l : List α) : List α := cut.restWithin l.length l

/-- The piece at the head. -/
def head (l : List α) : List α := l.take ((cut.size l).getD 0)

def pieces (l : List α) : List (List α) := (cut.visits l).map cut.head

/-! ### One step of the walk -/

section Step

variable {cut} {l : List α} {n : Nat}

theorem length_drop_lt (h : cut.size l = some n) : (l.drop n).length < l.length := by
  have hpos := cut.size_pos l n h
  have hle := cut.size_le l n h
  rw [List.length_drop]
  omega

/-- Induction along the walk. -/
theorem induction {motive : List α → Prop} (stop : ∀ l, cut.size l = none → motive l)
    (piece : ∀ l n, cut.size l = some n → motive (l.drop n) → motive l) (l : List α) :
    motive l := by
  induction hlen : l.length using Nat.strongRecOn generalizing l with
  | ind k ih =>
    cases hsize : cut.size l with
    | none => exact stop l hsize
    | some n => exact piece l n hsize (ih _ (hlen ▸ length_drop_lt hsize) _ rfl)

/-- As many turns as the list is long are enough. -/
theorem visitsWithin_eq {fuel : Nat} (h : l.length ≤ fuel) :
    cut.visitsWithin fuel l = cut.visits l ∧ cut.restWithin fuel l = cut.rest l := by
  suffices hall : ∀ fuel fuel' (l : List α), l.length ≤ fuel → l.length ≤ fuel' →
      cut.visitsWithin fuel l = cut.visitsWithin fuel' l ∧
        cut.restWithin fuel l = cut.restWithin fuel' l from hall _ _ l h (Nat.le_refl _)
  intro fuel
  induction fuel with
  | zero =>
    intro fuel' l hl _
    obtain rfl := List.length_eq_zero_iff.mp (Nat.le_zero.mp hl)
    have hnone : cut.size [] = none := by
      cases hsize : cut.size [] with
      | none => rfl
      | some n => exact absurd (cut.size_le [] n hsize) (Nat.not_le.mpr (cut.size_pos [] n hsize))
    cases fuel' with
    | zero => exact ⟨rfl, rfl⟩
    | succ fuel' => simp only [visitsWithin, restWithin, hnone, and_self]
  | succ fuel ih =>
    intro fuel' l hl hl'
    cases hsize : cut.size l with
    | none => cases fuel' <;> simp only [visitsWithin, restWithin, hsize, and_self]
    | some n =>
      have hlt := length_drop_lt hsize
      obtain ⟨fuel', rfl⟩ : ∃ m, fuel' = m + 1 := ⟨fuel' - 1, by omega⟩
      obtain ⟨hvisits, hrest⟩ := ih fuel' (l.drop n) (by omega) (by omega)
      simp only [visitsWithin, restWithin, hsize, hvisits, hrest, and_self]

theorem visits_of_none (h : cut.size l = none) : cut.visits l = [] := by
  rw [← (visitsWithin_eq (Nat.le_succ l.length)).1]
  simp only [visitsWithin, h]

theorem visits_of_some (h : cut.size l = some n) : cut.visits l = l :: cut.visits (l.drop n) := by
  have hlt := length_drop_lt h
  rw [← (visitsWithin_eq (Nat.le_succ l.length)).1, ← (visitsWithin_eq (Nat.le_of_lt hlt)).1]
  simp only [visitsWithin, h]

theorem rest_of_none (h : cut.size l = none) : cut.rest l = l := by
  rw [← (visitsWithin_eq (Nat.le_succ l.length)).2]
  simp only [restWithin, h]

theorem rest_of_some (h : cut.size l = some n) : cut.rest l = cut.rest (l.drop n) := by
  have hlt := length_drop_lt h
  rw [← (visitsWithin_eq (Nat.le_succ l.length)).2, ← (visitsWithin_eq (Nat.le_of_lt hlt)).2]
  simp only [restWithin, h]

theorem pieces_of_none (h : cut.size l = none) : cut.pieces l = [] := by
  rw [pieces, visits_of_none h, List.map_nil]

theorem pieces_of_some (h : cut.size l = some n) :
    cut.pieces l = l.take n :: cut.pieces (l.drop n) := by
  rw [pieces, visits_of_some h, List.map_cons, head, h, Option.getD_some, pieces]

theorem pieces_eq_nil_iff : cut.pieces l = [] ↔ cut.size l = none := by
  cases h : cut.size l with
  | none => simp only [pieces_of_none h]
  | some n => simp only [pieces_of_some h, reduceCtorEq]

end Step

/-! ### Whole walks -/

theorem size_rest (l : List α) : cut.size (cut.rest l) = none := by
  induction l using cut.induction with
  | stop l h => rw [rest_of_none h, h]
  | piece l n h ih => rw [rest_of_some h, ih]

/-- Nothing is skipped. -/
theorem flatten_pieces_append_rest (l : List α) : (cut.pieces l).flatten ++ cut.rest l = l := by
  induction l using cut.induction with
  | stop l h => rw [pieces_of_none h, rest_of_none h, List.flatten_nil, List.nil_append]
  | piece l n h ih =>
    rw [pieces_of_some h, rest_of_some h, List.flatten_cons, List.append_assoc, ih,
      List.take_append_drop]

/-- Every piece starts with what is left of the list there. -/
theorem mem_visits {l left : List α} (h : left ∈ cut.visits l) :
    left.length ≤ l.length ∧ ∃ n, cut.size left = some n := by
  induction l using cut.induction with
  | stop l hsize =>
    rw [visits_of_none hsize] at h
    exact absurd h List.not_mem_nil
  | piece l n hsize ih =>
    rw [visits_of_some hsize] at h
    rcases List.mem_cons.mp h with rfl | hlater
    · exact ⟨Nat.le_refl _, n, hsize⟩
    · obtain ⟨hle, hpiece⟩ := ih hlater
      exact ⟨Nat.le_trans hle (Nat.le_of_lt (length_drop_lt hsize)), hpiece⟩

/-- A buffer put together from pieces is taken apart into them. -/
theorem pieces_flatten_append {parts : List (List α)}
    (h : ∀ part ∈ parts, ∀ behind, cut.size (part ++ behind) = some part.length)
    (behind : List α) : cut.pieces (parts.flatten ++ behind) = parts ++ cut.pieces behind := by
  induction parts with
  | nil => rfl
  | cons part parts ih =>
    have hsize := h part List.mem_cons_self (parts.flatten ++ behind)
    rw [List.flatten_cons, List.append_assoc, pieces_of_some hsize, List.take_left,
      List.drop_left, ih fun p hp => h p (List.mem_cons_of_mem _ hp), List.cons_append]

/-- A reader that takes every piece of a stricter one goes on where that one stops. -/
theorem visits_append {strict : Cut α}
    (h : ∀ l n, strict.size l = some n → cut.size l = some n) (l : List α) :
    cut.visits l = strict.visits l ++ cut.visits (strict.rest l) := by
  induction l using strict.induction with
  | stop l hstop => rw [visits_of_none hstop, rest_of_none hstop, List.nil_append]
  | piece l n hpiece ih =>
    rw [visits_of_some (h l n hpiece), visits_of_some hpiece, rest_of_some hpiece, ih,
      List.cons_append]

end Cut

end ChainWalk
