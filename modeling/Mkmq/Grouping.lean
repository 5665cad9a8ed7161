import Mathlib.Data.List.Induction
import Mkmq.OrderedStore

/-!
# Grouping a list by a key

The elements of a list are appended, one after another, to the groups of an ordered store:
the group under a key is made by its first element.  What comes out is determined by the
list: the keys that occur, ascending, and under each of them its elements in their order.
-/

namespace Grouping

open OrderedStore

variable {κ α ε : Type} [LinearOrder κ]

/-- Append an element to the group of its key. -/
def push (key : α → κ) (groups : List (κ × List α)) (a : α) : List (κ × List α) :=
  put (key a) ((find (key a) groups).getD [] ++ [a]) groups

def group (key : α → κ) (elements : List α) : List (κ × List α) := elements.foldl (push key) []

theorem group_concat (key : α → κ) (elements : List α) (a : α) :
    group key (elements ++ [a]) = push key (group key elements) a := by
  unfold group
  rw [List.foldl_append, List.foldl_cons, List.foldl_nil]

theorem ascending_group (key : α → κ) (elements : List α) : Ascending (group key elements) := by
  induction elements using List.reverseRecOn with
  | nil => exact List.Pairwise.nil
  | append_singleton elements a ih =>
    rw [group_concat]
    exact ih.put _ _

theorem getD_find_group (key : α → κ) (elements : List α) (k : κ) :
    (find k (group key elements)).getD [] = elements.filter fun a => decide (key a = k) := by
  induction elements using List.reverseRecOn with
  | nil => rfl
  | append_singleton elements a ih =>
    rw [group_concat, push, find_put, List.filter_append]
    by_cases hkey : k = key a
    · rw [if_pos hkey, Option.getD_some, ← hkey, ih, List.filter_cons, List.filter_nil,
        if_pos (decide_eq_true hkey.symm)]
    · rw [if_neg hkey, ih, List.filter_cons, List.filter_nil,
        if_neg (by simpa using Ne.symm hkey), List.append_nil]

theorem find_group_eq_none_iff (key : α → κ) (elements : List α) (k : κ) :
    find k (group key elements) = none ↔ k ∉ elements.map key := by
  induction elements using List.reverseRecOn with
  | nil => exact iff_of_true rfl List.not_mem_nil
  | append_singleton elements a ih =>
    rw [group_concat, push, find_put, List.map_append, List.mem_append, List.map_singleton,
      List.mem_singleton, not_or, ← ih]
    by_cases hkey : k = key a
    · simp only [hkey, if_true, reduceCtorEq, not_true_eq_false, and_false]
    · simp only [hkey, if_false, not_false_eq_true, and_true]

/-- `groups` are the elements of a list of named elements: the names that occur, ascending,
    and under each of them its elements in their order. -/
structure Grouped (elements : List (κ × ε)) (groups : List (κ × List ε)) : Prop where
  ascending : (groups.map Prod.fst).Pairwise (· < ·)
  keys : ∀ k, k ∈ groups.map Prod.fst ↔ k ∈ elements.map Prod.fst
  members : ∀ g ∈ groups, g.2 = (elements.filter fun e => decide (e.1 = g.1)).map Prod.snd

/-- **Grouping groups**, also after something is made of each element. -/
theorem grouped_group (key : α → κ) (make : α → ε) (elements : List α) :
    Grouped (elements.map fun a => (key a, make a))
      ((group key elements).map fun g => (g.1, g.2.map make)) where
  ascending := by
    rw [List.map_map]
    exact List.pairwise_map.mpr (ascending_group key elements)
  keys := fun k => by
    have hnone := find_group_eq_none_iff key elements k
    simp only [List.map_map, List.mem_map, Function.comp_apply]
    constructor
    · rintro ⟨g, hg, rfl⟩
      have hfind := (ascending_group key elements).find_of_mem hg
      by_contra hno
      have hmissing := hnone.mpr fun hmem => hno (List.mem_map.mp hmem)
      rw [hmissing] at hfind
      cases hfind
    · intro hoccurs
      cases hfind : find k (group key elements) with
      | none => exact absurd (List.mem_map.mpr hoccurs) (hnone.mp hfind)
      | some group => exact ⟨(k, group), mem_of_find hfind, rfl⟩
  members := by
    intro g hg
    obtain ⟨⟨k, members⟩, hmem, rfl⟩ := List.mem_map.mp hg
    have hfind := getD_find_group key elements k
    rw [(ascending_group key elements).find_of_mem hmem, Option.getD_some] at hfind
    rw [hfind, List.filter_map, List.map_map]
    rfl

end Grouping
