import Mathlib.Algebra.BigOperators.Group.List.Basic
import Mathlib.Data.List.Forall2

/-!
# Lists that grow at their end, and lists side by side

What holds of all elements of a list, or of all pairs in it, when one more is appended; two
lists related element by element; and the sum over a list in which one element is replaced.
-/

namespace ListRules

section Concat

variable {α : Type} {front : List α} {last : α}

theorem forall_mem_concat {P : α → Prop} :
    (∀ x ∈ front ++ [last], P x) ↔ (∀ x ∈ front, P x) ∧ P last := by
  rw [List.forall_mem_append, List.forall_mem_singleton]

theorem pairwise_concat {R : α → α → Prop} :
    (front ++ [last]).Pairwise R ↔ front.Pairwise R ∧ ∀ x ∈ front, R x last := by
  rw [List.pairwise_append]
  constructor
  · rintro ⟨hfront, -, hlast⟩
    exact ⟨hfront, fun x hx => hlast x hx last List.mem_cons_self⟩
  · rintro ⟨hfront, hlast⟩
    refine ⟨hfront, List.pairwise_singleton _ _, ?_⟩
    intro x hx y hy
    rw [List.mem_singleton.mp hy]
    exact hlast x hx

end Concat

section SideBySide

variable {α β : Type} {R S : α → β → Prop} {xs : List α} {ys : List β}

theorem forall₂_imp_of_mem (h : List.Forall₂ R xs ys)
    (himp : ∀ x ∈ xs, ∀ y ∈ ys, R x y → S x y) : List.Forall₂ S xs ys := by
  induction h with
  | nil => exact List.Forall₂.nil
  | cons hhead hrest ih =>
    refine List.Forall₂.cons (himp _ List.mem_cons_self _ List.mem_cons_self hhead) (ih ?_)
    intro x hx y hy
    exact himp x (List.mem_cons_of_mem _ hx) y (List.mem_cons_of_mem _ hy)

theorem forall₂_exists_of_mem (h : List.Forall₂ R xs ys) {x : α} (hx : x ∈ xs) :
    ∃ y ∈ ys, R x y := by
  induction h with
  | nil => cases hx
  | cons hhead hrest ih =>
    rcases List.mem_cons.mp hx with rfl | hx
    · exact ⟨_, List.mem_cons_self, hhead⟩
    · obtain ⟨y, hy, hrel⟩ := ih hx
      exact ⟨y, List.mem_cons_of_mem _ hy, hrel⟩

theorem forall₂_flatMap {γ : Type} {l : List γ} {f : γ → List α} {g : γ → List β}
    (h : ∀ x ∈ l, List.Forall₂ R (f x) (g x)) : List.Forall₂ R (l.flatMap f) (l.flatMap g) := by
  induction l with
  | nil => exact List.Forall₂.nil
  | cons x rest ih =>
    rw [List.flatMap_cons, List.flatMap_cons]
    exact List.rel_append (h x List.mem_cons_self)
      (ih fun y hy => h y (List.mem_cons_of_mem _ hy))

end SideBySide

section Sums

variable {α : Type} {items : List α} {index : Nat} {old : α}

/-- Replacing an element changes the sum by what it weighs. -/
theorem sum_map_set {β : Type} [AddCommMonoid β] (weight : α → β) (h : items[index]? = some old)
    (new : α) :
    ((items.set index new).map weight).sum + weight old = (items.map weight).sum + weight new := by
  induction items generalizing index with
  | nil => cases h
  | cons first rest ih =>
    cases index with
    | zero =>
      obtain rfl := Option.some.inj h
      simp only [List.set_cons_zero, List.map_cons, List.sum_cons]
      ac_rfl
    | succ index =>
      simp only [List.set_cons_succ, List.map_cons, List.sum_cons]
      rw [add_assoc, ih h, ← add_assoc]

end Sums

end ListRules
