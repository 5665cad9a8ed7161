import Mathlib.Data.List.Basic

/-!
# Computations that may fail

What an `ok` at the end of a computation in `Except` says about its parts: of a sequence,
of a check made for every element of a list, and of a list of computed values.
-/

namespace FailureRules

variable {ε α β : Type}

theorem bind_eq_ok {x : Except ε α} {f : α → Except ε β} {b : β} :
    x >>= f = .ok b ↔ ∃ a, x = .ok a ∧ f a = .ok b := by
  cases x with
  | error message => simp [bind, Except.bind]
  | ok a => simp [bind, Except.bind]

theorem forM_eq_ok {l : List α} {f : α → Except ε Unit} :
    l.forM f = .ok () ↔ ∀ a ∈ l, f a = .ok () := by
  induction l with
  | nil => simp [pure, Except.pure]
  | cons a l ih =>
    rw [List.forM, bind_eq_ok, List.forall_mem_cons]
    constructor
    · rintro ⟨⟨⟩, hfirst, hrest⟩
      exact ⟨hfirst, ih.mp hrest⟩
    · rintro ⟨hfirst, hrest⟩
      exact ⟨(), hfirst, ih.mpr hrest⟩

/-- Every value of the result was computed from an element of the list. -/
theorem exists_of_mapM_eq_ok {l : List α} {f : α → Except ε β} {bs : List β}
    (h : l.mapM f = .ok bs) : ∀ b ∈ bs, ∃ a ∈ l, f a = .ok b := by
  induction l generalizing bs with
  | nil =>
    obtain rfl := Except.ok.inj h
    exact fun _ hb => absurd hb List.not_mem_nil
  | cons a l ih =>
    rw [List.mapM_cons, bind_eq_ok] at h
    obtain ⟨first, hfirst, hrest⟩ := h
    obtain ⟨others, hothers, hbs⟩ := bind_eq_ok.mp hrest
    obtain rfl := Except.ok.inj hbs
    intro b hb
    rcases List.mem_cons.mp hb with rfl | hmem
    · exact ⟨a, List.mem_cons_self, hfirst⟩
    · obtain ⟨a', ha', hb'⟩ := ih hothers b hmem
      exact ⟨a', List.mem_cons_of_mem _ ha', hb'⟩

end FailureRules
