import Mathlib.Order.Basic

/-!
# Intervals that tile an interval

A list of things with a lower and an upper end each tiles the interval from `start` to
`stop` when the first begins at `start`, each next one begins where the one before ends,
and the last ends at `stop`.  None of them is empty.
-/

namespace Tiling

variable {α ι : Type}

def Tiles [LT ι] (lo hi : α → ι) : ι → List α → ι → Prop
  | start, [], stop => start = stop
  | start, x :: rest, stop => lo x = start ∧ lo x < hi x ∧ Tiles lo hi (hi x) rest stop

variable [Preorder ι] {lo hi : α → ι} {start stop : ι} {xs : List α}

/-- A tiling grows by what begins at its end. -/
theorem Tiles.concat (h : Tiles lo hi start xs stop) {x : α} (hlo : lo x = stop)
    (hlt : lo x < hi x) : Tiles lo hi start (xs ++ [x]) (hi x) := by
  induction xs generalizing start with
  | nil =>
    have hstart : start = stop := h
    exact ⟨hlo.trans hstart.symm, hlt, rfl⟩
  | cons y rest ih => exact ⟨h.1, h.2.1, ih h.2.2⟩

theorem Tiles.le_lo (h : Tiles lo hi start xs stop) : ∀ x ∈ xs, start ≤ lo x := by
  induction xs generalizing start with
  | nil => exact fun _ hx => absurd hx List.not_mem_nil
  | cons y rest ih =>
    obtain ⟨hstart, hlt, hrest⟩ := h
    have hle : start ≤ hi y := le_of_eq_of_le hstart.symm hlt.le
    intro x hx
    rcases List.mem_cons.mp hx with rfl | hx
    · exact le_of_eq hstart.symm
    · exact le_trans hle (ih hrest x hx)

/-- No two overlap, and the earlier one lies before the later one. -/
theorem Tiles.pairwise (h : Tiles lo hi start xs stop) : xs.Pairwise fun x y => hi x ≤ lo y := by
  induction xs generalizing start with
  | nil => exact List.Pairwise.nil
  | cons y rest ih => exact List.pairwise_cons.mpr ⟨h.2.2.le_lo, ih h.2.2⟩

end Tiling
