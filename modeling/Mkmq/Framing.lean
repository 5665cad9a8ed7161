import Mathlib.Data.List.Basic

/-!
# Cutting a stream into items

A reader of a stream takes items off its front as they become complete.  `Cuts next stream
items rest` says that `stream` begins with `items`, one after another, and goes on with `rest`.
If what arrives later cannot change an item that is complete (`Stable`), the items of a part of
a stream are the first items of the whole, however the stream was divided on its way.
-/

namespace Framing

variable {α β : Type}

/-- A complete item is the same whatever follows. -/
def Stable (next : List α → Option (β × List α)) : Prop :=
  ∀ stream item rest more, next stream = some (item, rest) →
    next (stream ++ more) = some (item, rest ++ more)

inductive Cuts (next : List α → Option (β × List α)) : List α → List β → List α → Prop where
  | done (stream : List α) : Cuts next stream [] stream
  | item {stream rest left : List α} {first : β} {items : List β}
      (h : next stream = some (first, rest)) (hrest : Cuts next rest items left) :
      Cuts next stream (first :: items) left

section

variable {next : List α → Option (β × List α)} {items : List β} {left stream : List α}

theorem Cuts.append (hstable : Stable next) (h : Cuts next stream items left) (more : List α) :
    Cuts next (stream ++ more) items (left ++ more) := by
  induction h with
  | done stream => exact .done _
  | item h _ ih => exact .item (hstable _ _ _ more h) ih

theorem Cuts.concat {rest : List α} {last : β} (h : Cuts next stream items left)
    (hlast : next left = some (last, rest)) : Cuts next stream (items ++ [last]) rest := by
  induction h with
  | done stream => exact .item hlast (.done rest)
  | item h _ ih => exact .item h (ih hlast)

/-- A stream has one sequence of items; cut until nothing more is complete, it has all of them. -/
theorem Cuts.isPrefix {left' : List α} {items' : List β} (h : Cuts next stream items left)
    (h' : Cuts next stream items' left') (hall : next left' = none) : items <+: items' := by
  induction h generalizing items' with
  | done stream => exact List.nil_prefix
  | item hfirst _ ih =>
    cases h' with
    | done =>
      rw [hall] at hfirst
      cases hfirst
    | item hfirst' hrest' =>
      rw [hfirst] at hfirst'
      cases hfirst'
      exact List.cons_prefix_cons.mpr ⟨rfl, ih hrest'⟩

/-- Of a part of what was written one item after another, those items that are complete in it;
    an item that cannot be read stops the reader. -/
theorem Cuts.isPrefix_of_written (hstable : Stable next) (hnil : next [] = none)
    {encode : β → List α} {written : List β}
    (hencode : ∀ item ∈ written, ∀ more, next (encode item ++ more) = some (item, more) ∨
      next (encode item ++ more) = none) (h : Cuts next stream items left)
    (hpart : stream <+: written.flatMap encode) : items <+: written := by
  obtain ⟨more, hmore⟩ := hpart
  have hwhole := h.append hstable more
  rw [hmore] at hwhole
  clear h hmore
  generalize left ++ more = rest at hwhole
  induction written generalizing items with
  | nil =>
    cases hwhole with
    | done => exact List.nil_prefix
    | item hfirst =>
      rw [List.flatMap_nil, hnil] at hfirst
      cases hfirst
  | cons first written ih =>
    rw [List.flatMap_cons] at hwhole
    cases hwhole with
    | done => exact List.nil_prefix
    | item hfirst hrest =>
      rcases hencode first List.mem_cons_self _ with hread | hstuck
      · rw [hread] at hfirst
        cases hfirst
        exact List.cons_prefix_cons.mpr
          ⟨rfl, ih (fun item hitem => hencode item (List.mem_cons_of_mem _ hitem)) hrest⟩
      · rw [hstuck] at hfirst
        cases hfirst

end

end Framing
