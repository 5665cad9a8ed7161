import Mathlib.Data.List.Basic

/-!
# Guarded reachability

A system is a partial step function on states and actions: `step s a = none` means
that action `a` is not enabled in `s`.  `Reachable init step guard` collects the
states that runs reach when every action taken also meets `guard` in the state it
is taken from; the guard `fun _ _ => True` leaves the runs unrestricted.

A safety property is proved by `Reachable.invariant`, and refuted by evaluating a
list of actions with `guardedRun` and handing the result to `Reachable.of_guardedRun`.
-/

namespace Transition

variable {σ α : Type}

/-- States reached from `init` by enabled actions that meet `guard`. -/
inductive Reachable (init : σ → Prop) (step : σ → α → Option σ) (guard : σ → α → Prop) :
    σ → Prop where
  | start {s : σ} : init s → Reachable init step guard s
  | next {s s' : σ} (a : α) : Reachable init step guard s → guard s a → step s a = some s' →
      Reachable init step guard s'

/-- Take a list of actions one after another. -/
def run (step : σ → α → Option σ) : σ → List α → Option σ
  | s, [] => some s
  | s, a :: rest =>
    match step s a with
    | some s' => run step s' rest
    | none => none

/-- Take a list of actions, each of them only if it meets `guard`. -/
def guardedRun (step : σ → α → Option σ) (guard : σ → α → Prop) [∀ s a, Decidable (guard s a)] :
    σ → List α → Option σ
  | s, [] => some s
  | s, a :: rest =>
    if guard s a then
      match step s a with
      | some s' => guardedRun step guard s' rest
      | none => none
    else none

section

variable {init : σ → Prop} {step : σ → α → Option σ} {guard : σ → α → Prop}

/-- The induction rule of safety proofs: what holds initially and is kept by every
    guarded step holds in every reachable state. -/
theorem Reachable.invariant {Inv : σ → Prop} (hinit : ∀ s, init s → Inv s)
    (hstep : ∀ s a s', Inv s → guard s a → step s a = some s' → Inv s')
    {s : σ} (h : Reachable init step guard s) : Inv s := by
  induction h with
  | start h0 => exact hinit _ h0
  | next a _ hg hs ih => exact hstep _ a _ ih hg hs

/-- Restricting the runs further reaches no new state. -/
theorem Reachable.mono {guard' : σ → α → Prop} (hg : ∀ s a, guard s a → guard' s a)
    {s : σ} (h : Reachable init step guard s) : Reachable init step guard' s := by
  induction h with
  | start h0 => exact .start h0
  | next a _ hga hs ih => exact .next a ih (hg _ a hga) hs

theorem run_cons {s s' : σ} {a : α} (h : step s a = some s') (rest : List α) :
    run step s (a :: rest) = run step s' rest := by
  rw [run, h]

/-- The rule of bounds: when every action that costs is paid for with what the state has, and
    the others bring in at most `bound` each, the costs of a run are bounded by what came in. -/
theorem countP_run_le {has : σ → Nat} {costs pays : α → Bool} {bound : Nat}
    (hstep : ∀ s a s', step s a = some s' →
      has s' + (if costs a then 1 else 0) ≤ has s + if pays a then bound else 0) {s s' : σ}
    {acts : List α} (h : run step s acts = some s') :
    has s' + acts.countP costs ≤ has s + bound * acts.countP pays := by
  induction acts generalizing s with
  | nil =>
    obtain rfl := Option.some.inj h
    exact Nat.le_refl _
  | cons a rest ih =>
    unfold run at h
    split at h
    · next t ht =>
        have hfirst := hstep s a t ht
        have hrest := ih h
        rw [List.countP_cons, List.countP_cons, Nat.mul_add]
        cases hpays : pays a with
        | false =>
          simp only [hpays, Bool.false_eq_true, if_false] at hfirst ⊢
          omega
        | true =>
          simp only [hpays, if_true] at hfirst ⊢
          omega
    · cases h

/-- Actions that meet the guard everywhere lead from a reachable state to another. -/
theorem Reachable.of_run {s s' : σ} (h : Reachable init step guard s) (acts : List α)
    (hguard : ∀ a ∈ acts, ∀ t, guard t a) (hr : run step s acts = some s') :
    Reachable init step guard s' := by
  induction acts generalizing s with
  | nil =>
    simp only [run, Option.some.injEq] at hr
    exact hr ▸ h
  | cons a rest ih =>
    unfold run at hr
    split at hr
    · next t ht =>
        exact ih (.next a h (hguard a List.mem_cons_self s) ht)
          (fun b hb => hguard b (List.mem_cons_of_mem _ hb)) hr
    · cases hr

theorem Reachable.of_guardedRun [∀ s a, Decidable (guard s a)] {s s' : σ}
    (h : Reachable init step guard s) (acts : List α)
    (hr : guardedRun step guard s acts = some s') : Reachable init step guard s' := by
  induction acts generalizing s with
  | nil =>
    simp only [guardedRun, Option.some.injEq] at hr
    exact hr ▸ h
  | cons a rest ih =>
    unfold guardedRun at hr
    split at hr
    · next hguard =>
        split at hr
        · next t ht => exact ih (.next a h hguard ht) hr
        · cases hr
    · cases hr

end

end Transition
