import Mathlib.Init

/-! # Runs of a labelled transition system

Several parties act in any order; a run is the list of their actions.  The
invariant rule reduces a property of every run to one of every step.
-/

namespace DevFuzz.Lib

section

variable {σ α : Type}

inductive Run (step : σ → α → σ → Prop) : σ → List α → σ → Prop where
  | nil (s : σ) : Run step s [] s
  | cons {s t u : σ} {a : α} {actions : List α} (first : step s a t) (rest : Run step t actions u) :
      Run step s (a :: actions) u

variable {step : σ → α → σ → Prop}

/-- What every step preserves holds after every run. -/
theorem Run.invariant {P : σ → Prop} (preserved : ∀ s a t, P s → step s a t → P t) {s t : σ}
    {actions : List α} (run : Run step s actions t) (initial : P s) : P t := by
  induction run with
  | nil s => exact initial
  | cons here _ ih => exact ih (preserved _ _ _ initial here)

/-- A run and one more step. -/
theorem Run.concat {s t u : σ} {actions : List α} {a : α} (run : Run step s actions t) (last : step t a u) :
    Run step s (actions ++ [a]) u := by
  induction run with
  | nil s => exact .cons last (.nil u)
  | cons first _ ih => exact .cons first (ih last)

/-- A run and one from where it ends. -/
theorem Run.append {s t u : σ} {actions actions' : List α} (run : Run step s actions t) (later : Run step t actions' u) :
    Run step s (actions ++ actions') u := by
  induction run with
  | nil s => exact later
  | cons first _ ih => exact .cons first (ih later)

/-- What an action brings about and every step keeps holds after every run with that action. -/
theorem Run.established {P : σ → Prop} {a : α} (here : ∀ s t, step s a t → P t)
    (kept : ∀ s b t, P s → step s b t → P t) {s t : σ} {actions : List α} (run : Run step s actions t)
    (member : a ∈ actions) : P t := by
  induction run with
  | nil s => cases member
  | cons first rest ih =>
    cases member with
    | head => exact rest.invariant kept (here _ _ first)
    | tail _ later => exact ih later

/-- The run that a schedule leads to, when each party has one step at most. -/
theorem Run.of_foldlM {f : σ → α → Option σ} {s t : σ} {actions : List α} (executed : actions.foldlM f s = some t) :
    Run (fun s a t => f s a = some t) s actions t := by
  induction actions generalizing s with
  | nil =>
    obtain rfl : s = t := Option.some.inj executed
    exact .nil s
  | cons a actions ih =>
    rw [List.foldlM_cons] at executed
    obtain ⟨u, first, rest⟩ := Option.bind_eq_some_iff.mp executed
    exact .cons first (ih rest)

end

end DevFuzz.Lib
