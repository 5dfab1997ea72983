import Mathlib.Logic.Function.Iterate

/-! # Deterministic machines

A machine is a step function that leaves its halted states alone.  A measure
that every other step decreases bounds the number of steps, and any two counts
of steps that reach a halted state reach the same one.
-/

namespace DevFuzz.Lib

section

variable {σ : Type} {step : σ → σ} {halted : σ → Prop}

theorem iterate_of_halted (fixed : ∀ s, halted s → step s = s) {s : σ} (stop : halted s) (n : Nat) :
    step^[n] s = s :=
  Function.iterate_fixed (fixed s stop) n

/-- A measure bounds the run, as far as an invariant carries it. -/
theorem halted_of_measure (fixed : ∀ s, halted s → step s = s) {P : σ → Prop}
    (preserved : ∀ s, P s → P (step s)) (μ : σ → Nat)
    (decreases : ∀ s, P s → ¬ halted s → μ (step s) < μ s) {n : Nat} {s : σ} (initial : P s)
    (bound : μ s ≤ n) : halted (step^[n] s) := by
  induction n generalizing s with
  | zero =>
    by_contra running
    have := decreases s initial running
    omega
  | succ n ih =>
    by_cases stop : halted s
    · rw [iterate_of_halted fixed stop]
      exact stop
    · have less := decreases s initial stop
      rw [Function.iterate_succ_apply]
      exact ih (preserved s initial) (by omega)

/-- A machine halts in one state only. -/
theorem iterate_eq_of_halted (fixed : ∀ s, halted s → step s = s) {s : σ} {m n : Nat}
    (left : halted (step^[m] s)) (right : halted (step^[n] s)) : step^[m] s = step^[n] s := by
  rcases Nat.le_total m n with le | le
  · obtain ⟨k, rfl⟩ := Nat.exists_eq_add_of_le le
    rw [Nat.add_comm, Function.iterate_add_apply, iterate_of_halted fixed left]
  · obtain ⟨k, rfl⟩ := Nat.exists_eq_add_of_le le
    rw [Nat.add_comm, Function.iterate_add_apply, iterate_of_halted fixed right]

/-- What is kept by a step of two machines at once is kept by their runs. -/
theorem iterate_related {τ : Type} {step' : τ → τ} {R : σ → τ → Prop}
    (preserved : ∀ s t, R s t → R (step s) (step' t)) {s : σ} {t : τ} (initial : R s t) (n : Nat) :
    R (step^[n] s) (step'^[n] t) := by
  induction n generalizing s t with
  | zero => exact initial
  | succ n ih => exact ih (preserved s t initial)

/-- The second state is reached from the first. -/
def Reaches (step : σ → σ) (s t : σ) : Prop := ∃ n, step^[n] s = t

theorem Reaches.refl (s : σ) : Reaches step s s := ⟨0, rfl⟩

theorem Reaches.single (s : σ) : Reaches step s (step s) := ⟨1, rfl⟩

theorem Reaches.trans {s t u : σ} (first : Reaches step s t) (second : Reaches step t u) :
    Reaches step s u := by
  obtain ⟨m, rfl⟩ := first
  obtain ⟨n, rfl⟩ := second
  exact ⟨n + m, Function.iterate_add_apply _ _ _ _⟩

/-- What every step preserves holds in every state reached. -/
theorem Reaches.invariant {P : σ → Prop} (preserved : ∀ s, P s → P (step s)) {s t : σ}
    (reached : Reaches step s t) (initial : P s) : P t := by
  obtain ⟨n, rfl⟩ := reached
  exact Function.Iterate.rec P initial preserved n

/-- How many of the first `n` steps start in a state with `P`. -/
def visits (step : σ → σ) (P : σ → Bool) (s : σ) (n : Nat) : Nat :=
  (List.range n).countP fun i => P (step^[i] s)

/-- An invariant between a state and the number of visits so far. -/
theorem visits_invariant {P : σ → Bool} {I : Nat → σ → Prop}
    (preserved : ∀ count s, I count s → I (count + if P s then 1 else 0) (step s)) {s : σ}
    (initial : I 0 s) (n : Nat) : I (visits step P s n) (step^[n] s) := by
  induction n with
  | zero => exact initial
  | succ n ih =>
    rw [Function.iterate_succ_apply', visits, List.range_succ, List.countP_append, List.countP_singleton]
    exact preserved _ _ ih

/-- Every state reached on the way to a halted one still reaches it. -/
theorem Reaches.to_halted (fixed : ∀ s, halted s → step s = s) {s t u : σ}
    (last : Reaches step s u) (stop : halted u) (reached : Reaches step s t) : Reaches step t u := by
  obtain ⟨m, rfl⟩ := last
  obtain ⟨n, rfl⟩ := reached
  rcases Nat.le_total n m with le | le
  · refine ⟨m - n, ?_⟩
    rw [← Function.iterate_add_apply, Nat.sub_add_cancel le]
  · refine ⟨0, ?_⟩
    obtain ⟨k, rfl⟩ := Nat.exists_eq_add_of_le le
    rw [Nat.add_comm, Function.iterate_add_apply, iterate_of_halted fixed stop]
    rfl

/-- A property that each step keeps up to a condition holds at the end exactly when the
    condition holds all along. -/
theorem accumulated_iff (fixed : ∀ s, halted s → step s = s) {P Q : σ → Prop}
    (each : ∀ s, P (step s) ↔ P s ∧ Q s) {s u : σ} (initial : P s) (last : Reaches step s u)
    (stop : halted u) : P u ↔ ∀ t, Reaches step s t → Q t := by
  constructor
  · intro final t reached
    have after : Reaches step (step t) u := last.to_halted fixed stop (reached.trans (.single t))
    -- once lost, `P` does not come back
    have held : P (step t) := by
      by_contra broken
      have stays : ∀ s, ¬ P s → ¬ P (step s) := fun s broken next => broken ((each s).mp next).1
      exact after.invariant stays broken final
    exact ((each t).mp held).2
  · intro all
    obtain ⟨n, rfl⟩ := last
    have every : ∀ m, P (step^[m] s) := by
      intro m
      induction m with
      | zero => exact initial
      | succ m ih =>
        rw [Function.iterate_succ_apply']
        exact (each _).mpr ⟨ih, all _ ⟨m, rfl⟩⟩
    exact every n

end

end DevFuzz.Lib
