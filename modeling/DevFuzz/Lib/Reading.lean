import Mathlib.Data.List.Basic

/-! # Computations that record what they read

A `Reading` is a value together with the indices of memory that were read to
compute it.  The combinators keep the order of evaluation of the code they
model: what stands behind a failed test is not read.
-/

namespace DevFuzz.Lib

structure Reading (α : Type) where
  value : α
  derefs : List Nat

namespace Reading

variable {α β : Type}

instance : Monad Reading where
  pure a := ⟨a, []⟩
  bind x f := ⟨(f x.value).value, x.derefs ++ (f x.value).derefs⟩

@[simp] theorem value_pure (a : α) : (pure a : Reading α).value = a := rfl

@[simp] theorem derefs_pure (a : α) : (pure a : Reading α).derefs = [] := rfl

@[simp] theorem value_bind (x : Reading α) (f : α → Reading β) :
    (x >>= f).value = (f x.value).value := rfl

@[simp] theorem derefs_bind (x : Reading α) (f : α → Reading β) :
    (x >>= f).derefs = x.derefs ++ (f x.value).derefs := rfl

/-- The result of the first alternative that has one; the later ones are not run. -/
def firstOf : List (Reading (Option α)) → Reading (Option α)
  | [] => pure none
  | x :: rest => do
    match ← x with
    | some a => pure (some a)
    | none => firstOf rest

theorem firstOf_cons_some {x : Reading (Option α)} {a : α} (found : x.value = some a)
    (rest : List (Reading (Option α))) : firstOf (x :: rest) = ⟨some a, x.derefs⟩ := by
  show (⟨_, _⟩ : Reading (Option α)) = _
  simp only [found]
  simp

theorem firstOf_cons_none {x : Reading (Option α)} (failed : x.value = none)
    (rest : List (Reading (Option α))) :
    firstOf (x :: rest) = ⟨(firstOf rest).value, x.derefs ++ (firstOf rest).derefs⟩ := by
  show (⟨_, _⟩ : Reading (Option α)) = _
  simp only [failed]

theorem value_firstOf (alternatives : List (Reading (Option α))) :
    (firstOf alternatives).value = alternatives.findSome? value := by
  induction alternatives with
  | nil => rfl
  | cons x rest ih =>
    cases result : x.value with
    | some a => simp [firstOf_cons_some result, result]
    | none => simp [firstOf_cons_none result, result, ih]

/-! ## Staying below a bound -/

/-- Every index read is below the bound. -/
def Within (bound : Nat) (x : Reading α) : Prop := ∀ i ∈ x.derefs, i < bound

theorem within_pure (bound : Nat) (a : α) : Within bound (pure a : Reading α) := by
  simp [Within]

theorem within_bind {bound : Nat} {x : Reading α} {f : α → Reading β} :
    Within bound (x >>= f) ↔ Within bound x ∧ Within bound (f x.value) := by
  simp only [Within, derefs_bind, List.mem_append]
  constructor
  · exact fun all => ⟨fun i member => all i (.inl member), fun i member => all i (.inr member)⟩
  · rintro ⟨first, second⟩ i (member | member)
    · exact first i member
    · exact second i member

theorem within_firstOf {bound : Nat} {alternatives : List (Reading (Option α))}
    (all : ∀ x ∈ alternatives, Within bound x) : Within bound (firstOf alternatives) := by
  induction alternatives with
  | nil => exact within_pure bound none
  | cons x rest ih =>
    have here : Within bound x := all x List.mem_cons_self
    cases result : x.value with
    | some a =>
      rw [firstOf_cons_some result]
      exact here
    | none =>
      have later := ih fun y member => all y (List.mem_cons_of_mem _ member)
      rw [firstOf_cons_none result]
      intro i member
      rcases List.mem_append.mp member with first | second
      · exact here i first
      · exact later i second

/-- An alternative is run when all alternatives before it have failed. -/
theorem within_of_within_firstOf {bound : Nat} {before rest : List (Reading (Option α))}
    {x : Reading (Option α)} (failed : ∀ y ∈ before, y.value = none)
    (all : Within bound (firstOf (before ++ x :: rest))) : Within bound x := by
  induction before with
  | nil =>
    cases result : x.value with
    | some a =>
      rw [List.nil_append, firstOf_cons_some result] at all
      exact all
    | none =>
      rw [List.nil_append, firstOf_cons_none result] at all
      exact fun i member => all i (List.mem_append_left _ member)
  | cons y before ih =>
    rw [List.cons_append, firstOf_cons_none (failed y List.mem_cons_self)] at all
    exact ih (fun z member => failed z (List.mem_cons_of_mem _ member))
      fun i member => all i (List.mem_append_right _ member)

/-! ## The same at other indices -/

/-- The first computation does what the second one does, `f` apart.  Where `exact` holds, it reads the same indices as
    well, moved by `k`. -/
structure Moved (exact : Prop) (k : Nat) (f : β → α) (x : Reading α) (y : Reading β) : Prop where
  value : x.value = f y.value
  derefs : exact → x.derefs = y.derefs.map (k + ·)

section

variable {γ δ : Type} {exact : Prop} {k : Nat} {f : β → α}

theorem moved_pure {a : α} {b : β} (same : a = f b) : Moved exact k f (pure a : Reading α) (pure b) :=
  ⟨same, fun _ => rfl⟩

theorem Moved.bind {x : Reading α} {y : Reading β} {g : α → Reading γ} {h : β → Reading δ} {f' : δ → γ}
    (first : Moved exact k f x y) (rest : Moved exact k f' (g (f y.value)) (h y.value)) :
    Moved exact k f' (x >>= g) (y >>= h) := by
  rw [← first.value] at rest
  constructor
  · exact rest.value
  · intro here
    rw [derefs_bind, derefs_bind, List.map_append, first.derefs here, rest.derefs here]

theorem Moved.eq_of_zero {f : α → α} {x y : Reading α} (moved : Moved exact 0 f x y) (here : exact)
    (same : ∀ a, f a = a) : x = y := by
  obtain ⟨value, derefs⟩ := moved
  have derefs := derefs here
  rw [same] at value
  simp only [Nat.zero_add, List.map_id'] at derefs
  cases x
  cases y
  cases value
  cases derefs
  rfl

/-- Alternatives that do the same but for some that the second computation does not have: the first one that has a
    value does the same, or is one of those. -/
theorem firstOf_moved {C : α → Prop} {xs : List (Reading (Option α))} {ys : List (Reading (Option β))}
    (all : List.Forall₂ (fun x y => Moved exact k (Option.map f) x y ∨ ∃ a, x.value = some a ∧ C a) xs ys) :
    Moved exact k (Option.map f) (firstOf xs) (firstOf ys) ∨ ∃ a, (firstOf xs).value = some a ∧ C a := by
  induction all with
  | nil => exact .inl (moved_pure rfl)
  | @cons x y xs ys here later ih =>
    cases here with
    | inr other =>
      obtain ⟨a, found, apart⟩ := other
      exact .inr ⟨a, by rw [firstOf_cons_some found], apart⟩
    | inl moved =>
      have value := moved.value
      cases found : y.value with
      | some b =>
        rw [found] at value
        rw [firstOf_cons_some found, firstOf_cons_some value]
        exact .inl ⟨rfl, moved.derefs⟩
      | none =>
        rw [found] at value
        rw [firstOf_cons_none found, firstOf_cons_none value]
        refine ih.imp_left fun rest => ⟨rest.value, fun here => ?_⟩
        rw [List.map_append, moved.derefs here, rest.derefs here]

end

end Reading

end DevFuzz.Lib
