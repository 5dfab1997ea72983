import DevFuzz.Lib.Bytes
import DevFuzz.Lib.Logged
import Mathlib.Logic.Nontrivial.Basic

/-! # Computations that write to a destination they do not read

A computation that is given the contents of a destination and returns its new
contents *patches* it when all it does with the old contents is to keep some of
them.  What such a computation leaves behind is independent of the old contents
exactly where it writes (`PatchesWith.determined_iff`).
-/

namespace DevFuzz.Lib

variable {ι β ε σ α : Type}

/-- The cells of `patch` on top of `base`. -/
def overlay (patch : ι → Option β) (base : ι → β) : ι → β := fun i => (patch i).getD (base i)

theorem overlay_overlay (upper lower : ι → Option β) (base : ι → β) :
    overlay upper (overlay lower base) = overlay (fun i => (upper i).or (lower i)) base := by
  funext i
  cases h : upper i <;> simp [overlay, h]

/-- The cells of a patch can be told from what it does to every base. -/
theorem isSome_of_overlay_eq [Nontrivial β] {upper lower : ι → Option β}
    (same : ∀ base, overlay upper base = overlay lower base) (i : ι) (written : (upper i).isSome = true) :
    (lower i).isSome = true := by
  obtain ⟨b, here⟩ := Option.isSome_iff_exists.mp written
  obtain ⟨other, different⟩ := exists_ne b
  have equal := congrFun (same fun _ => other) i
  cases below : lower i with
  | some _ => rfl
  | none =>
    simp only [overlay, here, below, Option.getD_some, Option.getD_none] at equal
    exact absurd equal.symm different

theorem nontrivial_byte : Nontrivial UInt8 := ⟨0, 1, by decide⟩

/-! ## Functions -/

/-- `f` writes exactly the cells in `W`, and what it writes does not depend on the cells it is given. -/
def Overwrites (f : (ι → β) → ι → β) (W : ι → Prop) : Prop :=
  ∃ patch, (∀ base, f base = overlay patch base) ∧ ∀ i, (patch i).isSome = true ↔ W i

namespace Overwrites

variable {f g : (ι → β) → ι → β} {V W : ι → Prop}

theorem keep : Overwrites (fun base : ι → β => base) fun _ => False :=
  ⟨fun _ => none, fun _ => rfl, by simp⟩

theorem congr (writes : Overwrites f V) (same : ∀ i, V i ↔ W i) : Overwrites f W := by
  obtain ⟨patch, result, cells⟩ := writes
  exact ⟨patch, result, fun i => (cells i).trans (same i)⟩

theorem comp (first : Overwrites f V) (second : Overwrites g W) :
    Overwrites (fun base => g (f base)) fun i => V i ∨ W i := by
  obtain ⟨patch, result, cells⟩ := first
  obtain ⟨patch', result', cells'⟩ := second
  refine ⟨fun i => (patch' i).or (patch i), fun base => ?_, fun i => ?_⟩
  · show g (f base) = _
    rw [result, result', overlay_overlay]
  · rw [Option.isSome_or, Bool.or_eq_true, cells i, cells' i, or_comm]

/-- There is one answer to what a function writes. -/
theorem unique [Nontrivial β] (left : Overwrites f V) (right : Overwrites f W) (i : ι) : V i ↔ W i := by
  obtain ⟨patch, result, cells⟩ := left
  obtain ⟨patch', result', cells'⟩ := right
  have same : ∀ base, overlay patch base = overlay patch' base := fun base => (result base).symm.trans (result' base)
  rw [← cells i, ← cells' i]
  exact ⟨isSome_of_overlay_eq same i, isSome_of_overlay_eq (fun base => (same base).symm) i⟩

theorem storeLE (start width value : Nat) :
    Overwrites (fun memory => Bytes.storeLE memory start width value) fun i => start ≤ i ∧ i < start + width := by
  refine ⟨fun i => if start ≤ i ∧ i < start + width then some (Bytes.byteOf value (i - start)) else none,
    fun memory => ?_, fun i => ?_⟩
  · funext i
    by_cases inside : start ≤ i ∧ i < start + width
    · simp [overlay, Bytes.storeLE, inside]
    · simp [overlay, Bytes.storeLE, inside]
  · by_cases inside : start ≤ i ∧ i < start + width
    · simp [inside]
    · simp [inside]

end Overwrites

/-! ## Logged computations -/

/-- From `s`, `x` writes exactly the cells in `W`, and neither what it logs nor how it ends depends
    on the cells it is given. -/
def Patches (s : σ) (x : (ι → β) → Logged ε σ (ι → β)) (W : ι → Prop) : Prop :=
  ∃ log, (∀ base, (x base).run s = (log, none)) ∨
    ∃ patch t, (∀ base, (x base).run s = (log, some (overlay patch base, t))) ∧
      ∀ i, (patch i).isSome = true ↔ W i

namespace Patches

variable {s : σ} {x y : (ι → β) → Logged ε σ (ι → β)} {V W : ι → Prop}

theorem keep : Patches s (fun base => (pure base : Logged ε σ (ι → β))) fun _ => False :=
  ⟨[], .inr ⟨fun _ => none, s, fun _ => rfl, by simp⟩⟩

/-- Writing what does not depend on the destination. -/
theorem write (patch : ι → Option β) :
    Patches s (fun base => (pure (overlay patch base) : Logged ε σ (ι → β))) fun i => (patch i).isSome = true :=
  ⟨[], .inr ⟨patch, s, fun _ => rfl, fun _ => Iff.rfl⟩⟩

theorem congr (writes : Patches s x V) (same : ∀ i, V i ↔ W i) : Patches s x W := by
  obtain ⟨log, died | ⟨patch, t, runs, cells⟩⟩ := writes
  · exact ⟨log, .inl died⟩
  · exact ⟨log, .inr ⟨patch, t, runs, fun i => (cells i).trans (same i)⟩⟩

/-- What is computed beforehand does not see the destination. -/
theorem after {z : Logged ε σ α} {x : α → (ι → β) → Logged ε σ (ι → β)}
    (writes : ∀ a t, z.result s = some (a, t) → Patches t (x a) W) :
    Patches s (fun base => z >>= fun a => x a base) W := by
  rcases first : z.run s with ⟨events, _ | ⟨a, t⟩⟩
  · exact ⟨events, .inl fun base => Logged.run_bind_of_none first⟩
  · obtain ⟨log, died | ⟨patch, u, runs, cells⟩⟩ := writes a t (by rw [Logged.result, first])
    · refine ⟨events ++ log, .inl fun base => ?_⟩
      rw [Logged.run_bind_of_some first, died base]
    · refine ⟨events ++ log, .inr ⟨patch, u, fun base => ?_, cells⟩⟩
      rw [Logged.run_bind_of_some first, runs base]

theorem bind (first : Patches s x V) (second : ∀ t, Patches t y W) :
    Patches s (fun base => x base >>= y) fun i => V i ∨ W i := by
  obtain ⟨log, died | ⟨patch, t, runs, cells⟩⟩ := first
  · exact ⟨log, .inl fun base => Logged.run_bind_of_none (died base)⟩
  · obtain ⟨log', died | ⟨patch', u, runs', cells'⟩⟩ := second t
    · refine ⟨log ++ log', .inl fun base => ?_⟩
      rw [Logged.run_bind_of_some (runs base), died]
    · refine ⟨log ++ log', .inr ⟨fun i => (patch' i).or (patch i), u, fun base => ?_, fun i => ?_⟩⟩
      · rw [Logged.run_bind_of_some (runs base), runs', overlay_overlay]
      · rw [Option.isSome_or, Bool.or_eq_true, cells i, cells' i, or_comm]

theorem foldlM {f : (ι → β) → α → Logged ε σ (ι → β)} {W : α → ι → Prop} {l : List α}
    (each : ∀ a ∈ l, ∀ t, Patches t (fun base => f base a) (W a)) (s : σ) :
    Patches s (fun base => l.foldlM f base) fun i => ∃ a ∈ l, W a i := by
  induction l generalizing s with
  | nil => exact keep.congr fun i => by simp
  | cons a rest ih =>
    have later := ih fun b member => each b (List.mem_cons_of_mem a member)
    refine ((each a List.mem_cons_self s).bind later).congr fun i => ?_
    simp

end Patches

/-- From `s`, `x` returns and has then written exactly the cells in `W`. -/
def Writes (s : σ) (x : (ι → β) → Logged ε σ (ι → β)) (W : ι → Prop) : Prop :=
  ∃ log patch t, (∀ base, (x base).run s = (log, some (overlay patch base, t))) ∧ ∀ i, (patch i).isSome = true ↔ W i

theorem Patches.writes_iff [Nontrivial β] {s : σ} {x : (ι → β) → Logged ε σ (ι → β)} {W : ι → Prop}
    (patches : Patches s x W) (V : ι → Prop) (base : ι → β) :
    Writes s x V ↔ (∃ r, (x base).result s = some r) ∧ ∀ i, V i ↔ W i := by
  obtain ⟨log, died | ⟨patch, t, runs, cells⟩⟩ := patches
  · refine iff_of_false ?_ ?_
    · rintro ⟨log', patch, t, runs, -⟩
      simpa using (died base).symm.trans (runs base)
    · rintro ⟨⟨r, returned⟩, -⟩
      simp [Logged.result, died base] at returned
  · constructor
    · rintro ⟨log', patch', t', runs', cells'⟩
      have same : ∀ base, overlay patch' base = overlay patch base := fun base => by
        have both := (runs' base).symm.trans (runs base)
        simp only [Prod.mk.injEq, Option.some.injEq] at both
        exact both.2.1
      refine ⟨⟨_, by rw [Logged.result, runs base]⟩, fun i => ?_⟩
      rw [← cells i, ← cells' i]
      exact ⟨isSome_of_overlay_eq same i, isSome_of_overlay_eq (fun base => (same base).symm) i⟩
    · rintro ⟨-, same⟩
      exact ⟨log, patch, t, runs, fun i => (cells i).trans (same i).symm⟩

/-! ## Results besides the destination -/

/-- As `Patches`, for a computation that also returns something else. -/
def PatchesWith (s : σ) (x : (ι → β) → Logged ε σ (α × (ι → β))) (W : ι → Prop) : Prop :=
  ∃ log, (∀ base, (x base).run s = (log, none)) ∨
    ∃ a patch t, (∀ base, (x base).run s = (log, some ((a, overlay patch base), t))) ∧
      ∀ i, (patch i).isSome = true ↔ W i

theorem Patches.pair {s : σ} {x : (ι → β) → Logged ε σ (ι → β)} {W : ι → Prop} (writes : Patches s x W) (a : α) :
    PatchesWith s (fun base => x base >>= fun m => pure (a, m)) W := by
  obtain ⟨log, died | ⟨patch, t, runs, cells⟩⟩ := writes
  · exact ⟨log, .inl fun base => Logged.run_bind_of_none (died base)⟩
  · refine ⟨log, .inr ⟨a, patch, t, fun base => ?_, cells⟩⟩
    rw [Logged.run_bind_of_some (runs base)]
    simp [pure]

namespace PatchesWith

variable {s : σ} {x : (ι → β) → Logged ε σ (α × (ι → β))} {V W : ι → Prop}

theorem congr (writes : PatchesWith s x V) (same : ∀ i, V i ↔ W i) : PatchesWith s x W := by
  obtain ⟨log, died | ⟨a, patch, t, runs, cells⟩⟩ := writes
  · exact ⟨log, .inl died⟩
  · exact ⟨log, .inr ⟨a, patch, t, runs, fun i => (cells i).trans (same i)⟩⟩

theorem after {γ : Type} {z : Logged ε σ γ} {x : γ → (ι → β) → Logged ε σ (α × (ι → β))}
    (writes : ∀ a t, z.result s = some (a, t) → PatchesWith t (x a) W) :
    PatchesWith s (fun base => z >>= fun a => x a base) W := by
  rcases first : z.run s with ⟨events, _ | ⟨a, t⟩⟩
  · exact ⟨events, .inl fun base => Logged.run_bind_of_none first⟩
  · obtain ⟨log, died | ⟨b, patch, u, runs, cells⟩⟩ := writes a t (by rw [Logged.result, first])
    · refine ⟨events ++ log, .inl fun base => ?_⟩
      rw [Logged.run_bind_of_some first, died base]
    · refine ⟨events ++ log, .inr ⟨b, patch, u, fun base => ?_, cells⟩⟩
      rw [Logged.run_bind_of_some first, runs base]

theorem die : PatchesWith s (fun _ => (Logged.die : Logged ε σ (α × (ι → β)))) W := ⟨[], .inl fun _ => rfl⟩

/-- What has been written before. -/
theorem onTop (patch : ι → Option β) (writes : PatchesWith s x W) :
    PatchesWith s (fun base => x (overlay patch base)) fun i => (patch i).isSome = true ∨ W i := by
  obtain ⟨log, died | ⟨a, patch', t, runs, cells⟩⟩ := writes
  · exact ⟨log, .inl fun base => died _⟩
  · refine ⟨log, .inr ⟨a, fun i => (patch' i).or (patch i), t, fun base => ?_, fun i => ?_⟩⟩
    · rw [runs, overlay_overlay]
    · rw [Option.isSome_or, Bool.or_eq_true, cells i, or_comm]

/-- The contents that `x` leaves in the cells `A` do not depend on those it was given exactly when
    it does not return or writes them all. -/
theorem determined_iff [Nontrivial β] (writes : PatchesWith s x W) (A : ι → Prop) :
    (∀ base base' r r' t t', (x base).result s = some (r, t) → (x base').result s = some (r', t') →
        ∀ i, A i → r.2 i = r'.2 i) ↔
      (∀ base, (x base).result s = none) ∨ ∀ i, A i → W i := by
  obtain ⟨log, died | ⟨a, patch, t, runs, cells⟩⟩ := writes
  · have none : ∀ base, (x base).result s = none := fun base => by rw [Logged.result, died base]
    refine iff_of_true ?_ (.inl none)
    intro base base' m m' t t' returned
    simp [none base] at returned
  · have some : ∀ base, (x base).result s = some ((a, overlay patch base), t) :=
      fun base => by rw [Logged.result, runs base]
    constructor
    · intro same
      obtain ⟨b, b', different⟩ := exists_pair_ne β
      refine .inr fun i inside => (cells i).mp ?_
      -- a cell that is not written keeps whichever of the two values it had
      by_contra unwritten
      have equal := same (fun _ => b) (fun _ => b') _ _ _ _ (some _) (some _) i inside
      simp only [Bool.not_eq_true, Option.isSome_eq_false_iff, Option.isNone_iff_eq_none] at unwritten
      simp only [overlay, unwritten, Option.getD_none] at equal
      exact different equal
    · rintro (none | all) base base' r r' u u' returned returned' i inside
      · simp [none base] at returned
      · obtain ⟨rfl, -⟩ : (a, overlay patch base) = r ∧ t = u := by simpa [some base] using returned
        obtain ⟨rfl, -⟩ : (a, overlay patch base') = r' ∧ t = u' := by simpa [some base'] using returned'
        obtain ⟨b, written⟩ := Option.isSome_iff_exists.mp ((cells i).mpr (all i inside))
        simp [overlay, written]

end PatchesWith

end DevFuzz.Lib
