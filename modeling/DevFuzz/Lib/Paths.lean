import Mathlib.Data.Finset.Insert
import Mathlib.Data.Fintype.Card
import Mathlib.Logic.Relation

/-! # Walks that remember their own path

A depth-first walk that hands down its set of visited nodes by value: a branch knows the nodes above
it, but not what the branches before it have seen.  It comes to a node once for every path that
leads there without a repetition, and ends since there are finitely many of them.

`Avoiding` is reachability without the nodes of a set.  Such a path can be left at its
last visit of the start (`Avoiding.leave`), so the nodes above a branch never keep it from
a node that can be reached (`explore_spec`).
-/

namespace DevFuzz.Lib

open Relation

/-! ## Paths around a set -/

section

variable {ν : Type} {E : ν → ν → Prop} {S : Finset ν} {v w : ν}

/-- There is a path from the first node to the second on which no node is in the set. -/
inductive Avoiding (E : ν → ν → Prop) (S : Finset ν) : ν → ν → Prop where
  | refl {v : ν} (outside : v ∉ S) : Avoiding E S v v
  | step {v x w : ν} (outside : v ∉ S) (edge : E v x) (rest : Avoiding E S x w) : Avoiding E S v w

theorem Avoiding.start (path : Avoiding E S v w) : v ∉ S := by
  cases path with
  | refl outside => exact outside
  | step outside => exact outside

theorem Avoiding.mono {T : Finset ν} (path : Avoiding E S v w) (subset : T ⊆ S) : Avoiding E T v w := by
  induction path with
  | refl outside => exact .refl fun member => outside (subset member)
  | step outside edge _ ih => exact .step (fun member => outside (subset member)) edge ih

theorem avoiding_empty_iff : Avoiding E ∅ v w ↔ ReflTransGen E v w := by
  constructor
  · intro path
    induction path with
    | refl => exact .refl
    | step _ edge _ ih => exact .head edge ih
  · intro path
    induction path using ReflTransGen.head_induction_on with
    | refl => exact .refl (Finset.notMem_empty _)
    | head edge _ ih => exact .step (Finset.notMem_empty _) edge ih

variable [DecidableEq ν]

/-- Either the node lies on the path, and can be left for the last time there, or the path avoids it as well. -/
theorem Avoiding.split {x : ν} (path : Avoiding E S x w) (v : ν) :
    Avoiding E (insert v S) x w ∨ w = v ∨ ∃ y, E v y ∧ Avoiding E (insert v S) y w := by
  induction path with
  | @refl x outside =>
    by_cases here : x = v
    · exact .inr (.inl here)
    · exact .inl (.refl (by simp [here, outside]))
  | @step x y w outside edge rest ih =>
    rcases ih with avoids | found
    · by_cases here : x = v
      · subst here
        exact .inr (.inr ⟨y, edge, avoids⟩)
      · exact .inl (.step (by simp [here, outside]) edge avoids)
    · exact .inr found

theorem Avoiding.leave (path : Avoiding E S v w) : w = v ∨ ∃ y, E v y ∧ Avoiding E (insert v S) y w := by
  rcases path.split v with avoids | found
  · exact absurd (Finset.mem_insert_self v S) avoids.start
  · exact found

theorem avoiding_iff (outside : v ∉ S) :
    Avoiding E S v w ↔ w = v ∨ ∃ y, E v y ∧ Avoiding E (insert v S) y w := by
  constructor
  · exact Avoiding.leave
  · rintro (rfl | ⟨y, edge, path⟩)
    · exact .refl outside
    · exact .step outside edge (path.mono (Finset.subset_insert v S))

end

/-! ## The walk -/

/-- A loop whose passes each have the effects of a list has those of all lists. -/
theorem foldlM_effects {α β σ : Type} {f : σ → α → Option σ} {g : σ → β → σ} {P : α → β → Prop} {l : List α}
    (each : ∀ a ∈ l, ∃ done : List β, (∀ s, f s a = some (done.foldl g s)) ∧ ∀ b, b ∈ done ↔ P a b) :
    ∃ done : List β, (∀ s, l.foldlM f s = some (done.foldl g s)) ∧ ∀ b, b ∈ done ↔ ∃ a ∈ l, P a b := by
  induction l with
  | nil => exact ⟨[], fun s => rfl, by simp⟩
  | cons a rest ih =>
    rw [List.forall_mem_cons] at each
    obtain ⟨⟨here, runs, members⟩, later⟩ := each
    obtain ⟨done, runs', members'⟩ := ih later
    refine ⟨here ++ done, fun s => ?_, fun b => ?_⟩
    · rw [List.foldlM_cons, runs, List.foldl_append]
      exact runs' _
    · simp [members, members']

/-- The uses of a node in their order; a use leads on to another node or has an effect. -/
structure Explorer (ν υ σ : Type) where
  uses : ν → List υ
  next : υ → Option ν
  effect : υ → σ → σ

namespace Explorer

variable {ν υ σ : Type} [DecidableEq ν] (e : Explorer ν υ σ)

def explore : Nat → Finset ν → ν → σ → Option σ
  | 0, _, _, _ => none
  | fuel + 1, visited, v, s =>
    if v ∈ visited then some s
    else (e.uses v).foldlM (fun s u => match e.next u with
      | some w => explore fuel (insert v visited) w s
      | none => some (e.effect u s)) s

/-- One pass of the loop over the uses. -/
def pass (fuel : Nat) (visited : Finset ν) (v : ν) (s : σ) (u : υ) : Option σ :=
  match e.next u with
  | some w => e.explore fuel (insert v visited) w s
  | none => some (e.effect u s)

def run (done : List υ) (s : σ) : σ := done.foldl (fun s u => e.effect u s) s

/-- One node leads to another. -/
def Leads (v w : ν) : Prop := ∃ u ∈ e.uses v, e.next u = some w

/-- The uses whose effect is had in the pass for `u`. -/
def Covers (visited : Finset ν) (v : ν) (u x : υ) : Prop :=
  match e.next u with
  | some w => e.next x = none ∧ ∃ w', Avoiding e.Leads (insert v visited) w w' ∧ x ∈ e.uses w'
  | none => x = u

/-- Together the passes cover the uses of all nodes that can be reached. -/
theorem covers_iff {visited : Finset ν} {v : ν} (old : v ∉ visited) (x : υ) :
    (∃ u ∈ e.uses v, e.Covers visited v u x) ↔
      e.next x = none ∧ ∃ w, Avoiding e.Leads visited v w ∧ x ∈ e.uses w := by
  constructor
  · rintro ⟨u, use, covers⟩
    unfold Covers at covers
    cases next : e.next u with
    | none =>
      obtain rfl : x = u := by simpa [next] using covers
      exact ⟨next, v, .refl old, use⟩
    | some y =>
      obtain ⟨last, w, path, here⟩ : e.next x = none ∧ ∃ w, Avoiding e.Leads (insert v visited) y w ∧ x ∈ e.uses w := by
        simpa [next] using covers
      exact ⟨last, w, (avoiding_iff old).mpr (.inr ⟨y, ⟨u, use, next⟩, path⟩), here⟩
  · rintro ⟨last, w, path, here⟩
    rcases path.leave with rfl | ⟨y, ⟨u, use, next⟩, path⟩
    · exact ⟨x, here, by simp [Covers, last]⟩
    · refine ⟨u, use, ?_⟩
      simp only [Covers, next]
      exact ⟨last, w, path, here⟩

/-- The walk returns, and has had the effect of exactly the uses of the nodes it can reach. -/
theorem explore_spec [Fintype ν] {fuel : Nat} {visited : Finset ν} (enough : (Finset.univ \ visited).card < fuel) (v : ν) :
    ∃ done, (∀ s, e.explore fuel visited v s = some (e.run done s)) ∧
      ∀ x, x ∈ done ↔ e.next x = none ∧ ∃ w, Avoiding e.Leads visited v w ∧ x ∈ e.uses w := by
  induction fuel generalizing visited v with
  | zero => omega
  | succ fuel ih =>
    by_cases old : v ∈ visited
    · refine ⟨[], fun s => if_pos old, fun x => ?_⟩
      simp only [List.not_mem_nil, false_iff, not_and, not_exists]
      rintro - w path
      exact absurd old path.start
    · have fewer : (Finset.univ \ insert v visited).card < fuel := by
        have := Finset.card_erase_lt_of_mem (show v ∈ Finset.univ \ visited by simp [old])
        rw [← Finset.sdiff_insert] at this
        omega
      have each : ∀ u ∈ e.uses v, ∃ done, (∀ s, e.pass fuel visited v s u = some (e.run done s)) ∧
          ∀ x, x ∈ done ↔ e.Covers visited v u x := by
        intro u _
        cases next : e.next u with
        | none => exact ⟨[u], fun s => by simp [pass, next, run], fun x => by simp [Covers, next]⟩
        | some w =>
          obtain ⟨done, runs, members⟩ := ih fewer w
          exact ⟨done, fun s => by simp [pass, next, runs], fun x => by simp [Covers, next, members]⟩
      obtain ⟨done, runs, members⟩ := foldlM_effects each
      exact ⟨done, fun s => (if_neg old).trans (runs s), fun x => (members x).trans (e.covers_iff old x)⟩

end Explorer

end DevFuzz.Lib
