import Mathlib.Data.Fintype.EquivFin
import Mathlib.Logic.Relation
import Mathlib.Order.RelClasses

/-! # Bounded depth

A recursion along the edges of a graph that does not remember where it has been ends
exactly if the paths from its start are bounded in length (`Shallow`).  In a finite graph
these are the starts that no cycle can be reached from (`exists_shallow_iff`).  `CyclesMarked` is
the weaker condition that every cycle comes through some marked node.
-/

namespace DevFuzz.Lib

open Relation

variable {α : Type} {next : α → List α}

/-- There is an edge from the first node to the second. -/
def Edge (next : α → List α) (a b : α) : Prop := b ∈ next a

/-- Every path from the node has less than so many nodes. -/
def Shallow (next : α → List α) : Nat → α → Prop
  | 0, _ => False
  | n + 1, a => ∀ b ∈ next a, Shallow next n b

theorem Shallow.succ {n : Nat} {a : α} (shallow : Shallow next n a) : Shallow next (n + 1) a := by
  induction n generalizing a with
  | zero => exact shallow.elim
  | succ n ih => exact fun b edge => ih (shallow b edge)

theorem Shallow.mono {m n : Nat} {a : α} (shallow : Shallow next m a) (le : m ≤ n) : Shallow next n a := by
  induction le with
  | refl => exact shallow
  | step _ ih => exact ih.succ

theorem Shallow.of_subset {other : α → List α} (subset : ∀ a, other a ⊆ next a) {n : Nat} {a : α}
    (shallow : Shallow next n a) : Shallow other n a := by
  induction n generalizing a with
  | zero => exact shallow.elim
  | succ n ih => exact fun b edge => ih (shallow b (subset a edge))

/-- A step makes the bound smaller. -/
theorem Shallow.edge {n : Nat} {a b : α} (shallow : Shallow next n a) (edge : Edge next a b) :
    ∃ m < n, Shallow next m b := by
  cases n with
  | zero => exact shallow.elim
  | succ n => exact ⟨n, Nat.lt_succ_self n, shallow b edge⟩

theorem Shallow.transGen {n : Nat} {a b : α} (shallow : Shallow next n a) (path : TransGen (Edge next) a b) :
    ∃ m < n, Shallow next m b := by
  induction path with
  | single edge => exact shallow.edge edge
  | tail _ edge ih =>
    obtain ⟨m, below, shallow⟩ := ih
    obtain ⟨k, lower, shallow⟩ := shallow.edge edge
    exact ⟨k, Nat.lt_trans lower below, shallow⟩

theorem Shallow.reflTransGen {n : Nat} {a b : α} (shallow : Shallow next n a) (path : ReflTransGen (Edge next) a b) :
    Shallow next n b := by
  induction path with
  | refl => exact shallow
  | tail _ edge ih =>
    obtain ⟨m, below, shallow⟩ := ih.edge edge
    exact shallow.mono (Nat.le_of_lt below)

/-- A node on a cycle has no bound. -/
theorem not_shallow_of_cycle {a : α} (cycle : TransGen (Edge next) a a) (n : Nat) : ¬ Shallow next n a := by
  induction n using Nat.strongRecOn with
  | ind n ih =>
    intro shallow
    obtain ⟨m, below, shallow⟩ := shallow.transGen cycle
    exact ih m below shallow

/-- Finitely many bounds have a common one. -/
theorem exists_shallow_forall {l : List α} (each : ∀ a ∈ l, ∃ n, Shallow next n a) :
    ∃ n, ∀ a ∈ l, Shallow next n a := by
  induction l with
  | nil => exact ⟨0, nofun⟩
  | cons a rest ih =>
    obtain ⟨⟨m, here⟩, later⟩ := List.forall_mem_cons.mp each
    obtain ⟨n, all⟩ := ih later
    refine ⟨max m n, List.forall_mem_cons.mpr ⟨here.mono (Nat.le_max_left m n), fun b member => ?_⟩⟩
    exact (all b member).mono (Nat.le_max_right m n)

theorem exists_shallow_of_next {a : α} (each : ∀ b ∈ next a, ∃ n, Shallow next n b) : ∃ n, Shallow next n a := by
  obtain ⟨n, all⟩ := exists_shallow_forall each
  exact ⟨n + 1, all⟩

/-- In a finite graph the paths from a node are bounded unless it reaches a cycle. -/
theorem exists_shallow_iff [Finite α] (a : α) :
    (∃ n, Shallow next n a) ↔ ∀ b, ReflTransGen (Edge next) a b → ¬ TransGen (Edge next) b b := by
  constructor
  · rintro ⟨n, shallow⟩ b reached cycle
    exact not_shallow_of_cycle cycle n (shallow.reflTransGen reached)
  · intro acyclic
    -- below the nodes that are reached from `a`, going back is well founded
    let below : { b // ReflTransGen (Edge next) a b } → { b // ReflTransGen (Edge next) a b } → Prop :=
      fun c b => TransGen (Edge next) b.1 c.1
    have trans : IsTrans _ below := ⟨fun _ _ _ first second => second.trans first⟩
    have irrefl : Std.Irrefl below := ⟨fun b => acyclic b.1 b.2⟩
    have wellFounded : WellFounded below := Finite.wellFounded_of_trans_of_irrefl below
    have all : ∀ b : { b // ReflTransGen (Edge next) a b }, ∃ n, Shallow next n b.1 := by
      intro b
      induction b using wellFounded.induction with
      | h b ih =>
        refine exists_shallow_of_next fun c edge => ?_
        exact ih ⟨c, b.2.tail edge⟩ (.single edge)
    exact all ⟨a, .refl⟩

/-! ## Cycles through marked nodes -/

/-- Every cycle comes through a marked node. -/
def CyclesMarked (next : α → List α) (marked : α → Prop) : Prop :=
  ∀ a, ¬ TransGen (fun a b => Edge next a b ∧ ¬ marked b) a a

/-- Between marked nodes the paths are bounded. -/
theorem CyclesMarked.exists_shallow [Finite α] {marked : α → Prop} [DecidablePred marked]
    (cycles : CyclesMarked next marked) (a : α) : ∃ n, Shallow (fun a => (next a).filter fun b => ¬ marked b) n a := by
  refine (exists_shallow_iff a).mpr fun b _ cycle => cycles b (TransGen.mono (fun a b edge => ?_) _ _ cycle)
  obtain ⟨edge, unmarked⟩ := List.mem_filter.mp edge
  exact ⟨edge, of_decide_eq_true unmarked⟩

end DevFuzz.Lib
