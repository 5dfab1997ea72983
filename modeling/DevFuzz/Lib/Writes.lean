import Mathlib.Data.List.Basic

/-! # Writes to a memory

What a list of writes leaves in a cell is what the last write that covers the cell
puts there.
-/

namespace DevFuzz.Lib

/-- The cells that a write covers, and what it puts into them. -/
structure Writer (ω ι β : Type) where
  covers : ω → ι → Bool
  value : ω → ι → β

namespace Writer

variable {ω ι β : Type} (W : Writer ω ι β)

def write (m : ι → β) (e : ω) : ι → β := fun x => if W.covers e x then W.value e x else m x

def run (l : List ω) (m : ι → β) : ι → β := l.foldl W.write m

/-- The last write that covers the cell. -/
def last (l : List ω) (x : ι) : Option ω := l.reverse.find? (W.covers · x)

theorem run_append (a b : List ω) (m : ι → β) : W.run (a ++ b) m = W.run b (W.run a m) := List.foldl_append

variable {x : ι} {e : ω} {l : List ω}

theorem last_append (a b : List ω) (x : ι) : W.last (a ++ b) x = (W.last b x).or (W.last a x) := by
  rw [last, List.reverse_append, List.find?_append]
  rfl

theorem last_singleton (e : ω) (x : ι) : W.last [e] x = if W.covers e x then some e else none := by
  rw [last, List.reverse_singleton, List.find?_singleton]

theorem covers_of_last (found : W.last l x = some e) : W.covers e x = true :=
  List.find?_some (p := (W.covers · x)) found

theorem mem_of_last (found : W.last l x = some e) : e ∈ l := List.mem_reverse.mp (List.mem_of_find?_eq_some found)

theorem run_eq (l : List ω) (m : ι → β) (x : ι) : W.run l m x = ((W.last l x).map (W.value · x)).getD (m x) := by
  induction l generalizing m with
  | nil => rfl
  | cons e l ih =>
    rw [← List.singleton_append, run_append, last_append, ih, last_singleton]
    cases W.last l x with
    | some later => rfl
    | none =>
      change (if W.covers e x then W.value e x else m x) = _
      split_ifs <;> rfl

theorem last_eq_none_of_uncovered (free : ∀ e ∈ l, W.covers e x = false) : W.last l x = none := by
  refine List.find?_eq_none.mpr fun e member => ?_
  simp [free e (List.mem_reverse.mp member)]

/-- Writes to different cells can be made in any order. -/
theorem run_perm {l l' : List ω} (same : l.Perm l')
    (disjoint : ∀ a ∈ l, ∀ b ∈ l, a ≠ b → ∀ x, ¬ (W.covers a x = true ∧ W.covers b x = true)) (m : ι → β) :
    W.run l m = W.run l' m := by
  refine same.foldl_eq' (fun a first b second m => ?_) m
  by_cases equal : a = b
  · rw [equal]
  · funext x
    have apart := disjoint a first b second equal x
    unfold write
    split_ifs with later earlier
    · exact absurd ⟨earlier, later⟩ apart
    · rfl
    · rfl
    · rfl

end Writer

end DevFuzz.Lib
