import Mathlib.Data.List.Basic
import Mathlib.Logic.Function.Basic

/-! # Rings with free-running counters

A ring has `size` places; a counter that only goes up stands for the place that is its
remainder.  What has been written from a counter on can be read back as long as the
writer has not come round.
-/

namespace DevFuzz.Lib.Ring

variable {α : Type} {size : Nat}

/-- The list stands in the ring from the counter on. -/
def Holds (size : Nat) (ring : Nat → α) (start : Nat) (list : List α) : Prop :=
  ∀ j x, list[j]? = some x → ring ((start + j) % size) = x

/-- Write a list from the counter on. -/
def write (size : Nat) (ring : Nat → α) (start : Nat) : List α → Nat → α
  | [] => ring
  | x :: list => write size (Function.update ring (start % size) x) (start + 1) list

theorem holds_nil (ring : Nat → α) (start : Nat) : Holds size ring start [] := by
  simp [Holds]

theorem holds_append {ring : Nat → α} {start : Nat} {left right : List α} :
    Holds size ring start (left ++ right) ↔
      Holds size ring start left ∧ Holds size ring (start + left.length) right := by
  constructor
  · intro holds
    constructor
    · intro j x found
      exact holds j x ((List.getElem?_append_left (List.getElem?_eq_some_iff.mp found).1).trans found)
    · intro j x found
      rw [Nat.add_assoc]
      apply holds (left.length + j) x
      rwa [List.getElem?_append_right (Nat.le_add_right _ _), Nat.add_sub_cancel_left]
  · rintro ⟨first, second⟩ j x found
    rcases Nat.lt_or_ge j left.length with inside | behind
    · exact first j x ((List.getElem?_append_left inside).symm.trans found)
    · rw [List.getElem?_append_right behind] at found
      have := second _ x found
      rwa [Nat.add_assoc, Nat.add_sub_cancel' behind] at this

/-- Counters that differ by less than the size stand for different places. -/
theorem mod_ne_of_lt {a b : Nat} (low : a < b) (high : b < a + size) : a % size ≠ b % size := by
  intro same
  have zero := Nat.sub_mod_eq_zero_of_mod_eq same.symm
  rw [Nat.mod_eq_of_lt (by omega)] at zero
  omega

theorem write_of_ne {ring : Nat → α} {start i : Nat} {list : List α}
    (outside : ∀ j < list.length, i ≠ (start + j) % size) : write size ring start list i = ring i := by
  induction list generalizing ring start with
  | nil => rfl
  | cons x list ih =>
    rw [write, ih]
    · exact Function.update_of_ne (outside 0 (by simp)) _ _
    · intro j inside
      have := outside (j + 1) (by simpa using inside)
      rwa [← Nat.add_assoc, Nat.add_right_comm] at this

/-- What is written is there, if it does not write over itself. -/
theorem holds_write (ring : Nat → α) (start : Nat) {list : List α} (fits : list.length ≤ size) :
    Holds size (write size ring start list) start list := by
  induction list generalizing ring start with
  | nil => exact holds_nil _ _
  | cons x list ih =>
    rw [List.length_cons] at fits
    intro j y found
    cases j with
    | zero =>
      obtain rfl : x = y := Option.some.inj found
      rw [write, write_of_ne]
      · exact Function.update_self _ _ _
      · intro j inside
        exact mod_ne_of_lt (by omega) (by omega)
    | succ j =>
      have := ih (Function.update ring (start % size) x) (start + 1) (by omega) j y (by simpa using found)
      rwa [Nat.add_assoc, Nat.add_comm 1] at this

/-- What stands before it is kept, if the writer does not come round to it. -/
theorem Holds.write {ring : Nat → α} {position : Nat} {kept : List α} (holds : Holds size ring position kept)
    {start : Nat} (list : List α) (behind : position + kept.length ≤ start)
    (room : start + list.length ≤ position + size) : Holds size (write size ring start list) position kept := by
  intro j x found
  have inside : j < kept.length := (List.getElem?_eq_some_iff.mp found).1
  rw [write_of_ne]
  · exact holds j x found
  · intro i bound
    exact mod_ne_of_lt (by omega) (by omega)

end DevFuzz.Lib.Ring
