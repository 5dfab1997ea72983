import Mathlib.Data.List.Basic

/-! # Layout of C structures

Fields are placed one after the other, each at the next multiple of its alignment.
-/

namespace DevFuzz.Lib.Layout

variable {κ : Type}

structure Member (κ : Type) where
  name : κ
  size : Nat
  align : Nat

/-- The first multiple of `align` from `offset` on. -/
def alignUp (offset align : Nat) : Nat := (offset + align - 1) / align * align

/-- The fields with their offsets, when the first of them is placed from `start` on. -/
def place : Nat → List (Member κ) → List (Member κ × Nat)
  | _, [] => []
  | start, field :: fields =>
    (field, alignUp start field.align) :: place (alignUp start field.align + field.size) fields

/-- `offsetof`, for a field of the structure. -/
def offsetOf [DecidableEq κ] (fields : List (Member κ)) (name : κ) : Nat :=
  (((place 0 fields).find? fun placed => placed.1.name = name).map Prod.snd).getD 0

end DevFuzz.Lib.Layout
