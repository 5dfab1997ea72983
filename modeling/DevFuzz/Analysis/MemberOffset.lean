import Mathlib.Data.List.Basic

/-! # Offsets of struct members

`getStructMemberOffset` of `stage2/src/apstage2.cpp` finds the offset of a member in
an array of structures.  For an index that is not known it puts a zero
into the instruction, asks for the offset, and puts the index back.

Both replacements go over all operands, and there is one `i64 0` in a context.  So
the index comes back to its own place and to that of every `i64 0` that was there before
(`undo_replaceUsesOfWith`).
-/

namespace DevFuzz.Analysis.MemberOffset

/-- A `ConstantInt` is known by its type and its value, and any other value by itself. -/
inductive Value (ν : Type) where
  | constantInt (bits : Nat) (value : BitVec bits)
  | other (v : ν)
  deriving DecidableEq

section

variable {ν : Type}

def Value.isConstantInt : Value ν → Bool
  | constantInt _ _ => true
  | other _ => false

/-- `ConstantInt::get(Type::getInt64Ty(..), 0, true)` -/
def Value.zero : Value ν := constantInt 64 0

/-- The operands of a `GetElementPtrInst`. -/
structure GetElementPtr (ν : Type) where
  pointer : Value ν
  indices : List (Value ν)
  deriving DecidableEq

namespace GetElementPtr

def operands (gep : GetElementPtr ν) : List (Value ν) := gep.pointer :: gep.indices

def hasAllConstantIndices (gep : GetElementPtr ν) : Bool := gep.indices.all Value.isConstantInt

variable [DecidableEq ν]

/-- An operand after `replaceUsesOfWith(a, b)`. -/
def replaced (a b v : Value ν) : Value ν := if v = a then b else v

def replaceUsesOfWith (gep : GetElementPtr ν) (a b : Value ν) : GetElementPtr ν where
  pointer := replaced a b gep.pointer
  indices := gep.indices.map (replaced a b)

/-- The offset, and the instruction after the call.  `getGEPOffset` reads the operands and the layout of the
    types. -/
def getStructMemberOffset (getGEPOffset : GetElementPtr ν → Int) (gep : GetElementPtr ν) : Int × GetElementPtr ν :=
  if gep.hasAllConstantIndices then (getGEPOffset gep, gep)
  else match gep.indices with
    | [] => (-1, gep)
    | idx0 :: rest =>
      if !idx0.isConstantInt && rest.all Value.isConstantInt then
        let rewritten := gep.replaceUsesOfWith idx0 .zero
        (getGEPOffset rewritten, rewritten.replaceUsesOfWith .zero idx0)
      else (-1, gep)

omit [DecidableEq ν] in
/-- The first index is not a constant, and all others are. -/
def Rewritten (gep : GetElementPtr ν) : Prop :=
  ∃ idx0 rest, gep.indices = idx0 :: rest ∧ idx0.isConstantInt = false ∧ rest.all Value.isConstantInt = true

variable {gep : GetElementPtr ν} {getGEPOffset : GetElementPtr ν → Int}

/-- What the two replacements do to an operand. -/
theorem replaced_replaced (zero idx0 v : Value ν) :
    replaced zero idx0 (replaced idx0 zero v) = if v = zero then idx0 else v := by
  unfold replaced
  by_cases index : v = idx0
  · rw [if_pos index, if_pos rfl, index, ite_self]
  · rw [if_neg index]

theorem undo_replaceUsesOfWith (zero idx0 : Value ν) :
    (gep.replaceUsesOfWith idx0 zero).replaceUsesOfWith zero idx0 =
      ⟨if gep.pointer = zero then idx0 else gep.pointer, gep.indices.map fun v => if v = zero then idx0 else v⟩ := by
  simp only [replaceUsesOfWith, replaced_replaced, List.map_map, Function.comp_def]

/-- The replacements cancel if there was no zero before. -/
theorem undo_eq_iff {zero idx0 : Value ν} (differs : idx0 ≠ zero) :
    (gep.replaceUsesOfWith idx0 zero).replaceUsesOfWith zero idx0 = gep ↔ zero ∉ gep.operands := by
  have operand : ∀ v, (if v = zero then idx0 else v) = v ↔ ¬ zero = v := by
    intro v
    by_cases same : v = zero
    · rw [if_pos same, same]
      exact iff_of_false differs fun absent => absent rfl
    · rw [if_neg same]
      exact iff_of_true rfl (Ne.symm same)
  have list : gep.indices.map (fun v => if v = zero then idx0 else v) = gep.indices ↔ zero ∉ gep.indices := by
    conv_lhs => rhs; rw [← List.map_id gep.indices]
    rw [List.map_inj_left]
    simp only [id_eq, operand]
    exact ⟨fun all member => all zero member rfl, fun absent v member same => absent (same ▸ member)⟩
  rw [undo_replaceUsesOfWith, operands, List.mem_cons, not_or, ← list, ← operand gep.pointer]
  cases gep with
  | mk pointer indices => exact iff_of_eq (GetElementPtr.mk.injEq ..)

theorem getStructMemberOffset_of_rewritten {idx0 : Value ν} {rest : List (Value ν)} (indices : gep.indices = idx0 :: rest)
    (unknown : idx0.isConstantInt = false) (constants : rest.all Value.isConstantInt = true) :
    (getStructMemberOffset getGEPOffset gep).2 = (gep.replaceUsesOfWith idx0 .zero).replaceUsesOfWith .zero idx0 := by
  have first : gep.hasAllConstantIndices = false := by simp [hasAllConstantIndices, indices, unknown]
  simp [getStructMemberOffset, first, indices, unknown, constants]

theorem getStructMemberOffset_of_not_rewritten (plain : ¬ gep.Rewritten) :
    (getStructMemberOffset getGEPOffset gep).2 = gep := by
  unfold getStructMemberOffset
  split_ifs with constants
  · rfl
  · cases indices : gep.indices with
    | nil => rfl
    | cons idx0 rest =>
      dsimp only
      rw [if_neg]
      intro both
      obtain ⟨unknown, rest⟩ := Bool.and_eq_true_iff.mp both
      exact plain ⟨idx0, _, indices, by simpa using unknown, rest⟩

/-- The call leaves the instruction as it was unless it is rewritten and had an `i64 0`. -/
theorem getStructMemberOffset_eq_iff (getGEPOffset : GetElementPtr ν → Int) (gep : GetElementPtr ν) :
    (getStructMemberOffset getGEPOffset gep).2 = gep ↔ ¬ (gep.Rewritten ∧ .zero ∈ gep.operands) := by
  by_cases rewritten : gep.Rewritten
  · obtain ⟨idx0, rest, indices, unknown, constants⟩ := id rewritten
    have differs : idx0 ≠ .zero := by
      intro same
      rw [same] at unknown
      cases unknown
    rw [getStructMemberOffset_of_rewritten indices unknown constants, undo_eq_iff differs, and_iff_right rewritten]
  · exact iff_of_true (getStructMemberOffset_of_not_rewritten rewritten) fun both => rewritten both.1

end GetElementPtr

end

/-- `getelementptr [4 x i32], ptr %p, i64 %i, i64 0`, with values numbered. -/
def firstOfRow : GetElementPtr Nat := ⟨.other 0, [.other 1, .zero]⟩

/-- The second index becomes `%i`, and the offset is not found when it is asked for again. -/
theorem firstOfRow_changed :
    (GetElementPtr.getStructMemberOffset (fun _ => 0) firstOfRow).2 = ⟨.other 0, [.other 1, .other 1]⟩ ∧
      (GetElementPtr.getStructMemberOffset (fun _ => 0) firstOfRow).2 ≠ firstOfRow ∧
      (GetElementPtr.getStructMemberOffset (fun _ => 0) firstOfRow).1 = 0 ∧
      (GetElementPtr.getStructMemberOffset (fun _ => 0)
        (GetElementPtr.getStructMemberOffset (fun _ => 0) firstOfRow).2).1 = -1 := by
  decide

end DevFuzz.Analysis.MemberOffset
