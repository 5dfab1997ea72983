import DevFuzz.Analysis.MemberOffset
import DevFuzz.Analysis.Subclass
import DevFuzz.Analysis.USBReads

/-! # How far a `getelementptr` goes

`getGEPOffset` of `stage2/src/apstage2.h` asks LLVM for the distance between the pointer that a
GEP starts from and the one that it computes, and makes an `int` of it.
`getStructMemberOffset` asks for it with the first index at zero, where that is not known.
A known first index counts: in an array of structures, the distance leads to another structure
unless the index is zero.
-/

namespace DevFuzz.Analysis.MemberOffset

open Subclass

/-- What `getGEPOffset` reads of a module besides the operands: the layout of structures, the element types of arrays,
    `getTypeAllocSize` of all other types, and the values for an index that is not a constant. -/
structure Target (ν φ τ κ : Type) where
  dl : DataLayout τ κ
  elementType : κ → Option (LType τ κ)
  typeAllocSize : LType τ κ → UInt64
  bitcode : Bitcode ν φ

/-- The value of a constant. -/
def Value.signed {ν : Type} : Value ν → Int
  | constantInt _ value => value.toInt
  | other _ => 0

namespace Target

variable {ν φ τ κ : Type} (t : Target ν φ τ κ)

def allocSize : LType τ κ → UInt64
  | .struct name => t.dl.size name
  | type => t.typeAllocSize type

/-- Where the indices lead to inside a value of the type, if they are constants that select something. -/
def place : LType τ κ → List (Value ν) → Option Int
  | _, [] => some 0
  | .struct name, .constantInt _ index :: rest =>
    ((t.dl.getStructLayout name).elements[index.toNat]?).bind fun element =>
      (place element.2 rest).map fun inner => element.1.toNat + inner
  | .other kind, .constantInt _ index :: rest =>
    (t.elementType kind).bind fun element =>
      (place element rest).map fun inner => index.toInt * (t.allocSize element).toNat + inner
  | _, _ => none

/-- How far the GEP goes, with zero for a first index that is not known. -/
def distance (source : LType τ κ) (gep : GetElementPtr ν) : Option Int :=
  match gep.indices with
  | [] => some 0
  | idx0 :: rest => (t.place source rest).map fun inner => idx0.signed * (t.allocSize source).toNat + inner

/-- `accumulateConstantOffset` of LLVM, which counts with 64 bits. -/
def accumulateConstantOffset (source : LType τ κ) (gep : GetElementPtr ν) : Option (BitVec 64) :=
  if gep.hasAllConstantIndices then (t.distance source gep).map (BitVec.ofInt 64) else none

def getGEPOffset (source : LType τ κ) (gep : GetElementPtr ν) : Int :=
  match t.accumulateConstantOffset source gep with
  | some apint => (apint.setWidth 32).toInt
  | none => match gep.indices with
    | .other index :: _ => t.bitcode.getGEPOffset index none
    -- a constant is neither a cast nor a load
    | _ => -1

/-! ## What is answered -/

theorem setWidth_toInt (d : Int) : ((BitVec.ofInt 64 d).setWidth 32).toInt = d.bmod 4294967296 := by
  rw [BitVec.toInt_setWidth, BitVec.toNat_ofInt]
  have nonneg : 0 ≤ d % 18446744073709551616 := Int.emod_nonneg _ (by decide)
  have small : d % 18446744073709551616 % 4294967296 = d % 4294967296 := Int.emod_emod_of_dvd d (by decide)
  rw [Int.bmod_def, Int.bmod_def]
  norm_num
  rw [max_eq_left nonneg, small]

variable {t} {source : LType τ κ} {gep : GetElementPtr ν}

theorem all_of_place {type : LType τ κ} {indices : List (Value ν)} {d : Int} (found : t.place type indices = some d) :
    indices.all Value.isConstantInt = true := by
  induction indices generalizing type d with
  | nil => rfl
  | cons index rest ih =>
    cases index with
    | other v => cases type <;> simp [place] at found
    | constantInt bits value =>
      cases type with
      | pointer | function => simp [place] at found
      | struct name =>
        obtain ⟨element, -, inner⟩ := Option.bind_eq_some_iff.mp found
        obtain ⟨d', inner, -⟩ := Option.map_eq_some_iff.mp inner
        simp [Value.isConstantInt, ih inner]
      | other kind =>
        obtain ⟨element, -, inner⟩ := Option.bind_eq_some_iff.mp found
        obtain ⟨d', inner, -⟩ := Option.map_eq_some_iff.mp inner
        simp [Value.isConstantInt, ih inner]

/-- A constant first index leaves nothing to be loaded. -/
theorem getGEPOffset_of_constants (constants : gep.hasAllConstantIndices = true) :
    t.getGEPOffset source gep = ((t.distance source gep).map (Int.bmod · 4294967296)).getD (-1) := by
  rw [getGEPOffset, accumulateConstantOffset, if_pos constants]
  cases found : t.distance source gep with
  | some d => exact setWidth_toInt d
  | none =>
    cases indices : gep.indices with
    | nil => rfl
    | cons idx0 rest =>
      cases idx0 with
      | constantInt => rfl
      | other v => simp [GetElementPtr.hasAllConstantIndices, indices, Value.isConstantInt] at constants

variable [DecidableEq ν]

/-- The answer is the distance as an `int`, whether the first index is known or not. -/
theorem getStructMemberOffset_eq (t : Target ν φ τ κ) (source : LType τ κ) (gep : GetElementPtr ν) :
    (gep.getStructMemberOffset (t.getGEPOffset source)).1 =
      ((t.distance source gep).map (Int.bmod · 4294967296)).getD (-1) := by
  unfold GetElementPtr.getStructMemberOffset
  split_ifs with constants
  · exact getGEPOffset_of_constants constants
  · cases indices : gep.indices with
    | nil => simp [GetElementPtr.hasAllConstantIndices, indices] at constants
    | cons idx0 rest =>
      dsimp only
      split_ifs with rewritten
      · -- the other indices are constants, which the replacement leaves alone
        obtain ⟨unknown, known⟩ := Bool.and_eq_true_iff.mp rewritten
        cases idx0 with
        | constantInt => cases unknown
        | other v =>
          have kept : rest.map (GetElementPtr.replaced (.other v) .zero) = rest := by
            conv_rhs => rw [← List.map_id rest]
            refine List.map_congr_left fun index member => if_neg ?_
            rintro rfl
            cases List.all_eq_true.mp known _ member
          have shape : (gep.replaceUsesOfWith (.other v) .zero).indices = .zero :: rest := by
            simp [GetElementPtr.replaceUsesOfWith, indices, kept, GetElementPtr.replaced]
          have constant : (gep.replaceUsesOfWith (.other v) .zero).hasAllConstantIndices = true := by
            rw [GetElementPtr.hasAllConstantIndices, shape, List.all_cons, known]
            rfl
          have same : t.distance source (gep.replaceUsesOfWith (.other v) .zero) = t.distance source gep := by
            rw [distance, distance, shape, indices]
            rfl
          rw [getGEPOffset_of_constants constant, same]
      · have unplaced : t.place source rest = none := by
          rw [Option.eq_none_iff_forall_ne_some]
          intro d found
          have known := all_of_place found
          simp [GetElementPtr.hasAllConstantIndices, indices, known] at constants
          simp [constants, known] at rewritten
        simp [distance, indices, unplaced]

end Target

end DevFuzz.Analysis.MemberOffset
