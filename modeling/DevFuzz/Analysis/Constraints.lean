import DevFuzz.Stage2.Dictionary

/-! # From predicates to dictionaries

`genHWInputConstraint` of `stage2/src/hw_input_model.h`: the analyser records what a
branch of the driver compares a field with, as a value, a bit mask or a range.
What it has recorded is emitted as the arguments of the constructor that builds the
dictionary at run time.
-/

namespace DevFuzz.Analysis

open DevFuzz.Lib DevFuzz.Stage2

/-! ## Expressions -/

inductive ExpType where
  | and | or | not | lt | le | gt | ge | eq | ne | bitand | bitor | bitxor
  | add | mul | div | sub | lshift | rshift
  deriving DecidableEq, Repr

/-- `ValueExpr` is the field or a constant, `ArithExpr` is `arith`. -/
inductive Expression where
  | hwInput
  | constant (value : UInt64)
  | arith (type : ExpType) (lhs rhs : Expression)
  deriving DecidableEq, Repr

namespace Expression

def constant? : Expression → Option UInt64
  | constant value => some value
  | _ => none

/-- The constant operand, the left one first, and the other operand. -/
def splitConstant (lhs rhs : Expression) : Option (UInt64 × Expression) :=
  match lhs.constant?, rhs.constant? with
  | some value, _ => some (value, rhs)
  | none, some value => some (value, lhs)
  | none, none => none

theorem splitConstant_left (value : UInt64) (e : Expression) :
    splitConstant (constant value) e = some (value, e) := rfl

theorem splitConstant_right {e : Expression} (open_ : e.constant? = none) (value : UInt64) :
    splitConstant e (constant value) = some (value, e) := by
  rw [splitConstant, open_]
  rfl

/-- `getConstantInExpr`, which asserts that there is one. -/
def getConstantInExpr : Expression → Option UInt64
  | arith _ lhs rhs => (splitConstant lhs rhs).map Prod.fst
  | _ => none

end Expression

/-! ## What is recorded for a field -/

structure HWInput where
  nBytes : Nat
  nBytes_pos : 0 < nBytes
  ranges : List (Int64 × Int64)
  valueSet : OrderedSet UInt64
  bitsSet : OrderedSet UInt64
  rangeSpecialVals : OrderedSet UInt64

/-- `v >> s` and `v << s`; a shift by 64 or more is undefined. -/
def shiftRight? (v s : UInt64) : Option UInt64 := if s < 64 then some (v >>> s) else none

def shiftLeft? (v s : UInt64) : Option UInt64 := if s < 64 then some (v <<< s) else none

/-- The byte `i` of `v` in memory. -/
def byteAt (v : UInt64) (i : Nat) : UInt8 := (v >>> UInt64.ofNat (8 * i)).toUInt8

/-- Where the loop of `checkAllOneValue` stops. -/
def leadingOnes (v : UInt64) : Nat := ((List.range 8).find? fun i => byteAt v i != 0xff).getD 8

def checkAllOneValue (v : UInt64) : UInt64 :=
  let i := leadingOnes v
  if i = 8 then (1 : UInt64) <<< 63
  else if i = 0 ∨ byteAt v i ≠ 0 then 0
  else (1 : UInt64) <<< UInt64.ofNat (i * 8 - 1)

def highestSet (nBytes : Nat) : UInt64 :=
  if nBytes = 1 then (1 : UInt64) <<< 7
  else if nBytes = 2 then (1 : UInt64) <<< 15
  else if nBytes = 4 then (1 : UInt64) <<< 31
  else if nBytes = 8 then (1 : UInt64) <<< 63
  else 0

def maxVal (nBytes : Nat) : UInt64 :=
  if nBytes = 1 then 0xff
  else if nBytes = 2 then 0xffff
  else if nBytes = 4 then 0xffffffff
  else if nBytes = 8 then 0xffffffffffffffff
  else 0

namespace HWInput

variable (input : HWInput)

def insertRanges (start stop : Int64) : HWInput := { input with ranges := input.ranges ++ [(start, stop)] }

def insertValue (value : UInt64) : HWInput := { input with valueSet := input.valueSet.insert value }

def insertBits (bits : UInt64) : HWInput := { input with bitsSet := input.bitsSet.insert bits }

/-- The mask is recorded when the constant is zero, and the constant otherwise. -/
def insertTest (mask const : UInt64) : HWInput := input.insertBits (if const = 0 then mask else const)

/-- The constraint `(lhs & rhs) == const`.  One of the two sides is read as a constant. -/
def insertBitTest (const : UInt64) (lhs rhs : Expression) : Option HWInput := do
  let (mask, other) ← Expression.splitConstant lhs rhs
  match other with
  | .arith .lshift _ _ => do
    let shift ← other.getConstantInExpr
    pure (input.insertTest (← shiftRight? mask shift) (← shiftRight? const shift))
  | .arith .rshift _ _ => do
    let shift ← other.getConstantInExpr
    pure (input.insertTest (← shiftLeft? mask shift) (← shiftLeft? const shift))
  | _ => pure (input.insertTest mask const)

/-- The constraints `<` and `<=`. -/
def insertUpper (strict : Bool) (const : UInt64) : HWInput :=
  if const = 0 ∧ strict then input.insertBits (highestSet input.nBytes) else input.insertRanges 0 const.toInt64

/-- The constraints `>` and `>=`. -/
def insertLower (const : UInt64) : HWInput :=
  if checkAllOneValue const ≠ 0 then input.insertBits (checkAllOneValue const)
  else input.insertRanges const.toInt64 (maxVal input.nBytes).toInt64

end HWInput

/-- No result where an assertion fails or the behaviour is undefined. -/
def genHWInputConstraint (input : HWInput) : Expression → Option HWInput
  | .arith type lhs rhs =>
    match Expression.splitConstant lhs rhs with
    | none => some input
    | some (const, other) =>
      match type with
      | .eq | .ne =>
        match other with
        | .hwInput | .constant _ => some (input.insertValue const)
        | .arith .bitand left right => input.insertBitTest const left right
        | .arith _ _ _ => some input
      | .lt => some (input.insertUpper true const)
      | .le => some (input.insertUpper false const)
      | .gt | .ge => some (input.insertLower const)
      | _ => some input
  | _ => some input

/-! ## What is emitted -/

def genSpecial (start stop : Int64) : List Int64 := [start + 1, start, start - 1, stop, stop + 1]

namespace HWInput

variable (input : HWInput)

/-- What `generateRangeValues` inserts. -/
def rangeValues : List UInt64 :=
  input.ranges.flatMap fun range => (genSpecial range.1 range.2).map Int64.toUInt64

def process : HWInput :=
  { input with rangeSpecialVals := input.rangeValues.foldl OrderedSet.insert input.rangeSpecialVals }

/-- `genModelInitCode`: the arguments of the constructor. -/
def genModelInitCode : FieldLists where
  nBytes := input.nBytes
  nBytes_pos := input.nBytes_pos
  bits := input.bitsSet.elements
  magics := input.valueSet.elements
  rangeSpecials := input.rangeSpecialVals.elements

/-- The dictionary that the emitted code builds. -/
def dict : List UInt64 := input.process.genModelInitCode.construct.dict

def combinations : List UInt64 := input.process.genModelInitCode.members.generateBitCombs.bitsCombinations

theorem mem_dict {v : UInt64} :
    v ∈ input.dict ↔ v ∈ input.valueSet ∨ v ∈ input.combinations ∨
      v ∈ input.rangeValues ∨ v ∈ input.rangeSpecialVals := by
  rw [dict, FieldLists.construct_dict, List.mem_append, List.mem_append, or_assoc]
  exact or_congr Iff.rfl (or_congr Iff.rfl OrderedSet.mem_foldl_insert)

theorem mem_dict_of_mem_bitsSet {v : UInt64} (member : v ∈ input.bitsSet) : v ∈ input.dict ∧ 0 ∈ input.dict := by
  obtain ⟨here, zero⟩ := FieldLists.mem_bitsCombinations input.process.genModelInitCode
    (v := v) (OrderedSet.mem_elements.mpr member)
  exact ⟨input.mem_dict.mpr (.inr (.inl here)), input.mem_dict.mpr (.inr (.inl zero))⟩

end HWInput

/-! ## Both sides of a branch -/

inductive FieldSize where
  | one
  | two
  | four
  | eight
  deriving DecidableEq, Repr

namespace FieldSize

def bytes : FieldSize → Nat
  | one => 1
  | two => 2
  | four => 4
  | eight => 8

def bits (n : FieldSize) : Nat := 8 * n.bytes

theorem bits_le (n : FieldSize) : n.bits ≤ 64 := by cases n <;> decide

end FieldSize

section

variable {n : FieldSize}

/-- The value of the field when `feedData` has returned `v`. -/
def truncate (n : FieldSize) (v : UInt64) : BitVec n.bits := v.toBitVec.setWidth n.bits

/-- What `getZExtValue` makes of a constant. -/
def zExt (c : BitVec n.bits) : UInt64 := UInt64.ofBitVec (c.setWidth 64)

@[simp] theorem truncate_zExt (c : BitVec n.bits) : truncate n (zExt c) = c := by
  rw [truncate, zExt, UInt64.toBitVec_ofBitVec, BitVec.setWidth_setWidth_of_le _ n.bits_le, BitVec.setWidth_eq]

@[simp] theorem truncate_zero : truncate n 0 = 0#n.bits := by simp [truncate]

/-- The dictionary has a value with the property if there is one at all. -/
def Reaches (dict : List UInt64) (P : BitVec n.bits → Prop) : Prop :=
  (∃ x, P x) → ∃ v ∈ dict, P (truncate n v)

/-- The dictionary takes a branch to both sides, as far as any value does. -/
def ReachesBoth (dict : List UInt64) (P : BitVec n.bits → Prop) : Prop :=
  Reaches dict P ∧ Reaches dict fun x => ¬ P x

theorem reachesBoth_not {dict : List UInt64} {P : BitVec n.bits → Prop} :
    ReachesBoth dict (fun x => ¬ P x) ↔ ReachesBoth dict P := by
  simp only [ReachesBoth, Reaches, not_not]
  exact And.comm

end

end DevFuzz.Analysis
