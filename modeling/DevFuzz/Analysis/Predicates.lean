import DevFuzz.Analysis.Constraints
import Mathlib.Data.List.AList

/-! # Predicates of branches

`FieldConstraintBuilder` of `stage2/src/apstage2.cpp`: from a value that was read from
the hardware, `buildPreds` follows the uses to the branches and keeps the
instructions with a constant operand on its path, and `buildPredExprTopDown` turns
the path into the expression that the branch depends on.
-/

namespace DevFuzz.Analysis

/-! ## Instructions -/

/-- `Instruction::BinaryOps` on integers -/
inductive BinaryOps where
  | add | sub | mul | udiv | sdiv | urem | srem | shl | lshr | ashr | and | or | xor
  deriving DecidableEq, Repr

/-- `CmpInst::Predicate` on integers -/
inductive CmpPredicate where
  | eq | ne | ugt | uge | ult | ule | sgt | sge | slt | sle
  deriving DecidableEq, Repr

/-- A `ConstantInt`, by its `getZExtValue`, or another value. -/
inductive Operand where
  | constantInt (value : UInt64)
  | value
  deriving DecidableEq, Repr

def Operand.constant? : Operand → Option UInt64
  | constantInt v => some v
  | value => none

/-- The users of a value that `buildPreds` tells apart. -/
inductive Instruction where
  | binary (opcode : BinaryOps) (op1 op2 : Operand)
  | icmp (predicate : CmpPredicate) (op1 op2 : Operand)
  | branch
  | switch (cases : List UInt64)
  | phi
  | cast
  | other
  deriving DecidableEq, Repr

def opMap : BinaryOps → Option ExpType
  | .add => some .add
  | .sub => some .sub
  | .mul => some .mul
  | .sdiv => some .div
  | .udiv => some .div
  | .and => some .bitand
  | .or => some .bitor
  | .xor => some .bitxor
  | .shl => some .lshift
  | .lshr => some .rshift
  | .urem | .srem | .ashr => none

def predMap : CmpPredicate → ExpType
  | .eq => .eq
  | .ne => .ne
  | .slt => .lt
  | .ult => .lt
  | .sle => .le
  | .ule => .le
  | .sgt => .gt
  | .ugt => .gt
  | .sge => .ge
  | .uge => .ge

/-- The values of a function with their uses. -/
structure UseGraph (ν : Type) where
  inst : ν → Instruction
  users : ν → List ν

/-! ## Expressions of paths -/

section

variable {ν : Type} (g : UseGraph ν)

/-- The expression type and the constant of an instruction on the path: the first operand if it is a
    constant, and the second otherwise. -/
def Instruction.step? : Instruction → Option (ExpType × UInt64)
  | binary opcode op1 op2 => do pure (← opMap opcode, ← op1.constant?.or op2.constant?)
  | icmp predicate op1 op2 => do pure (predMap predicate, ← op1.constant?.or op2.constant?)
  | _ => none

/-- The path is given from its last element on, so that its tail is the next lower level.  A switch
    adds a result for each of its cases. -/
def buildPredExprTopDown : List ν → List Expression → Option Expression × List Expression
  | [], results => (some .hwInput, results)
  | v :: lower, results =>
    match g.inst v with
    | .switch cases =>
      match buildPredExprTopDown lower results with
      | (none, results) => (none, results)
      | (some lhs, results) => (none, results ++ cases.map fun value => .arith .eq lhs (.constant value))
    | inst =>
      match inst.step? with
      | none => (none, results)
      | some (type, value) =>
        match buildPredExprTopDown lower results with
        | (none, results) => (none, results)
        | (some left, results) => (some (.arith type left (.constant value)), results)

/-! ## The walk along the uses -/

/-- The members that `buildPreds` changes, and its `visited`. -/
structure Builder (ν : Type) where
  path : List ν
  visited : List ν
  preds : AList fun _ : ν => Expression
  results : List Expression

def Builder.push (b : Builder ν) (v : ν) : Builder ν := { b with path := v :: b.path }

def Builder.pop (b : Builder ν) : Builder ν := { b with path := b.path.tail }

variable [DecidableEq ν]

/-- The sink at a branch. -/
def Builder.atBranch (b : Builder ν) (v : ν) : Builder ν :=
  match buildPredExprTopDown g b.path b.results with
  | (none, results) => { b with results := results }
  | (some expr, results) => { b with preds := b.preds.insert v expr, results := results }

/-- The sink at a switch. -/
def Builder.atSwitch (b : Builder ν) (v : ν) : Builder ν :=
  { b with results := (buildPredExprTopDown g (b.push v).path b.results).2 }

def hasConstant (op1 op2 : Operand) : Bool := op1.constant?.isSome || op2.constant?.isSome

/-- No result when the fuel is used up. -/
def buildPreds : Nat → ν → Builder ν → Option (Builder ν)
  | 0, _, _ => none
  | fuel + 1, v, b =>
    let follow (b : Builder ν) := (g.users v).foldlM (fun b u => buildPreds fuel u b) b
    match g.inst v with
    | .binary opcode op1 op2 =>
      if hasConstant op1 op2 then (follow (b.push v)).map Builder.pop
      else if opcode = .and ∨ opcode = .or then follow b
      else some b
    | .icmp _ op1 op2 => if hasConstant op1 op2 then (follow (b.push v)).map Builder.pop else some b
    | .branch => some (b.atBranch g v)
    | .switch _ => some (b.atSwitch g v)
    | .phi => if v ∈ b.visited then some b else follow { b with visited := v :: b.visited }
    | .cast => follow b
    | .other => some b

def Builder.empty : Builder ν := ⟨[], [], ∅, []⟩

end

end DevFuzz.Analysis
