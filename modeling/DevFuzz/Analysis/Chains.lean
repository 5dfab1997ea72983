import DevFuzz.Analysis.Predicates

/-! # Chains from a hardware read to a branch

The chains of instructions that `buildPredExprTopDown` is made for: every step has one
constant operand, and the other is the step before.  The expression keeps the
operator and the constant of a step, but not the side that the constant stands
on: it means what the chain does when all constants are moved to the right.
-/

namespace DevFuzz.Analysis

/-! ## What a chain computes -/

/-- The width of an integer whose constants fit into `getZExtValue`. -/
abbrev IntWidth := { w : Nat // w ≤ 64 }

def IntWidth.bool : IntWidth := ⟨1, by decide⟩

/-- Where the constant stands. -/
inductive Side where
  | left
  | right
  deriving DecidableEq, Repr

inductive ChainOp where
  | add | sub | mul | udiv | and | or | xor | shl | lshr
  deriving DecidableEq, Repr

inductive ChainPred where
  | eq | ne | ugt | uge | ult | ule
  deriving DecidableEq, Repr

/-- Division by zero, and a shift by the width or more, have no result. -/
def ChainOp.exec {w : Nat} (a b : BitVec w) : ChainOp → Option (BitVec w)
  | add => some (a + b)
  | sub => some (a - b)
  | mul => some (a * b)
  | udiv => if b = 0#w then none else some (a / b)
  | and => some (a &&& b)
  | or => some (a ||| b)
  | xor => some (a ^^^ b)
  | shl => if b.toNat < w then some (a <<< b.toNat) else none
  | lshr => if b.toNat < w then some (a >>> b.toNat) else none

def ChainPred.holds {w : Nat} (a b : BitVec w) : ChainPred → Bool
  | eq => a = b
  | ne => a ≠ b
  | ugt => b < a
  | uge => b ≤ a
  | ult => a < b
  | ule => a ≤ b

/-- A chain that starts with a value of width `w` and ends at a conditional branch. -/
inductive Chain : IntWidth → Type where
  | branch : Chain .bool
  | binary {w : IntWidth} (op : ChainOp) (side : Side) (c : BitVec w.1) (rest : Chain w) : Chain w
  | icmp {w : IntWidth} (pred : ChainPred) (side : Side) (c : BitVec w.1) (rest : Chain .bool) : Chain w

def Side.operands {α : Type} (c x : α) : Side → α × α
  | left => (c, x)
  | right => (x, c)

namespace Chain

def condition {w : IntWidth} : Chain w → BitVec w.1 → Option (BitVec 1)
  | branch, x => some x
  | binary op side c rest, x => (op.exec (side.operands c x).1 (side.operands c x).2).bind rest.condition
  | icmp pred side c rest, x => rest.condition (BitVec.ofBool (pred.holds (side.operands c x).1 (side.operands c x).2))

/-- The chain with all constants on the right. -/
def constantsRight {w : IntWidth} : Chain w → Chain w
  | branch => branch
  | binary op _ c rest => binary op .right c rest.constantsRight
  | icmp pred _ c rest => icmp pred .right c rest.constantsRight

end Chain

def ChainOp.commutes : ChainOp → Bool
  | add | mul | and | or | xor => true
  | sub | udiv | shl | lshr => false

def ChainPred.commutes : ChainPred → Bool
  | eq | ne => true
  | ugt | uge | ult | ule => false

/-- The side of the constant does not matter, in any step. -/
def Chain.Ordered {w : IntWidth} : Chain w → Bool
  | branch => true
  | binary op side _ rest => (side = .right || op.commutes) && rest.Ordered
  | icmp pred side _ rest => (side = .right || pred.commutes) && rest.Ordered

theorem ChainOp.exec_comm {w : Nat} {op : ChainOp} (commutes : op.commutes = true) (a b : BitVec w) :
    op.exec a b = op.exec b a := by
  cases op with
  | add => exact congrArg some (BitVec.add_comm a b)
  | mul => exact congrArg some (BitVec.mul_comm a b)
  | and => exact congrArg some (BitVec.and_comm a b)
  | or => exact congrArg some (BitVec.or_comm a b)
  | xor => exact congrArg some (BitVec.xor_comm a b)
  | sub | udiv | shl | lshr => cases commutes

theorem ChainPred.holds_comm {w : Nat} {pred : ChainPred} (commutes : pred.commutes = true) (a b : BitVec w) :
    pred.holds a b = pred.holds b a := by
  cases pred with
  | eq => exact decide_eq_decide.mpr eq_comm
  | ne => exact decide_eq_decide.mpr ne_comm
  | ugt | uge | ult | ule => cases commutes

/-- Moving the constants of such a chain changes nothing. -/
theorem Chain.condition_constantsRight {w : IntWidth} (chain : Chain w) (ordered : chain.Ordered = true)
    (x : BitVec w.1) : chain.constantsRight.condition x = chain.condition x := by
  induction chain with
  | branch => rfl
  | binary op side c rest ih =>
    simp only [Ordered, Bool.and_eq_true, Bool.or_eq_true, decide_eq_true_eq] at ordered
    have later : rest.constantsRight.condition = rest.condition := funext (ih ordered.2)
    have here : op.exec x c = op.exec (side.operands c x).1 (side.operands c x).2 := by
      cases side with
      | right => rfl
      | left => exact op.exec_comm (ordered.1.resolve_left nofun) x c
    simp only [constantsRight, condition, later, ← here]
    rfl
  | icmp pred side c rest ih =>
    simp only [Ordered, Bool.and_eq_true, Bool.or_eq_true, decide_eq_true_eq] at ordered
    have here : pred.holds x c = pred.holds (side.operands c x).1 (side.operands c x).2 := by
      cases side with
      | right => rfl
      | left => exact pred.holds_comm (ordered.1.resolve_left nofun) x c
    simp only [constantsRight, condition, ← here]
    exact ih ordered.2 _

/-! ## What an expression means -/

/-- A value together with its width. -/
abbrev Value := (w : Nat) × BitVec w

/-- The operators on unsigned values of one width; the result of a comparison has one bit. -/
def ExpType.apply {w : Nat} (a b : BitVec w) : ExpType → Option Value
  | add => some ⟨w, a + b⟩
  | sub => some ⟨w, a - b⟩
  | mul => some ⟨w, a * b⟩
  | div => if b = 0#w then none else some ⟨w, a / b⟩
  | bitand => some ⟨w, a &&& b⟩
  | bitor => some ⟨w, a ||| b⟩
  | bitxor => some ⟨w, a ^^^ b⟩
  | lshift => if b.toNat < w then some ⟨w, a <<< b.toNat⟩ else none
  | rshift => if b.toNat < w then some ⟨w, a >>> b.toNat⟩ else none
  | lt => some ⟨1, BitVec.ofBool (a < b)⟩
  | le => some ⟨1, BitVec.ofBool (a ≤ b)⟩
  | gt => some ⟨1, BitVec.ofBool (b < a)⟩
  | ge => some ⟨1, BitVec.ofBool (b ≤ a)⟩
  | eq => some ⟨1, BitVec.ofBool (a = b)⟩
  | ne => some ⟨1, BitVec.ofBool (a ≠ b)⟩
  | and => some ⟨1, BitVec.ofBool (a ≠ 0#w ∧ b ≠ 0#w)⟩
  | or => some ⟨1, BitVec.ofBool (a ≠ 0#w ∨ b ≠ 0#w)⟩
  | not => none

/-- The value of an expression when the field has the value `x`.  A constant takes the width of the
    other operand. -/
def Expression.eval {w : Nat} (x : BitVec w) : Expression → Option Value
  | hwInput => some ⟨w, x⟩
  | constant value => some ⟨64, value.toBitVec⟩
  | arith type lhs rhs =>
    match rhs.constant?, lhs.constant? with
    | some value, _ => (lhs.eval x).bind fun a => type.apply a.2 (value.toBitVec.setWidth a.1)
    | none, some value => (rhs.eval x).bind fun b => type.apply (value.toBitVec.setWidth b.1) b.2
    | none, none =>
      (lhs.eval x).bind fun a => (rhs.eval x).bind fun b =>
        if same : b.1 = a.1 then type.apply a.2 (b.2.cast same) else none

def Expression.IsTrue {w : Nat} (e : Expression) (x : BitVec w) : Prop := e.eval x = some ⟨1, 1#1⟩

theorem Expression.eval_arith_constant {w : Nat} (x : BitVec w) (type : ExpType) (lhs : Expression) (value : UInt64) :
    (arith type lhs (constant value)).eval x =
      (lhs.eval x).bind fun a => type.apply a.2 (value.toBitVec.setWidth a.1) := rfl

/-! ## The expression of a chain -/

def ChainOp.opcode : ChainOp → BinaryOps
  | add => .add
  | sub => .sub
  | mul => .mul
  | udiv => .udiv
  | and => .and
  | or => .or
  | xor => .xor
  | shl => .shl
  | lshr => .lshr

def ChainPred.predicate : ChainPred → CmpPredicate
  | eq => .eq
  | ne => .ne
  | ugt => .ugt
  | uge => .uge
  | ult => .ult
  | ule => .ule

/-- `getZExtValue` -/
def zExtValue {w : Nat} (c : BitVec w) : UInt64 := UInt64.ofBitVec (c.setWidth 64)

theorem setWidth_zExtValue {w : IntWidth} (c : BitVec w.1) : (zExtValue c).toBitVec.setWidth w.1 = c := by
  rw [zExtValue, UInt64.toBitVec_ofBitVec, BitVec.setWidth_setWidth_of_le _ w.2, BitVec.setWidth_eq]

/-- The instructions of a chain, without the branch. -/
def Chain.instructions {w : IntWidth} : Chain w → List Instruction
  | branch => []
  | binary op side c rest =>
    let operands := side.operands (.constantInt (zExtValue c)) .value
    .binary op.opcode operands.1 operands.2 :: rest.instructions
  | icmp pred side c rest =>
    let operands := side.operands (.constantInt (zExtValue c)) .value
    .icmp pred.predicate operands.1 operands.2 :: rest.instructions

/-- The type and the constant of each step. -/
def Chain.steps {w : IntWidth} : Chain w → List (ExpType × UInt64)
  | branch => []
  | binary op _ c rest => ((opMap op.opcode).getD .add, zExtValue c) :: rest.steps
  | icmp pred _ c rest => (predMap pred.predicate, zExtValue c) :: rest.steps

/-- A chain of applications to constants. -/
def applySteps (e : Expression) (steps : List (ExpType × UInt64)) : Expression :=
  steps.foldl (fun left step => .arith step.1 left (.constant step.2)) e

theorem Chain.step?_instructions {w : IntWidth} (chain : Chain w) :
    chain.instructions.map Instruction.step? = chain.steps.map some := by
  induction chain with
  | branch => rfl
  | binary op side c rest ih =>
    have here : ∀ operands : Operand × Operand, operands = side.operands (.constantInt (zExtValue c)) .value →
        (Instruction.binary op.opcode operands.1 operands.2).step? =
          some ((opMap op.opcode).getD .add, zExtValue c) := by
      rintro _ rfl
      cases side <;> cases op <;> rfl
    simp only [instructions, steps, List.map_cons, ih, here _ rfl]
  | icmp pred side c rest ih =>
    have here : ∀ operands : Operand × Operand, operands = side.operands (.constantInt (zExtValue c)) .value →
        (Instruction.icmp pred.predicate operands.1 operands.2).step? = some (predMap pred.predicate, zExtValue c) := by
      rintro _ rfl
      cases side <;> rfl
    simp only [instructions, steps, List.map_cons, ih, here _ rfl]

theorem ChainOp.apply_opMap {w : Nat} (op : ChainOp) (a b : BitVec w) :
    ((opMap op.opcode).getD .add).apply a b = (op.exec a b).map (Sigma.mk w) := by
  cases op with
  | udiv =>
    change (if b = 0#w then none else some _) = (if b = 0#w then none else some _).map _
    split <;> rfl
  | shl | lshr =>
    change (if b.toNat < w then some _ else none) = (if b.toNat < w then some _ else none).map _
    split <;> rfl
  | add | sub | mul | and | or | xor => rfl

theorem ChainPred.apply_predMap {w : Nat} (pred : ChainPred) (a b : BitVec w) :
    (predMap pred.predicate).apply a b = some ⟨1, BitVec.ofBool (pred.holds a b)⟩ := by
  cases pred <;> rfl

theorem eval_applySteps_none {v : Nat} {x : BitVec v} (steps : List (ExpType × UInt64)) {e : Expression}
    (start : e.eval x = none) : (applySteps e steps).eval x = none := by
  induction steps generalizing e with
  | nil => exact start
  | cons step steps ih =>
    apply ih
    rw [Expression.eval_arith_constant, start, Option.bind_none]

theorem eval_step {v : Nat} {x : BitVec v} {e : Expression} {w : IntWidth} {y : BitVec w.1}
    (start : e.eval x = some ⟨w.1, y⟩) (type : ExpType) (c : BitVec w.1) :
    (Expression.arith type e (.constant (zExtValue c))).eval x = type.apply y c := by
  rw [Expression.eval_arith_constant, start, Option.bind_some, setWidth_zExtValue]

/-- The expression of a chain means what the chain does with its constants on the right. -/
theorem Chain.eval_applySteps {w : IntWidth} (chain : Chain w) {v : Nat} {x : BitVec v} {e : Expression}
    {y : BitVec w.1} (start : e.eval x = some ⟨w.1, y⟩) :
    (applySteps e chain.steps).eval x = (chain.constantsRight.condition y).map (Sigma.mk 1) := by
  induction chain generalizing e with
  | branch => exact start
  | @binary w op side c rest ih =>
    have next := eval_step start ((opMap op.opcode).getD .add) c
    rw [op.apply_opMap] at next
    simp only [steps, constantsRight, condition, Side.operands]
    cases result : op.exec y c with
    | none =>
      rw [result] at next
      exact eval_applySteps_none rest.steps next
    | some z =>
      rw [result] at next
      exact ih next
  | icmp pred side c rest ih =>
    have next := eval_step start (predMap pred.predicate) c
    rw [pred.apply_predMap] at next
    exact ih next

/-! ## The walk along a chain -/

section

variable {ν : Type} {g : UseGraph ν}

theorem buildPredExprTopDown_cons {v : ν} {step : ExpType × UInt64} (isStep : (g.inst v).step? = some step)
    {lower : List ν} {left : Expression} {results : List Expression}
    (below : buildPredExprTopDown g lower results = (some left, results)) :
    buildPredExprTopDown g (v :: lower) results = (some (.arith step.1 left (.constant step.2)), results) := by
  rw [buildPredExprTopDown]
  split
  next isSwitch => simp [isSwitch, Instruction.step?] at isStep
  next => simp only [isStep, below]

theorem buildPredExprTopDown_foldr {path : List ν} {steps : List (ExpType × UInt64)}
    (isSteps : path.map (fun v => (g.inst v).step?) = steps.map some) (results : List Expression) :
    buildPredExprTopDown g path results =
      (some (steps.foldr (fun step left => .arith step.1 left (.constant step.2)) .hwInput), results) := by
  induction path generalizing steps with
  | nil => cases steps with
    | nil => rfl
    | cons => cases isSteps
  | cons v path ih => cases steps with
    | nil => cases isSteps
    | cons step steps =>
      obtain ⟨here, below⟩ := List.cons_eq_cons.mp isSteps
      exact buildPredExprTopDown_cons here (ih below)

/-- A path along a chain is turned into the steps of the chain. -/
theorem Chain.buildPredExprTopDown_eq {w : IntWidth} {chain : Chain w} {path : List ν}
    (along : path.map g.inst = chain.instructions) (results : List Expression) :
    buildPredExprTopDown g path.reverse results = (some (applySteps .hwInput chain.steps), results) := by
  have isSteps : path.reverse.map (fun v => (g.inst v).step?) = chain.steps.reverse.map some := by
    rw [List.map_reverse, List.map_reverse, ← chain.step?_instructions, ← along, List.map_map]
    rfl
  rw [buildPredExprTopDown_foldr isSteps, List.foldr_reverse]
  rfl

/-- A path whose values each have the next one as their only user, up to the sink. -/
def IsLine (g : UseGraph ν) (sink : ν) : List ν → Prop
  | [] => True
  | v :: rest => g.users v = [rest.headD sink] ∧ IsLine g sink rest

variable [DecidableEq ν]

theorem hasConstant_of_isSome {α : Type} (type : Option α) {op1 op2 : Operand}
    (isStep : (do pure ((← type), ← op1.constant?.or op2.constant?) : Option (α × UInt64)).isSome) :
    hasConstant op1 op2 = true := by
  cases type with
  | none => cases isStep
  | some => cases op1 with
    | constantInt => rfl
    | value => cases op2 with
      | constantInt => rfl
      | value => cases isStep

/-- `buildPreds` goes on from the instruction to its users with the instruction on its path. -/
def Instruction.pushed : Instruction → Bool
  | binary _ op1 op2 | icmp _ op1 op2 => hasConstant op1 op2
  | _ => false

theorem Instruction.pushed_cases {inst : Instruction} (pushed : inst.pushed = true) :
    (∃ opcode op1 op2, inst = .binary opcode op1 op2 ∧ hasConstant op1 op2 = true) ∨
      ∃ predicate op1 op2, inst = .icmp predicate op1 op2 ∧ hasConstant op1 op2 = true := by
  cases inst with
  | binary opcode op1 op2 => exact .inl ⟨opcode, op1, op2, rfl, pushed⟩
  | icmp predicate op1 op2 => exact .inr ⟨predicate, op1, op2, rfl, pushed⟩
  | branch | switch | phi | cast | other => cases pushed

theorem buildPreds_pushed {v : ν} (pushed : (g.inst v).pushed = true) (fuel : Nat) (b : Builder ν) :
    buildPreds g (fuel + 1) v b =
      ((g.users v).foldlM (fun b u => buildPreds g fuel u b) (b.push v)).map Builder.pop := by
  rw [buildPreds]
  obtain ⟨_, _, _, inst, constant⟩ | ⟨_, _, _, inst, constant⟩ := Instruction.pushed_cases pushed
  · rw [inst]
    exact if_pos constant
  · rw [inst]
    exact if_pos constant

/-- An instruction that is a step has a constant operand. -/
theorem Instruction.pushed_of_step {inst : Instruction} (isStep : inst.step?.isSome) : inst.pushed = true := by
  cases inst with
  | binary opcode op1 op2 => exact hasConstant_of_isSome (opMap opcode) isStep
  | icmp predicate op1 op2 => exact hasConstant_of_isSome (some (predMap predicate)) isStep
  | branch | switch _ | phi | cast | other => cases isStep

def Builder.withPath (b : Builder ν) (path : List ν) : Builder ν := { b with path := path }

theorem Builder.atBranch_path (b : Builder ν) (sink : ν) : (b.atBranch g sink).path = b.path := by
  rw [atBranch]
  split <;> rfl

/-- `buildPreds` comes to the branch with the whole line on its path, and takes the line off again. -/
theorem buildPreds_line {sink : ν} (atSink : g.inst sink = .branch) {path : List ν} (line : IsLine g sink path)
    (isSteps : ∀ v ∈ path, (g.inst v).step?.isSome) (b : Builder ν) :
    buildPreds g (path.length + 1) (path.headD sink) b =
      some (((b.withPath (path.reverse ++ b.path)).atBranch g sink).withPath b.path) := by
  induction path generalizing b with
  | nil =>
    have atEnd : buildPreds g 1 sink b = some (b.atBranch g sink) := by rw [buildPreds, atSink]
    have unchanged : (b.atBranch g sink).withPath b.path = b.atBranch g sink := by
      rw [← b.atBranch_path (g := g) sink]
      rfl
    exact atEnd.trans (congrArg some unchanged.symm)
  | cons v rest ih =>
    have here := isSteps v List.mem_cons_self
    have later := ih line.2 (fun u mem => isSteps u (List.mem_cons_of_mem v mem)) (b.push v)
    rw [List.length_cons, List.headD_cons, buildPreds_pushed (Instruction.pushed_of_step here), line.1, List.foldlM_cons, later]
    simp [Builder.push, Builder.pop, Builder.withPath]

end

/-! ## Meaning -/

/-- Whenever the chain is on the path at a branch, the predicate that is stored for the branch is true
    exactly for the values of the field for which the branch is taken. -/
def Chain.Preserved {w : IntWidth} (chain : Chain w) : Prop :=
  ∀ (ν : Type) [DecidableEq ν] (g : UseGraph ν) (path : List ν) (sink : ν) (b : Builder ν),
    path.map g.inst = chain.instructions → b.path = path.reverse →
      ∃ e, (b.atBranch g sink).preds.lookup sink = some e ∧
        ∀ x : BitVec w.1, e.IsTrue x ↔ chain.condition x = some 1#1

/-- The predicate at a branch is the one of the chain with its constants on the right. -/
theorem Chain.atBranch_lookup {ν : Type} [DecidableEq ν] {g : UseGraph ν} {w : IntWidth} {chain : Chain w}
    {path : List ν} (along : path.map g.inst = chain.instructions) (sink : ν) {b : Builder ν}
    (onPath : b.path = path.reverse) :
    (b.atBranch g sink).preds.lookup sink = some (applySteps .hwInput chain.steps) := by
  rw [Builder.atBranch, onPath, buildPredExprTopDown_eq along]
  exact AList.lookup_insert _

/-- A walk along a chain stores it. -/
theorem Chain.buildPreds_lookup {ν : Type} [DecidableEq ν] {g : UseGraph ν} {w : IntWidth} {chain : Chain w}
    {path : List ν} {sink : ν} (line : IsLine g sink path) (along : path.map g.inst = chain.instructions)
    (atSink : g.inst sink = .branch) :
    ∃ b, buildPreds g (path.length + 1) (path.headD sink) .empty = some b ∧ b.path = [] ∧
      b.preds.lookup sink = some (applySteps .hwInput chain.steps) := by
  have isSteps : ∀ v ∈ path, (g.inst v).step?.isSome := by
    intro v mem
    have known : (g.inst v).step? ∈ chain.steps.map some := by
      rw [← chain.step?_instructions, ← along]
      exact List.mem_map_of_mem (List.mem_map_of_mem mem)
    obtain ⟨step, -, isStep⟩ := List.mem_map.mp known
    rw [← isStep, Option.isSome_some]
  refine ⟨_, buildPreds_line atSink line isSteps .empty, rfl, ?_⟩
  exact atBranch_lookup along sink (List.append_nil _)

theorem Chain.isTrue_applySteps {w : IntWidth} (chain : Chain w) (x : BitVec w.1) :
    (applySteps .hwInput chain.steps).IsTrue x ↔ chain.constantsRight.condition x = some 1#1 := by
  rw [Expression.IsTrue, chain.eval_applySteps (y := x) rfl]
  cases chain.constantsRight.condition x with
  | none => exact ⟨nofun, nofun⟩
  | some c => simp

/-- The instructions of a chain as a path of their own. -/
def instructionGraph : UseGraph Instruction := ⟨id, fun _ => []⟩

/-- A walk along the chain, from its first instruction to the branch: the predicate that is stored there says
    when the branch is taken. -/
def Chain.Walked {w : IntWidth} (chain : Chain w) {ν : Type} [DecidableEq ν] (g : UseGraph ν) (path : List ν)
    (sink : ν) : Prop :=
  ∃ b e, buildPreds g (path.length + 1) (path.headD sink) .empty = some b ∧ b.preds.lookup sink = some e ∧
    ∀ x : BitVec w.1, e.IsTrue x ↔ chain.condition x = some 1#1

/-- A predicate keeps the meaning of its chain exactly when moving the constants to the right does;
    this is so when each constant on the left belongs to an operator that commutes.  It is what a walk along the
    chain stores. -/
theorem Chain.predicate_preserved_iff {w : IntWidth} (chain : Chain w) :
    (chain.Preserved ↔
      ∀ x, chain.constantsRight.condition x = some 1#1 ↔ chain.condition x = some 1#1) ∧
    (chain.Ordered = true → chain.Preserved) ∧
    ∀ (ν : Type) [DecidableEq ν] (g : UseGraph ν) (path : List ν) (sink : ν), IsLine g sink path →
      path.map g.inst = chain.instructions → g.inst sink = .branch → (chain.Walked g path sink ↔ chain.Preserved) := by
  have exact_iff : chain.Preserved ↔
      ∀ x, chain.constantsRight.condition x = some 1#1 ↔ chain.condition x = some 1#1 := by
    constructor
    · intro preserved x
      obtain ⟨e, stored, sound⟩ := preserved Instruction instructionGraph chain.instructions .branch
        (Builder.empty.withPath chain.instructions.reverse) (List.map_id _) rfl
      rw [atBranch_lookup (List.map_id _) _ rfl, Option.some.injEq] at stored
      rw [← chain.isTrue_applySteps, stored]
      exact sound x
    · intro same ν _ g path sink b along onPath
      refine ⟨_, atBranch_lookup along sink onPath, fun x => ?_⟩
      rw [chain.isTrue_applySteps]
      exact same x
  refine ⟨exact_iff, fun ordered => exact_iff.mpr fun x => ?_, fun ν _ g path sink line along atSink => ?_⟩
  · rw [chain.condition_constantsRight ordered]
  · obtain ⟨b, built, -, stored⟩ := buildPreds_lookup line along atSink
    rw [exact_iff]
    constructor
    · rintro ⟨b', e, built', stored', sound⟩ x
      obtain rfl := Option.some.inj (built.symm.trans built')
      obtain rfl := Option.some.inj (stored.symm.trans stored')
      rw [← chain.isTrue_applySteps]
      exact sound x
    · intro same
      refine ⟨b, _, built, stored, fun x => ?_⟩
      rw [chain.isTrue_applySteps]
      exact same x

/-- `3 < x`, as the compiler may write it. -/
def threeBelow : Chain ⟨8, by decide⟩ := .icmp .ult .left 3#8 .branch

/-- The predicate that is stored is `x < 3`: it is true of `0`, for which the branch is not taken. -/
theorem not_preserved_threeBelow : ¬ threeBelow.Preserved := by
  intro preserved
  obtain ⟨e, stored, sound⟩ := preserved Instruction instructionGraph threeBelow.instructions .branch
    (Builder.empty.withPath threeBelow.instructions.reverse) rfl rfl
  rw [Chain.atBranch_lookup (List.map_id _) _ rfl, Option.some.injEq] at stored
  subst stored
  exact absurd ((sound 0#8).mp rfl) (by decide)

end DevFuzz.Analysis
