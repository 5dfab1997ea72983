import DevFuzz.Analysis.BitTests
import DevFuzz.Analysis.Conditions

/-! # Tests of a field

The tests that a dictionary is made for compare a field, or some of its bits, with a constant.  A test decides a
branch, or it is a case of a switch.  Whatever else the driver does with the value, `buildConstraints` has the
expression of the test among its results (`buildConstraints_of_tests`).
-/

namespace DevFuzz.Analysis

open DevFuzz.Lib Relation

/-! ## What is compared -/

abbrev FieldSize.width (n : FieldSize) : IntWidth := ⟨n.bits, n.bits_le⟩

/-- The bits of a field under a mask, with the field shifted before or not. -/
structure Masking (n : FieldSize) where
  shift : Shift n
  mask : BitVec n.bits
  side : Side

/-- A comparison with a constant, of the field itself or of some of its bits. -/
structure Test (n : FieldSize) where
  masking : Option (Masking n)
  const : BitVec n.bits
  negated : Bool
  side : Side

variable {n : FieldSize}

def Shift.onto (rest : Chain n.width) : Shift n → Chain n.width
  | none => rest
  | left s => .binary .shl .right (BitVec.ofNat n.bits s.val) rest
  | right s => .binary .lshr .right (BitVec.ofNat n.bits s.val) rest

def Masking.onto (m : Masking n) (rest : Chain n.width) : Chain n.width := m.shift.onto (.binary .and m.side m.mask rest)

namespace Test

variable (t : Test n)

def comparison : Chain n.width := .icmp (if t.negated then .ne else .eq) t.side t.const .branch

/-- The instructions between the read and the branch. -/
def chain : Chain n.width :=
  match t.masking with
  | none => t.comparison
  | some m => m.onto t.comparison

def operand (x : BitVec n.bits) : BitVec n.bits :=
  match t.masking with
  | none => x
  | some m => m.shift.apply x &&& m.mask

/-- The value of the field takes the branch to the side. -/
def Takes (side : Bool) (x : BitVec n.bits) : Prop := t.chain.condition x = some (BitVec.ofBool side)

theorem condition_comparison (y : BitVec n.bits) :
    t.comparison.condition y = some (BitVec.ofBool (decide (y = t.const) != t.negated)) := by
  have holds : (if t.negated then ChainPred.ne else .eq).holds (t.side.operands t.const y).1
      (t.side.operands t.const y).2 = (decide (y = t.const) != t.negated) := by
    by_cases equal : y = t.const
    · cases t.side <;> cases t.negated <;> simp [ChainPred.holds, Side.operands, equal]
    · cases t.side <;> cases t.negated <;> simp [ChainPred.holds, Side.operands, equal, Ne.symm equal]
  exact congrArg (fun b => some (BitVec.ofBool b)) holds

end Test

theorem toNat_shift (s : Fin n.bits) : (BitVec.ofNat n.bits s.val).toNat = s.val := by
  rw [BitVec.toNat_ofNat]
  exact Nat.mod_eq_of_lt (Nat.lt_of_lt_of_le s.isLt (Nat.le_of_lt Nat.lt_two_pow_self))

theorem Shift.condition_onto (shift : Shift n) (rest : Chain n.width) (x : BitVec n.bits) :
    (shift.onto rest).condition x = rest.condition (shift.apply x) := by
  cases shift with
  | none => rfl
  | left s =>
    simp only [onto, Chain.condition, Side.operands, ChainOp.exec, toNat_shift, s.isLt, if_true, Option.bind_some, apply]
  | right s =>
    simp only [onto, Chain.condition, Side.operands, ChainOp.exec, toNat_shift, s.isLt, if_true, Option.bind_some, apply]

theorem Masking.condition_onto (m : Masking n) (rest : Chain n.width) (x : BitVec n.bits) :
    (m.onto rest).condition x = rest.condition (m.shift.apply x &&& m.mask) := by
  rw [onto, Shift.condition_onto]
  cases m.side with
  | left => simp [Chain.condition, Side.operands, ChainOp.exec, BitVec.and_comm]
  | right => simp [Chain.condition, Side.operands, ChainOp.exec]

namespace Test

variable (t : Test n)

theorem condition_chain (x : BitVec n.bits) :
    t.chain.condition x = some (BitVec.ofBool (decide (t.operand x = t.const) != t.negated)) := by
  unfold chain operand
  cases t.masking with
  | none => exact t.condition_comparison x
  | some m => exact (m.condition_onto t.comparison x).trans (t.condition_comparison _)

theorem takes_iff {side : Bool} {x : BitVec n.bits} :
    t.Takes side x ↔ (t.operand x = t.const ↔ side ≠ t.negated) := by
  rw [Takes, t.condition_chain, Option.some.injEq]
  by_cases equal : t.operand x = t.const
  · cases side <;> cases t.negated <;> simp [equal]
  · cases side <;> cases t.negated <;> simp [equal]

/-! ## The expression of a test -/

def expr : Expression := applySteps .hwInput t.chain.steps

/-- The test of some bits, with the mask and the constant on the right. -/
def bitTest (m : Masking n) : BitTest n := ⟨m.shift, m.mask, t.const, t.negated, false, false⟩

end Test

theorem zExtValue_shift (s : Fin n.bits) : zExtValue (BitVec.ofNat n.bits s.val) = UInt64.ofNat s.val := by
  apply UInt64.toNat_inj.mp
  have small := Nat.lt_of_lt_of_le s.isLt n.bits_le
  rw [zExtValue, UInt64.toNat_ofBitVec, BitVec.toNat_setWidth, toNat_shift, UInt64.toNat_ofNat_of_lt' (by
    simp only [UInt64.size]
    omega)]
  exact Nat.mod_eq_of_lt (by omega)

theorem Shift.applySteps_onto (shift : Shift n) (rest : Chain n.width) :
    applySteps .hwInput (shift.onto rest).steps = applySteps shift.expr rest.steps := by
  cases shift with
  | none => rfl
  | left s =>
    simp only [onto, Chain.steps, applySteps, List.foldl_cons, zExtValue_shift, expr]
    rfl
  | right s =>
    simp only [onto, Chain.steps, applySteps, List.foldl_cons, zExtValue_shift, expr]
    rfl

namespace Test

variable (t : Test n)

theorem expr_of_masked {m : Masking n} (masked : t.masking = some m) : t.expr = (t.bitTest m).expr := by
  have chain : t.chain = m.onto t.comparison := by
    unfold chain
    rw [masked]
  rw [expr, chain, Masking.onto, Shift.applySteps_onto]
  unfold comparison bitTest BitTest.expr
  cases t.negated with
  | false => rfl
  | true => rfl

theorem expr_of_plain (plain : t.masking = none) :
    t.expr = .arith (if t.negated then .ne else .eq) .hwInput (.constant (zExt t.const)) := by
  have chain : t.chain = t.comparison := by
    unfold chain
    rw [plain]
  rw [expr, chain]
  unfold comparison
  cases t.negated with
  | false => rfl
  | true => rfl

end Test

/-! ## Cases of switches -/

section

variable {ν : Type} {g : UseGraph ν}

theorem subset_buildPredExprTopDown (path : List ν) (results : List Expression) :
    results ⊆ (buildPredExprTopDown g path results).2 := by
  induction path with
  | nil => exact List.Subset.refl _
  | cons v lower ih =>
    rw [buildPredExprTopDown]
    cases g.inst v with
    | switch cases =>
      simp only
      cases pair : buildPredExprTopDown g lower results with
      | mk expr rest =>
        rw [pair] at ih
        cases expr with
        | none => exact ih
        | some lhs => exact fun e member => List.mem_append_left _ (ih member)
    | binary | icmp | branch | phi | cast | other =>
      simp only
      cases Instruction.step? _ with
      | none => exact List.Subset.refl _
      | some step =>
        simp only
        cases pair : buildPredExprTopDown g lower results with
        | mk expr rest =>
          rw [pair] at ih
          cases expr with
          | none => exact ih
          | some left => exact ih

/-- The walks from `us` lose no result, and have one for each case of a switch at the end of a plain path. -/
structure Recorded (g : UseGraph ν) (us : List ν) (b b' : Builder ν) : Prop where
  path : b'.path = b.path
  kept : b.results ⊆ b'.results
  cases : ∀ u ∈ us, ∀ w q values lhs, g.LeadsPlain (u, b.path) (w, q) → g.inst w = .switch values →
    g.exprOf q = some lhs → ∀ value ∈ values, .arith .eq lhs (.constant value) ∈ b'.results

variable {us : List ν} {v : ν} {b b' : Builder ν}

theorem Recorded.foldlM (starts : ν → List ν) {walk : Builder ν → ν → Option (Builder ν)}
    (step : ∀ u ∈ us, ∀ c c', c.path = b.path → walk c u = some c' → Recorded g (starts u) c c')
    (run : us.foldlM walk b = some b') : Recorded g (us.flatMap starts) b b' := by
  induction us generalizing b with
  | nil =>
    obtain rfl : b = b' := Option.some.inj run
    exact ⟨rfl, List.Subset.refl _, nofun⟩
  | cons u us ih =>
    rw [List.foldlM_cons, Option.bind_eq_bind, Option.bind_eq_some_iff] at run
    obtain ⟨mid, first, later⟩ := run
    have here := step u List.mem_cons_self b mid rfl first
    have rest := ih (fun u' member c c' path => step u' (List.mem_cons_of_mem u member) c c' (path.trans here.path)) later
    refine ⟨rest.path.trans here.path, List.Subset.trans here.kept rest.kept, ?_⟩
    intro s start w q values lhs leads switch expr value isCase
    cases List.mem_append.mp start with
    | inl start => exact rest.kept (here.cases s start w q values lhs leads switch expr value isCase)
    | inr start =>
      rw [← here.path] at leads
      exact rest.cases s start w q values lhs leads switch expr value isCase

/-- Where nothing is followed, only a switch has cases. -/
theorem Recorded.ends (stops : g.inst v = .phi ∨ (g.inst v).followed = false) (noSwitch : ∀ values, g.inst v ≠ .switch values)
    (path : b'.path = b.path) (kept : b.results ⊆ b'.results) : Recorded g [v] b b' where
  path := path
  kept := kept
  cases := by
    intro u member w q values lhs leads switch
    obtain rfl := List.mem_singleton.mp member
    obtain ⟨rfl, -⟩ := Prod.mk.inj (leads.stays stops)
    exact absurd switch (noSwitch values)

theorem Recorded.through {c c' : Builder ν} (recorded : Recorded g (g.users v) c c')
    (followed : (g.inst v).followed = true) (path : c.path = g.pass v b.path) (results : c.results = b.results)
    (lastPath : b'.path = b.path) (lastResults : b'.results = c'.results) : Recorded g [v] b b' where
  path := lastPath
  kept := by
    rw [lastResults, ← results]
    exact recorded.kept
  cases := by
    intro u member w q values lhs leads switch expr value isCase
    obtain rfl := List.mem_singleton.mp member
    rw [lastResults]
    cases leads.cases_head with
    | inl stays =>
      -- a switch is not followed
      obtain ⟨rfl, rfl⟩ := Prod.mk.inj stays
      rw [switch] at followed
      cases followed
    | inr step =>
      obtain ⟨⟨user, path'⟩, ⟨-, -, use, passed⟩, leads⟩ := step
      obtain rfl : path' = c.path := passed.trans path.symm
      exact recorded.cases user use w q values lhs leads switch expr value isCase

theorem Recorded.atSwitch {values : List UInt64} (switch : g.inst v = .switch values) :
    Recorded g [v] b (b.atSwitch g v) where
  path := rfl
  kept := subset_buildPredExprTopDown _ _
  cases := by
    intro u member w q values' lhs leads switch' expr value isCase
    obtain rfl := List.mem_singleton.mp member
    have stops : (g.inst u).followed = false := by
      rw [switch]
      rfl
    obtain ⟨rfl, rfl⟩ := Prod.mk.inj (leads.stays (.inr stops))
    obtain rfl : values' = values := by
      rw [switch] at switch'
      cases switch'
      rfl
    have found := UseGraph.fst_buildPredExprTopDown (g := g) b.path b.results
    rw [expr] at found
    simp only [Builder.atSwitch, Builder.push, buildPredExprTopDown, switch]
    cases pair : buildPredExprTopDown g b.path b.results with
    | mk below results =>
      rw [pair] at found
      obtain rfl : below = some lhs := found
      exact List.mem_append_right _ (List.mem_map_of_mem isCase)

variable [DecidableEq ν]

theorem Builder.results_atBranch (b : Builder ν) (v : ν) : b.results ⊆ (b.atBranch g v).results := by
  have subset := subset_buildPredExprTopDown (g := g) b.path b.results
  unfold Builder.atBranch
  cases pair : buildPredExprTopDown g b.path b.results with
  | mk expr results =>
    rw [pair] at subset
    cases expr with
    | none => exact subset
    | some e => exact subset

/-- What a walk that returns has recorded. -/
theorem recorded_of_buildPreds (fuel : Nat) (returned : buildPreds g fuel v b = some b') : Recorded g [v] b b' := by
  induction fuel generalizing v b b' with
  | zero => cases returned
  | succ fuel ih =>
    have users : ∀ {c c' : Builder ν}, (g.users v).foldlM (fun b u => buildPreds g fuel u b) c = some c' →
        Recorded g (g.users v) c c' := by
      intro c c' run
      have all := Recorded.foldlM (fun u => [u]) (fun u _ _ _ _ walked => ih walked) run
      rwa [List.flatMap_singleton'] at all
    cases followed : (g.inst v).followed with
    | false =>
      cases inst : g.inst v with
      | branch =>
        simp only [buildPreds, inst, Option.some.injEq] at returned
        subst returned
        exact .ends (.inr followed) (by simp [inst]) (b.atBranch_path v) (b.results_atBranch v)
      | switch values =>
        simp only [buildPreds, inst, Option.some.injEq] at returned
        subst returned
        exact .atSwitch inst
      | binary | icmp | phi | cast | other =>
        have noSwitch : ∀ values, g.inst v ≠ .switch values := by simp [inst]
        rw [buildPreds_unfollowed followed (by simp [inst]) noSwitch, Option.some.injEq] at returned
        subst returned
        exact .ends (.inr followed) noSwitch rfl (List.Subset.refl _)
    | true =>
      by_cases phi : g.inst v = .phi
      · have passed : g.pass v b.path = b.path := UseGraph.pass_of_notPushed (by rw [phi]; rfl) _
        by_cases old : v ∈ b.visited
        · simp only [buildPreds, phi, if_pos old, Option.some.injEq] at returned
          subst returned
          exact .ends (.inl phi) (by simp [phi]) rfl (List.Subset.refl _)
        · simp only [buildPreds, phi, if_neg old] at returned
          have recorded := users returned
          exact recorded.through followed passed.symm rfl recorded.path rfl
      · cases pushed : (g.inst v).pushed with
        | true =>
          rw [buildPreds_pushed pushed, Option.map_eq_some_iff] at returned
          obtain ⟨c, run, rfl⟩ := returned
          have recorded := users run
          refine recorded.through followed (UseGraph.pass_of_pushed pushed b.path).symm rfl ?_ rfl
          rw [Builder.pop, recorded.path]
          rfl
        | false =>
          rw [buildPreds_passed followed pushed phi] at returned
          have recorded := users returned
          exact recorded.through followed (UseGraph.pass_of_notPushed pushed b.path).symm rfl recorded.path rfl

end

namespace SSA

variable {ν : Type} [Fintype ν] [DecidableEq ν] (f : SSA ν)

/-- A switch on what operators with constants make of the value has a result for each of its cases. -/
theorem mem_results_of_switch {arrange : List ν → List ν} (perm : ∀ l, (arrange l).Perm l) {x w : ν} {b : Builder ν}
    (walked : f.walks arrange x = some b) {lower : List ν} (operators : f.Operators x lower)
    (operand : f.operands w = [lower.headD x]) {values : List UInt64} (switch : f.inst w = .switch values)
    {lhs : Expression} (expr : f.exprOf lower = some lhs) {value : UInt64} (isCase : value ∈ values) :
    .arith .eq lhs (.constant value) ∈ b.results := by
  rw [walks, Option.bind_eq_bind, Option.bind_eq_some_iff] at walked
  obtain ⟨aliases, -, run⟩ := walked
  -- each walk starts with nothing visited
  have one : ∀ u, ∀ c c' : Builder ν,
      buildPreds f.toUseGraph f.fuel u { c with visited := [] } = some c' → Recorded f.toUseGraph [u] c c' := by
    intro u c c' walk
    have walked := recorded_of_buildPreds f.fuel walk
    exact ⟨walked.path, walked.kept, walked.cases⟩
  have recorded := Recorded.foldlM (g := f.toUseGraph) (b := .empty) f.users (by
    intro v _ c c' path run
    have each := Recorded.foldlM (g := f.toUseGraph) (fun u => [u])
      (fun u _ d d' _ walk => one u d d' walk) run
    rwa [List.flatMap_singleton'] at each) run
  obtain ⟨u, use, leads⟩ := leads_of_operators operators operand
  have start : u ∈ (arrange (aliases.insert x)).flatMap f.users :=
    List.mem_flatMap.mpr ⟨x, (perm _).mem_iff.mpr List.mem_insert_self, use⟩
  exact recorded.cases u start w lower values lhs leads switch expr value isCase

end SSA

/-! ## Tests in a function -/

/-- The test decides a branch on the value `x`, or is a case of a switch on it.  The operators before the comparison
    are given from the last one on. -/
inductive SSA.Tests {ν : Type} (f : SSA ν) (x : ν) (t : Test n) : Prop where
  | branch (w c : ν) (lower : List ν) (isBranch : f.inst w = .branch) (condition : f.operands w = [c])
      (operand : f.operands c = [lower.headD x]) (operators : f.Operators x lower)
      (along : (c :: lower).reverse.map f.inst = t.chain.instructions)
  | switch (w : ν) (lower : List ν) (values : List UInt64) (isSwitch : f.inst w = .switch values)
      (operand : f.operands w = [lower.headD x]) (operators : f.Operators x lower)
      (along : lower.reverse.map f.inst = t.chain.instructions.dropLast) (plain : t.negated = false)
      (isCase : zExt t.const ∈ values)

theorem Masking.ends_onto (m : Masking n) (rest : Chain n.width) :
    (∃ front, (m.onto rest).instructions = front ++ rest.instructions) ∧
      ∃ front, (m.onto rest).steps = front ++ rest.steps := by
  obtain ⟨shift, mask, side⟩ := m
  cases shift with
  | none => exact ⟨⟨[_], rfl⟩, ⟨[_], rfl⟩⟩
  | left s => exact ⟨⟨[_, _], rfl⟩, ⟨[_, _], rfl⟩⟩
  | right s => exact ⟨⟨[_, _], rfl⟩, ⟨[_, _], rfl⟩⟩

namespace Test

variable (t : Test n)

/-- The comparison is the last instruction of a test. -/
theorem instructions_chain : ∃ predicate op1 op2, hasConstant op1 op2 = true ∧
    t.chain.instructions = t.chain.instructions.dropLast ++ [.icmp predicate op1 op2] := by
  have last : ∃ predicate op1 op2, hasConstant op1 op2 = true ∧
      t.comparison.instructions = [.icmp predicate op1 op2] := by
    refine ⟨_, _, _, ?_, rfl⟩
    cases t.side with
    | left => rfl
    | right => rfl
  obtain ⟨predicate, op1, op2, constant, comparison⟩ := last
  refine ⟨predicate, op1, op2, constant, ?_⟩
  unfold chain
  cases t.masking with
  | none => simp only [comparison, List.dropLast_singleton, List.nil_append]
  | some m =>
    obtain ⟨front, split⟩ := (m.ends_onto t.comparison).1
    simp only [split, comparison, List.dropLast_concat]

theorem steps_chain (plain : t.negated = false) :
    t.chain.steps = t.chain.steps.dropLast ++ [(.eq, zExt t.const)] := by
  have comparison : t.comparison.steps = [(.eq, zExt t.const)] := by
    rw [Test.comparison, plain]
    rfl
  unfold chain
  cases t.masking with
  | none => simp only [comparison, List.dropLast_singleton, List.nil_append]
  | some m =>
    obtain ⟨front, split⟩ := (m.ends_onto t.comparison).2
    simp only [split, comparison, List.dropLast_concat]

end Test

namespace SSA

variable {ν : Type} [Fintype ν] [DecidableEq ν] {f : SSA ν} {x : ν} {t : Test n} {arrange : List ν → List ν}

theorem buildConstraints_of_branch (perm : ∀ l, (arrange l).Perm l) (isRead : f.inst x = .other) {w c : ν}
    {lower : List ν} (isBranch : f.inst w = .branch) (condition : f.operands w = [c])
    (operand : f.operands c = [lower.headD x]) (operators : f.Operators x lower)
    (along : (c :: lower).reverse.map f.inst = t.chain.instructions) :
    ∃ results, f.buildConstraints arrange x = some results ∧ t.expr ∈ results := by
  have expr : f.exprOf (c :: lower) = some t.expr := by
    have built := Chain.buildPredExprTopDown_eq (g := f.toUseGraph) along []
    rw [List.reverse_reverse] at built
    rw [UseGraph.exprOf, built, Test.expr]
  have comparison : ∃ predicate op1 op2, f.inst c = .icmp predicate op1 op2 ∧ hasConstant op1 op2 = true := by
    obtain ⟨predicate, op1, op2, constant, split⟩ := t.instructions_chain
    rw [split, List.reverse_cons, List.map_append] at along
    have last := List.append_inj_right' along rfl
    exact ⟨predicate, op1, op2, by simpa using last, constant⟩
  let branch : BranchCondition ν := ⟨f, x, w, .leaf c lower, isRead, isBranch, condition, comparison, operand, operators⟩
  obtain ⟨results, built, found⟩ := branch.kept_of_agree ⟨t.expr, by simpa [CondTree.paths, branch] using expr⟩ arrange perm
  obtain ⟨e, here, member⟩ := found (c :: lower) (List.mem_singleton_self _)
  rw [expr, Option.some.injEq] at here
  exact ⟨results, built, here ▸ member⟩

theorem buildConstraints_of_switch (perm : ∀ l, (arrange l).Perm l) {w : ν} {lower : List ν} {values : List UInt64}
    (isSwitch : f.inst w = .switch values) (operand : f.operands w = [lower.headD x]) (operators : f.Operators x lower)
    (along : lower.reverse.map f.inst = t.chain.instructions.dropLast) (plain : t.negated = false)
    (isCase : zExt t.const ∈ values) : ∃ results, f.buildConstraints arrange x = some results ∧ t.expr ∈ results := by
  have isSteps : lower.map (fun v => (f.inst v).step?) = t.chain.steps.dropLast.reverse.map some := by
    have known := congrArg (List.map Instruction.step?) along
    rw [List.map_map, List.map_dropLast, t.chain.step?_instructions, ← List.map_dropLast] at known
    rw [List.map_reverse, ← known, ← List.map_reverse, List.reverse_reverse]
    rfl
  have expr : f.exprOf lower = some (applySteps .hwInput t.chain.steps.dropLast) := by
    rw [UseGraph.exprOf, buildPredExprTopDown_foldr isSteps, List.foldr_reverse]
    rfl
  have whole : t.expr = .arith .eq (applySteps .hwInput t.chain.steps.dropLast) (.constant (zExt t.const)) := by
    rw [Test.expr, t.steps_chain plain]
    simp [applySteps]
  obtain ⟨b, -, walked, -⟩ := f.walks_spec perm x
  refine ⟨_, by rw [buildConstraints, walked, Option.map_some], List.mem_append_left _ ?_⟩
  rw [whole]
  exact f.mem_results_of_switch perm walked operators operand isSwitch expr isCase

theorem buildConstraints_of_tests (perm : ∀ l, (arrange l).Perm l) (isRead : f.inst x = .other)
    (tests : f.Tests x t) : ∃ results, f.buildConstraints arrange x = some results ∧ t.expr ∈ results := by
  cases tests with
  | branch w c lower isBranch condition operand operators along =>
    exact buildConstraints_of_branch perm isRead isBranch condition operand operators along
  | switch w lower values isSwitch operand operators along plain isCase =>
    exact buildConstraints_of_switch perm isSwitch operand operators along plain isCase

end SSA

end DevFuzz.Analysis
