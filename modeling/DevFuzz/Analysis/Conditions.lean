import DevFuzz.Analysis.Walks

/-! # Conditions of several comparisons

When the condition of a branch is put together from several comparisons with `And` and
`Or`, the walk comes to the branch once for each of them, and `preds` holds one
expression for the branch.  `leavesKept` says for which conditions no comparison is
lost.
-/

namespace DevFuzz.Analysis

open DevFuzz.Lib Relation

/-! ## Conditions -/

/-- A condition: comparisons, each with the operators between the hardware input and it, the last one first,
    put together by `And` and `Or`. -/
inductive CondTree (ν : Type) where
  | leaf (comparison : ν) (lower : List ν)
  | node (v : ν) (left right : CondTree ν)

namespace CondTree

variable {ν : Type}

def root : CondTree ν → ν
  | leaf comparison _ => comparison
  | node v _ _ => v

/-- The paths of the comparisons. -/
def paths : CondTree ν → List (List ν)
  | leaf comparison lower => [comparison :: lower]
  | node _ left right => left.paths ++ right.paths

theorem paths_ne_nil (t : CondTree ν) : t.paths ≠ [] := by
  induction t with
  | leaf => exact List.cons_ne_nil _ _
  | node v left right ihl ihr => exact List.append_ne_nil_of_left_ne_nil ihl _

end CondTree

namespace SSA

variable {ν : Type} (f : SSA ν)

/-- The operators lead from `x` upwards, each with a constant operand. -/
def Operators (x : ν) : List ν → Prop
  | [] => True
  | v :: lower => (∃ opcode op1 op2, f.inst v = .binary opcode op1 op2 ∧ hasConstant op1 op2 = true) ∧
    f.operands v = [lower.headD x] ∧ Operators x lower

def IsTree (x : ν) : CondTree ν → Prop
  | .leaf comparison lower =>
    (∃ predicate op1 op2, f.inst comparison = .icmp predicate op1 op2 ∧ hasConstant op1 op2 = true) ∧
      f.operands comparison = [lower.headD x] ∧ f.Operators x lower
  | .node v left right => (∃ opcode, f.inst v = .binary opcode .value .value ∧ (opcode = .and ∨ opcode = .or)) ∧
    f.operands v = [left.root, right.root] ∧ IsTree x left ∧ IsTree x right

/-- The value is followed, and not as an alias. -/
def Inner (v : ν) : Prop := (f.inst v).followed = true ∧ f.inst v ≠ .cast ∧ f.inst v ≠ .phi

variable {f} {x : ν}

theorem inner_of_pushed {v : ν} (pushed : (f.inst v).pushed = true) : f.Inner v := by
  unfold Inner
  cases inst : f.inst v with
  | binary opcode op1 op2 =>
    rw [inst] at pushed
    have const : hasConstant op1 op2 = true := pushed
    rw [Instruction.followed, const]
    simp
  | icmp predicate op1 op2 =>
    rw [inst] at pushed
    have const : hasConstant op1 op2 = true := pushed
    rw [Instruction.followed, const]
    simp
  | branch | switch | phi | cast | other => simp [inst, Instruction.pushed] at pushed

theorem Operators.pushed {v : ν} {lower : List ν} (operators : f.Operators x (v :: lower)) :
    (f.inst v).pushed = true := by
  obtain ⟨⟨opcode, op1, op2, inst, const⟩, -⟩ := operators
  rw [inst]
  exact const

theorem IsTree.pushed {comparison : ν} {lower : List ν} (isTree : f.IsTree x (.leaf comparison lower)) :
    (f.inst comparison).pushed = true := by
  obtain ⟨⟨predicate, op1, op2, inst, const⟩, -⟩ := isTree
  rw [inst]
  exact const

theorem IsTree.passed {v : ν} {left right : CondTree ν} (isTree : f.IsTree x (.node v left right)) (path : List ν) :
    f.Inner v ∧ f.pass v path = path := by
  obtain ⟨⟨opcode, inst, kind⟩, -⟩ := isTree
  refine ⟨?_, UseGraph.pass_of_notPushed (by rw [inst]; rfl) path⟩
  rw [Inner, inst]
  refine ⟨?_, nofun, nofun⟩
  cases kind with
  | inl kind => rw [kind]; rfl
  | inr kind => rw [kind]; rfl

theorem IsTree.inner {t : CondTree ν} (isTree : f.IsTree x t) : f.Inner t.root := by
  cases t with
  | leaf comparison lower => exact inner_of_pushed isTree.pushed
  | node v left right => exact (isTree.passed []).1

theorem AliasOf.kind {a : ν} (isAlias : f.AliasOf x a) : a = x ∨ f.inst a = .cast ∨ f.inst a = .phi := by
  cases isAlias.cases_tail with
  | inl same => exact .inl same
  | inr step =>
    obtain ⟨_, -, -, kind⟩ := step
    exact .inr kind

/-- A value is reached from one of its operands. -/
theorem Reached.inv {w : ν} {q : List ν} (reached : f.Reached x (w, q)) :
    ∃ v ∈ f.operands w, f.AliasOf x v ∧ q = [] ∨
      ∃ p, f.Reached x (v, p) ∧ (f.inst v).followed = true ∧ q = f.pass v p := by
  obtain ⟨a, u, isAlias, use, leads⟩ := reached
  cases leads.cases_tail with
  | inl same =>
    obtain ⟨rfl, rfl⟩ := Prod.mk.inj same
    exact ⟨a, (f.users_iff a w).mp use, .inl ⟨isAlias, rfl⟩⟩
  | inr step =>
    obtain ⟨⟨v, p⟩, leads, followed, use', passed⟩ := step
    exact ⟨v, (f.users_iff v w).mp use', .inr ⟨p, ⟨a, u, isAlias, use, leads⟩, followed, passed⟩⟩

/-! ### Paths of the walk are paths of the condition -/

section

variable (isRead : f.inst x = .other)

include isRead

theorem Reached.step {w : ν} {q : List ν} (reached : f.Reached x (w, q)) (inner : ∀ v ∈ f.operands w, f.Inner v) :
    ∃ v ∈ f.operands w, ∃ p, f.Reached x (v, p) ∧ q = f.pass v p := by
  obtain ⟨v, member, start | ⟨p, reached, -, passed⟩⟩ := reached.inv
  · obtain ⟨followed, notCast, notPhi⟩ := inner v member
    obtain rfl | cast | phi := start.1.kind
    · rw [isRead] at followed
      cases followed
    · exact absurd cast notCast
    · exact absurd phi notPhi
  · exact ⟨v, member, p, reached, passed⟩

theorem path_of_reached {lower : List ν} (operators : f.Operators x lower) {v : ν} {q : List ν}
    (operand : f.operands v = [lower.headD x]) (reached : f.Reached x (v, q)) : q = lower := by
  induction lower generalizing v q with
  | nil =>
    obtain ⟨u, member, ⟨-, none⟩ | ⟨p, -, followed, -⟩⟩ := reached.inv
    · exact none
    · rw [operand, List.headD_nil, List.mem_singleton] at member
      rw [member, isRead] at followed
      cases followed
  | cons u rest ih =>
    rw [List.headD_cons] at operand
    have pushed := operators.pushed
    obtain ⟨u', member, p, reached', rfl⟩ := reached.step isRead (by simpa [operand] using inner_of_pushed pushed)
    rw [operand, List.mem_singleton] at member
    subst member
    rw [UseGraph.pass_of_pushed pushed, ih operators.2.2 operators.2.1 reached']

theorem pass_mem_paths {t : CondTree ν} (isTree : f.IsTree x t) {q : List ν} (reached : f.Reached x (t.root, q)) :
    f.pass t.root q ∈ t.paths := by
  induction t generalizing q with
  | leaf comparison lower =>
    rw [path_of_reached isRead isTree.2.2 isTree.2.1 reached, CondTree.root, UseGraph.pass_of_pushed isTree.pushed]
    exact List.mem_singleton_self _
  | node v left right ihl ihr =>
    rw [CondTree.root, (isTree.passed q).2, CondTree.paths, List.mem_append]
    obtain ⟨-, operands, isLeft, isRight⟩ := isTree
    have inner : ∀ u ∈ f.operands v, f.Inner u := by
      rw [operands]
      exact List.forall_mem_cons.mpr ⟨isLeft.inner, List.forall_mem_singleton.mpr isRight.inner⟩
    obtain ⟨u, member, p, reached', rfl⟩ := Reached.step isRead (w := v) reached inner
    rw [operands, List.mem_cons, List.mem_singleton] at member
    cases member with
    | inl same => exact .inl (same ▸ ihl isLeft (same ▸ reached'))
    | inr same => exact .inr (same ▸ ihr isRight (same ▸ reached'))

end

/-! ### Paths of the condition are paths of the walk -/

theorem plainStep {v u : ν} (inner : f.Inner v) (operand : v ∈ f.operands u) (path : List ν) :
    f.PlainStep (v, path) (u, f.pass v path) :=
  ⟨inner.2.2, inner.1, (f.users_iff v u).mpr operand, rfl⟩

theorem leads_of_operators {lower : List ν} (operators : f.Operators x lower) {v : ν}
    (operand : f.operands v = [lower.headD x]) : ∃ u ∈ f.users x, f.LeadsPlain (u, []) (v, lower) := by
  induction lower generalizing v with
  | nil => exact ⟨v, (f.users_iff x v).mpr (by simp [operand]), .refl⟩
  | cons w rest ih =>
    obtain ⟨u, use, leads⟩ := ih operators.2.2 operators.2.1
    have step := plainStep (u := v) (inner_of_pushed operators.pushed) (by simp [operand]) rest
    rw [UseGraph.pass_of_pushed operators.pushed] at step
    exact ⟨u, use, leads.tail step⟩

theorem leads_of_mem_paths {t : CondTree ν} (isTree : f.IsTree x t) {path : List ν} (member : path ∈ t.paths) :
    ∃ u ∈ f.users x, ∃ q, f.LeadsPlain (u, []) (t.root, q) ∧ f.pass t.root q = path := by
  induction t with
  | leaf comparison lower =>
    obtain rfl := List.mem_singleton.mp member
    obtain ⟨u, use, leads⟩ := leads_of_operators isTree.2.2 isTree.2.1
    exact ⟨u, use, lower, leads, UseGraph.pass_of_pushed isTree.pushed lower⟩
  | node v left right ihl ihr =>
    have passed := (isTree.passed path).2
    obtain ⟨-, operands, isLeft, isRight⟩ := isTree
    cases List.mem_append.mp member with
    | inl member =>
      obtain ⟨u, use, q, leads, rfl⟩ := ihl isLeft member
      exact ⟨u, use, _, leads.tail (plainStep (u := v) isLeft.inner (by simp [operands]) q), passed⟩
    | inr member =>
      obtain ⟨u, use, q, leads, rfl⟩ := ihr isRight member
      exact ⟨u, use, _, leads.tail (plainStep (u := v) isRight.inner (by simp [operands]) q), passed⟩

end SSA

/-! ## The comparisons that are kept -/

/-- A conditional branch on comparisons of a hardware input. -/
structure BranchCondition (ν : Type) where
  function : SSA ν
  hwInput : ν
  branch : ν
  tree : CondTree ν
  isRead : function.inst hwInput = .other
  isBranch : function.inst branch = .branch
  condition : function.operands branch = [tree.root]
  isTree : function.IsTree hwInput tree

namespace BranchCondition

variable {ν : Type} (c : BranchCondition ν)

/-- The comparisons all have the same expression. -/
def Agree : Prop := ∃ e, ∀ path ∈ c.tree.paths, c.function.exprOf path = some e

/-- The walks end at no other branch, and at no switch. -/
def OnlySink : Prop :=
  ∀ w q, c.function.Reached c.hwInput (w, q) →
    (c.function.inst w = .branch → w = c.branch) ∧ ∀ cases, c.function.inst w ≠ .switch cases

/-- The expression of each comparison is among the results. -/
def LeavesKept [Fintype ν] [DecidableEq ν] : Prop :=
  ∀ arrange : List ν → List ν, (∀ l, (arrange l).Perm l) →
    ∃ results, c.function.buildConstraints arrange c.hwInput = some results ∧
      ∀ path ∈ c.tree.paths, ∃ e, c.function.exprOf path = some e ∧ e ∈ results

variable {c}

theorem mem_paths_of_reached {q : List ν} (reached : c.function.Reached c.hwInput (c.branch, q)) : q ∈ c.tree.paths := by
  obtain ⟨v, member, p, reached', rfl⟩ := reached.step c.isRead (by simpa [c.condition] using c.isTree.inner)
  rw [c.condition, List.mem_singleton] at member
  subst member
  exact SSA.pass_mem_paths c.isRead c.isTree reached'

theorem leads_to_branch {path : List ν} (member : path ∈ c.tree.paths) :
    ∃ u ∈ c.function.users c.hwInput, c.function.LeadsPlain (u, []) (c.branch, path) := by
  obtain ⟨u, use, q, leads, rfl⟩ := SSA.leads_of_mem_paths c.isTree member
  exact ⟨u, use, leads.tail (SSA.plainStep c.isTree.inner (by simp [c.condition]) q)⟩

variable [Fintype ν] [DecidableEq ν]

/-- The walks return, and one of the comparisons stands for the branch. -/
theorem walks_branch {arrange : List ν → List ν} (perm : ∀ l, (arrange l).Perm l) :
    ∃ b, c.function.walks arrange c.hwInput = some b ∧
      (∀ path ∈ c.tree.paths, (c.function.exprOf path).isSome → (b.preds.lookup c.branch).isSome) ∧
      (∀ e, b.preds.lookup c.branch = some e → ∃ path ∈ c.tree.paths, c.function.exprOf path = some e) ∧
      (c.OnlySink → b.results = [] ∧ ∀ w e, b.preds.lookup w = some e → w = c.branch) := by
  obtain ⟨b, starts, result, walked, uses, aliases⟩ := c.function.walks_spec perm c.hwInput
  have reached : ∀ u ∈ starts, ∀ s, c.function.Leads (u, []) s → c.function.Reached c.hwInput s := by
    intro u member s leads
    obtain ⟨a, isAlias, use⟩ := aliases u member
    exact ⟨a, u, isAlias, use, leads⟩
  have stems : ∀ w e, b.preds.lookup w = some e →
      ∃ q, c.function.Reached c.hwInput (w, q) ∧ c.function.inst w = .branch ∧ c.function.exprOf q = some e := by
    intro w e found
    obtain old | ⟨u, member, q, leads, rest⟩ := walked.stems w e found
    · cases old
    · exact ⟨q, reached u member _ leads, rest⟩
  refine ⟨b, result, ?_, ?_, ?_⟩
  · intro path member isExpr
    obtain ⟨u, use, leads⟩ := leads_to_branch member
    exact walked.stored u (uses use) c.branch path leads c.isBranch isExpr
  · intro e found
    obtain ⟨q, reached, -, expr⟩ := stems c.branch e found
    exact ⟨q, mem_paths_of_reached reached, expr⟩
  · intro only
    refine ⟨List.eq_nil_iff_forall_not_mem.mpr fun e member => ?_, fun w e found => ?_⟩
    · obtain old | ⟨u, start, w, q, cases, leads, switch⟩ := walked.results e member
      · cases old
      · exact (only w q (reached u start _ leads)).2 cases switch
    · obtain ⟨q, reached, branch, -⟩ := stems w e found
      exact (only w q reached).1 branch

theorem kept_of_agree (agree : c.Agree) : c.LeavesKept := by
  intro arrange perm
  obtain ⟨e, all⟩ := agree
  obtain ⟨b, result, stored, stems, -⟩ := c.walks_branch perm
  obtain ⟨first, member⟩ := List.exists_mem_of_ne_nil _ c.tree.paths_ne_nil
  obtain ⟨e', found⟩ := Option.isSome_iff_exists.mp (stored first member (by rw [all first member]; rfl))
  obtain ⟨path, member', expr⟩ := stems e' found
  obtain rfl : e = e' := Option.some.inj ((all path member').symm.trans expr)
  refine ⟨_, by rw [SSA.buildConstraints, result, Option.map_some], fun path member => ⟨e, all path member, ?_⟩⟩
  exact List.mem_append_right _ (List.mem_map.mpr ⟨⟨c.branch, e⟩, AList.mem_lookup_iff.mp found, rfl⟩)

theorem agree_of_kept (only : c.OnlySink) (kept : c.LeavesKept) : c.Agree := by
  have unmoved : ∀ l : List ν, (id l).Perm l := fun _ => .refl _
  obtain ⟨b, result, -, -, alone⟩ := c.walks_branch unmoved
  obtain ⟨none, single⟩ := alone only
  obtain ⟨results, built, all⟩ := kept id unmoved
  rw [SSA.buildConstraints, result, Option.map_some, none, List.nil_append] at built
  obtain rfl := Option.some.inj built
  have stored : ∀ path ∈ c.tree.paths, c.function.exprOf path = b.preds.lookup c.branch := by
    intro path member
    obtain ⟨e, expr, result⟩ := all path member
    obtain ⟨⟨w, e'⟩, entry, rfl⟩ := List.mem_map.mp result
    have found : b.preds.lookup w = some e' := AList.mem_lookup_iff.mpr entry
    rw [expr, ← single w e' found, found]
  obtain ⟨first, member⟩ := List.exists_mem_of_ne_nil _ c.tree.paths_ne_nil
  obtain ⟨e, expr, -⟩ := all first member
  exact ⟨e, fun path member' => (stored path member').trans ((stored first member).symm.trans expr)⟩

variable (c) in
/-- The comparisons of a condition are kept if they have the same expression; unless another sink has
    the expressions too, this is the only case. -/
theorem leavesKept : (c.Agree → c.LeavesKept) ∧ (c.OnlySink → (c.LeavesKept ↔ c.Agree)) :=
  ⟨kept_of_agree, fun only => ⟨agree_of_kept only, kept_of_agree⟩⟩

end BranchCondition

/-- The values of `if (x == 1 || x == 2)`. -/
inductive OneOrTwo where
  | x | isOne | isTwo | either | branch
  deriving DecidableEq

instance oneOrTwo_fintype : Fintype OneOrTwo :=
  .ofList [.x, .isOne, .isTwo, .either, .branch] fun v => by cases v <;> decide

def oneOrTwo : BranchCondition OneOrTwo where
  function :=
    { inst
        | .x => .other
        | .isOne => .icmp .eq .value (.constantInt 1)
        | .isTwo => .icmp .eq .value (.constantInt 2)
        | .either => .binary .or .value .value
        | .branch => .branch
      users
        | .x => [.isOne, .isTwo]
        | .isOne => [.either]
        | .isTwo => [.either]
        | .either => [.branch]
        | .branch => []
      operands
        | .x => []
        | .isOne => [.x]
        | .isTwo => [.x]
        | .either => [.isOne, .isTwo]
        | .branch => [.either]
      rank
        | .x => 3
        | .isOne => 2
        | .isTwo => 2
        | .either => 1
        | .branch => 0
      users_iff := by decide
      rank_lt := by decide }
  hwInput := .x
  branch := .branch
  tree := .node .either (.leaf .isOne []) (.leaf .isTwo [])
  isRead := rfl
  isBranch := rfl
  condition := rfl
  isTree := ⟨⟨.or, rfl, .inr rfl⟩, rfl, ⟨⟨.eq, .value, .constantInt 1, rfl, rfl⟩, rfl, trivial⟩,
    ⟨⟨.eq, .value, .constantInt 2, rfl, rfl⟩, rfl, trivial⟩⟩

/-- One of the comparisons is lost. -/
theorem not_leavesKept_oneOrTwo : ¬ oneOrTwo.LeavesKept := by
  intro kept
  have only : oneOrTwo.OnlySink := by
    intro w q _
    cases w with
    | branch => exact ⟨fun _ => rfl, nofun⟩
    | x | isOne | isTwo | either => exact ⟨nofun, nofun⟩
  obtain ⟨e, agree⟩ := BranchCondition.agree_of_kept only kept
  have first := agree [.isOne] (by simp [oneOrTwo, CondTree.paths])
  have second := agree [.isTwo] (by simp [oneOrTwo, CondTree.paths])
  cases first.trans second.symm

end DevFuzz.Analysis
