import DevFuzz.Analysis.Chains
import DevFuzz.Lib.Search
import Mathlib.Data.Finset.Lattice.Fold
import Mathlib.Order.Lattice.Nat
import Mathlib.Logic.Relation

/-! # The walks of `buildConstraints`

`FieldConstraintBuilder::buildConstraints` starts `buildPreds` at the uses of a hardware
input and of its aliases.  `buildPreds_spec` says what a walk does to the tables, for
any uses without a cycle but through a PHI, and that it comes to an end; `walks_spec`
says the same of all walks together.
-/

namespace DevFuzz.Analysis

open DevFuzz.Lib Relation

/-! ## Functions -/

/-- The uses in a function: they have no cycle but through a PHI. -/
structure SSA (ν : Type) extends UseGraph ν where
  operands : ν → List ν
  users_iff : ∀ v u, u ∈ users v ↔ v ∈ operands u
  rank : ν → Nat
  rank_lt : ∀ v u, u ∈ users v → inst v ≠ .phi → inst u ≠ .phi → rank u < rank v

namespace SSA

variable {ν : Type} [Fintype ν] (f : SSA ν)

def maxRank : Nat := Finset.univ.sup f.rank

/-- How deep the calls go before the next PHI. -/
def depth (v : ν) : Nat := if f.inst v = .phi then 0 else f.rank v + 1

/-- Enough for a walk that enters each PHI once. -/
def fuel : Nat := Fintype.card ν * (f.maxRank + 2) + f.maxRank + 2

variable [DecidableEq ν]

def aliasing : Walker ν Unit (List ν) where
  visit v _ aliases := v :: aliases
  next v _ := ((f.users v).filter fun u => f.inst u = .cast ∨ f.inst u = .phi).map fun u => (u, ())

def collectValueAlias (v : ν) : Option (List ν) := (f.aliasing.run (Fintype.card ν + 1) (v, ()) ([], [])).map (·.2)

/-- The walks from the uses of the aliases.  The order in which a set of pointers is gone through is
    that of the addresses: any arrangement. -/
def walks (arrange : List ν → List ν) (hwInputSrc : ν) : Option (Builder ν) := do
  let aliases ← f.collectValueAlias hwInputSrc
  (arrange (aliases.insert hwInputSrc)).foldlM (fun b v =>
    (f.users v).foldlM (fun b u => buildPreds f.toUseGraph f.fuel u { b with visited := [] }) b) Builder.empty

def buildConstraints (arrange : List ν → List ν) (hwInputSrc : ν) : Option (List Expression) :=
  (f.walks arrange hwInputSrc).map fun b => b.results ++ b.preds.entries.map Sigma.snd

end SSA

/-! ## Steps of the walk -/

/-- `buildPreds` goes on to the users. -/
def Instruction.followed : Instruction → Bool
  | binary opcode op1 op2 => hasConstant op1 op2 || opcode == .and || opcode == .or
  | icmp _ op1 op2 => hasConstant op1 op2
  | phi | cast => true
  | branch | switch _ | other => false

namespace UseGraph

variable {ν : Type} (g : UseGraph ν)

def pass (v : ν) (path : List ν) : List ν := if (g.inst v).pushed then v :: path else path

/-- From an instruction, with a path, to a user. -/
def Step (s t : ν × List ν) : Prop :=
  (g.inst s.1).followed = true ∧ t.1 ∈ g.users s.1 ∧ t.2 = g.pass s.1 s.2

/-- A step that does not depend on what has been visited. -/
def PlainStep (s t : ν × List ν) : Prop := g.inst s.1 ≠ .phi ∧ g.Step s t

def Leads : ν × List ν → ν × List ν → Prop := ReflTransGen g.Step

def LeadsPlain : ν × List ν → ν × List ν → Prop := ReflTransGen g.PlainStep

/-- The expression of a path. -/
def exprOf (path : List ν) : Option Expression := (buildPredExprTopDown g path []).1

variable {g}

/-- A plain walk does not go on from a PHI, nor from an instruction that is not followed. -/
theorem LeadsPlain.stays {s t : ν × List ν} (leads : g.LeadsPlain s t)
    (stops : g.inst s.1 = .phi ∨ (g.inst s.1).followed = false) : t = s := by
  cases leads.cases_head with
  | inl same => exact same.symm
  | inr step =>
    obtain ⟨_, ⟨notPhi, followed, -⟩, -⟩ := step
    have notFollowed := stops.resolve_left notPhi
    rw [notFollowed] at followed
    cases followed

theorem pass_of_pushed {v : ν} (pushed : (g.inst v).pushed = true) (path : List ν) : g.pass v path = v :: path :=
  if_pos pushed

theorem pass_of_notPushed {v : ν} (notPushed : (g.inst v).pushed = false) (path : List ν) : g.pass v path = path := by
  rw [pass, notPushed]
  rfl

theorem fst_buildPredExprTopDown (path : List ν) (results : List Expression) :
    (buildPredExprTopDown g path results).1 = g.exprOf path := by
  unfold exprOf
  induction path with
  | nil => rfl
  | cons v lower ih =>
    have same : ∀ r : List Expression, (buildPredExprTopDown g (v :: lower) r).1 =
        (g.inst v).step?.bind fun step =>
          (buildPredExprTopDown g lower r).1.map fun left => .arith step.1 left (.constant step.2) := by
      intro r
      rw [buildPredExprTopDown]
      cases g.inst v with
      | switch cases =>
        simp only
        cases buildPredExprTopDown g lower r with
        | mk expr rest => cases expr <;> rfl
      | binary | icmp | branch | phi | cast | other =>
        simp only
        cases Instruction.step? _ with
        | none => rfl
        | some step =>
          cases buildPredExprTopDown g lower r with
          | mk expr rest => cases expr <;> rfl
    rw [same, same, ih]

theorem snd_buildPredExprTopDown {path : List ν} (onPath : ∀ v ∈ path, (g.inst v).pushed = true)
    (results : List Expression) : (buildPredExprTopDown g path results).2 = results := by
  induction path with
  | nil => rfl
  | cons v lower ih =>
    have below := ih fun u member => onPath u (List.mem_cons_of_mem v member)
    have here := onPath v List.mem_cons_self
    rw [buildPredExprTopDown]
    cases inst : g.inst v with
    | switch cases => simp [inst, Instruction.pushed] at here
    | binary | icmp | branch | phi | cast | other =>
      simp only
      cases Instruction.step? _ with
      | none => rfl
      | some step =>
        simp only
        cases pair : buildPredExprTopDown g lower results with
        | mk expr rest =>
          rw [pair] at below
          cases expr with
          | none => exact below
          | some left => exact below

end UseGraph

/-! ## What a walk does -/

section

variable {ν : Type} [DecidableEq ν] (g : UseGraph ν)

/-- The walks from `us`, all with the same path, turn `b` into `b'`: nothing is dropped from `preds`, a new
    expression is that of a path to its branch, results come from switches, and the branches at the end of
    plain paths get an expression. -/
structure Walked (us : List ν) (b b' : Builder ν) : Prop where
  path : b'.path = b.path
  kept : ∀ w, (b.preds.lookup w).isSome → (b'.preds.lookup w).isSome
  stems : ∀ w e, b'.preds.lookup w = some e → b.preds.lookup w = some e ∨
    ∃ u ∈ us, ∃ q, g.Leads (u, b.path) (w, q) ∧ g.inst w = .branch ∧ g.exprOf q = some e
  results : ∀ e ∈ b'.results, e ∈ b.results ∨
    ∃ u ∈ us, ∃ w q cases, g.Leads (u, b.path) (w, q) ∧ g.inst w = .switch cases
  stored : ∀ u ∈ us, ∀ w q, g.LeadsPlain (u, b.path) (w, q) → g.inst w = .branch → (g.exprOf q).isSome →
    (b'.preds.lookup w).isSome

variable {g} {us vs : List ν} {v : ν} {b b' b'' : Builder ν}

theorem Walked.nil (visited : List ν) : Walked g [] b { b with visited := visited } where
  path := rfl
  kept := fun _ present => present
  stems := fun _ _ found => .inl found
  results := fun _ member => .inl member
  stored := nofun

theorem Walked.append (first : Walked g us b b') (second : Walked g vs b' b'') : Walked g (us ++ vs) b b'' where
  path := second.path.trans first.path
  kept := fun w present => second.kept w (first.kept w present)
  stems := by
    intro w e found
    cases second.stems w e found with
    | inr later =>
      obtain ⟨u, member, q, leads, rest⟩ := later
      exact .inr ⟨u, List.mem_append_right us member, q, first.path ▸ leads, rest⟩
    | inl found =>
      cases first.stems w e found with
      | inl old => exact .inl old
      | inr new =>
        obtain ⟨u, member, rest⟩ := new
        exact .inr ⟨u, List.mem_append_left vs member, rest⟩
  results := by
    intro e member
    cases second.results e member with
    | inr later =>
      obtain ⟨u, member, w, q, cases, leads, rest⟩ := later
      exact .inr ⟨u, List.mem_append_right us member, w, q, cases, first.path ▸ leads, rest⟩
    | inl member =>
      cases first.results e member with
      | inl old => exact .inl old
      | inr new =>
        obtain ⟨u, member, rest⟩ := new
        exact .inr ⟨u, List.mem_append_left vs member, rest⟩
  stored := by
    intro u member w q leads branch expr
    cases List.mem_append.mp member with
    | inl member => exact second.kept w (first.stored u member w q leads branch expr)
    | inr member => exact second.stored u member w q (first.path.symm ▸ leads) branch expr

/-- From the users of an instruction to the instruction itself. -/
theorem Walked.through (walked : Walked g (g.users v) b' b'') (followed : (g.inst v).followed = true)
    (path : b'.path = g.pass v b.path) (preds : b'.preds = b.preds) (results : b'.results = b.results)
    {last : Builder ν} (lastPath : last.path = b.path) (lastPreds : last.preds = b''.preds)
    (lastResults : last.results = b''.results) : Walked g [v] b last where
  path := lastPath
  kept := fun w present => lastPreds ▸ walked.kept w (preds ▸ present)
  stems := by
    intro w e found
    rw [lastPreds] at found
    cases walked.stems w e found with
    | inl old => exact .inl (preds ▸ old)
    | inr new =>
      obtain ⟨u, use, q, leads, rest⟩ := new
      exact .inr ⟨v, List.mem_singleton_self v, q, .head ⟨followed, use, path⟩ leads, rest⟩
  results := by
    intro e member
    rw [lastResults] at member
    cases walked.results e member with
    | inl old => exact .inl (results ▸ old)
    | inr new =>
      obtain ⟨u, use, w, q, cases, leads, rest⟩ := new
      exact .inr ⟨v, List.mem_singleton_self v, w, q, cases, .head ⟨followed, use, path⟩ leads, rest⟩
  stored := by
    intro u member w q leads branch expr
    obtain rfl := List.mem_singleton.mp member
    cases leads.cases_head with
    | inl stays =>
      -- a branch is not followed
      obtain ⟨rfl, rfl⟩ := Prod.mk.inj stays
      rw [branch] at followed
      cases followed
    | inr step =>
      obtain ⟨⟨user, path'⟩, ⟨-, -, use, passed⟩, leads⟩ := step
      have same : path' = b'.path := passed.trans path.symm
      rw [lastPreds]
      exact walked.stored user use w q (same ▸ leads) branch expr

/-- An instruction at which the walk ends without a sink. -/
theorem Walked.ends (stops : g.inst v = .phi ∨ (g.inst v).followed = false) (notBranch : g.inst v ≠ .branch) :
    Walked g [v] b b where
  path := rfl
  kept := fun _ present => present
  stems := fun _ _ found => .inl found
  results := fun _ member => .inl member
  stored := by
    intro u member w q leads branch
    obtain rfl := List.mem_singleton.mp member
    obtain ⟨rfl, -⟩ := Prod.mk.inj (leads.stays stops)
    exact absurd branch notBranch

theorem Walked.atBranch (branch : g.inst v = .branch) (onPath : ∀ u ∈ b.path, (g.inst u).pushed = true) :
    Walked g [v] b (b.atBranch g v) := by
  have stops : (g.inst v).followed = false := by rw [branch]; rfl
  have expr := UseGraph.fst_buildPredExprTopDown (g := g) b.path b.results
  have results := UseGraph.snd_buildPredExprTopDown onPath b.results
  have only : ∀ w q, g.LeadsPlain (v, b.path) (w, q) → w = v ∧ q = b.path := fun w q leads =>
    Prod.mk.inj (leads.stays (.inr stops))
  unfold Builder.atBranch
  cases pair : buildPredExprTopDown g b.path b.results with
  | mk found rest =>
    rw [pair] at expr results
    cases found with
    | none =>
      -- without an expression nothing is stored
      refine ⟨rfl, fun _ present => present, fun _ _ found => .inl found, fun e member => .inl (results ▸ member), ?_⟩
      intro u member w q leads _ isExpr
      obtain rfl := List.mem_singleton.mp member
      obtain ⟨rfl, rfl⟩ := only w q leads
      rw [← expr] at isExpr
      cases isExpr
    | some e =>
      refine ⟨rfl, ?_, ?_, fun e member => .inl (results ▸ member), ?_⟩
      · intro w present
        by_cases here : w = v
        · rw [here, AList.lookup_insert]
          rfl
        · rw [AList.lookup_insert_ne here]
          exact present
      · intro w e' found
        by_cases here : w = v
        · subst here
          rw [AList.lookup_insert] at found
          exact .inr ⟨w, List.mem_singleton_self w, b.path, .refl, branch, expr.symm.trans found⟩
        · rw [AList.lookup_insert_ne here] at found
          exact .inl found
      · intro u member w q leads _ _
        obtain rfl := List.mem_singleton.mp member
        obtain ⟨rfl, rfl⟩ := only w q leads
        rw [AList.lookup_insert]
        rfl

theorem Builder.atBranch_visited (b : Builder ν) (v : ν) : (b.atBranch g v).visited = b.visited := by
  rw [atBranch]
  split <;> rfl

theorem Walked.atSwitch {cases : List UInt64} (switch : g.inst v = .switch cases) :
    Walked g [v] b (b.atSwitch g v) where
  path := rfl
  kept := fun _ present => present
  stems := fun _ _ found => .inl found
  results := fun _ _ => .inr ⟨v, List.mem_singleton_self v, v, b.path, cases, .refl, switch⟩
  stored := by
    intro u member w q leads branch
    obtain rfl := List.mem_singleton.mp member
    have stops : (g.inst u).followed = false := by rw [switch]; rfl
    obtain ⟨rfl, -⟩ := Prod.mk.inj (leads.stays (.inr stops))
    rw [switch] at branch
    cases branch

/-- A loop over `us` that walks from `starts u` for each of them, with an invariant. -/
theorem Walked.foldlM {I : Builder ν → Prop} {starts : ν → List ν} {walk : Builder ν → ν → Option (Builder ν)}
    (initial : I b) (step : ∀ u ∈ us, ∀ c, c.path = b.path → I c →
      ∃ c', walk c u = some c' ∧ I c' ∧ Walked g (starts u) c c') :
    ∃ b', us.foldlM walk b = some b' ∧ I b' ∧ Walked g (us.flatMap starts) b b' := by
  induction us generalizing b with
  | nil => exact ⟨b, rfl, initial, .nil b.visited⟩
  | cons u us ih =>
    obtain ⟨b', first, inv, walked⟩ := step u List.mem_cons_self b rfl initial
    obtain ⟨b'', later, inv', walked'⟩ := ih inv fun u' member c path =>
      step u' (List.mem_cons_of_mem u member) c (path.trans walked.path)
    refine ⟨b'', ?_, inv', walked.append walked'⟩
    rw [List.foldlM_cons, first]
    exact later

/-- There is a result, and the visited values have only become more. -/
def Walks (g : UseGraph ν) (us : List ν) (b : Builder ν) (result : Option (Builder ν)) : Prop :=
  ∃ b', result = some b' ∧ b'.visited.Nodup ∧ b.visited ⊆ b'.visited ∧ Walked g us b b'

theorem Walks.foldlM {walk : Builder ν → ν → Option (Builder ν)} (nodup : b.visited.Nodup)
    (step : ∀ u ∈ us, ∀ c, c.path = b.path → c.visited.Nodup → b.visited ⊆ c.visited → Walks g [u] c (walk c u)) :
    Walks g us b (us.foldlM walk b) := by
  have each : ∀ u ∈ us, ∀ c, c.path = b.path → c.visited.Nodup ∧ b.visited ⊆ c.visited →
      ∃ c', walk c u = some c' ∧ (c'.visited.Nodup ∧ b.visited ⊆ c'.visited) ∧ Walked g [u] c c' := by
    intro u member c path inv
    obtain ⟨c', result, nodup', more, walked⟩ := step u member c path inv.1 inv.2
    exact ⟨c', result, ⟨nodup', List.Subset.trans inv.2 more⟩, walked⟩
  obtain ⟨b', result, inv, walked⟩ := Walked.foldlM ⟨nodup, List.Subset.refl _⟩ each
  rw [List.flatMap_singleton'] at walked
  exact ⟨b', result, inv.1, inv.2, walked⟩

/-! ## The walk of `buildPreds` -/

theorem Instruction.passed_cases {inst : Instruction} (followed : inst.followed = true) (notPushed : inst.pushed = false)
    (notPhi : inst ≠ .phi) :
    inst = .cast ∨ ∃ opcode op1 op2, inst = .binary opcode op1 op2 ∧ hasConstant op1 op2 = false ∧
      (opcode = .and ∨ opcode = .or) := by
  cases inst with
  | binary opcode op1 op2 =>
    simp only [Instruction.followed, Instruction.pushed] at followed notPushed
    simp only [notPushed, Bool.false_or, Bool.or_eq_true, beq_iff_eq] at followed
    exact .inr ⟨opcode, op1, op2, rfl, notPushed, followed⟩
  | icmp predicate op1 op2 => exact absurd followed (Bool.eq_false_iff.mp notPushed)
  | phi => exact absurd rfl notPhi
  | cast => exact .inl rfl
  | branch | switch | other => cases followed

theorem Instruction.unfollowed_cases {inst : Instruction} (stops : inst.followed = false) (notBranch : inst ≠ .branch)
    (notSwitch : ∀ cases, inst ≠ .switch cases) :
    inst = .other ∨
      (∃ opcode op1 op2, inst = .binary opcode op1 op2 ∧ hasConstant op1 op2 = false ∧ ¬ (opcode = .and ∨ opcode = .or)) ∨
        ∃ predicate op1 op2, inst = .icmp predicate op1 op2 ∧ hasConstant op1 op2 = false := by
  cases inst with
  | binary opcode op1 op2 =>
    simp only [Instruction.followed, Bool.or_eq_false_iff, beq_eq_false_iff_ne] at stops
    exact .inr (.inl ⟨opcode, op1, op2, rfl, stops.1.1, not_or.mpr ⟨stops.1.2, stops.2⟩⟩)
  | icmp predicate op1 op2 => exact .inr (.inr ⟨predicate, op1, op2, rfl, stops⟩)
  | other => exact .inl rfl
  | branch => exact absurd rfl notBranch
  | switch cases => exact absurd rfl (notSwitch cases)
  | phi | cast => cases stops

theorem buildPreds_passed (followed : (g.inst v).followed = true) (notPushed : (g.inst v).pushed = false)
    (notPhi : g.inst v ≠ .phi) (fuel : Nat) (b : Builder ν) :
    buildPreds g (fuel + 1) v b = (g.users v).foldlM (fun b u => buildPreds g fuel u b) b := by
  rw [buildPreds]
  obtain inst | ⟨_, _, _, inst, constant, logical⟩ := Instruction.passed_cases followed notPushed notPhi
  · rw [inst]
  · simp only [inst, constant, Bool.false_eq_true, if_false, if_pos logical]

theorem buildPreds_unfollowed (stops : (g.inst v).followed = false) (notBranch : g.inst v ≠ .branch)
    (notSwitch : ∀ cases, g.inst v ≠ .switch cases) (fuel : Nat) (b : Builder ν) :
    buildPreds g (fuel + 1) v b = some b := by
  rw [buildPreds]
  obtain inst | ⟨_, _, _, inst, constant, other⟩ | ⟨_, _, _, inst, constant⟩ :=
    Instruction.unfollowed_cases stops notBranch notSwitch
  · rw [inst]
  · simp only [inst, constant, Bool.false_eq_true, if_false, if_neg other]
  · simp only [inst, constant, Bool.false_eq_true, if_false]

end

namespace SSA

variable {ν : Type} [Fintype ν] (f : SSA ν)

theorem depth_le (v : ν) : f.depth v ≤ f.maxRank + 1 := by
  have bound : f.rank v ≤ f.maxRank := Finset.le_sup (Finset.mem_univ v)
  unfold depth
  split_ifs
  · omega
  · omega

omit [Fintype ν] in
theorem depth_lt {v u : ν} (use : u ∈ f.users v) (notPhi : f.inst v ≠ .phi) : f.depth u < f.depth v := by
  unfold depth
  rw [if_neg notPhi]
  split_ifs with phi
  · omega
  · have := f.rank_lt v u use notPhi phi
    omega

variable [DecidableEq ν]

/-- How much fuel a walk from `v` needs: a PHI that has not been entered pays for any depth. -/
def budget (visited : List ν) (v : ν) : Nat := (Fintype.card ν - visited.length) * (f.maxRank + 2) + f.depth v

omit [DecidableEq ν] in
theorem budget_user {v u : ν} (use : u ∈ f.users v) (notPhi : f.inst v ≠ .phi) (visited : List ν) :
    f.budget visited u < f.budget visited v :=
  Nat.add_lt_add_left (f.depth_lt use notPhi) _

omit [DecidableEq ν] in
theorem budget_visit {visited : List ν} {v : ν} (nodup : (v :: visited).Nodup) (u : ν) :
    f.budget (v :: visited) u < f.budget visited v := by
  have room := nodup.length_le_card
  rw [List.length_cons] at room
  obtain ⟨left, total⟩ := Nat.exists_eq_add_of_le room
  have before : Fintype.card ν - visited.length = left + 1 := by omega
  have after : Fintype.card ν - (visited.length + 1) = left := by omega
  have bound := f.depth_le u
  rw [budget, budget, List.length_cons, before, after, Nat.succ_mul]
  omega

omit [DecidableEq ν] in
theorem budget_subset {visited visited' : List ν} (nodup : visited.Nodup) (more : visited ⊆ visited') (u : ν) :
    f.budget visited' u ≤ f.budget visited u := by
  have longer : visited.length ≤ visited'.length := (List.Nodup.subperm nodup more).length_le
  have fewer := Nat.mul_le_mul_right (f.maxRank + 2) (Nat.sub_le_sub_left longer (Fintype.card ν))
  exact Nat.add_le_add_right fewer _

omit [DecidableEq ν] in
theorem budget_lt_fuel (visited : List ν) (u : ν) : f.budget visited u < f.fuel := by
  have bound := f.depth_le u
  have fewer := Nat.mul_le_mul_right (f.maxRank + 2) (Nat.sub_le (Fintype.card ν) visited.length)
  unfold budget fuel
  omega

omit [Fintype ν] in
/-- The walk ends at what is not followed, and treats a sink. -/
theorem walks_unfollowed {v : ν} {b : Builder ν} (stops : (f.inst v).followed = false) (nodup : b.visited.Nodup)
    (onPath : ∀ u ∈ b.path, (f.inst u).pushed = true) (fuel : Nat) :
    Walks f.toUseGraph [v] b (buildPreds f.toUseGraph (fuel + 1) v b) := by
  cases inst : f.inst v with
  | branch =>
    rw [buildPreds, inst]
    refine ⟨b.atBranch f.toUseGraph v, rfl, ?_, ?_, .atBranch inst onPath⟩
    · rwa [Builder.atBranch_visited]
    · rw [Builder.atBranch_visited]
      exact List.Subset.refl _
  | switch cases =>
    rw [buildPreds, inst]
    exact ⟨b.atSwitch f.toUseGraph v, rfl, nodup, List.Subset.refl _, .atSwitch inst⟩
  | binary | icmp | phi | cast | other =>
    have notBranch : f.inst v ≠ .branch := by simp [inst]
    have notSwitch : ∀ cases, f.inst v ≠ .switch cases := by simp [inst]
    exact ⟨b, buildPreds_unfollowed stops notBranch notSwitch fuel b, nodup, List.Subset.refl _,
      .ends (.inr stops) notBranch⟩

omit [DecidableEq ν] in
/-- What holds where a walk stops, and of a value once it holds of its users, holds of every walk with enough
    fuel.  At a user, `more` is what has been visited by then. -/
theorem walk_induction {C : Nat → List ν → ν → Prop}
    (unfollowed : ∀ fuel visited v, visited.Nodup → (f.inst v).followed = false → C (fuel + 1) visited v)
    (old : ∀ fuel visited v, visited.Nodup → f.inst v = .phi → v ∈ visited → C (fuel + 1) visited v)
    (new : ∀ fuel visited v, (v :: visited).Nodup → f.inst v = .phi → v ∉ visited →
      (∀ u ∈ f.users v, ∀ more, more.Nodup → v :: visited ⊆ more → C fuel more u) → C (fuel + 1) visited v)
    (plain : ∀ fuel visited v, visited.Nodup → f.inst v ≠ .phi → (f.inst v).followed = true →
      (∀ u ∈ f.users v, ∀ more, more.Nodup → visited ⊆ more → C fuel more u) → C (fuel + 1) visited v)
    (fuel : Nat) {visited : List ν} {v : ν} (nodup : visited.Nodup) (enough : f.budget visited v < fuel) :
    C fuel visited v := by
  induction fuel generalizing visited v with
  | zero => omega
  | succ fuel ih =>
    -- what is left is enough for a walk from any of the users, since no visit is forgotten
    have users {now : List ν} (nodup' : now.Nodup) (lower : ∀ u ∈ f.users v, f.budget now u < f.budget visited v) :
        ∀ u ∈ f.users v, ∀ more, more.Nodup → now ⊆ more → C fuel more u := by
      intro u use more nodup'' subset
      have := lower u use
      have := f.budget_subset nodup' subset u
      exact ih nodup'' (by omega)
    by_cases followed : (f.inst v).followed = true
    · by_cases phi : f.inst v = .phi
      · by_cases entered : v ∈ visited
        · exact old fuel visited v nodup phi entered
        · have nodup' : (v :: visited).Nodup := List.nodup_cons.mpr ⟨entered, nodup⟩
          exact new fuel visited v nodup' phi entered (users nodup' fun u _ => f.budget_visit nodup' u)
      · exact plain fuel visited v nodup phi followed (users nodup fun u use => f.budget_user use phi visited)
    · exact unfollowed fuel visited v nodup (Bool.eq_false_iff.mpr followed)

theorem buildPreds_spec (fuel : Nat) {v : ν} {b : Builder ν} (nodup : b.visited.Nodup)
    (onPath : ∀ u ∈ b.path, (f.inst u).pushed = true) (enough : f.budget b.visited v < fuel) :
    Walks f.toUseGraph [v] b (buildPreds f.toUseGraph fuel v b) := by
  refine f.walk_induction (C := fun fuel visited v => ∀ b : Builder ν, b.visited = visited →
    (∀ u ∈ b.path, (f.inst u).pushed = true) → Walks f.toUseGraph [v] b (buildPreds f.toUseGraph fuel v b))
    ?_ ?_ ?_ ?_ fuel nodup enough b rfl onPath
  · rintro fuel _ v nodup stops b rfl onPath
    exact f.walks_unfollowed stops nodup onPath fuel
  · rintro fuel _ v nodup phi old b rfl onPath
    refine ⟨b, ?_, nodup, List.Subset.refl _, .ends (.inl phi) (by simp [phi])⟩
    simp only [buildPreds, phi, if_pos old]
  · rintro fuel _ v nodup phi new ih b rfl onPath
    obtain ⟨b', result, nodup', more, walked⟩ :=
      Walks.foldlM (g := f.toUseGraph) (b := { b with visited := v :: b.visited }) nodup
        fun u use c path nodup' more => ih u use c.visited nodup' more c rfl (path ▸ onPath)
    have followed : (f.inst v).followed = true := by rw [phi]; rfl
    have passed : f.pass v b.path = b.path := UseGraph.pass_of_notPushed (by rw [phi]; rfl) _
    refine ⟨b', ?_, nodup', fun u member => more (List.mem_cons_of_mem v member),
      walked.through followed passed.symm rfl rfl walked.path rfl rfl⟩
    simp only [buildPreds, phi, if_neg new]
    exact result
  · rintro fuel _ v nodup phi followed ih b rfl onPath
    cases pushed : (f.inst v).pushed with
    | true =>
      -- what is pushed before the users is popped behind them
      have onPath' : ∀ u ∈ (b.push v).path, (f.inst u).pushed = true := List.forall_mem_cons.mpr ⟨pushed, onPath⟩
      obtain ⟨b', result, nodup', more, walked⟩ := Walks.foldlM (g := f.toUseGraph) (b := b.push v) nodup
        fun u use c path nodup' more => ih u use c.visited nodup' more c rfl (path ▸ onPath')
      have popped : b'.path.tail = b.path := by
        rw [walked.path]
        rfl
      refine ⟨b'.pop, ?_, nodup', more,
        walked.through followed (UseGraph.pass_of_pushed pushed b.path).symm rfl rfl popped rfl rfl⟩
      rw [buildPreds_pushed pushed]
      exact congrArg (Option.map Builder.pop) result
    | false =>
      obtain ⟨b', result, nodup', more, walked⟩ := Walks.foldlM (g := f.toUseGraph) (b := b) nodup
        fun u use c path nodup' more => ih u use c.visited nodup' more c rfl (path ▸ onPath)
      refine ⟨b', ?_, nodup', more,
        walked.through followed (UseGraph.pass_of_notPushed pushed b.path).symm rfl rfl walked.path rfl rfl⟩
      rw [buildPreds_passed followed pushed phi]
      exact result

/-! ## The walks of `buildConstraints` -/

/-- From a value to a cast or a PHI of it. -/
def AliasStep (v u : ν) : Prop := u ∈ f.users v ∧ (f.inst u = .cast ∨ f.inst u = .phi)

def AliasOf (x a : ν) : Prop := ReflTransGen f.AliasStep x a

/-- The walks come to a value with the path. -/
def Reached (x : ν) (s : ν × List ν) : Prop := ∃ a u, f.AliasOf x a ∧ u ∈ f.users a ∧ f.Leads (u, []) s

theorem collectValueAlias_spec (x : ν) :
    ∃ aliases, f.collectValueAlias x = some aliases ∧ ∀ a ∈ aliases, f.AliasOf x a := by
  obtain ⟨⟨seen, aliases⟩, result, ⟨inv, -⟩, -⟩ := Walker.run_spec (w := f.aliasing) (D := fun v _ => f.AliasOf x v)
    (I := fun _ aliases => ∀ a ∈ aliases, f.AliasOf x a)
    (by
      intro v _ isAlias n member
      obtain ⟨u, use, rfl⟩ := List.mem_map.mp member
      obtain ⟨use, kind⟩ := List.mem_filter.mp use
      exact isAlias.tail ⟨use, of_decide_eq_true kind⟩)
    (fun v _ _ aliases isAlias inv => List.forall_mem_cons.mpr ⟨isAlias, inv⟩)
    (Fintype.card ν + 1) (n := (x, ())) (t := ([], [])) .refl nofun .nil (by simp)
  exact ⟨aliases, by rw [collectValueAlias, result, Option.map_some], inv⟩

theorem walks_spec {arrange : List ν → List ν} (perm : ∀ l, (arrange l).Perm l) (x : ν) :
    ∃ b starts, f.walks arrange x = some b ∧ Walked f.toUseGraph starts .empty b ∧ f.users x ⊆ starts ∧
      ∀ u ∈ starts, ∃ a, f.AliasOf x a ∧ u ∈ f.users a := by
  obtain ⟨aliases, collected, isAlias⟩ := f.collectValueAlias_spec x
  have each : ∀ v ∈ arrange (aliases.insert x), ∀ c : Builder ν, c.path = [] → True →
      ∃ c', (f.users v).foldlM (fun b u => buildPreds f.toUseGraph f.fuel u { b with visited := [] }) c = some c' ∧
        True ∧ Walked f.toUseGraph (f.users v) c c' := by
    intro v _ c path _
    have one : ∀ u ∈ f.users v, ∀ d : Builder ν, d.path = c.path → True →
        ∃ d', buildPreds f.toUseGraph f.fuel u { d with visited := [] } = some d' ∧ True ∧
          Walked f.toUseGraph [u] d d' := by
      intro u _ d path' _
      have onPath : ∀ w ∈ d.path, (f.inst w).pushed = true := by
        rw [path', path]
        exact nofun
      obtain ⟨d', result, -, -, walked⟩ := f.buildPreds_spec f.fuel (v := u) (b := { d with visited := [] }) .nil onPath
        (f.budget_lt_fuel [] u)
      exact ⟨d', result, trivial, (Walked.nil []).append walked⟩
    have whole := Walked.foldlM trivial one
    rwa [List.flatMap_singleton'] at whole
  obtain ⟨b, result, -, walked⟩ := Walked.foldlM (b := .empty) trivial each
  refine ⟨b, _, ?_, walked, ?_, ?_⟩
  · rw [walks, collected]
    exact result
  · intro u use
    exact List.mem_flatMap.mpr ⟨x, (perm _).mem_iff.mpr List.mem_insert_self, use⟩
  · intro u member
    obtain ⟨a, isMember, use⟩ := List.mem_flatMap.mp member
    rw [(perm _).mem_iff, List.mem_insert_iff] at isMember
    cases isMember with
    | inl same => exact ⟨a, same ▸ .refl, use⟩
    | inr member => exact ⟨a, isAlias a member, use⟩

end SSA

end DevFuzz.Analysis
