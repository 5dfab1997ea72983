import DevFuzz.Analysis.Walks
import DevFuzz.Lib.Depth

/-! # The path of `buildPreds`

`buildPreds` keeps the instructions with a constant operand on `path` while it is at their users.
`tracePreds` is `buildPreds` with every call of `buildPredExprTopDown` recorded, together with the
values on the stack of calls of `buildPreds` at that moment.  For uses in which every cycle
comes through a PHI, `buildPreds_balanced` says that the walk ends, that it leaves `path` as it was, and
that each recorded path is what a constant operand has on the stack.
-/

namespace DevFuzz.Analysis

open DevFuzz.Lib Relation

/-! ## The recorded calls -/

/-- A call of `buildPredExprTopDown`.  Of both lists the latest element is the first. -/
structure PredCall (ν : Type) where
  walk : List ν
  path : List ν

structure Traced (ν : Type) where
  builder : Builder ν
  calls : List (PredCall ν)

section

variable {ν : Type} [DecidableEq ν] (g : UseGraph ν)

/-- The sink at a branch. -/
def Traced.atBranch (t : Traced ν) (walk : List ν) (v : ν) : Traced ν :=
  ⟨t.builder.atBranch g v, ⟨walk, t.builder.path⟩ :: t.calls⟩

/-- The sink at a switch. -/
def Traced.atSwitch (t : Traced ν) (walk : List ν) (v : ν) : Traced ν :=
  ⟨t.builder.atSwitch g v, ⟨walk, (t.builder.push v).path⟩ :: t.calls⟩

/-- `buildPreds` at `v`, when the calls for `walk` have not returned. -/
def tracePreds : Nat → List ν → ν → Traced ν → Option (Traced ν)
  | 0, _, _, _ => none
  | fuel + 1, walk, v, t =>
    let follow (b : Builder ν) := (g.users v).foldlM (fun t u => tracePreds fuel (v :: walk) u t) ⟨b, t.calls⟩
    match g.inst v with
    | .binary opcode op1 op2 =>
      if hasConstant op1 op2 then (follow (t.builder.push v)).map fun t => ⟨t.builder.pop, t.calls⟩
      else if opcode = .and ∨ opcode = .or then follow t.builder
      else some t
    | .icmp _ op1 op2 =>
      if hasConstant op1 op2 then (follow (t.builder.push v)).map fun t => ⟨t.builder.pop, t.calls⟩ else some t
    | .branch => some (t.atBranch g (v :: walk) v)
    | .switch _ => some (t.atSwitch g (v :: walk) v)
    | .phi =>
      if v ∈ t.builder.visited then some t else follow { t.builder with visited := v :: t.builder.visited }
    | .cast => follow t.builder
    | .other => some t

end

/-! ## What is recorded -/

def Instruction.isSwitch : Instruction → Bool
  | switch _ => true
  | _ => false

def Instruction.isSink : Instruction → Bool
  | branch | switch _ => true
  | _ => false

namespace UseGraph

variable {ν : Type} (g : UseGraph ν)

/-- A walk from `v` to a sink, along the instructions that are followed; the sink is the first element. -/
inductive Trail : ν → List ν → Prop where
  | sink {v : ν} (isSink : (g.inst v).isSink = true) : Trail v [v]
  | step {v u : ν} {trail : List ν} (followed : (g.inst v).followed = true) (use : u ∈ g.users v) (rest : Trail u trail) :
      Trail v (trail ++ [v])

/-- What is on the path of a walk: an operator or a comparison with a constant, and a switch. -/
def recorded (v : ν) : Bool := (g.inst v).pushed || (g.inst v).isSwitch

/-- The path is made of what the walk from `v` has recorded, on top of what was there. -/
structure OnWalk (v : ν) (walk path : List ν) (call : PredCall ν) : Prop where
  made : ∃ trail, g.Trail v trail ∧ call.walk = trail ++ walk ∧ call.path = trail.filter g.recorded ++ path

variable {g}

theorem pass_eq {v : ν} (followed : (g.inst v).followed = true) (path : List ν) :
    g.pass v path = [v].filter g.recorded ++ path := by
  unfold pass recorded
  cases inst : g.inst v with
  | switch => simp [inst, Instruction.followed] at followed
  | binary | icmp | branch | phi | cast | other =>
    cases pushed : (g.inst v).pushed <;> simp_all [Instruction.isSwitch]

/-- A call from a user of `v` is one from `v`. -/
theorem OnWalk.step {v u : ν} {walk path : List ν} {call : PredCall ν} (followed : (g.inst v).followed = true)
    (use : u ∈ g.users v) (onWalk : g.OnWalk u (v :: walk) (g.pass v path) call) : g.OnWalk v walk path call := by
  obtain ⟨trail, isTrail, isWalk, isPath⟩ := onWalk.made
  refine ⟨trail ++ [v], .step followed use isTrail, ?_, ?_⟩
  · rw [isWalk, List.append_assoc]
    rfl
  · rw [isPath, pass_eq followed, List.filter_append, List.append_assoc]

end UseGraph

/-! ## What a walk does -/

section

variable {ν : Type} {g : UseGraph ν}

/-- The walks from `us` turn `t` into `t'`. -/
structure Tracks (g : UseGraph ν) (walk us : List ν) (t t' : Traced ν) : Prop where
  path : t'.builder.path = t.builder.path
  calls : ∀ call ∈ t'.calls, call ∈ t.calls ∨ ∃ u ∈ us, g.OnWalk u walk t.builder.path call

/-- Both functions have a result, and it is the same. -/
structure Yields (traced : Option (Traced ν)) (built : Option (Builder ν)) (t : Traced ν) : Prop where
  traced : traced = some t
  built : built = some t.builder

variable {walk us vs : List ν} {v : ν} {t t' t'' : Traced ν}

theorem Tracks.append (first : Tracks g walk us t t') (second : Tracks g walk vs t' t'') :
    Tracks g walk (us ++ vs) t t'' where
  path := second.path.trans first.path
  calls := by
    intro call member
    cases second.calls call member with
    | inr later =>
      obtain ⟨u, use, onWalk⟩ := later
      exact .inr ⟨u, List.mem_append_right us use, first.path ▸ onWalk⟩
    | inl member =>
      cases first.calls call member with
      | inl old => exact .inl old
      | inr new =>
        obtain ⟨u, use, onWalk⟩ := new
        exact .inr ⟨u, List.mem_append_left vs use, onWalk⟩

/-- From the users of an instruction to the instruction itself. -/
theorem Tracks.through {b : Builder ν} (tracks : Tracks g (v :: walk) (g.users v) ⟨b, t.calls⟩ t')
    (followed : (g.inst v).followed = true) (path : b.path = g.pass v t.builder.path) {last : Traced ν}
    (lastPath : last.builder.path = t.builder.path) (lastCalls : last.calls = t'.calls) : Tracks g walk [v] t last where
  path := lastPath
  calls := by
    intro call member
    rw [lastCalls] at member
    refine (tracks.calls call member).imp id ?_
    rintro ⟨u, use, onWalk⟩
    exact ⟨v, List.mem_singleton_self v, .step followed use (path ▸ onWalk)⟩

theorem Tracks.stays (us : List ν) : Tracks g walk us t t := ⟨rfl, fun _ member => .inl member⟩

theorem Tracks.sink {last : Traced ν} {path : List ν} (isSink : (g.inst v).isSink = true)
    (lastPath : last.builder.path = t.builder.path) (calls : last.calls = ⟨v :: walk, path⟩ :: t.calls)
    (isPath : path = [v].filter g.recorded ++ t.builder.path) : Tracks g walk [v] t last where
  path := lastPath
  calls := by
    intro call member
    rw [calls] at member
    cases member with
    | tail _ old => exact .inl old
    | head => exact .inr ⟨v, List.mem_singleton_self v, [v], .sink isSink, rfl, isPath⟩

/-- A loop over `us` that walks from `starts u` for each of them, with an invariant. -/
theorem Tracks.foldlM {I : Builder ν → Prop} (starts : ν → List ν) (trace : Traced ν → ν → Option (Traced ν))
    (build : Builder ν → ν → Option (Builder ν)) (walk : List ν) (initial : I t.builder)
    (step : ∀ u ∈ us, ∀ s : Traced ν, s.builder.path = t.builder.path → I s.builder →
      ∃ s', Yields (trace s u) (build s.builder u) s' ∧ I s'.builder ∧ Tracks g walk (starts u) s s') :
    ∃ t', Yields (us.foldlM trace t) (us.foldlM build t.builder) t' ∧ I t'.builder ∧
      Tracks g walk (us.flatMap starts) t t' := by
  induction us generalizing t with
  | nil => exact ⟨t, ⟨rfl, rfl⟩, initial, .stays []⟩
  | cons u us ih =>
    obtain ⟨t', first, inv, tracks⟩ := step u List.mem_cons_self t rfl initial
    obtain ⟨t'', later, inv', tracks'⟩ := ih inv fun u' member s path =>
      step u' (List.mem_cons_of_mem u member) s (path.trans tracks.path)
    refine ⟨t'', ⟨?_, ?_⟩, inv', tracks.append tracks'⟩
    · rw [List.foldlM_cons, first.traced]
      exact later.traced
    · rw [List.foldlM_cons, first.built]
      exact later.built

/-! ## One call -/

variable [DecidableEq ν]

theorem tracePreds_pushed (pushed : (g.inst v).pushed = true) (fuel : Nat) (walk : List ν) (t : Traced ν) :
    tracePreds g (fuel + 1) walk v t =
      ((g.users v).foldlM (fun t u => tracePreds g fuel (v :: walk) u t) ⟨t.builder.push v, t.calls⟩).map
        fun t => ⟨t.builder.pop, t.calls⟩ := by
  rw [tracePreds]
  obtain ⟨_, _, _, inst, constant⟩ | ⟨_, _, _, inst, constant⟩ := Instruction.pushed_cases pushed
  · rw [inst]
    exact if_pos constant
  · rw [inst]
    exact if_pos constant

theorem tracePreds_passed (followed : (g.inst v).followed = true) (notPushed : (g.inst v).pushed = false)
    (notPhi : g.inst v ≠ .phi) (fuel : Nat) (walk : List ν) (t : Traced ν) :
    tracePreds g (fuel + 1) walk v t = (g.users v).foldlM (fun t u => tracePreds g fuel (v :: walk) u t) t := by
  rw [tracePreds]
  obtain inst | ⟨_, _, _, inst, constant, logical⟩ := Instruction.passed_cases followed notPushed notPhi
  · rw [inst]
  · simp only [inst, constant, Bool.false_eq_true, if_false, if_pos logical]

theorem tracePreds_unfollowed (stops : (g.inst v).followed = false) (notBranch : g.inst v ≠ .branch)
    (notSwitch : ∀ cases, g.inst v ≠ .switch cases) (fuel : Nat) (walk : List ν) (t : Traced ν) :
    tracePreds g (fuel + 1) walk v t = some t := by
  rw [tracePreds]
  obtain inst | ⟨_, _, _, inst, constant, other⟩ | ⟨_, _, _, inst, constant⟩ :=
    Instruction.unfollowed_cases stops notBranch notSwitch
  · rw [inst]
  · simp only [inst, constant, Bool.false_eq_true, if_false, if_neg other]
  · simp only [inst, constant, Bool.false_eq_true, if_false]

/-- Where `buildPreds` does not go on, only a sink is recorded. -/
theorem yields_unfollowed (stops : (g.inst v).followed = false) (fuel : Nat) (walk : List ν) (t : Traced ν) :
    ∃ t', Yields (tracePreds g (fuel + 1) walk v t) (buildPreds g (fuel + 1) v t.builder) t' ∧
      t'.builder.visited = t.builder.visited ∧ Tracks g walk [v] t t' := by
  cases inst : g.inst v with
  | branch =>
    refine ⟨t.atBranch g (v :: walk) v, ⟨by rw [tracePreds, inst], by rw [buildPreds, inst]; rfl⟩,
      Builder.atBranch_visited _ _, .sink (by rw [inst]; rfl) (Builder.atBranch_path _ _) rfl ?_⟩
    simp [UseGraph.recorded, inst, Instruction.pushed, Instruction.isSwitch]
  | switch cases =>
    refine ⟨t.atSwitch g (v :: walk) v, ⟨by rw [tracePreds, inst], by rw [buildPreds, inst]; rfl⟩, rfl,
      .sink (by rw [inst]; rfl) rfl rfl ?_⟩
    simp [UseGraph.recorded, inst, Instruction.pushed, Instruction.isSwitch, Builder.push]
  | binary | icmp | phi | cast | other =>
    have notBranch : g.inst v ≠ .branch := by simp [inst]
    have notSwitch : ∀ cases, g.inst v ≠ .switch cases := by simp [inst]
    exact ⟨t, ⟨tracePreds_unfollowed stops notBranch notSwitch fuel walk t,
      buildPreds_unfollowed stops notBranch notSwitch fuel t.builder⟩, rfl, .stays [v]⟩

end

/-! ## Walks that end -/

namespace SSA

variable {ν : Type} [Fintype ν] [DecidableEq ν] (f : SSA ν)

/-- The walks from `us` end, both functions with the same result, and leave the path as it was. -/
def Traces (walk us : List ν) (t : Traced ν) (traced : Option (Traced ν)) (built : Option (Builder ν)) : Prop :=
  ∃ t', Yields traced built t' ∧ (t'.builder.visited.Nodup ∧ t.builder.visited ⊆ t'.builder.visited) ∧
    Tracks f.toUseGraph walk us t t'

variable {f}

omit [Fintype ν] in
/-- A loop over `us`, whatever has been visited when it comes to the next of them. -/
theorem Traces.foldlM {walk us : List ν} {t : Traced ν} (nodup : t.builder.visited.Nodup) (fuel : Nat)
    (step : ∀ u ∈ us, ∀ more : List ν, more.Nodup → t.builder.visited ⊆ more → ∀ s : Traced ν, s.builder.visited = more →
      f.Traces walk [u] s (tracePreds f.toUseGraph fuel walk u s) (buildPreds f.toUseGraph fuel u s.builder)) :
    f.Traces walk us t (us.foldlM (fun t u => tracePreds f.toUseGraph fuel walk u t) t)
      (us.foldlM (fun b u => buildPreds f.toUseGraph fuel u b) t.builder) := by
  have whole := Tracks.foldlM (g := f.toUseGraph) (t := t)
    (I := fun b => b.visited.Nodup ∧ t.builder.visited ⊆ b.visited) (fun u => [u])
    (fun t u => tracePreds f.toUseGraph fuel walk u t) (fun b u => buildPreds f.toUseGraph fuel u b) walk
    ⟨nodup, List.Subset.refl _⟩ (fun u (use : u ∈ us) s _ inv => by
      obtain ⟨s', yields, ⟨nodup', more⟩, tracks⟩ := step u use s.builder.visited inv.1 inv.2 s rfl
      exact ⟨s', yields, ⟨nodup', List.Subset.trans inv.2 more⟩, tracks⟩)
  rwa [List.flatMap_singleton'] at whole

variable (f)

/-- A walk from `v` ends with fuel for what has not been visited. -/
theorem tracePreds_spec (fuel : Nat) (walk : List ν) {v : ν} {t : Traced ν} (nodup : t.builder.visited.Nodup)
    (enough : f.budget t.builder.visited v < fuel) :
    f.Traces walk [v] t (tracePreds f.toUseGraph fuel walk v t) (buildPreds f.toUseGraph fuel v t.builder) := by
  refine f.walk_induction (C := fun fuel visited v => ∀ (walk : List ν) (t : Traced ν), t.builder.visited = visited →
    f.Traces walk [v] t (tracePreds f.toUseGraph fuel walk v t) (buildPreds f.toUseGraph fuel v t.builder))
    ?_ ?_ ?_ ?_ fuel nodup enough walk t rfl
  · rintro fuel _ v nodup stops walk t rfl
    obtain ⟨t', yields, visited, tracks⟩ := yields_unfollowed stops fuel walk t
    exact ⟨t', yields, ⟨visited ▸ nodup, visited ▸ List.Subset.refl _⟩, tracks⟩
  · rintro fuel _ v nodup phi old walk t rfl
    refine ⟨t, ⟨?_, ?_⟩, ⟨nodup, List.Subset.refl _⟩, .stays [v]⟩
    · simp only [tracePreds, phi, if_pos old]
    · simp only [buildPreds, phi, if_pos old]
  · rintro fuel _ v nodup phi new ih walk t rfl
    obtain ⟨t', yields, ⟨nodup', more⟩, tracks⟩ :=
      Traces.foldlM (t := ⟨{ t.builder with visited := v :: t.builder.visited }, t.calls⟩) nodup fuel
        fun u use more nodup' subset => ih u use more nodup' subset (v :: walk)
    have followed : (f.inst v).followed = true := by rw [phi]; rfl
    have passed : f.pass v t.builder.path = t.builder.path := UseGraph.pass_of_notPushed (by rw [phi]; rfl) _
    refine ⟨t', ⟨?_, ?_⟩, ⟨nodup', fun u member => more (List.mem_cons_of_mem v member)⟩,
      tracks.through followed passed.symm tracks.path rfl⟩
    · simp only [tracePreds, phi, if_neg new]
      exact yields.traced
    · simp only [buildPreds, phi, if_neg new]
      exact yields.built
  · rintro fuel _ v nodup phi followed ih walk t rfl
    cases pushed : (f.inst v).pushed with
    | true =>
      -- what is pushed before the users is popped behind them
      obtain ⟨t', yields, visited, tracks⟩ := Traces.foldlM (t := ⟨t.builder.push v, t.calls⟩) nodup fuel
        fun u use more nodup' subset => ih u use more nodup' subset (v :: walk)
      have popped : t'.builder.path.tail = t.builder.path := by
        rw [tracks.path]
        rfl
      refine ⟨⟨t'.builder.pop, t'.calls⟩, ⟨?_, ?_⟩, visited,
        tracks.through followed (UseGraph.pass_of_pushed pushed _).symm popped rfl⟩
      · rw [tracePreds_pushed pushed, yields.traced, Option.map_some]
      · rw [buildPreds_pushed pushed]
        exact congrArg (Option.map Builder.pop) yields.built
    | false =>
      obtain ⟨t', yields, visited, tracks⟩ := Traces.foldlM nodup fuel
        fun u use more nodup' subset => ih u use more nodup' subset (v :: walk)
      refine ⟨t', ⟨?_, ?_⟩, visited,
        tracks.through followed (UseGraph.pass_of_notPushed pushed _).symm tracks.path rfl⟩
      · rw [tracePreds_passed followed pushed phi]
        exact yields.traced
      · rw [buildPreds_passed followed pushed phi]
        exact yields.built

/-- The walks from the uses of one alias. -/
def traceUses (t : Traced ν) (v : ν) : Option (Traced ν) :=
  (f.users v).foldlM (fun t u => tracePreds f.toUseGraph f.fuel [] u ⟨{ t.builder with visited := [] }, t.calls⟩) t

/-- `walks`, with the calls recorded. -/
def traceWalks (arrange : List ν → List ν) (hwInputSrc : ν) : Option (Traced ν) := do
  let aliases ← f.collectValueAlias hwInputSrc
  (arrange (aliases.insert hwInputSrc)).foldlM f.traceUses ⟨.empty, []⟩

theorem traceUses_spec (t : Traced ν) (v : ν) :
    ∃ t', Yields (f.traceUses t v)
        ((f.users v).foldlM (fun b u => buildPreds f.toUseGraph f.fuel u { b with visited := [] }) t.builder) t' ∧
      Tracks f.toUseGraph [] (f.users v) t t' := by
  obtain ⟨t', yields, -, tracks⟩ := Tracks.foldlM (g := f.toUseGraph) (t := t) (I := fun _ => True) (fun u => [u])
    (fun t u => tracePreds f.toUseGraph f.fuel [] u ⟨{ t.builder with visited := [] }, t.calls⟩)
    (fun b u => buildPreds f.toUseGraph f.fuel u { b with visited := [] }) [] trivial
    (fun u (_ : u ∈ f.users v) s _ _ => by
      obtain ⟨s', yields, -, tracks⟩ := f.tracePreds_spec f.fuel [] (v := u)
        (t := ⟨{ s.builder with visited := [] }, s.calls⟩) .nil (f.budget_lt_fuel [] u)
      exact ⟨s', yields, trivial, tracks.path, tracks.calls⟩)
  rw [List.flatMap_singleton'] at tracks
  exact ⟨t', yields, tracks⟩

theorem traceWalks_spec {arrange : List ν → List ν} (perm : ∀ l, (arrange l).Perm l) (x : ν) :
    ∃ t, Yields (f.traceWalks arrange x) (f.walks arrange x) t ∧
      ∀ call ∈ t.calls, ∃ a u, f.AliasOf x a ∧ u ∈ f.users a ∧ f.OnWalk u [] [] call := by
  obtain ⟨aliases, collected, isAlias⟩ := f.collectValueAlias_spec x
  obtain ⟨t, yields, -, tracks⟩ := Tracks.foldlM (g := f.toUseGraph) (t := ⟨.empty, []⟩) (I := fun _ => True)
    f.users f.traceUses
    (fun b v => (f.users v).foldlM (fun b u => buildPreds f.toUseGraph f.fuel u { b with visited := [] }) b) [] trivial
    (fun v (_ : v ∈ arrange (aliases.insert x)) s _ _ => by
      obtain ⟨s', yields, tracks⟩ := f.traceUses_spec s v
      exact ⟨s', yields, trivial, tracks⟩)
  refine ⟨t, ⟨?_, ?_⟩, fun call member => ?_⟩
  · rw [traceWalks, collected]
    exact yields.traced
  · rw [walks, collected]
    exact yields.built
  · -- nothing is recorded before the first alias, so the call is one of a walk from a use of some alias
    obtain ⟨u, start, onWalk⟩ := (tracks.calls call member).resolve_left List.not_mem_nil
    obtain ⟨a, isMember, use⟩ := List.mem_flatMap.mp start
    rw [(perm _).mem_iff, List.mem_insert_iff] at isMember
    cases isMember with
    | inl same => exact ⟨a, u, same ▸ .refl, use, onWalk⟩
    | inr member => exact ⟨a, u, isAlias a member, use, onWalk⟩

end SSA

/-! ## Cycles through PHIs -/

/-- The uses of a function: every cycle comes through a PHI. -/
structure PhiGraph (ν : Type) extends UseGraph ν where
  phis : CyclesMarked users fun u => inst u = .phi

namespace PhiGraph

variable {ν : Type} [Fintype ν] (g : PhiGraph ν)

def plainUsers (v : ν) : List ν := (g.users v).filter fun u => ¬ g.inst u = .phi

theorem exists_shallow (v : ν) : ∃ n, Shallow g.plainUsers n v := g.phis.exists_shallow v

open Classical in
/-- The longest path to a PHI or to an end. -/
noncomputable def rank (v : ν) : Nat := Nat.find (g.exists_shallow v)

theorem rank_lt {v u : ν} (use : u ∈ g.users v) (notPhi : g.inst u ≠ .phi) : g.rank u < g.rank v := by
  classical
  have shallow : Shallow g.plainUsers (g.rank v) v := Nat.find_spec (g.exists_shallow v)
  cases bound : g.rank v with
  | zero =>
    rw [bound] at shallow
    exact shallow.elim
  | succ n =>
    rw [bound] at shallow
    have below := shallow u (List.mem_filter.mpr ⟨use, decide_eq_true notPhi⟩)
    exact Nat.lt_succ_of_le (Nat.find_min' (g.exists_shallow u) below)

open Classical in
theorem mem_operands (v u : ν) : u ∈ g.users v ↔ v ∈ (Finset.univ.filter fun v => u ∈ g.users v).toList := by
  simp

open Classical in
noncomputable def toSSA : SSA ν where
  toUseGraph := g.toUseGraph
  operands u := (Finset.univ.filter fun v => u ∈ g.users v).toList
  users_iff := g.mem_operands
  rank := g.rank
  rank_lt _ _ use _ notPhi := g.rank_lt use notPhi

variable [DecidableEq ν]

/-- What `buildPreds` and `buildConstraints` do to the path. -/
structure Balanced : Prop where
  /-- from any value, with any PHIs visited and anything on the path -/
  walk : ∃ fuel, ∀ v b, b.visited.Nodup →
    ∃ t, Yields (tracePreds g.toUseGraph fuel [] v ⟨b, []⟩) (buildPreds g.toUseGraph fuel v b) t ∧
      t.builder.path = b.path ∧ ∀ call ∈ t.calls, g.OnWalk v [] b.path call
  /-- from a hardware read, whose aliases are its casts and PHIs -/
  hardwareRead : ∀ arrange, (∀ l, (arrange l).Perm l) → ∀ x,
    ∃ t, Yields (g.toSSA.traceWalks arrange x) (g.toSSA.walks arrange x) t ∧
      ∀ call ∈ t.calls, ∃ a u, g.toSSA.AliasOf x a ∧ u ∈ g.users a ∧ g.OnWalk u [] [] call

theorem buildPreds_balanced (g : PhiGraph ν) : g.Balanced where
  walk := by
    refine ⟨g.toSSA.fuel, fun v b nodup => ?_⟩
    obtain ⟨t, yields, -, tracks⟩ := g.toSSA.tracePreds_spec g.toSSA.fuel [] (v := v) (t := ⟨b, []⟩) nodup
      (g.toSSA.budget_lt_fuel _ v)
    refine ⟨t, yields, tracks.path, fun call member => ?_⟩
    obtain ⟨u, start, onWalk⟩ := (tracks.calls call member).resolve_left List.not_mem_nil
    rwa [List.mem_singleton.mp start] at onWalk
  hardwareRead _ perm x := g.toSSA.traceWalks_spec perm x

/-- A loop that counts down to zero from the value read: the read, the PHI, the decrement, the comparison and the
    branch. -/
def countdownUses : UseGraph (Fin 5) where
  inst
    | 0 => .other
    | 1 => .phi
    | 2 => .binary .sub .value (.constantInt 1)
    | 3 => .icmp .eq .value (.constantInt 0)
    | 4 => .branch
  users
    | 0 => [1]
    | 1 => [2, 3]
    | 2 => [1]
    | 3 => [4]
    | 4 => []

def countdown : PhiGraph (Fin 5) where
  toUseGraph := countdownUses
  phis := by
    -- the only use that goes back is the one in the PHI
    have up : ∀ v u : Fin 5, u ∈ countdownUses.users v → countdownUses.inst u ≠ .phi → v < u := by decide
    intro v cycle
    have climbs : v < v := by
      refine TransGen.trans_induction_on (motive := fun {v u} _ => v < u) cycle ?_ ?_
      · exact fun edge => up _ _ edge.1 edge.2
      · exact fun _ _ first second => first.trans second
    exact lt_irrefl v climbs

theorem balanced_countdown :
    countdown.Balanced ∧ (tracePreds countdown.toUseGraph 5 [] 1 ⟨.empty, []⟩).map (fun t => t.calls.map PredCall.path) =
      some [[3]] :=
  ⟨countdown.buildPreds_balanced, by decide +kernel⟩

end PhiGraph

end DevFuzz.Analysis
