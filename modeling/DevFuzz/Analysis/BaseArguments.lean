import DevFuzz.Lib.Collections
import DevFuzz.Lib.Depth
import DevFuzz.Lib.Search
import Mathlib.Order.Defs.LinearOrder

/-! # Arguments that hold an MMIO base

`collectMMIOBaseInterProc` of `stage2/src/apstage2.cpp` follows the bases of the MMIO regions
through casts and calls to the parameters of other functions.  Each round takes up all
parameters that the one before has found, also those that were known, so a function
that passes its parameter on to itself keeps the loop going.  The calls of a
function with variable arguments are not followed.

`collects_iff` says for which modules the loop ends with all the parameters.
-/

namespace DevFuzz.Analysis.BaseArguments

open DevFuzz.Lib Relation

/-! ## The pass -/

/-- A `Function`, with its parameters in order. -/
structure Callee (ν : Type) where
  isVarArg : Bool
  params : List ν

/-- A user of a value: a cast, a call with its operands and with the function if `getCalledFunction` finds one, or
    anything else. -/
inductive Use (ν : Type) where
  | cast (v : ν)
  | call (callee : Option (Callee ν)) (operands : List ν)
  | other

section

variable {ν : Type} [DecidableEq ν]

/-- The parameters that a call passes the value to. -/
def Callee.argsFor (func : Callee ν) (src : ν) (operands : List ν) : List ν :=
  ((operands.zip func.params).filter fun p => p.1 = src).map Prod.snd

def Use.cast? : Use ν → Option ν
  | cast v => some v
  | call _ _ | other => none

/-- The parameters that the use passes the value to, those of functions with variable arguments apart. -/
def Use.passed (src : ν) : Use ν → List ν
  | call (some func) operands => if func.isVarArg then [] else func.argsFor src operands
  | call none _ | cast _ | other => []

/-- The parameters of a function with variable arguments that the use passes the value to. -/
def Use.passedVarArg (src : ν) : Use ν → List ν
  | call (some func) operands => if func.isVarArg then func.argsFor src operands else []
  | call none _ | cast _ | other => []

end

variable {ν : Type} [LinearOrder ν] (users : ν → List (Use ν))

/-- No result where the recursion is deeper than `fuel`. -/
def doCollectMMIOBaseInterProc : Nat → ν → OrderedSet ν → Option (OrderedSet ν)
  | 0, _, _ => none
  | fuel + 1, src, mmioBaseSet =>
    (users src).foldlM (fun set u =>
      match u with
      | .cast v => doCollectMMIOBaseInterProc fuel v set
      | .call (some func) operands =>
        some (if func.isVarArg then set else (func.argsFor src operands).foldl OrderedSet.insert set)
      | .call none _ | .other => some set) mmioBaseSet

/-- The loop over the working set: what it puts into the new one. -/
def collectRound (fuel : Nat) (workset : OrderedSet ν) : Option (OrderedSet ν) :=
  workset.elements.foldlM (fun newset v => doCollectMMIOBaseInterProc users fuel v newset) .empty

/-- The outer loop, for as many rounds as given. -/
def collectRounds (fuel : Nat) : Nat → OrderedSet ν → OrderedSet ν → Option (OrderedSet ν)
  | 0, _, _ => none
  | rounds + 1, workset, mmioBaseSet => do
    let newset ← collectRound users fuel workset
    let mmioBaseSet := newset.elements.foldl OrderedSet.insert mmioBaseSet
    if newset.elements.isEmpty then some mmioBaseSet else collectRounds fuel rounds newset mmioBaseSet

/-- The set at the end, where the loop and the recursion end with so much fuel. -/
def collectMMIOBaseInterProc (fuel : Nat) (mmioBaseSet : OrderedSet ν) : Option (OrderedSet ν) :=
  collectRounds users fuel fuel mmioBaseSet mmioBaseSet

/-! ## The graph of the uses -/

def casts (v : ν) : List ν := (users v).filterMap Use.cast?

def passed (v : ν) : List ν := (users v).flatMap (Use.passed v)

def passedVarArg (v : ν) : List ν := (users v).flatMap (Use.passedVarArg v)

/-- What the pass goes on with from a value. -/
def followed (v : ν) : List ν := casts users v ++ passed users v

/-- What holds the value, or a part of its address, as well. -/
def carried (v : ν) : List ν := followed users v ++ passedVarArg users v

/-- A parameter that a value is passed to, as it is or after casts. -/
def PassedFrom (v w : ν) : Prop := ∃ u, ReflTransGen (Edge (casts users)) v u ∧ w ∈ passed users u

/-- A parameter that a value comes to in any number of calls. -/
def Found (v w : ν) : Prop := ∃ u, ReflTransGen (Edge (followed users)) v u ∧ w ∈ passed users u

variable {users}

/-- What a use adds to the set. -/
def Use.Adds (users : ν → List (Use ν)) (src : ν) : Use ν → ν → Prop
  | cast v, w => PassedFrom users v w
  | call callee operands, w => w ∈ (call callee operands).passed src
  | other, _ => False

omit [LinearOrder ν] in
theorem mem_casts {v w : ν} : w ∈ casts users v ↔ Use.cast w ∈ users v := by
  rw [casts, List.mem_filterMap]
  constructor
  · rintro ⟨u, member, cast⟩
    cases u with
    | cast v => exact Option.some.inj cast ▸ member
    | call callee operands => cases cast
    | other => cases cast
  · exact fun member => ⟨_, member, rfl⟩

theorem passedFrom_iff {v w : ν} : PassedFrom users v w ↔ ∃ u ∈ users v, u.Adds users v w := by
  constructor
  · rintro ⟨last, path, passed⟩
    cases path.cases_head with
    | inl here =>
      subst here
      obtain ⟨u, member, passed⟩ := List.mem_flatMap.mp passed
      refine ⟨u, member, ?_⟩
      cases u with
      | cast c => cases passed
      | call callee operands => exact passed
      | other => cases passed
    | inr later =>
      obtain ⟨c, edge, path⟩ := later
      exact ⟨.cast c, mem_casts.mp edge, last, path, passed⟩
  · rintro ⟨u, member, adds⟩
    cases u with
    | cast c =>
      obtain ⟨last, path, passed⟩ := adds
      exact ⟨last, .head (mem_casts.mpr member) path, passed⟩
    | call callee operands => exact ⟨v, .refl, List.mem_flatMap.mpr ⟨_, member, adds⟩⟩
    | other => exact adds.elim

/-! ## The recursion -/

/-- With fuel for the casts, the recursion adds what the value is passed to. -/
theorem doCollect_of_shallow {fuel : Nat} {src : ν} (shallow : Shallow (casts users) fuel src) (set : OrderedSet ν) :
    ∃ t, doCollectMMIOBaseInterProc users fuel src set = some t ∧ ∀ w, w ∈ t ↔ w ∈ set ∨ PassedFrom users src w := by
  induction fuel generalizing src set with
  | zero => exact shallow.elim
  | succ fuel ih =>
    simp only [passedFrom_iff]
    refine OrderedSet.foldlM_adds (fun u member s => ?_) set
    cases u with
    | cast c => exact ih (shallow c (mem_casts.mpr member)) s
    | other => exact ⟨s, rfl, fun w => (or_iff_left not_false).symm⟩
    | call callee operands =>
      cases callee with
      | none => exact ⟨s, rfl, fun w => (or_iff_left List.not_mem_nil).symm⟩
      | some func =>
        refine ⟨_, rfl, fun w => ?_⟩
        rw [Use.Adds, Use.passed]
        cases func.isVarArg with
        | true => exact (or_iff_left List.not_mem_nil).symm
        | false => exact OrderedSet.mem_foldl_insert.trans or_comm

theorem doCollect_of_not_shallow {fuel : Nat} {src : ν} (deep : ¬ Shallow (casts users) fuel src) (set : OrderedSet ν) :
    doCollectMMIOBaseInterProc users fuel src set = none := by
  induction fuel generalizing src set with
  | zero => rfl
  | succ fuel ih =>
    simp only [Shallow, not_forall] at deep
    obtain ⟨c, edge, deep⟩ := deep
    exact foldlM_eq_none (mem_casts.mp edge) (fun set => ih deep set) set

/-! ## The loop -/

section

variable {fuel : Nat} {workset : OrderedSet ν}

theorem collectRound_of_shallow (shallow : ∀ v ∈ workset, Shallow (casts users) fuel v) :
    ∃ newset, collectRound users fuel workset = some newset ∧
      ∀ w, w ∈ newset ↔ ∃ v ∈ workset, PassedFrom users v w := by
  obtain ⟨newset, result, members⟩ := OrderedSet.foldlM_adds (A := PassedFrom users) (l := workset.elements)
    (fun v member s => doCollect_of_shallow (shallow v member) s) .empty
  exact ⟨newset, result, fun w => (members w).trans (or_iff_right OrderedSet.not_mem_empty)⟩

/-- A round that ends had fuel enough. -/
theorem shallow_of_collectRound {newset : OrderedSet ν} (result : collectRound users fuel workset = some newset) :
    (∀ v ∈ workset, Shallow (casts users) fuel v) ∧ ∀ w, w ∈ newset ↔ ∃ v ∈ workset, PassedFrom users v w := by
  have shallow : ∀ v ∈ workset, Shallow (casts users) fuel v := by
    intro v member
    by_contra deep
    rw [collectRound, foldlM_eq_none member (doCollect_of_not_shallow deep)] at result
    cases result
  obtain ⟨same, result', members⟩ := collectRound_of_shallow shallow
  exact ⟨shallow, Option.some.inj (result'.symm.trans result) ▸ members⟩

/-- A call comes first, and others may come after it. -/
theorem found_iff {v w : ν} : Found users v w ↔ PassedFrom users v w ∨ ∃ p, PassedFrom users v p ∧ Found users p w := by
  constructor
  · rintro ⟨last, path, passed⟩
    induction path using ReflTransGen.head_induction_on with
    | refl => exact .inl ⟨last, .refl, passed⟩
    | @head v c edge path ih =>
      cases List.mem_append.mp edge with
      | inl cast =>
        have before : ∀ {p}, PassedFrom users c p → PassedFrom users v p :=
          fun ⟨last, path, passed⟩ => ⟨last, .head cast path, passed⟩
        exact ih.imp before fun ⟨p, first, later⟩ => ⟨p, before first, later⟩
      | inr argument => exact .inr ⟨c, ⟨v, .refl, argument⟩, last, path, passed⟩
  · have casts_followed : ∀ {u}, ReflTransGen (Edge (casts users)) v u → ReflTransGen (Edge (followed users)) v u :=
      ReflTransGen.mono (fun _ _ edge => List.mem_append_left _ edge) _ _
    rintro (⟨last, path, passed⟩ | ⟨p, ⟨last, path, passed⟩, end_, more, found⟩)
    · exact ⟨last, casts_followed path, passed⟩
    · exact ⟨end_, ((casts_followed path).tail (List.mem_append_right _ passed)).trans more, found⟩

/-- Bounds for the casts and for what comes after the next call make one for the value. -/
theorem exists_shallow_followed {v : ν} (shallow : Shallow (casts users) fuel v)
    (after : ∀ w, PassedFrom users v w → ∃ n, Shallow (followed users) n w) : ∃ n, Shallow (followed users) n v := by
  induction fuel generalizing v with
  | zero => exact shallow.elim
  | succ fuel ih =>
    refine exists_shallow_of_next fun c edge => ?_
    cases List.mem_append.mp edge with
    | inl cast =>
      refine ih (shallow c cast) fun w passed => after w ?_
      obtain ⟨last, path, passed⟩ := passed
      exact ⟨last, .head cast path, passed⟩
    | inr argument => exact after c ⟨v, .refl, argument⟩

/-- A loop that ends has found all there is to find, and there is a bound for it. -/
theorem of_collectRounds {rounds : Nat} {bases set : OrderedSet ν}
    (result : collectRounds users fuel rounds workset bases = some set) :
    (∀ v ∈ workset, ∃ n, Shallow (followed users) n v) ∧
      ∀ w, w ∈ set ↔ w ∈ bases ∨ ∃ v ∈ workset, Found users v w := by
  induction rounds generalizing workset bases with
  | zero => cases result
  | succ rounds ih =>
    obtain ⟨newset, round, rest⟩ := Option.bind_eq_some_iff.mp result
    obtain ⟨shallow, members⟩ := shallow_of_collectRound round
    -- a round that has found nothing is the last one
    have later : (∀ v ∈ newset, ∃ n, Shallow (followed users) n v) ∧
        ∀ w, w ∈ set ↔ (w ∈ newset ∨ w ∈ bases) ∨ ∃ v ∈ newset, Found users v w := by
      cases none : newset.elements.isEmpty with
      | true =>
        rw [none, if_pos rfl] at rest
        have empty : ∀ v, v ∉ newset := fun v member => by
          rw [← OrderedSet.mem_elements, List.isEmpty_iff.mp none] at member
          cases member
        refine ⟨fun v member => absurd member (empty v), fun w => ?_⟩
        rw [← Option.some.inj rest, OrderedSet.mem_foldl_insert, OrderedSet.mem_elements]
        exact (or_iff_left fun ⟨v, member, _⟩ => empty v member).symm
      | false =>
        rw [none, if_neg Bool.false_ne_true] at rest
        obtain ⟨bounds, all⟩ := ih rest
        refine ⟨bounds, fun w => ?_⟩
        rw [all, OrderedSet.mem_foldl_insert, OrderedSet.mem_elements]
    obtain ⟨bounds, all⟩ := later
    refine ⟨fun v member => ?_, fun w => ?_⟩
    · exact exists_shallow_followed (shallow v member) fun w passed => bounds w ((members w).mpr ⟨v, member, passed⟩)
    · rw [all]
      constructor
      · rintro ((new | base) | ⟨p, new, found⟩)
        · obtain ⟨v, member, passed⟩ := (members w).mp new
          exact .inr ⟨v, member, found_iff.mpr (.inl passed)⟩
        · exact .inl base
        · obtain ⟨v, member, passed⟩ := (members p).mp new
          exact .inr ⟨v, member, found_iff.mpr (.inr ⟨p, passed, found⟩)⟩
      · rintro (base | ⟨v, member, found⟩)
        · exact .inl (.inr base)
        · cases found_iff.mp found with
          | inl passed => exact .inl (.inl ((members w).mpr ⟨v, member, passed⟩))
          | inr later =>
            obtain ⟨p, passed, found⟩ := later
            exact .inr ⟨p, (members p).mpr ⟨v, member, passed⟩, found⟩

theorem shallow_of_passedFrom {n : Nat} {v w : ν} (shallow : Shallow (followed users) n v)
    (passed : PassedFrom users v w) : ∃ m < n, Shallow (followed users) m w := by
  obtain ⟨last, path, passed⟩ := passed
  have followed_path : ReflTransGen (Edge (followed users)) v last :=
    ReflTransGen.mono (fun _ _ edge => List.mem_append_left _ edge) _ _ path
  exact (shallow.reflTransGen followed_path).edge (List.mem_append_right _ passed)

/-- With a bound for the working set, the loop ends. -/
theorem collectRounds_returns {n rounds : Nat} (shallow : ∀ v ∈ workset, Shallow (followed users) n v) (enough : n ≤ fuel)
    (more : n < rounds) (bases : OrderedSet ν) : ∃ set, collectRounds users fuel rounds workset bases = some set := by
  induction n using Nat.strongRecOn generalizing workset bases rounds with
  | ind n ih =>
    obtain ⟨rounds, rfl⟩ := Nat.exists_eq_add_one_of_ne_zero (Nat.ne_zero_of_lt more)
    have bound : ∀ v ∈ workset, Shallow (casts users) fuel v := fun v member =>
      ((shallow v member).of_subset fun _ => List.subset_append_left _ _).mono enough
    obtain ⟨newset, round, members⟩ := collectRound_of_shallow bound
    rw [collectRounds, round]
    dsimp only [Option.bind_eq_bind, Option.bind_some]
    cases none : newset.elements.isEmpty with
    | true => exact ⟨_, if_pos rfl⟩
    | false =>
      -- there is a parameter, so the bound was not zero
      have smaller : ∀ w ∈ newset, ∃ m < n, Shallow (followed users) m w := fun w member => by
        obtain ⟨v, here, passed⟩ := (members w).mp member
        exact shallow_of_passedFrom (shallow v here) passed
      have positive : 0 < n := by
        obtain ⟨w, member⟩ := List.exists_mem_of_ne_nil _ (List.isEmpty_eq_false_iff.mp none)
        obtain ⟨m, below, -⟩ := smaller w member
        exact Nat.zero_lt_of_lt below
      rw [if_neg Bool.false_ne_true]
      refine ih (n - 1) (by omega) (fun w member => ?_) (by omega) (by omega) _
      obtain ⟨m, below, shallow⟩ := smaller w member
      exact shallow.mono (by omega)

end

/-! ## What is collected -/

section

variable (users) (bases : OrderedSet ν)

/-- The value comes to be in a place, along all calls or along those that are followed. -/
def Reaches (next : ν → List ν) (u : ν) : Prop := ∃ v ∈ bases, ReflTransGen (Edge next) v u

/-- The loop ends, and the set has the bases and all parameters that one of them comes to. -/
def Collects : Prop :=
  ∃ fuel set, collectMMIOBaseInterProc users fuel bases = some set ∧ (∀ v ∈ bases, v ∈ set) ∧
    ∀ u, Reaches bases (carried users) u → ∀ w ∈ passed users u ++ passedVarArg users u, w ∈ set

/-- No base comes to a value that comes back to itself. -/
def Acyclic : Prop := ∀ u, Reaches bases (followed users) u → ¬ TransGen (Edge (followed users)) u u

/-- A base that is passed to a function with variable arguments comes to the same parameter in another way. -/
def VarArgsCovered : Prop :=
  ∀ u, Reaches bases (followed users) u → ∀ w ∈ passedVarArg users u, w ∈ bases ∨ ∃ v ∈ bases, Found users v w

variable {users bases}

theorem mem_of_collect {fuel : Nat} {set : OrderedSet ν} (result : collectMMIOBaseInterProc users fuel bases = some set)
    (w : ν) : w ∈ set ↔ w ∈ bases ∨ ∃ v ∈ bases, Found users v w :=
  (of_collectRounds result).2 w

theorem terminates_iff [Finite ν] :
    (∃ fuel set, collectMMIOBaseInterProc users fuel bases = some set) ↔ Acyclic users bases := by
  have bounded : (∀ v ∈ bases, ∃ n, Shallow (followed users) n v) ↔ Acyclic users bases := by
    simp only [exists_shallow_iff]
    constructor
    · rintro all u ⟨v, base, path⟩
      exact all v base u path
    · exact fun acyclic v base u path => acyclic u ⟨v, base, path⟩
  rw [← bounded]
  constructor
  · rintro ⟨fuel, set, result⟩
    exact (of_collectRounds result).1
  · intro each
    obtain ⟨n, all⟩ := exists_shallow_forall each
    exact ⟨n + 1, collectRounds_returns all (Nat.le_succ n) (Nat.lt_succ_self n) bases⟩

/-- If all parameters of functions with variable arguments are covered, the followed calls lead everywhere. -/
theorem VarArgsCovered.reaches (covered : VarArgsCovered users bases) {u : ν} (reached : Reaches bases (carried users) u) :
    Reaches bases (followed users) u := by
  obtain ⟨v, base, path⟩ := reached
  induction path with
  | refl => exact ⟨v, base, .refl⟩
  | @tail u w _ edge ih =>
    cases List.mem_append.mp edge with
    | inl follows =>
      obtain ⟨v, base, path⟩ := ih
      exact ⟨v, base, path.tail follows⟩
    | inr varArg =>
      cases covered u ih w varArg with
      | inl base => exact ⟨w, base, .refl⟩
      | inr found =>
        obtain ⟨v, base, last, path, passed⟩ := found
        exact ⟨v, base, path.tail (List.mem_append_right _ passed)⟩

theorem Reaches.carried {u : ν} (reached : Reaches bases (followed users) u) :
    Reaches bases (BaseArguments.carried users) u := by
  obtain ⟨v, base, path⟩ := reached
  exact ⟨v, base, ReflTransGen.mono (fun _ _ edge => List.mem_append_left _ edge) _ _ path⟩

end

/-- The loop ends with all parameters exactly if no base comes to a cycle and those of functions with variable
    arguments are found in another way. -/
theorem collects_iff [Fintype ν] (users : ν → List (Use ν)) (bases : OrderedSet ν) :
    Collects users bases ↔ Acyclic users bases ∧ VarArgsCovered users bases := by
  constructor
  · rintro ⟨fuel, set, result, -, all⟩
    refine ⟨terminates_iff.mp ⟨fuel, set, result⟩, fun u reached w varArg => ?_⟩
    exact (mem_of_collect result w).mp (all u reached.carried w (List.mem_append_right _ varArg))
  · rintro ⟨acyclic, covered⟩
    obtain ⟨fuel, set, result⟩ := terminates_iff.mpr acyclic
    refine ⟨fuel, set, result, fun v base => (mem_of_collect result v).mpr (.inl base), fun u reached w argument => ?_⟩
    rw [mem_of_collect result]
    have followed := covered.reaches reached
    cases List.mem_append.mp argument with
    | inl passed =>
      obtain ⟨v, base, path⟩ := followed
      exact .inr ⟨v, base, u, path, passed⟩
    | inr varArg => exact covered u followed w varArg

/-- The only parameter of a function that passes it on to itself. -/
def selfCall (v : Fin 1) : List (Use (Fin 1)) := [.call (some ⟨false, [v]⟩) [v]]

theorem not_collects_selfCall :
    (∀ fuel, collectMMIOBaseInterProc selfCall fuel (OrderedSet.empty.insert 0) = none) ∧
      ¬ Collects selfCall (OrderedSet.empty.insert 0) := by
  have cycle : ¬ Acyclic selfCall (OrderedSet.empty.insert 0) := fun acyclic =>
    acyclic 0 ⟨0, OrderedSet.mem_insert.mpr (.inl rfl), .refl⟩ (.single (show 0 ∈ followed selfCall 0 by decide))
  constructor
  · intro fuel
    cases result : collectMMIOBaseInterProc selfCall fuel (OrderedSet.empty.insert 0) with
    | none => rfl
    | some set => exact absurd (terminates_iff.mp ⟨fuel, set, result⟩) cycle
  · rintro ⟨fuel, set, result, -⟩
    exact cycle (terminates_iff.mp ⟨fuel, set, result⟩)

end DevFuzz.Analysis.BaseArguments
