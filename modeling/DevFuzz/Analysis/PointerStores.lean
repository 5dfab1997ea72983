import DevFuzz.Analysis.Subclass
import DevFuzz.Lib.Depth
import DevFuzz.Lib.Search

/-! # Where a DMA buffer is stored

`findPointerStoredToType` of `stage2/src/apstage2.cpp` follows the pointer to a DMA buffer through casts, PHIs,
operators and GEPs to the stores of it.  It does not remember where it has been.  A pointer that a
loop moves on is a PHI of a GEP of itself, and from there the recursion does not come back:
`findPointerStoredToType_terminates_iff` says from which values it does.
-/

namespace DevFuzz.Analysis.PointerStores

open DevFuzz.Lib DevFuzz.Stage2 Subclass Relation

/-! ## The recursion -/

/-- The GEP that gives the address of a store: what `getGEPOffset` returns for it, its types, and the users of its
    pointer operand. -/
structure StoreGEP (ν κ : Type) where
  offset : Int
  sourceElementType : LType ν κ
  type : LType ν κ
  pointerUsers : List (User ν κ)

/-- The users of a pointer that are told apart.  Of a store, the value and the address without its casts, if that is
    a GEP. -/
inductive PointerUser (α ν κ : Type) where
  | store (value : α) (dst : Option (StoreGEP ν κ))
  | cast
  | phi
  | binary
  | gep
  | other

/-- The values of a module with their uses.  They have no cycle but through a PHI. -/
structure PointerGraph (α ν κ : Type) where
  inst : α → PointerUser α ν κ
  users : α → List α
  phis : CyclesMarked users fun u => inst u = .phi

/-- The two sets that the recursion adds to. -/
structure StoredTo (ν : Type) where
  srcs : List (TypeOffset ν)
  results : List ν

section

variable {α ν κ : Type} [DecidableEq ν] (dl : DataLayout ν κ)

def StoredTo.insertSrc (found : StoredTo ν) (field : TypeOffset ν) : StoredTo ν :=
  { found with srcs := found.srcs.insert field }

def StoredTo.insertResult (found : StoredTo ν) (name : ν) : StoredTo ν :=
  { found with results := found.results.insert name }

/-- The structure that the stored pointer points to, as far as the GEP tells. -/
def StoreGEP.structType (gep : StoreGEP ν κ) : Option ν :=
  match gep.type.getPointerBaseType.asStruct with
  | some name => some name
  | none => ((getTypeByOffset dl gep.sourceElementType (UInt64.ofInt gep.offset)).map LType.getPointerBaseType).bind
      LType.asStruct

/-- The address is one past the end of a structure, and there is another one behind it. -/
def StoreGEP.subclassType (gep : StoreGEP ν κ) (base : ν) : Option ν :=
  if asInt (dl.size base) ≤ gep.offset then
    ((findStructMemberTypeInSubclass dl base gep.offset gep.pointerUsers).map LType.getPointerBaseType).bind LType.asStruct
  else none

/-- A store of the pointer through a GEP. -/
def StoredTo.atStore (found : StoredTo ν) (gep : StoreGEP ν κ) : StoredTo ν :=
  if gep.offset = -1 then found
  else match gep.sourceElementType.asStruct with
    | none => found
    | some base =>
      match gep.structType dl with
      | some name => found.insertResult name
      | none =>
        let found := found.insertSrc ⟨base, gep.offset⟩
        match gep.subclassType dl base with
        | some name => found.insertResult name
        | none => found

variable [DecidableEq α] (g : PointerGraph α ν κ)

/-- The body of the loop over the users of `v`, with the recursive call. -/
def atUser (recurse : α → StoredTo ν → Option (StoredTo ν)) (v : α) (found : StoredTo ν) (u : α) : Option (StoredTo ν) :=
  match g.inst u with
  | .store value dst =>
    if value = v then
      match dst with
      | some gep => some (found.atStore dl gep)
      | none => some found
    else some found
  -- no user is remembered: one that has been here before is gone into again
  | .cast | .phi => recurse u found
  | .binary => recurse u found
  | .gep => recurse u found
  | .other => some found

/-- No result where the recursion is deeper than `fuel`. -/
def findPointerStoredToType : Nat → α → StoredTo ν → Option (StoredTo ν)
  | 0, _, _ => none
  | fuel + 1, v, found => (g.users v).foldlM (atUser dl g (findPointerStoredToType fuel) v) found

/-- From the value, whatever has been found before, the recursion ends. -/
def Terminates (v : α) : Prop := ∀ found, ∃ fuel result, findPointerStoredToType dl g fuel v found = some result

end

/-! ## When it ends -/

section

variable {α ν κ : Type}

def PointerUser.followed : PointerUser α ν κ → Bool
  | cast | phi | binary | gep => true
  | store _ _ | other => false

/-- What the recursion goes on with. -/
def PointerGraph.followed (g : PointerGraph α ν κ) (v : α) : List α := (g.users v).filter fun u => (g.inst u).followed

variable [DecidableEq α] [DecidableEq ν] {dl : DataLayout ν κ} {g : PointerGraph α ν κ}

theorem atUser_followed {u : α} (follows : (g.inst u).followed = true)
    (recurse : α → StoredTo ν → Option (StoredTo ν)) (v : α) (found : StoredTo ν) :
    atUser dl g recurse v found u = recurse u found := by
  unfold atUser
  cases inst : g.inst u with
  | cast | phi | binary | gep => rfl
  | store | other => simp [inst, PointerUser.followed] at follows

theorem atUser_unfollowed {u : α} (stops : (g.inst u).followed = false)
    (recurse : α → StoredTo ν → Option (StoredTo ν)) (v : α) (found : StoredTo ν) :
    ∃ result, atUser dl g recurse v found u = some result := by
  unfold atUser
  cases inst : g.inst u with
  | cast | phi | binary | gep => simp [inst, PointerUser.followed] at stops
  | other => exact ⟨found, rfl⟩
  | store value dst =>
    dsimp only
    split_ifs
    · cases dst with
      | none => exact ⟨found, rfl⟩
      | some gep => exact ⟨_, rfl⟩
    · exact ⟨found, rfl⟩

theorem returns_of_shallow {fuel : Nat} {v : α} (shallow : Shallow g.followed fuel v) (found : StoredTo ν) :
    ∃ result, findPointerStoredToType dl g fuel v found = some result := by
  induction fuel generalizing v found with
  | zero => exact shallow.elim
  | succ fuel ih =>
    obtain ⟨result, returns, -⟩ := foldlM_returns (f := atUser dl g (findPointerStoredToType dl g fuel) v)
      (l := g.users v) (I := fun _ => True) (s := found)
      (by
        intro found u use _
        cases follows : (g.inst u).followed with
        | true =>
          rw [atUser_followed follows]
          obtain ⟨result, returns⟩ := ih (shallow u (List.mem_filter.mpr ⟨use, follows⟩)) found
          exact ⟨result, returns, trivial⟩
        | false =>
          obtain ⟨result, returns⟩ := atUser_unfollowed follows (findPointerStoredToType dl g fuel) v found
          exact ⟨result, returns, trivial⟩)
      trivial
    exact ⟨result, returns⟩

theorem eq_none_of_not_shallow {fuel : Nat} {v : α} (deep : ¬ Shallow g.followed fuel v) (found : StoredTo ν) :
    findPointerStoredToType dl g fuel v found = none := by
  induction fuel generalizing v found with
  | zero => rfl
  | succ fuel ih =>
    simp only [Shallow, not_forall] at deep
    -- one user that is gone into without end is enough, whatever the loop has found before it
    obtain ⟨u, edge, deep⟩ := deep
    obtain ⟨use, follows⟩ := List.mem_filter.mp edge
    refine foldlM_eq_none use (fun found => ?_) found
    rw [atUser_followed follows]
    exact ih deep found

/-- The recursion ends exactly from the values that lead to no cycle. -/
theorem findPointerStoredToType_terminates_iff [Fintype α] (dl : DataLayout ν κ) (g : PointerGraph α ν κ) (v : α) :
    Terminates dl g v ↔
      ∀ u, ReflTransGen (Edge g.followed) v u → ¬ TransGen (Edge g.followed) u u := by
  rw [← exists_shallow_iff]
  constructor
  · intro terminates
    obtain ⟨fuel, result, returns⟩ := terminates ⟨[], []⟩
    refine ⟨fuel, ?_⟩
    by_contra deep
    rw [eq_none_of_not_shallow deep] at returns
    cases returns
  · rintro ⟨fuel, shallow⟩ found
    exact ⟨fuel, returns_of_shallow shallow found⟩

end

/-! ## A pointer that a loop moves on -/

/-- The allocation, the PHI at the head of the loop, and the GEP to the next element. -/
def loopInst : Fin 3 → PointerUser (Fin 3) Unit Unit
  | 0 => .other
  | 1 => .phi
  | 2 => .gep

def loopUsers : Fin 3 → List (Fin 3)
  | 0 => [1]
  | 1 => [2]
  | 2 => [1]

theorem loop_phis : CyclesMarked loopUsers fun u => loopInst u = .phi := by
  intro v cycle
  -- a step to an instruction that is no PHI is the one from the PHI to the GEP
  have only : ∀ a b, Edge loopUsers a b ∧ loopInst b ≠ .phi → a = 1 ∧ b = 2 := by
    rintro a b ⟨edge, notPhi⟩
    match a with
    | 0 => exact absurd (congrArg loopInst (List.mem_singleton.mp edge)) notPhi
    | 1 => exact ⟨rfl, List.mem_singleton.mp edge⟩
    | 2 => exact absurd (congrArg loopInst (List.mem_singleton.mp edge)) notPhi
  obtain ⟨b, first, -⟩ := TransGen.head'_iff.mp cycle
  obtain ⟨a, -, last⟩ := TransGen.tail'_iff.mp cycle
  have starts := (only v b first).1
  rw [(only a v last).2] at starts
  cases starts

def movingPointer : PointerGraph (Fin 3) Unit Unit := ⟨loopInst, loopUsers, loop_phis⟩

def emptyLayout : DataLayout Unit Unit := ⟨fun _ => ⟨0, [], by decide⟩, fun _ => nofun⟩

theorem not_terminates_movingPointer :
    (∀ fuel found, findPointerStoredToType emptyLayout movingPointer fuel 0 found = none) ∧
      ¬ Terminates emptyLayout movingPointer 0 := by
  have cycle : TransGen (Edge movingPointer.followed) 1 1 :=
    .tail (.single (show 2 ∈ movingPointer.followed 1 by decide)) (show 1 ∈ movingPointer.followed 2 by decide)
  have deep (fuel : Nat) : ¬ Shallow movingPointer.followed fuel 0 := fun shallow =>
    not_shallow_of_cycle cycle fuel (shallow.reflTransGen (.single (show 1 ∈ movingPointer.followed 0 by decide)))
  refine ⟨fun fuel found => eq_none_of_not_shallow (deep fuel) found, fun terminates => ?_⟩
  obtain ⟨fuel, result, returns⟩ := terminates ⟨[], []⟩
  rw [eq_none_of_not_shallow (deep fuel)] at returns
  cases returns

end DevFuzz.Analysis.PointerStores
