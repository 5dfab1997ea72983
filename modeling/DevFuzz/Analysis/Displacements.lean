import DevFuzz.Analysis.Chains
import DevFuzz.Lib.Search

/-! # Displacements of MMIO sub-regions

`doFindMMIORegionPtrs` of `stage2/src/apstage2.cpp` follows a pointer to an MMIO region from use
to use, and keeps an account of how far it has come from the base.  When the pointer is
stored into a field of a structure, the field is recorded with that distance.

The account is an `int`.  Casts do not change it, also when they cut the pointer; a
subtraction counts the same on both sides; and after any operator but addition
and subtraction it is a variable that nothing was assigned to.  `displaced_iff` says for which
chains the distance is the true one.
-/

namespace DevFuzz.Analysis.Displacements

open DevFuzz.Lib

/-! ## Low bits -/

theorem setWidth_sub_of_le {k w : Nat} (room : k ≤ w) (a b : BitVec w) :
    (a - b).setWidth k = a.setWidth k - b.setWidth k := by
  rw [BitVec.sub_eq_add_neg, BitVec.setWidth_add _ _ room, BitVec.setWidth_neg_of_le room, ← BitVec.sub_eq_add_neg]

theorem setWidth_signExtend_of_le {k v w : Nat} (room : k ≤ v) (room' : k ≤ w) (a : BitVec v) :
    (a.signExtend w).setWidth k = a.setWidth k := by
  ext i inside
  have fits : i < v := by omega
  have fits' : i < w := by omega
  simp [BitVec.getElem_setWidth, BitVec.getElem_signExtend, fits, fits']

/-! ## What a chain computes -/

/-- A value with the width of its type. -/
abbrev Word := (w : Nat) × BitVec w

/-- Division by zero or with overflow, and a shift by the width or more, have no result. -/
def exec {w : Nat} (a b : BitVec w) : BinaryOps → Option (BitVec w)
  | .add => some (a + b)
  | .sub => some (a - b)
  | .mul => some (a * b)
  | .udiv => if b = 0 then none else some (a.udiv b)
  | .sdiv => if b = 0 ∨ (a = BitVec.intMin w ∧ b = -1) then none else some (a.sdiv b)
  | .urem => if b = 0 then none else some (a.umod b)
  | .srem => if b = 0 ∨ (a = BitVec.intMin w ∧ b = -1) then none else some (a.srem b)
  | .shl => if b.toNat < w then some (a <<< b.toNat) else none
  | .lshr => if b.toNat < w then some (a >>> b.toNat) else none
  | .ashr => if b.toNat < w then some (a.sshiftRight b.toNat) else none
  | .and => some (a &&& b)
  | .or => some (a ||| b)
  | .xor => some (a ^^^ b)

/-- An instruction between the base and the store.  A constant is what `getSExtValue` gives for it, and the offset
    of a GEP what `accumulateConstantOffset` gives. -/
inductive Step where
  | binary (opcode : BinaryOps) (side : Side) (constant : BitVec 64)
  | cast (width : Nat) (signed : Bool)
  | gep (offset : BitVec 64)

namespace Step

/-- The result of the instruction.  A pointer has 64 bits. -/
def apply : Step → Word → Option Word
  | binary opcode side constant, ⟨w, v⟩ =>
    let operands := side.operands (constant.signExtend w) v
    (exec operands.1 operands.2 opcode).map (Sigma.mk w)
  | cast width true, ⟨_, v⟩ => some ⟨width, v.signExtend width⟩
  | cast width false, ⟨_, v⟩ => some ⟨width, v.setWidth width⟩
  | gep offset, ⟨_, v⟩ => some ⟨64, v.setWidth 64 + offset⟩

end Step

/-- What is stored, for a base. -/
def stored (steps : List Step) (base : BitVec 64) : Option Word := steps.foldlM (fun v s => s.apply v) ⟨64, base⟩

/-! ## The pass -/

section

variable {κ : Type} [DecidableEq κ]

/-- `mmioRegions`: the base offset for the key of a field. -/
abbrev Regions (κ : Type) := κ → Option (BitVec 32)

/-- A store of the pointer: the key of the field where the source finds its structure and its offset, and the key
    that `findTypeOffsetAlias` gives where it is asked and finds one. -/
structure Sink (κ : Type) where
  key : Option κ
  aliasKey : Option κ

def Sink.record (sink : Sink κ) (baseOff : BitVec 32) (regions : Regions κ) : Regions κ :=
  match sink.key with
  | none => regions
  | some key =>
    if (regions key).isSome then regions else
      let regions := Function.update regions key (some baseOff)
      match sink.aliasKey with
      | none => regions
      | some key => Function.update regions key (some baseOff)

/-- An instruction with its users.  An operator comes with the constant among its operands, the left one first, and
    the offset of a GEP is what `getGEPOffset` returns. -/
inductive User (κ : Type) where
  | store (sink : Sink κ)
  | binary (opcode : BinaryOps) (constant : Option (Side × BitVec 64)) (users : List (User κ))
  | cast (users : List (User κ))
  | gep (offset : BitVec 32) (users : List (User κ))
  | other

/-- `new_base_off`.  Nothing is assigned to it for other operators, so that it is what was there. -/
def newBaseOff (garbage : BitVec 32) (opcode : BinaryOps) (baseOff : BitVec 32) (constant : BitVec 64) : BitVec 32 :=
  match opcode with
  | .add => (baseOff.signExtend 64 + constant).setWidth 32
  | .sub => (baseOff.signExtend 64 - constant).setWidth 32
  | _ => garbage

mutual

def doFindMMIORegionPtrs (garbage : BitVec 32) : User κ → BitVec 32 → Regions κ → Regions κ
  | .store sink, baseOff, regions => sink.record baseOff regions
  | .binary _ none _, _, regions => regions
  | .binary opcode (some (_, constant)) users, baseOff, regions =>
    doFindInUsers garbage users (newBaseOff garbage opcode baseOff constant) regions
  | .cast users, baseOff, regions => doFindInUsers garbage users baseOff regions
  | .gep offset users, baseOff, regions =>
    if offset = -1 then regions else doFindInUsers garbage users (baseOff + offset) regions
  | .other, _, regions => regions

/-- The loop over the users. -/
def doFindInUsers (garbage : BitVec 32) : List (User κ) → BitVec 32 → Regions κ → Regions κ
  | [], _, regions => regions
  | u :: rest, baseOff, regions => doFindInUsers garbage rest baseOff (doFindMMIORegionPtrs garbage u baseOff regions)

end

/-! ## The account of a chain -/

/-- What the pass makes of an instruction of a chain; it does not go on behind an offset of `-1`. -/
def Step.count (garbage baseOff : BitVec 32) : Step → Option (BitVec 32)
  | binary opcode _ constant => some (newBaseOff garbage opcode baseOff constant)
  | cast _ _ => some baseOff
  | gep offset => if offset.setWidth 32 = -1 then none else some (baseOff + offset.setWidth 32)

def counted (garbage : BitVec 32) (steps : List Step) (baseOff : BitVec 32) : Option (BitVec 32) :=
  steps.foldlM (fun baseOff s => s.count garbage baseOff) baseOff

def Step.user (users : List (User κ)) : Step → User κ
  | binary opcode side constant => .binary opcode (some (side, constant)) users
  | cast _ _ => .cast users
  | gep offset => .gep (offset.setWidth 32) users

/-- The uses of a base that is stored at the end of a chain. -/
def chain (steps : List Step) (sink : Sink κ) : User κ := steps.foldr (fun s u => s.user [u]) (.store sink)

/-- A step of the walk over a chain. -/
theorem doFind_user (garbage baseOff : BitVec 32) (s : Step) (u : User κ) (regions : Regions κ) :
    doFindMMIORegionPtrs garbage (s.user [u]) baseOff regions =
      match s.count garbage baseOff with
      | some baseOff => doFindMMIORegionPtrs garbage u baseOff regions
      | none => regions := by
  cases s with
  | binary opcode side constant => rfl
  | cast width signed => rfl
  | gep offset =>
    simp only [Step.user, Step.count, doFindMMIORegionPtrs]
    split_ifs <;> rfl

theorem doFind_chain (garbage baseOff : BitVec 32) (steps : List Step) (sink : Sink κ) (regions : Regions κ) :
    doFindMMIORegionPtrs garbage (chain steps sink) baseOff regions =
      match counted garbage steps baseOff with
      | some baseOff => sink.record baseOff regions
      | none => regions := by
  induction steps generalizing baseOff with
  | nil => rfl
  | cons s rest ih =>
    rw [chain, List.foldr_cons, ← chain, doFind_user, counted, List.foldlM_cons]
    cases s.count garbage baseOff with
    | none => rfl
    | some baseOff => exact ih baseOff

end

/-! ## Linear chains -/

namespace Step

/-- Addition and subtraction are all there is of arithmetic. -/
def linear : Step → Bool
  | binary opcode _ _ => opcode = .add ∨ opcode = .sub
  | cast _ _ | gep _ => true

/-- No bit of the pointer is cut. -/
def wide : Step → Bool
  | cast width _ => 64 ≤ width
  | binary _ _ _ | gep _ => true

/-- The pointer is subtracted from a constant. -/
def negates : Step → Bool
  | binary .sub .left _ => true
  | binary _ _ _ | cast _ _ | gep _ => false

/-- What a linear step does to the low 64 bits. -/
def low (y : BitVec 64) : Step → BitVec 64
  | binary .sub .left constant => constant - y
  | binary .sub .right constant => y - constant
  | binary _ _ constant => y + constant
  | cast _ _ => y
  | gep offset => y + offset

/-- The width of the result. -/
def width (w : Nat) : Step → Nat
  | binary _ _ _ => w
  | cast width _ => width
  | gep _ => 64

theorem le_width {s : Step} (wide : s.wide = true) {w : Nat} (room : 64 ≤ w) : 64 ≤ s.width w := by
  cases s with
  | binary opcode side constant => exact room
  | cast width signed => exact of_decide_eq_true wide
  | gep offset => exact Nat.le_refl 64

/-- A linear step works on the low 64 bits alone. -/
theorem apply_of_linear {s : Step} (linear : s.linear = true) (wide : s.wide = true) {w : Nat} (room : 64 ≤ w)
    (v : BitVec w) : ∃ v' : BitVec (s.width w), s.apply ⟨w, v⟩ = some ⟨s.width w, v'⟩ ∧
      v'.setWidth 64 = s.low (v.setWidth 64) := by
  cases s with
  | binary opcode side constant =>
    have operand : (constant.signExtend w).setWidth 64 = constant := by
      rw [setWidth_signExtend_of_le (Nat.le_refl 64) room, BitVec.setWidth_eq]
    cases of_decide_eq_true linear with
    | inl add =>
      subst add
      cases side with
      | left =>
        have low : (constant.signExtend w + v).setWidth 64 = v.setWidth 64 + constant := by
          rw [BitVec.setWidth_add _ _ room, operand, BitVec.add_comm]
        exact ⟨_, rfl, low⟩
      | right =>
        have low : (v + constant.signExtend w).setWidth 64 = v.setWidth 64 + constant := by
          rw [BitVec.setWidth_add _ _ room, operand]
        exact ⟨_, rfl, low⟩
    | inr sub =>
      subst sub
      cases side with
      | left =>
        have low : (constant.signExtend w - v).setWidth 64 = constant - v.setWidth 64 := by
          rw [setWidth_sub_of_le room, operand]
        exact ⟨_, rfl, low⟩
      | right =>
        have low : (v - constant.signExtend w).setWidth 64 = v.setWidth 64 - constant := by
          rw [setWidth_sub_of_le room, operand]
        exact ⟨_, rfl, low⟩
  | cast width signed =>
    have room' : 64 ≤ width := of_decide_eq_true wide
    cases signed with
    | true => exact ⟨v.signExtend width, rfl, setWidth_signExtend_of_le room room' v⟩
    | false => exact ⟨v.setWidth width, rfl, BitVec.setWidth_setWidth_of_le v room'⟩
  | gep offset => exact ⟨v.setWidth 64 + offset, rfl, BitVec.setWidth_eq _⟩

/-- A cast that cuts the pointer takes the same bits of both values. -/
theorem apply_of_cut {s : Step} (cut : s.wide = false) {w : Nat} (room : 64 ≤ w) {a b : BitVec w}
    (differ : b.setWidth 64 = a.setWidth 64 + BitVec.intMin 64) : s.apply ⟨w, a⟩ = s.apply ⟨w, b⟩ := by
  cases s with
  | binary opcode side constant => cases cut
  | gep offset => cases cut
  | cast width signed =>
    have narrow : width < 64 := Nat.lt_of_not_le (of_decide_eq_false cut)
    have lost : (BitVec.intMin 64).setWidth width = .ofNat width 0 := by
      ext i inside
      have below : ¬ i = 63 := by omega
      simp [BitVec.getElem_setWidth, BitVec.getLsbD_intMin, below]
    have same : b.setWidth width = a.setWidth width := by
      rw [← BitVec.setWidth_setWidth_of_le b (Nat.le_of_lt narrow), differ, BitVec.setWidth_add _ _ (Nat.le_of_lt narrow),
        BitVec.setWidth_setWidth_of_le a (Nat.le_of_lt narrow), lost, BitVec.add_zero]
    cases signed with
    | true =>
      have short : width ≤ w := by omega
      rw [apply, apply, BitVec.signExtend_eq_setWidth_of_le a short, BitVec.signExtend_eq_setWidth_of_le b short, same]
    | false => rw [apply, apply, same]

theorem low_add (s : Step) (y e : BitVec 64) : s.low (y + e) = s.low y + if s.negates then -e else e := by
  cases s with
  | binary opcode side constant =>
    cases opcode with
    | sub =>
      cases side with
      | left => simp only [low, negates]; grind
      | right => simp only [low, negates]; grind
    | _ => simp only [low, negates]; grind
  | cast width signed => rfl
  | gep offset => simp only [low, negates]; grind

end Step

/-- The low 64 bits at the end of a linear chain. -/
def lowStored (steps : List Step) (y : BitVec 64) : BitVec 64 := steps.foldl (fun y s => s.low y) y

theorem lowStored_cons (s : Step) (rest : List Step) (y : BitVec 64) :
    lowStored (s :: rest) y = lowStored rest (s.low y) := rfl

/-- How far a linear chain goes from its base. -/
def displacement (steps : List Step) : BitVec 64 := lowStored steps 0

theorem lowStored_add (steps : List Step) (y e : BitVec 64) :
    lowStored steps (y + e) = lowStored steps y + if steps.countP Step.negates % 2 = 0 then e else -e := by
  induction steps generalizing y e with
  | nil => rfl
  | cons s rest ih =>
    rw [lowStored_cons, s.low_add, ih, lowStored_cons, List.countP_cons]
    cases s.negates with
    | false => simp
    | true =>
      -- one more subtraction from a constant turns the sign round
      have parity : (rest.countP Step.negates + 1) % 2 = 0 ↔ ¬ rest.countP Step.negates % 2 = 0 := by omega
      simp only [if_true, parity]
      by_cases even : rest.countP Step.negates % 2 = 0
      · simp [even]
      · simp [even]

theorem lowStored_eq (steps : List Step) (base : BitVec 64) :
    lowStored steps base = displacement steps + if steps.countP Step.negates % 2 = 0 then base else -base := by
  rw [displacement, ← lowStored_add]
  exact congrArg (lowStored steps) (BitVec.zero_add base).symm

section

variable {steps : List Step} (linear : ∀ s ∈ steps, s.linear = true)

include linear

theorem foldlM_apply_of_linear (wide : ∀ s ∈ steps, s.wide = true) {w : Nat} (room : 64 ≤ w) (v : BitVec w) :
    ∃ v', steps.foldlM (fun v s => s.apply v) ⟨w, v⟩ = some v' ∧
      v'.2.setWidth 64 = lowStored steps (v.setWidth 64) := by
  induction steps generalizing w with
  | nil => exact ⟨_, rfl, rfl⟩
  | cons s rest ih =>
    obtain ⟨linear, linears⟩ := List.forall_mem_cons.mp linear
    obtain ⟨wide, wides⟩ := List.forall_mem_cons.mp wide
    obtain ⟨v', first, low⟩ := Step.apply_of_linear linear wide room v
    obtain ⟨v'', later, lows⟩ := ih linears wides (Step.le_width wide room) v'
    refine ⟨v'', ?_, lows.trans ?_⟩
    · rw [List.foldlM_cons, first]
      exact later
    · rw [low]
      rfl

theorem stored_of_linear (wide : ∀ s ∈ steps, s.wide = true) (base : BitVec 64) :
    ∃ v, stored steps base = some v ∧ v.2.setWidth 64 = lowStored steps base := by
  obtain ⟨v, result, low⟩ := foldlM_apply_of_linear linear wide (Nat.le_refl 64) base
  exact ⟨v, result, low.trans (by rw [BitVec.setWidth_eq])⟩

/-- Where the pointer is cut, the highest bit of the base is lost. -/
theorem foldlM_apply_of_cut (cut : ∃ s ∈ steps, s.wide = false) {w : Nat} (room : 64 ≤ w) {a b : BitVec w}
    (differ : b.setWidth 64 = a.setWidth 64 + BitVec.intMin 64) :
    steps.foldlM (fun v s => s.apply v) ⟨w, a⟩ = steps.foldlM (fun v s => s.apply v) ⟨w, b⟩ := by
  induction steps generalizing w with
  | nil => simp at cut
  | cons s rest ih =>
    obtain ⟨linear, linears⟩ := List.forall_mem_cons.mp linear
    rw [List.foldlM_cons, List.foldlM_cons]
    cases wide : s.wide with
    | false => rw [s.apply_of_cut wide room differ]
    | true =>
      obtain ⟨a', firstA, lowA⟩ := Step.apply_of_linear linear wide room a
      obtain ⟨b', firstB, lowB⟩ := Step.apply_of_linear linear wide room b
      have later : ∃ s ∈ rest, s.wide = false := by
        obtain ⟨t, member, narrow⟩ := cut
        cases member with
        | head => simp [wide] at narrow
        | tail _ member => exact ⟨t, member, narrow⟩
      rw [firstA, firstB]
      refine ih linears later (Step.le_width wide room) ?_
      rw [lowA, lowB, differ, s.low_add]
      cases s.negates <;> rfl

end

/-! ## The account of a linear chain -/

namespace Step

/-- What a linear step adds to the account. -/
def distance : Step → BitVec 32
  | binary .add _ constant => constant.setWidth 32
  | binary .sub _ constant => -constant.setWidth 32
  | binary _ _ _ | cast _ _ => 0
  | gep offset => offset.setWidth 32

/-- The offset is taken for a failure. -/
def stops : Step → Bool
  | gep offset => offset.setWidth 32 = -1
  | binary _ _ _ | cast _ _ => false

variable {s : Step} (garbage baseOff : BitVec 32)

theorem count_of_stops (stops : s.stops = true) : s.count garbage baseOff = none := by
  cases s with
  | binary opcode side constant => cases stops
  | cast width signed => cases stops
  | gep offset => exact if_pos (of_decide_eq_true stops)

theorem count_of_linear (linear : s.linear = true) (goes : s.stops = false) :
    s.count garbage baseOff = some (baseOff + s.distance) := by
  cases s with
  | binary opcode side constant =>
    have known : (baseOff.signExtend 64).setWidth 32 = baseOff := by
      rw [setWidth_signExtend_of_le (Nat.le_refl 32) (by decide), BitVec.setWidth_eq]
    cases of_decide_eq_true linear with
    | inl add =>
      subst add
      rw [count, newBaseOff, BitVec.setWidth_add _ _ (by decide), known, distance]
    | inr sub =>
      subst sub
      rw [count, newBaseOff, setWidth_sub_of_le (by decide), known, distance, BitVec.sub_eq_add_neg]
  | cast width signed => exact congrArg some (BitVec.add_zero baseOff).symm
  | gep offset => exact if_neg (of_decide_eq_false goes)

/-- Behind any other operator the account is what was there. -/
theorem count_of_not_linear (other : s.linear = false) : s.count garbage baseOff = some garbage := by
  cases s with
  | binary opcode side constant =>
    cases opcode with
    | add => cases other
    | sub => cases other
    | _ => rfl
  | cast width signed => cases other
  | gep offset => cases other

end Step

/-- The account of a linear chain. -/
def account (steps : List Step) : BitVec 32 := steps.foldr (fun s d => s.distance + d) 0

section

variable {steps : List Step}

theorem counted_of_stops (stops : ∃ s ∈ steps, s.stops = true) (garbage baseOff : BitVec 32) :
    counted garbage steps baseOff = none := by
  obtain ⟨s, member, stops⟩ := stops
  exact foldlM_eq_none member (fun baseOff => s.count_of_stops garbage baseOff stops) baseOff

variable (goes : ∀ s ∈ steps, s.stops = false)

include goes

theorem counted_of_linear (linear : ∀ s ∈ steps, s.linear = true) (garbage baseOff : BitVec 32) :
    counted garbage steps baseOff = some (baseOff + account steps) := by
  induction steps generalizing baseOff with
  | nil => exact congrArg some (BitVec.add_zero baseOff).symm
  | cons s rest ih =>
    obtain ⟨linear, linears⟩ := List.forall_mem_cons.mp linear
    obtain ⟨goes, going⟩ := List.forall_mem_cons.mp goes
    rw [counted, List.foldlM_cons, s.count_of_linear garbage baseOff linear goes]
    refine (ih going linears (baseOff + s.distance)).trans ?_
    exact congrArg some (BitVec.add_assoc baseOff s.distance (account rest))

/-- With another operator on the chain, the account depends on what was there. -/
theorem counted_of_not_linear (other : ∃ s ∈ steps, s.linear = false) :
    ∃ k, ∀ garbage baseOff, counted garbage steps baseOff = some (garbage + k) := by
  induction steps with
  | nil => simp at other
  | cons s rest ih =>
    obtain ⟨goes, going⟩ := List.forall_mem_cons.mp goes
    by_cases later : ∃ s ∈ rest, s.linear = false
    · obtain ⟨k, all⟩ := ih going later
      refine ⟨k, fun garbage baseOff => ?_⟩
      cases linear : s.linear with
      | true =>
        rw [counted, List.foldlM_cons, s.count_of_linear garbage baseOff linear goes]
        exact all garbage _
      | false =>
        rw [counted, List.foldlM_cons, s.count_of_not_linear garbage baseOff linear]
        exact all garbage _
    · have linears : ∀ s ∈ rest, s.linear = true := fun t member =>
        Bool.of_not_eq_false fun other => later ⟨t, member, other⟩
      have here : s.linear = false := by
        obtain ⟨t, member, other⟩ := other
        cases member with
        | head => exact other
        | tail _ member => exact absurd ⟨t, member, other⟩ later
      refine ⟨account rest, fun garbage baseOff => ?_⟩
      rw [counted, List.foldlM_cons, s.count_of_not_linear garbage baseOff here]
      exact counted_of_linear going linears garbage garbage

end

/-! ## True displacements -/

/-- A chain to the store into a field that is not yet recorded. -/
structure StoredPointer (κ : Type) where
  steps : List Step
  key : κ
  aliasKey : Option κ
  regions : Regions κ
  fresh : regions key = none

namespace StoredPointer

variable {κ : Type} [DecidableEq κ] (p : StoredPointer κ)

/-- The table after the chain has been followed. -/
def after (garbage : BitVec 32) : Regions κ :=
  doFindMMIORegionPtrs garbage (chain p.steps ⟨some p.key, p.aliasKey⟩) 0 p.regions

/-- What is recorded for the field is the distance of the stored pointer from every base at the start of a page. -/
def Displaced : Prop :=
  ∀ garbage d, p.after garbage p.key = some d → ∀ base : BitVec 64, 4096 ∣ base.toNat →
    ∃ v, stored p.steps base = some v ∧ v.2.setWidth 64 = base + d.signExtend 64

/-- Addition and subtraction of constants on the whole pointer, from a constant an even number of times, by as much
    as the account says. -/
structure Linear : Prop where
  linear : ∀ s ∈ p.steps, s.linear = true
  wide : ∀ s ∈ p.steps, s.wide = true
  even : p.steps.countP Step.negates % 2 = 0
  exact : displacement p.steps = (account p.steps).signExtend 64

theorem after_key (garbage : BitVec 32) : p.after garbage p.key = counted garbage p.steps 0 := by
  rw [after, doFind_chain]
  cases counted garbage p.steps 0 with
  | none => exact p.fresh
  | some d =>
    dsimp only [Sink.record]
    rw [if_neg (by simp [p.fresh])]
    cases p.aliasKey with
    | none => exact Function.update_self ..
    | some key =>
      by_cases same : p.key = key
      · rw [same]
        exact Function.update_self ..
      · exact (Function.update_of_ne same ..).trans (Function.update_self ..)

theorem signExtend_injective {d e : BitVec 32} (same : d.signExtend 64 = e.signExtend 64) : d = e := by
  have low : ∀ d : BitVec 32, (d.signExtend 64).setWidth 32 = d := fun d => by
    rw [setWidth_signExtend_of_le (Nat.le_refl 32) (by decide), BitVec.setWidth_eq]
  rw [← low d, same, low e]

section

variable {p}

theorem Linear.displaced (linear : p.Linear) : p.Displaced := by
  intro garbage d recorded base _
  rw [after_key] at recorded
  by_cases stops : ∃ s ∈ p.steps, s.stops = true
  · rw [counted_of_stops stops] at recorded
    cases recorded
  · have goes : ∀ s ∈ p.steps, s.stops = false := fun s member =>
      Bool.of_not_eq_true fun here => stops ⟨s, member, here⟩
    rw [counted_of_linear goes linear.linear] at recorded
    obtain ⟨v, result, low⟩ := stored_of_linear linear.linear linear.wide base
    refine ⟨v, result, low.trans ?_⟩
    have exact : (0 + account p.steps).signExtend 64 = displacement p.steps := by
      rw [linear.exact]
      exact congrArg (BitVec.signExtend 64) (BitVec.zero_add _)
    rw [lowStored_eq, if_pos linear.even, ← Option.some.inj recorded, exact, BitVec.add_comm]

/-- What is recorded is the same for all that was in the variable. -/
theorem Displaced.linear (displaced : p.Displaced) (goes : ∀ s ∈ p.steps, s.stops = false) :
    ∀ s ∈ p.steps, s.linear = true := by
  by_contra other
  simp only [not_forall, Bool.not_eq_true] at other
  obtain ⟨s, member, other⟩ := other
  obtain ⟨k, all⟩ := counted_of_not_linear goes ⟨s, member, other⟩
  obtain ⟨v, result, first⟩ := displaced 0 (0 + k) ((p.after_key 0).trans (all 0 0)) 0 (Nat.dvd_zero _)
  obtain ⟨v', result', second⟩ := displaced 1 (1 + k) ((p.after_key 1).trans (all 1 0)) 0 (Nat.dvd_zero _)
  obtain rfl := Option.some.inj (result.symm.trans result')
  have same : (0 : BitVec 64) + (0 + k).signExtend 64 = 0 + (1 + k).signExtend 64 := first.symm.trans second
  have garbage : (0 : BitVec 32) + k = 1 + k := signExtend_injective (BitVec.add_right_inj _ |>.mp same)
  exact absurd ((BitVec.add_left_inj k).mp garbage) (by decide)

/-- Two bases that differ in the highest bit are told apart. -/
theorem Displaced.wide (displaced : p.Displaced) (goes : ∀ s ∈ p.steps, s.stops = false) :
    ∀ s ∈ p.steps, s.wide = true := by
  have linear := displaced.linear goes
  by_contra cut
  simp only [not_forall, Bool.not_eq_true] at cut
  obtain ⟨s, member, cut⟩ := cut
  have recorded := (p.after_key 0).trans (counted_of_linear goes linear 0 0)
  obtain ⟨v, result, low⟩ := displaced 0 _ recorded 0 (Nat.dvd_zero _)
  obtain ⟨v', result', low'⟩ := displaced 0 _ recorded (BitVec.intMin 64) (by decide)
  have same : stored p.steps 0 = stored p.steps (BitVec.intMin 64) :=
    foldlM_apply_of_cut linear ⟨s, member, cut⟩ (Nat.le_refl 64) (by decide)
  obtain rfl := Option.some.inj (result.symm.trans (same.trans result'))
  exact absurd ((BitVec.add_left_inj _).mp (low.symm.trans low')) (by decide)

theorem Displaced.isLinear (displaced : p.Displaced) (goes : ∀ s ∈ p.steps, s.stops = false) : p.Linear := by
  have linear := displaced.linear goes
  have wide := displaced.wide goes
  have recorded := (p.after_key 0).trans (counted_of_linear goes linear 0 0)
  have low : ∀ base : BitVec 64, 4096 ∣ base.toNat →
      displacement p.steps + (if p.steps.countP Step.negates % 2 = 0 then base else -base) =
        base + (account p.steps).signExtend 64 := by
    intro base page
    obtain ⟨v, result, low⟩ := displaced 0 _ recorded base page
    obtain ⟨v', result', low'⟩ := stored_of_linear linear wide base
    obtain rfl := Option.some.inj (result.symm.trans result')
    rw [← lowStored_eq, ← low', low]
    exact congrArg (fun d : BitVec 32 => base + d.signExtend 64) (BitVec.zero_add _)
  have exact : displacement p.steps = (account p.steps).signExtend 64 := by
    have first := low 0 (Nat.dvd_zero _)
    simpa using first
  refine ⟨linear, wide, ?_, exact⟩
  by_contra odd
  have second := low 4096 (by decide)
  rw [if_neg odd, exact, BitVec.add_comm, BitVec.add_left_inj] at second
  exact absurd second (by decide)

end

/-- The distance is right if the walk stops before the store or the chain is linear, and only then. -/
theorem displaced_iff : p.Displaced ↔ (∃ s ∈ p.steps, s.stops = true) ∨ p.Linear := by
  by_cases stops : ∃ s ∈ p.steps, s.stops = true
  · refine iff_of_true (fun garbage d recorded => ?_) (.inl stops)
    rw [after_key, counted_of_stops stops] at recorded
    cases recorded
  · rw [or_iff_right stops]
    have goes : ∀ s ∈ p.steps, s.stops = false := fun s member =>
      Bool.of_not_eq_true fun here => stops ⟨s, member, here⟩
    exact ⟨fun displaced => displaced.isLinear goes, Linear.displaced⟩

end StoredPointer

/-- A pointer that is stored after the given steps, into field 0 of an empty table. -/
def storedAfter (steps : List Step) : StoredPointer Nat where
  steps := steps
  key := 0
  aliasKey := none
  regions := fun _ => none
  fresh := rfl

/-- `16 - base` has no distance from the base, and is recorded with `-16`; `base | 4` is recorded with what was in the
    variable; and 4 GiB behind the base is recorded as the base. -/
theorem not_displaced_storedAfter :
    (∀ garbage, (storedAfter [.binary .sub .left 16]).after garbage 0 = some (-16)) ∧
      ¬ (storedAfter [.binary .sub .left 16]).Displaced ∧
      (∀ garbage, (storedAfter [.binary .or .right 4]).after garbage 0 = some garbage) ∧
      ¬ (storedAfter [.binary .or .right 4]).Displaced ∧
      (∀ garbage, (storedAfter [.gep 0x100000000]).after garbage 0 = some 0) ∧
      ¬ (storedAfter [.gep 0x100000000]).Displaced := by
  refine ⟨fun garbage => StoredPointer.after_key _ garbage, fun displaced => ?_,
    fun garbage => StoredPointer.after_key _ garbage, fun displaced => ?_,
    fun garbage => StoredPointer.after_key _ garbage, fun displaced => ?_⟩
  · exact absurd (displaced.isLinear (List.forall_mem_singleton.mpr rfl)).even (by decide)
  · exact absurd (displaced.linear (List.forall_mem_singleton.mpr rfl) _ List.mem_cons_self) (by decide)
  · exact absurd (displaced.isLinear (List.forall_mem_singleton.mpr rfl)).exact (by decide)

end DevFuzz.Analysis.Displacements
