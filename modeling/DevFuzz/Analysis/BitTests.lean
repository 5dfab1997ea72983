import DevFuzz.Analysis.Constraints

/-! # Bit tests

A branch on `(x & m) == c`, with `x` shifted before or not, is taken to both sides by
the dictionary: `bitTest_reachesBoth`.  Of the values that the recorded mask puts
into the dictionary, zero and one other settle it.
-/

namespace DevFuzz.Analysis

open DevFuzz.Lib DevFuzz.Stage2

/-! ## The predicates -/

/-- What is done to the field before the mask is applied. -/
inductive Shift (n : FieldSize) where
  | none
  | left (s : Fin n.bits)
  | right (s : Fin n.bits)

/-- `(x & mask) == const`, with the operands of `&` and `==` in either order. -/
structure BitTest (n : FieldSize) where
  shift : Shift n
  mask : BitVec n.bits
  const : BitVec n.bits
  negated : Bool
  maskLeft : Bool
  constLeft : Bool

variable {n : FieldSize}

namespace Shift

def apply (x : BitVec n.bits) : Shift n → BitVec n.bits
  | none => x
  | left s => x <<< s.val
  | right s => x >>> s.val

def expr : Shift n → Expression
  | none => .hwInput
  | left s => .arith .lshift .hwInput (.constant (UInt64.ofNat s.val))
  | right s => .arith .rshift .hwInput (.constant (UInt64.ofNat s.val))

/-- What the analyser does to the mask and the constant. -/
def undo (v : UInt64) : Shift n → UInt64
  | none => v
  | left s => v >>> UInt64.ofNat s.val
  | right s => v <<< UInt64.ofNat s.val

/-- The same in the width of the field. -/
def down (v : BitVec n.bits) : Shift n → BitVec n.bits
  | none => v
  | left s => v >>> s.val
  | right s => v <<< s.val

/-- The bits of a shifted field that can be set. -/
def image (i : Nat) : Shift n → Bool
  | none => true
  | left s => s.val ≤ i
  | right s => s.val + i < n.bits

variable (shift : Shift n)

@[simp] theorem apply_zero : shift.apply 0#n.bits = 0#n.bits := by cases shift <;> simp [apply]

@[simp] theorem undo_zero : shift.undo 0 = 0 := by cases shift <;> simp [undo]

theorem image_of_apply {x : BitVec n.bits} {i : Nat} (set : (shift.apply x).getLsbD i = true) :
    shift.image i = true := by
  cases shift with
  | none => rfl
  | left s =>
    simp only [apply, BitVec.getLsbD_shiftLeft, Bool.and_eq_true, Bool.not_eq_true', decide_eq_false_iff_not] at set
    simpa [image] using set.1.2
  | right s =>
    simp only [apply, BitVec.getLsbD_ushiftRight] at set
    simpa [image] using BitVec.lt_of_getLsbD set

theorem getLsbD_apply_down (v : BitVec n.bits) {i : Nat} (inside : i < n.bits) :
    (shift.apply (shift.down v)).getLsbD i = (shift.image i && v.getLsbD i) := by
  cases shift with
  | none => simp [apply, down, image]
  | left s =>
    simp only [apply, down, image, BitVec.getLsbD_shiftLeft, BitVec.getLsbD_ushiftRight, inside, decide_true,
      Bool.true_and]
    by_cases low : s.val ≤ i
    · rw [show s.val + (i - s.val) = i by omega]
      simp [low, Nat.not_lt.mpr low]
    · simp [low, Nat.not_le.mp low]
  | right s =>
    simp only [apply, down, image, BitVec.getLsbD_shiftLeft, BitVec.getLsbD_ushiftRight]
    have above : ¬ s.val + i < s.val := by omega
    simp [above]

theorem truncate_undo (v : BitVec n.bits) : truncate n (shift.undo (zExt v)) = shift.down v := by
  have wide := n.bits_le
  have amount : ∀ s : Fin n.bits, (UInt64.ofNat s.val).toBitVec.toNat % (64 : BitVec 64).toNat = s.val := by
    intro s
    have bound := s.isLt
    rw [UInt64.toNat_toBitVec, UInt64.toNat_ofNat_of_lt' (by simp only [UInt64.size]; omega)]
    exact Nat.mod_eq_of_lt (Nat.lt_of_lt_of_le bound wide)
  cases shift with
  | none => exact truncate_zExt v
  | left s =>
    apply BitVec.eq_of_getLsbD_eq
    intro i inside
    simp only [truncate, undo, down, zExt, UInt64.toBitVec_shiftRight, BitVec.getLsbD_setWidth,
      BitVec.ushiftRight_eq', BitVec.getLsbD_ushiftRight, BitVec.toNat_umod, amount, inside, decide_true,
      Bool.true_and]
    by_cases high : s.val + i < 64
    · simp [high]
    · have beyond : v.getLsbD (s.val + i) = false := BitVec.getLsbD_of_ge v _ (by omega)
      simp [beyond]
  | right s =>
    apply BitVec.eq_of_getLsbD_eq
    intro i inside
    simp only [truncate, undo, down, zExt, UInt64.toBitVec_shiftLeft, BitVec.getLsbD_setWidth,
      BitVec.shiftLeft_eq', BitVec.getLsbD_shiftLeft, BitVec.toNat_umod, amount]
    have low : i < 64 := by omega
    have lower : i - s.val < 64 := by omega
    simp [inside, low, lower]

/-- If a shifted field can have the bits of `c` under the mask, the shifted constant has them. -/
theorem apply_down_and {mask c : BitVec n.bits} (reached : ∃ x, shift.apply x &&& mask = c) :
    shift.apply (shift.down c) &&& mask = c := by
  obtain ⟨x, rfl⟩ := reached
  apply BitVec.eq_of_getLsbD_eq
  intro i inside
  rw [BitVec.getLsbD_and, getLsbD_apply_down shift _ inside, BitVec.getLsbD_and]
  by_cases set : (shift.apply x).getLsbD i = true
  · simp [image_of_apply shift set]
  · simp [set]

/-- If a shifted field can have any bit of the mask, the shifted mask has one. -/
theorem apply_down_and_ne_zero {mask x : BitVec n.bits} (reached : shift.apply x &&& mask ≠ 0#n.bits) :
    shift.apply (shift.down mask) &&& mask ≠ 0#n.bits := by
  contrapose! reached
  apply BitVec.eq_of_getLsbD_eq
  intro i inside
  have clear := congrArg (BitVec.getLsbD · i) reached
  simp only [BitVec.getLsbD_and, getLsbD_apply_down shift _ inside] at clear
  rw [BitVec.getLsbD_and]
  by_cases set : (shift.apply x).getLsbD i = true
  · simpa [image_of_apply shift set, set] using clear
  · simp [set]

end Shift

namespace BitTest

variable (t : BitTest n)

def band : Expression :=
  if t.maskLeft then .arith .bitand (.constant (zExt t.mask)) t.shift.expr
  else .arith .bitand t.shift.expr (.constant (zExt t.mask))

def expr : Expression :=
  let type := if t.negated then .ne else .eq
  if t.constLeft then .arith type (.constant (zExt t.const)) t.band
  else .arith type t.band (.constant (zExt t.const))

def Equal (x : BitVec n.bits) : Prop := t.shift.apply x &&& t.mask = t.const

/-- The driver's branch is taken for the value `x` of the field. -/
def Holds (x : BitVec n.bits) : Prop := if t.negated then ¬ t.Equal x else t.Equal x

/-! ## What is recorded -/

theorem shift_lt (s : Fin n.bits) : UInt64.ofNat s.val < 64 := by
  have bound := Nat.lt_of_lt_of_le s.isLt n.bits_le
  rw [UInt64.lt_iff_toNat_lt, UInt64.toNat_ofNat_of_lt' (by simp only [UInt64.size]; omega)]
  exact bound

theorem constant?_shift (shift : Shift n) : shift.expr.constant? = none := by cases shift <;> rfl

theorem insertBitTest_of_split {input : HWInput} {const mask : UInt64} {lhs rhs : Expression} {shift : Shift n}
    (split : Expression.splitConstant lhs rhs = some (mask, shift.expr)) :
    input.insertBitTest const lhs rhs = some (input.insertTest (shift.undo mask) (shift.undo const)) := by
  rw [HWInput.insertBitTest, split]
  cases shift with
  | none => rfl
  | left s =>
    have amount : (Shift.left s).expr.getConstantInExpr = some (UInt64.ofNat s.val) := rfl
    have right : ∀ v, shiftRight? v (UInt64.ofNat s.val) = some (v >>> UInt64.ofNat s.val) := fun v =>
      if_pos (shift_lt s)
    simp only [Option.bind_eq_bind, Option.bind_some, Shift.expr] at amount ⊢
    simp only [amount, right, Option.bind_some]
    rfl
  | right s =>
    have amount : (Shift.right s).expr.getConstantInExpr = some (UInt64.ofNat s.val) := rfl
    have left : ∀ v, shiftLeft? v (UInt64.ofNat s.val) = some (v <<< UInt64.ofNat s.val) := fun v =>
      if_pos (shift_lt s)
    simp only [Option.bind_eq_bind, Option.bind_some, Shift.expr] at amount ⊢
    simp only [amount, left, Option.bind_some]
    rfl

theorem genHWInputConstraint_expr (input : HWInput) :
    genHWInputConstraint input t.expr =
      some (input.insertTest (t.shift.undo (zExt t.mask)) (t.shift.undo (zExt t.const))) := by
  have masked : ∃ left right, t.band = .arith .bitand left right ∧
      Expression.splitConstant left right = some (zExt t.mask, t.shift.expr) := by
    unfold band
    split_ifs
    · exact ⟨_, _, rfl, Expression.splitConstant_left _ _⟩
    · exact ⟨_, _, rfl, Expression.splitConstant_right (constant?_shift t.shift) _⟩
  obtain ⟨left, right, band, split⟩ := masked
  have compared : ∃ type lhs rhs, t.expr = .arith type lhs rhs ∧ (type = .eq ∨ type = .ne) ∧
      Expression.splitConstant lhs rhs = some (zExt t.const, .arith .bitand left right) := by
    unfold expr
    rw [band]
    have type : (if t.negated then ExpType.ne else .eq) = .eq ∨ (if t.negated then ExpType.ne else .eq) = .ne := by
      split_ifs
      · exact .inr rfl
      · exact .inl rfl
    cases t.constLeft with
    | true => exact ⟨_, _, _, rfl, type, Expression.splitConstant_left _ _⟩
    | false => exact ⟨_, _, _, rfl, type, Expression.splitConstant_right rfl _⟩
  obtain ⟨type, lhs, rhs, expr, equality, outer⟩ := compared
  rw [expr, genHWInputConstraint, outer]
  rcases equality with rfl | rfl
  · exact insertBitTest_of_split split
  · exact insertBitTest_of_split split

/-! ## Both sides -/

theorem equal_reachesBoth {dict : List UInt64} (zero : 0 ∈ dict)
    (recorded : (if t.shift.undo (zExt t.const) = 0 then t.shift.undo (zExt t.mask)
      else t.shift.undo (zExt t.const)) ∈ dict) : ReachesBoth dict t.Equal := by
  have atZero : t.Equal (truncate n 0) ↔ t.const = 0#n.bits := by
    rw [truncate_zero, Equal, Shift.apply_zero, BitVec.zero_and]
    exact eq_comm
  by_cases none : t.const = 0#n.bits
  · -- zero satisfies the test, the mask fails it
    refine ⟨fun _ => ⟨0, zero, atZero.mpr none⟩, fun ⟨x, failed⟩ => ?_⟩
    have undone : t.shift.undo (zExt t.const) = 0 := by
      have zExt_zero : zExt t.const = 0 := by simp [zExt, none]
      rw [zExt_zero, Shift.undo_zero]
    rw [if_pos undone] at recorded
    refine ⟨_, recorded, ?_⟩
    unfold Equal at failed ⊢
    rw [none] at failed ⊢
    rw [Shift.truncate_undo]
    exact t.shift.apply_down_and_ne_zero failed
  · -- zero fails the test, the constant satisfies it
    refine ⟨fun reached => ?_, fun _ => ⟨0, zero, fun equal => none (atZero.mp equal)⟩⟩
    have satisfied := t.shift.apply_down_and reached
    have kept : t.shift.undo (zExt t.const) ≠ 0 := by
      intro undone
      have low : t.shift.down t.const = 0#n.bits := by
        rw [← Shift.truncate_undo, undone, truncate_zero]
      rw [low, Shift.apply_zero, BitVec.zero_and] at satisfied
      exact none satisfied.symm
    rw [if_neg kept] at recorded
    refine ⟨_, recorded, ?_⟩
    rw [Equal, Shift.truncate_undo]
    exact satisfied

/-- Whatever has been recorded for the field before, the dictionary takes a bit test to both sides. -/
theorem bitTest_reachesBoth (input : HWInput) :
    ∃ recorded, genHWInputConstraint input t.expr = some recorded ∧ ReachesBoth recorded.dict t.Holds := by
  refine ⟨_, t.genHWInputConstraint_expr input, ?_⟩
  obtain ⟨here, zero⟩ := HWInput.mem_dict_of_mem_bitsSet
    (input.insertTest (t.shift.undo (zExt t.mask)) (t.shift.undo (zExt t.const)))
    (OrderedSet.mem_insert.mpr (.inl rfl))
  have both := t.equal_reachesBoth zero here
  unfold Holds
  split_ifs
  · exact reachesBoth_not.mpr both
  · exact both

end BitTest

end DevFuzz.Analysis
