import DevFuzz.Analysis.Constraints

/-! # Order comparisons

A branch on `x < c`, `x <= c`, `x > c` or `x >= c` is recorded as a range or, for some
constants, as a bit.  The analyser does not know whether the driver compares
signed values.  `comparison_reachesBoth_iff` says for which comparisons the
dictionary takes the branch to both sides.
-/

namespace DevFuzz.Analysis

open DevFuzz.Lib DevFuzz.Stage2

/-! ## The comparisons -/

inductive Order where
  | lt
  | le
  | gt
  | ge
  deriving DecidableEq, Repr

/-- `x < const` and the like, as the driver means it. -/
structure Comparison (n : FieldSize) where
  order : Order
  signed : Bool
  const : BitVec n.bits
  deriving DecidableEq

/-- What `pred_map` makes of the predicate, signed or not. -/
def Order.expType : Order → ExpType
  | lt => .lt
  | le => .le
  | gt => .gt
  | ge => .ge

def Order.Rel (a b : Int) : Order → Prop
  | lt => a < b
  | le => a ≤ b
  | gt => a > b
  | ge => a ≥ b

variable {n : FieldSize}

/-- The number that a field stands for. -/
def value (signed : Bool) (x : BitVec n.bits) : Int := if signed then x.toInt else x.toNat

namespace Comparison

variable (cmp : Comparison n)

def expr : Expression := .arith cmp.order.expType .hwInput (.constant (zExt cmp.const))

/-- The driver's branch is taken for the value `x` of the field. -/
def Holds (x : BitVec n.bits) : Prop := cmp.order.Rel (value cmp.signed x) (value cmp.signed cmp.const)

end Comparison

/-- A field with nothing recorded. -/
def HWInput.fresh (n : FieldSize) : HWInput where
  nBytes := n.bytes
  nBytes_pos := by cases n <;> decide
  ranges := []
  valueSet := .empty
  bitsSet := .empty
  rangeSpecialVals := .empty

/-! ## The values of a field -/

/-- The first value with the top bit set. -/
def half (n : FieldSize) : Nat := 2 ^ (n.bits - 1)

theorem two_mul_half : 2 * half n = 2 ^ n.bits := by cases n <;> rfl

theorem half_ge : 128 ≤ half n := by cases n <;> decide

/-- The smallest value of a field; the largest is `lo signed n + 2 * half n - 1`. -/
def lo (signed : Bool) (n : FieldSize) : Int := if signed then -half n else 0

theorem toNat_lt_two_mul_half (x : BitVec n.bits) : x.toNat < 2 * half n := two_mul_half ▸ x.isLt

theorem value_false (x : BitVec n.bits) : value false x = x.toNat := rfl

theorem value_true (x : BitVec n.bits) :
    value true x = if half n ≤ x.toNat then (x.toNat : Int) - 2 * half n else x.toNat := by
  rw [value, if_pos rfl, BitVec.toInt_eq_toNat_cond, ← two_mul_half]
  split_ifs <;> omega

theorem lo_false : lo false n = 0 := rfl

theorem lo_true : lo true n = -half n := rfl

section

variable (signed : Bool)

theorem value_bounds (x : BitVec n.bits) : lo signed n ≤ value signed x ∧ value signed x < lo signed n + 2 * half n := by
  have bound := toNat_lt_two_mul_half x
  cases signed with
  | false =>
    rw [value_false, lo_false]
    omega
  | true =>
    rw [value_true, lo_true]
    split_ifs <;> omega

theorem exists_value {v : Int} (low : lo signed n ≤ v) (high : v < lo signed n + 2 * half n) :
    ∃ x : BitVec n.bits, value signed x = v := by
  have some := half_ge (n := n)
  have natural : ∀ k < 2 * half n, (BitVec.ofNat n.bits k).toNat = k := by
    intro k small
    rw [BitVec.toNat_ofNat, ← two_mul_half, Nat.mod_eq_of_lt small]
  cases signed with
  | false =>
    rw [lo_false] at low high
    refine ⟨BitVec.ofNat n.bits v.toNat, ?_⟩
    rw [value_false, natural _ (by omega)]
    omega
  | true =>
    rw [lo_true] at low high
    by_cases negative : v < 0
    · refine ⟨BitVec.ofNat n.bits (v + 2 * half n).toNat, ?_⟩
      rw [value_true, natural _ (by omega), if_pos (by omega)]
      omega
    · refine ⟨BitVec.ofNat n.bits v.toNat, ?_⟩
      rw [value_true, natural _ (by omega), if_neg (by omega)]
      omega

theorem value_of_lt_half {x : BitVec n.bits} (low : x.toNat < half n) : value signed x = x.toNat := by
  cases signed with
  | false => rfl
  | true => rw [value_true, if_neg (by omega)]

theorem value_zero : value signed 0#n.bits = 0 := value_of_lt_half signed (by have := half_ge (n := n); simp; omega)

theorem toNat_one : (1#n.bits).toNat = 1 := by cases n <;> rfl

theorem value_not (x : BitVec n.bits) :
    value signed (~~~ x) = 2 * lo signed n + 2 * half n - 1 - value signed x := by
  have bound := toNat_lt_two_mul_half x
  have complement : (~~~ x).toNat = 2 * half n - 1 - x.toNat := by rw [BitVec.toNat_not, two_mul_half]
  cases signed with
  | false =>
    rw [value_false, value_false, lo_false, complement]
    omega
  | true =>
    rw [value_true, value_true, lo_true, complement]
    split_ifs <;> omega

theorem value_allOnes : value signed (BitVec.allOnes n.bits) = 2 * lo signed n + 2 * half n - 1 := by
  have ones := value_not signed 0#n.bits
  rwa [BitVec.not_zero, value_zero, Int.sub_zero] at ones

/-- The value of the field after `v`, which wraps at the end. -/
def next (n : FieldSize) (v : Int) : Int := if v = lo signed n + 2 * half n - 1 then lo signed n else v + 1

def prev (n : FieldSize) (v : Int) : Int := if v = lo signed n then lo signed n + 2 * half n - 1 else v - 1

theorem next_cases (n : FieldSize) (v : Int) :
    (v = lo signed n + 2 * half n - 1 ∧ next signed n v = lo signed n) ∨
      (v ≠ lo signed n + 2 * half n - 1 ∧ next signed n v = v + 1) := by
  unfold next
  split_ifs with wrap
  · exact .inl ⟨wrap, rfl⟩
  · exact .inr ⟨wrap, rfl⟩

theorem prev_cases (n : FieldSize) (v : Int) :
    (v = lo signed n ∧ prev signed n v = lo signed n + 2 * half n - 1) ∨
      (v ≠ lo signed n ∧ prev signed n v = v - 1) := by
  unfold prev
  split_ifs with wrap
  · exact .inl ⟨wrap, rfl⟩
  · exact .inr ⟨wrap, rfl⟩

theorem value_succ (c : BitVec n.bits) : value signed (c + 1#n.bits) = next signed n (value signed c) := by
  have bound := toNat_lt_two_mul_half c
  have some := half_ge (n := n)
  have sum : (c + 1#n.bits).toNat = if c.toNat + 1 = 2 * half n then 0 else c.toNat + 1 := by
    rw [BitVec.toNat_add, toNat_one, ← two_mul_half]
    split_ifs with wrap
    · rw [wrap, Nat.mod_self]
    · exact Nat.mod_eq_of_lt (by omega)
  unfold next
  cases signed with
  | false =>
    rw [value_false, value_false, lo_false, sum]
    split_ifs <;> omega
  | true =>
    rw [value_true, value_true, lo_true, sum]
    split_ifs <;> omega

theorem value_pred (c : BitVec n.bits) : value signed (c - 1#n.bits) = prev signed n (value signed c) := by
  have succ := value_succ signed (c - 1#n.bits)
  rw [BitVec.sub_add_cancel] at succ
  have bounds := value_bounds signed (c - 1#n.bits)
  unfold next at succ
  unfold prev
  split_ifs at succ ⊢ <;> omega

end

/-! ## The dictionary of one constraint -/

theorem truncate_add_one (v : UInt64) : truncate n (v + 1) = truncate n v + 1#n.bits := by
  rw [truncate, UInt64.toBitVec_add, BitVec.setWidth_add _ _ n.bits_le, truncate]
  congr 1
  cases n <;> rfl

theorem truncate_sub_one (v : UInt64) : truncate n (v - 1) = truncate n v - 1#n.bits := by
  have back := truncate_add_one (n := n) (v - 1)
  rw [UInt64.sub_add_cancel] at back
  rw [back, BitVec.add_sub_cancel]

theorem truncate_not (v : UInt64) : truncate n (~~~ v) = ~~~ truncate n v := by
  rw [truncate, UInt64.toBitVec_not, truncate, BitVec.setWidth_not n.bits_le]

section

variable {P : BitVec n.bits → Prop}

/-- One recorded bit gives the bit, zero, and all other bits. -/
theorem mem_dict_insertBits {bit v : UInt64} :
    v ∈ ((HWInput.fresh n).insertBits bit).dict ↔ v = bit ∨ v = 0 ∨ v = ~~~ bit := by
  let input := (HWInput.fresh n).insertBits bit
  have single : input.process.genModelInitCode.bits = [bit] := rfl
  have combs : (powerSet 1 []).res = [[0]] := rfl
  have joined : input.process.genModelInitCode.members.combine [0] = bit := UInt64.zero_or
  have important : input.process.genModelInitCode.members.importantBits = bit := UInt64.zero_or
  have values : v ∉ input.valueSet := OrderedSet.not_mem_empty
  have specials : v ∉ input.rangeSpecialVals := OrderedSet.not_mem_empty
  have ranges : v ∉ input.rangeValues := List.not_mem_nil
  show v ∈ input.dict ↔ _
  rw [HWInput.mem_dict, HWInput.combinations,
    FieldLists.mem_bitsCombinations_of_few _ (by rw [single]; simp) (by rw [single]; simp), single, important]
  simp only [values, specials, ranges, combs, joined, List.length_singleton, List.mem_singleton, exists_eq_left,
    false_or, or_false]
  exact or_congr_left eq_comm

theorem exists_mem_dict_insertBits (bit : UInt64) :
    (∃ v ∈ ((HWInput.fresh n).insertBits bit).dict, P (truncate n v)) ↔
      P (truncate n bit) ∨ P 0#n.bits ∨ P (~~~ truncate n bit) := by
  simp only [mem_dict_insertBits, or_and_right, exists_or, exists_eq_left, truncate_zero, truncate_not]

theorem mem_dict_insertRanges {start stop : Int64} {v : UInt64} :
    v ∈ ((HWInput.fresh n).insertRanges start stop).dict ↔ v ∈ (genSpecial start stop).map Int64.toUInt64 := by
  have none : ((HWInput.fresh n).insertRanges start stop).combinations = [] := rfl
  rw [HWInput.mem_dict, none]
  simp [HWInput.fresh, HWInput.insertRanges, HWInput.rangeValues]

/-- A recorded range gives its ends and their neighbours. -/
theorem exists_mem_dict_insertRanges (start stop : UInt64) :
    (∃ v ∈ ((HWInput.fresh n).insertRanges start.toInt64 stop.toInt64).dict, P (truncate n v)) ↔
      P (truncate n start + 1#n.bits) ∨ P (truncate n start) ∨ P (truncate n start - 1#n.bits) ∨
        P (truncate n stop) ∨ P (truncate n stop + 1#n.bits) := by
  have one : Int64.toUInt64 1 = 1 := rfl
  simp only [mem_dict_insertRanges, genSpecial, List.map_cons, List.map_nil, List.mem_cons, List.not_mem_nil, or_false,
    or_and_right, exists_or, exists_eq_left, Int64.toUInt64_add, Int64.toUInt64_sub, UInt64.toUInt64_toInt64, one,
    truncate_add_one, truncate_sub_one]

end

/-! ## Constants that are taken for all ones -/

theorem byteAt_toNat (v : UInt64) {i : Nat} (inside : i < 8) : (byteAt v i).toNat = v.toNat / 256 ^ i % 256 := by
  have amount : (UInt64.ofNat (8 * i)).toNat % 64 = 8 * i := by
    rw [UInt64.toNat_ofNat_of_lt' (by simp only [UInt64.size]; omega)]
    omega
  rw [byteAt, UInt64.toNat_toUInt8, UInt64.toNat_shiftRight, amount, Nat.shiftRight_eq_div_pow, Nat.pow_mul]

theorem byteAt_of_lt_leadingOnes {v : UInt64} {j : Nat} (below : j < leadingOnes v) : byteAt v j = 0xff := by
  unfold leadingOnes at below
  cases found : (List.range 8).find? fun i => byteAt v i != 0xff with
  | none =>
    rw [found] at below
    have all := List.find?_eq_none.mp found j (List.mem_range.mpr below)
    simpa using all
  | some i =>
    rw [found] at below
    have before := (List.find?_range_eq_some.mp found).2.2 j below
    simpa using before

theorem leadingOnes_le (v : UInt64) : leadingOnes v ≤ 8 := by
  unfold leadingOnes
  cases found : (List.range 8).find? fun i => byteAt v i != 0xff with
  | none => exact Nat.le_refl 8
  | some i => exact Nat.le_of_lt (List.mem_range.mp (List.find?_range_eq_some.mp found).2.1)

/-- The leading bytes make a number of ones. -/
theorem mod_leadingOnes (v : UInt64) {i : Nat} (few : i ≤ leadingOnes v) : v.toNat % 256 ^ i + 1 = 256 ^ i := by
  induction i with
  | zero => simp [Nat.mod_one]
  | succ i ih =>
    have inside : i < 8 := Nat.lt_of_lt_of_le few (leadingOnes_le v)
    have ones : v.toNat / 256 ^ i % 256 = 255 := by
      rw [← byteAt_toNat v inside, byteAt_of_lt_leadingOnes few]
      rfl
    rw [Nat.pow_succ, Nat.mod_mul, ones]
    have := ih (Nat.le_of_succ_le few)
    omega

/-- The top bit of a field of `i` bytes. -/
theorem toNat_fieldTop : ∀ i : Fin 8, 0 < i.val →
    ((1 : UInt64) <<< UInt64.ofNat (i.val * 8 - 1)).toNat = 2 ^ (8 * i.val - 1) := by
  decide

/-- A constant that `checkAllOneValue` takes for all ones: its lowest bytes are ones, and the next byte is zero. -/
theorem checkAllOneValue_spec {v : UInt64} (taken : checkAllOneValue v ≠ 0) :
    ∃ i, 0 < i ∧ i ≤ 8 ∧ (checkAllOneValue v).toNat = 2 ^ (8 * i - 1) ∧ v.toNat % 256 ^ i + 1 = 256 ^ i ∧
      v.toNat / 256 ^ i % 256 = 0 := by
  have few := leadingOnes_le v
  have ones := mod_leadingOnes v (Nat.le_refl _)
  unfold checkAllOneValue at taken ⊢
  by_cases whole : leadingOnes v = 8
  · rw [whole] at ones
    refine ⟨8, by decide, Nat.le_refl 8, by rw [if_pos whole]; rfl, ones, ?_⟩
    have small : v.toNat < 256 ^ 8 := v.toNat_lt
    rw [Nat.div_eq_of_lt small]
  · simp only [whole, if_false] at taken ⊢
    by_cases broken : leadingOnes v = 0 ∨ byteAt v (leadingOnes v) ≠ 0
    · simp [broken] at taken
    · obtain ⟨positive, next⟩ := not_or.mp broken
      refine ⟨leadingOnes v, Nat.pos_of_ne_zero positive, few, ?_, ones, ?_⟩
      · rw [if_neg broken]
        exact toNat_fieldTop ⟨leadingOnes v, by omega⟩ (Nat.pos_of_ne_zero positive)
      · rw [← byteAt_toNat v (by omega), not_not.mp next]
        rfl

theorem two_pow_bits : 2 ^ n.bits = 256 ^ n.bytes := by rw [FieldSize.bits, Nat.pow_mul]

theorem toNat_zExt (c : BitVec n.bits) : (zExt c).toNat = c.toNat := by
  rw [zExt, UInt64.toNat_ofBitVec, BitVec.toNat_setWidth]
  exact Nat.mod_eq_of_lt (Nat.lt_of_lt_of_le c.isLt (Nat.pow_le_pow_right (by decide) n.bits_le))

/-- A number of `256 * r` units and the largest rest, in a range of `256 * T` units. -/
theorem ones_bounds {c unit r T sub bit h : Nat} (even : unit = 256 * sub) (some : 0 < sub) (halved : 2 * bit = unit)
    (number : c + 1 = unit * (256 * r + 1)) (range : 2 * h = unit * (256 * T)) (bound : c < 2 * h) :
    0 < bit ∧ bit < c ∧ c + bit + 1 < 2 * h ∧ bit < h ∧ c + 1 ≠ h ∧ c ≠ h := by
  have positive : 0 < unit := by omega
  have below : r + 1 ≤ T := by
    have := Nat.le_of_mul_le_mul_left (show unit * (256 * r + 1) ≤ unit * (256 * T) by omega) positive
    omega
  have odd : c + 1 ≠ h := by
    intro equal
    have doubled : unit * (2 * (256 * r + 1)) = unit * (256 * T) := by
      rw [← range, ← equal, number]
      exact Nat.mul_left_comm _ _ _
    have := Nat.eq_of_mul_eq_mul_left positive doubled
    omega
  have gap := Nat.mul_le_mul_left unit below
  rw [Nat.mul_succ] at number gap
  rw [Nat.mul_left_comm] at number range
  refine ⟨by omega, by omega, by omega, by omega, odd, ?_⟩
  rintro rfl
  omega

/-- For a constant that is not all ones in the width of the field, the recorded bit lies below the
    constant, and the other bits above it. -/
theorem bit_of_checkAllOneValue {c : BitVec n.bits} (taken : checkAllOneValue (zExt c) ≠ 0)
    (other : c ≠ BitVec.allOnes n.bits) :
    let bit := (checkAllOneValue (zExt c)).toNat
    0 < bit ∧ bit < c.toNat ∧ c.toNat + bit + 1 < 2 * half n ∧ bit < half n ∧ c.toNat + 1 ≠ half n ∧
      c.toNat ≠ half n := by
  obtain ⟨i, positive, -, bit, ones, next⟩ := checkAllOneValue_spec taken
  rw [toNat_zExt] at ones next
  obtain ⟨i, rfl⟩ : ∃ k, i = k + 1 := ⟨i - 1, by omega⟩
  have whole : 2 * half n = 256 ^ n.bytes := two_mul_half.trans two_pow_bits
  have bound := toNat_lt_two_mul_half c
  have notOnes : c.toNat + 1 ≠ 2 * half n := by
    intro equal
    refine other (BitVec.eq_of_toNat_eq ?_)
    rw [BitVec.toNat_allOnes, ← two_mul_half]
    omega
  have inside : i + 1 < n.bytes := by
    by_contra outside
    have wide : 256 ^ n.bytes ≤ 256 ^ (i + 1) := Nat.pow_le_pow_right (by decide) (Nat.not_lt.mp outside)
    rw [Nat.mod_eq_of_lt (by omega)] at ones
    omega
  obtain ⟨rest, size⟩ : ∃ rest, n.bytes = i + 1 + (rest + 1) := ⟨n.bytes - (i + 1) - 1, by omega⟩
  have halved : 2 * 2 ^ (8 * (i + 1) - 1) = 256 ^ (i + 1) := by
    rw [← Nat.pow_succ', show (8 * (i + 1) - 1).succ = 8 * (i + 1) by omega, Nat.pow_mul]
  have range : 2 * half n = 256 ^ (i + 1) * (256 * 256 ^ rest) := by
    rw [whole, size, Nat.pow_add, Nat.pow_succ' (n := rest)]
  have number : c.toNat + 1 = 256 ^ (i + 1) * (256 * (c.toNat / 256 ^ (i + 1) / 256) + 1) := by
    have parts := Nat.div_add_mod c.toNat (256 ^ (i + 1))
    have high := Nat.div_add_mod (c.toNat / 256 ^ (i + 1)) 256
    rw [next, Nat.add_zero] at high
    rw [high, Nat.mul_succ]
    omega
  rw [bit]
  exact ones_bounds Nat.pow_succ' (Nat.pow_pos (by decide)) halved number range bound

/-! ## Both sides -/

section

variable {dict : List UInt64} (signed : Bool) (c : BitVec n.bits)

theorem reachesBoth_below :
    ReachesBoth dict (fun x : BitVec n.bits => value signed x < value signed c) ↔
      (lo signed n < value signed c → ∃ v ∈ dict, value signed (truncate n v) < value signed c) ∧
        ∃ v ∈ dict, value signed c ≤ value signed (truncate n v) := by
  have some := half_ge (n := n)
  unfold ReachesBoth Reaches
  refine and_congr (imp_congr_left ?_) ?_
  · constructor
    · rintro ⟨x, below⟩
      have := value_bounds signed x
      omega
    · intro below
      obtain ⟨x, lowest⟩ := exists_value (n := n) signed (v := lo signed n) (by omega) (by omega)
      exact ⟨x, by omega⟩
  · simp only [Int.not_lt]
    exact forall_prop_of_true ⟨c, Int.le_refl _⟩

theorem reachesBoth_upTo :
    ReachesBoth dict (fun x : BitVec n.bits => value signed x ≤ value signed c) ↔
      (∃ v ∈ dict, value signed (truncate n v) ≤ value signed c) ∧
        (value signed c + 1 < lo signed n + 2 * half n →
          ∃ v ∈ dict, value signed c < value signed (truncate n v)) := by
  have some := half_ge (n := n)
  unfold ReachesBoth Reaches
  refine and_congr (forall_prop_of_true ⟨c, Int.le_refl _⟩) ?_
  simp only [Int.not_le]
  refine imp_congr_left ?_
  constructor
  · rintro ⟨x, above⟩
    have := value_bounds signed x
    omega
  · intro above
    obtain ⟨x, highest⟩ := exists_value (n := n) signed (v := lo signed n + 2 * half n - 1) (by omega) (by omega)
    exact ⟨x, by omega⟩

theorem zExt_eq_zero : zExt c = 0 ↔ c = 0#n.bits := by
  rw [← UInt64.toNat_inj, toNat_zExt, ← BitVec.toNat_inj]
  simp

section

variable {Q : Int → Prop}

theorem exists_bits_iff (bit : UInt64) :
    (∃ v ∈ ((HWInput.fresh n).insertBits bit).dict, Q (value signed (truncate n v))) ↔
      Q (value signed (truncate n bit)) ∨ Q 0 ∨
        Q (2 * lo signed n + 2 * half n - 1 - value signed (truncate n bit)) := by
  rw [exists_mem_dict_insertBits (P := fun x => Q (value signed x)), value_zero, value_not]

/-- The values of the dictionary for the range from 0 to `c`. -/
theorem exists_upper_iff :
    (∃ v ∈ ((HWInput.fresh n).insertRanges 0 (zExt c).toInt64).dict, Q (value signed (truncate n v))) ↔
      Q (next signed n 0) ∨ Q 0 ∨ Q (prev signed n 0) ∨ Q (value signed c) ∨ Q (next signed n (value signed c)) := by
  rw [show (0 : Int64) = (0 : UInt64).toInt64 from rfl,
    exists_mem_dict_insertRanges (P := fun x => Q (value signed x)), truncate_zExt, truncate_zero, value_succ,
    value_pred, value_succ, value_zero]

/-- The values of the dictionary for the range from `c` to the maximum. -/
theorem exists_lower_iff :
    (∃ v ∈ ((HWInput.fresh n).insertRanges (zExt c).toInt64 (maxVal n.bytes).toInt64).dict,
        Q (value signed (truncate n v))) ↔
      Q (next signed n (value signed c)) ∨ Q (value signed c) ∨ Q (prev signed n (value signed c)) ∨
        Q (2 * lo signed n + 2 * half n - 1) ∨ Q (next signed n (2 * lo signed n + 2 * half n - 1)) := by
  have ones : truncate n (maxVal n.bytes) = BitVec.allOnes n.bits := by cases n <;> decide
  rw [exists_mem_dict_insertRanges (P := fun x => Q (value signed x)), truncate_zExt, ones, value_succ, value_pred,
    value_succ, value_allOnes]

end

theorem value_inj {x y : BitVec n.bits} (same : value signed x = value signed y) : x = y := by
  have first := toNat_lt_two_mul_half x
  have second := toNat_lt_two_mul_half y
  refine BitVec.eq_of_toNat_eq ?_
  cases signed with
  | false =>
    rw [value_false, value_false] at same
    omega
  | true =>
    rw [value_true, value_true] at same
    split_ifs at same <;> omega

theorem below_insertUpper_iff :
    ReachesBoth ((HWInput.fresh n).insertUpper true (zExt c)).dict
        (fun x : BitVec n.bits => value signed x < value signed c) ↔
      ¬ (signed = true ∧ lo signed n < value signed c ∧ value signed c < 0) := by
  have some := half_ge (n := n)
  have bounds := value_bounds signed c
  rw [reachesBoth_below]
  unfold HWInput.insertUpper
  by_cases zero : c = 0#n.bits
  · -- for zero, a signed value below it has the top bit, or all others
    rw [if_pos ⟨(zExt_eq_zero c).mpr zero, rfl⟩, exists_bits_iff signed (Q := (· < value signed c)),
      exists_bits_iff signed (Q := (value signed c ≤ ·)), zero, value_zero]
    cases signed with
    | false =>
      rw [lo_false]
      omega
    | true =>
      rw [lo_true]
      omega
  · have nonzero : value signed c ≠ 0 := fun same => zero (value_inj signed (same.trans (value_zero signed).symm))
    have one := next_cases signed n 0
    have minus := prev_cases signed n 0
    have succ := next_cases signed n (value signed c)
    rw [if_neg (fun both => zero ((zExt_eq_zero c).mp both.1)), exists_upper_iff signed (Q := (· < value signed c)),
      exists_upper_iff signed (Q := (value signed c ≤ ·))]
    cases signed with
    | false =>
      simp only [lo_false, Bool.false_eq_true, false_and, not_false_eq_true, iff_true] at *
      omega
    | true =>
      simp only [lo_true, true_and] at *
      omega

theorem upTo_insertUpper :
    ReachesBoth ((HWInput.fresh n).insertUpper false (zExt c)).dict
      (fun x : BitVec n.bits => value signed x ≤ value signed c) := by
  have bounds := value_bounds signed c
  have minus := prev_cases signed n 0
  have succ := next_cases signed n (value signed c)
  unfold HWInput.insertUpper
  rw [if_neg (by simp), reachesBoth_upTo, exists_upper_iff signed (Q := (· ≤ value signed c)),
    exists_upper_iff signed (Q := (value signed c < ·))]
  omega

/-- For all ones, the recorded bit is the top bit. -/
theorem toNat_topBit : (truncate n (checkAllOneValue (zExt (BitVec.allOnes n.bits)))).toNat = half n := by
  cases n <;> decide

theorem value_topBit :
    value signed (truncate n (checkAllOneValue (zExt (BitVec.allOnes n.bits)))) = 2 * lo signed n + half n := by
  have top := toNat_topBit (n := n)
  cases signed with
  | false =>
    rw [value_false, lo_false, top]
    omega
  | true =>
    rw [value_true, lo_true, top, if_pos (Nat.le_refl _)]
    omega

theorem checkAllOneValue_allOnes : checkAllOneValue (zExt (BitVec.allOnes n.bits)) ≠ 0 := by cases n <;> decide

theorem value_lowBit {c : BitVec n.bits} (taken : checkAllOneValue (zExt c) ≠ 0) (other : c ≠ BitVec.allOnes n.bits) :
    ∃ bit : Nat, value signed (truncate n (checkAllOneValue (zExt c))) = bit ∧ 0 < bit ∧ bit < c.toNat ∧
      c.toNat + bit + 1 < 2 * half n ∧ bit < half n ∧ c.toNat + 1 ≠ half n ∧ c.toNat ≠ half n := by
  have bounds := bit_of_checkAllOneValue taken other
  refine ⟨_, ?_, bounds⟩
  have narrow : (truncate n (checkAllOneValue (zExt c))).toNat = (checkAllOneValue (zExt c)).toNat := by
    rw [truncate, BitVec.toNat_setWidth, UInt64.toNat_toBitVec, ← two_mul_half]
    exact Nat.mod_eq_of_lt (by omega)
  rw [value_of_lt_half signed (by omega), narrow]

theorem insertLower_of_range (plain : checkAllOneValue (zExt c) = 0) :
    (HWInput.fresh n).insertLower (zExt c) =
      (HWInput.fresh n).insertRanges (zExt c).toInt64 (maxVal n.bytes).toInt64 :=
  if_neg (not_not.mpr plain)

theorem insertLower_of_bit (taken : checkAllOneValue (zExt c) ≠ 0) :
    (HWInput.fresh n).insertLower (zExt c) = (HWInput.fresh n).insertBits (checkAllOneValue (zExt c)) :=
  if_pos taken

theorem upTo_insertLower_iff :
    ReachesBoth ((HWInput.fresh n).insertLower (zExt c)).dict
        (fun x : BitVec n.bits => value signed x ≤ value signed c) ↔
      ¬ (signed = true ∧ checkAllOneValue (zExt c) ≠ 0 ∧ c ≠ BitVec.allOnes n.bits) := by
  have some := half_ge (n := n)
  rw [reachesBoth_upTo]
  by_cases plain : checkAllOneValue (zExt c) = 0
  · have succ := next_cases signed n (value signed c)
    rw [insertLower_of_range c plain, exists_lower_iff signed (Q := (· ≤ value signed c)),
      exists_lower_iff signed (Q := (value signed c < ·))]
    simp only [plain, ne_eq, not_true_eq_false, false_and, and_false, not_false_eq_true, iff_true]
    omega
  · rw [insertLower_of_bit c plain, exists_bits_iff signed (Q := (· ≤ value signed c)),
      exists_bits_iff signed (Q := (value signed c < ·))]
    by_cases ones : c = BitVec.allOnes n.bits
    · subst ones
      rw [value_allOnes, value_topBit]
      simp only [ne_eq, not_true_eq_false, and_false, not_false_eq_true, iff_true]
      cases signed with
      | false =>
        rw [lo_false]
        omega
      | true =>
        rw [lo_true]
        omega
    · obtain ⟨bit, low⟩ := value_lowBit signed plain ones
      rw [low.1]
      cases signed with
      | false =>
        simp only [value_false, lo_false, Bool.false_eq_true, false_and, not_false_eq_true, iff_true]
        omega
      | true =>
        -- zero and the bit lie above a negative constant, and so do the other bits
        simp only [value_true, lo_true, plain, ones, ne_eq, not_false_eq_true, and_self, not_true_eq_false, iff_false]
        split_ifs <;> omega

theorem below_insertLower_iff :
    ReachesBoth ((HWInput.fresh n).insertLower (zExt c)).dict
        (fun x : BitVec n.bits => value signed x < value signed c) ↔
      ¬ ((signed = false ∧ c = BitVec.allOnes n.bits) ∨
        (signed = true ∧ checkAllOneValue (zExt c) ≠ 0 ∧ c ≠ BitVec.allOnes n.bits)) := by
  have some := half_ge (n := n)
  rw [reachesBoth_below]
  by_cases plain : checkAllOneValue (zExt c) = 0
  · have other : c ≠ BitVec.allOnes n.bits := by
      rintro rfl
      exact checkAllOneValue_allOnes plain
    have back := prev_cases signed n (value signed c)
    rw [insertLower_of_range c plain, exists_lower_iff signed (Q := (· < value signed c)),
      exists_lower_iff signed (Q := (value signed c ≤ ·))]
    simp only [plain, other, ne_eq, not_true_eq_false, false_and, and_false, or_self, not_false_eq_true, iff_true]
    omega
  · rw [insertLower_of_bit c plain, exists_bits_iff signed (Q := (· < value signed c)),
      exists_bits_iff signed (Q := (value signed c ≤ ·))]
    by_cases ones : c = BitVec.allOnes n.bits
    · subst ones
      rw [value_allOnes, value_topBit]
      simp only [ne_eq, not_true_eq_false, and_false, or_false, and_true, Bool.not_eq_false]
      cases signed with
      | false =>
        simp only [lo_false, Bool.false_eq_true, iff_false]
        omega
      | true =>
        simp only [lo_true, iff_true]
        omega
    · obtain ⟨bit, low⟩ := value_lowBit signed plain ones
      rw [low.1]
      cases signed with
      | false =>
        simp only [value_false, lo_false, ones, and_false, Bool.false_eq_true, false_and, or_self, not_false_eq_true,
          iff_true]
        omega
      | true =>
        simp only [value_true, lo_true, plain, ones, ne_eq, not_false_eq_true, and_self, or_true, not_true_eq_false,
          iff_false]
        split_ifs <;> omega

end

namespace Comparison

variable (cmp : Comparison n)

/-- The comparisons whose dictionary misses a side. -/
def Missed : Prop :=
  match cmp.signed, cmp.order with
  | true, .lt => lo true n < cmp.const.toInt ∧ cmp.const.toInt < 0
  | false, .ge => cmp.const = BitVec.allOnes n.bits
  | true, .gt | true, .ge => checkAllOneValue (zExt cmp.const) ≠ 0 ∧ cmp.const ≠ BitVec.allOnes n.bits
  | _, _ => False

/-- What is recorded when the comparison is the only constraint. -/
def recorded : HWInput :=
  match cmp.order with
  | .lt => (HWInput.fresh n).insertUpper true (zExt cmp.const)
  | .le => (HWInput.fresh n).insertUpper false (zExt cmp.const)
  | .gt | .ge => (HWInput.fresh n).insertLower (zExt cmp.const)

theorem genHWInputConstraint_expr : genHWInputConstraint (HWInput.fresh n) cmp.expr = some cmp.recorded := by
  obtain ⟨order, signed, c⟩ := cmp
  cases order <;> rfl

theorem reachesBoth_recorded : ReachesBoth cmp.recorded.dict cmp.Holds ↔ ¬ cmp.Missed := by
  obtain ⟨order, signed, c⟩ := cmp
  cases order with
  | lt =>
    refine (below_insertUpper_iff signed c).trans ?_
    cases signed <;> simp [Missed, value]
  | le =>
    refine iff_of_true (upTo_insertUpper signed c) ?_
    cases signed <;> simp [Missed]
  | gt =>
    have negated : (Comparison.mk .gt signed c).Holds = fun x => ¬ value signed x ≤ value signed c :=
      funext fun x => propext Int.not_le.symm
    rw [negated, reachesBoth_not]
    refine (upTo_insertLower_iff signed c).trans ?_
    cases signed <;> simp [Missed]
  | ge =>
    have negated : (Comparison.mk .ge signed c).Holds = fun x => ¬ value signed x < value signed c :=
      funext fun x => propext Int.not_lt.symm
    rw [negated, reachesBoth_not]
    refine (below_insertLower_iff signed c).trans ?_
    cases signed <;> simp [Missed]

/-- The dictionary of a comparison takes the branch to both sides except for: a signed `<` with a
    negative constant, where no smaller value is in it; an unsigned `>=` with the largest constant; and
    a signed `>` or `>=` with a constant that is taken for all ones and is not. -/
theorem comparison_reachesBoth_iff :
    ∃ recorded, genHWInputConstraint (HWInput.fresh n) cmp.expr = some recorded ∧
      (ReachesBoth recorded.dict cmp.Holds ↔ ¬ cmp.Missed) :=
  ⟨cmp.recorded, cmp.genHWInputConstraint_expr, cmp.reachesBoth_recorded⟩

end Comparison

/-- `x >= 0xff` for an unsigned byte. -/
def geMax : Comparison .one := ⟨.ge, false, 0xff⟩

/-- `x < -2` for a signed byte. -/
def ltNegative : Comparison .one := ⟨.lt, true, 0xfe⟩

/-- `x > 0xff` for a signed field of two bytes. -/
def gtOnes : Comparison .two := ⟨.gt, true, 0x00ff⟩

theorem not_reachesBoth_boundaries :
    (∃ recorded, genHWInputConstraint (HWInput.fresh .one) geMax.expr = some recorded ∧
        ¬ ReachesBoth recorded.dict geMax.Holds) ∧
      (∃ recorded, genHWInputConstraint (HWInput.fresh .one) ltNegative.expr = some recorded ∧
        ¬ ReachesBoth recorded.dict ltNegative.Holds) ∧
      ∃ recorded, genHWInputConstraint (HWInput.fresh .two) gtOnes.expr = some recorded ∧
        ¬ ReachesBoth recorded.dict gtOnes.Holds := by
  refine ⟨⟨_, rfl, ?_⟩, ⟨_, rfl, ?_⟩, ⟨_, rfl, ?_⟩⟩
  · exact fun both => geMax.reachesBoth_recorded.mp both rfl
  · exact fun both => ltNegative.reachesBoth_recorded.mp both (by constructor <;> decide)
  · exact fun both => gtOnes.reachesBoth_recorded.mp both (by constructor <;> decide)

end DevFuzz.Analysis
