import DevFuzz.Analysis.Orders

/-! # All-ones constants

A comparison with all ones tests the top bit of a field.  `checkAllOneValue` of
`stage2/src/hw_input_model.h` looks for the first byte that is not `0xff` and asks whether
it is zero.  The bytes above are not looked at, so that a constant with ones in its low bytes, a
zero byte and anything above it is taken for all ones as well (`recognised_iff`).
-/

namespace DevFuzz.Analysis

/-- Ones in all bytes of a field, and in no others, are recognised with the top bit of the field. -/
structure Recognised (v : UInt64) : Prop where
  nonzero : checkAllOneValue v ≠ 0 ↔ ∃ k, 1 ≤ k ∧ k ≤ 8 ∧ v.toNat = 2 ^ (8 * k) - 1
  topBit : ∀ k, 1 ≤ k → k ≤ 8 → v.toNat = 2 ^ (8 * k) - 1 → (checkAllOneValue v).toNat = 2 ^ (8 * k - 1)

/-- Ones in the low bytes, then a zero byte, and something above it. -/
def Mixed (v : UInt64) : Prop := ∃ k, 1 ≤ k ∧ v.toNat % 256 ^ (k + 1) + 1 = 256 ^ k ∧ 256 ^ (k + 1) ≤ v.toNat

theorem mod_add_one_iff {n b : Nat} (positive : 0 < b) : n % b + 1 = b ↔ b ∣ n + 1 := by
  have below := Nat.mod_lt n positive
  rw [Nat.dvd_iff_mod_eq_zero, ← Nat.mod_add_mod]
  constructor
  · intro whole
    rw [whole, Nat.mod_self]
  · intro divides
    by_contra small
    rw [Nat.mod_eq_of_lt (by omega)] at divides
    cases divides

/-- Ones in the low bytes are ones in fewer of them. -/
theorem ones_of_le {n j k : Nat} (ones : n % 256 ^ k + 1 = 256 ^ k) (below : j ≤ k) : n % 256 ^ j + 1 = 256 ^ j := by
  have divides := (mod_add_one_iff (Nat.pow_pos (by decide))).mp ones
  exact (mod_add_one_iff (Nat.pow_pos (by decide))).mpr (Nat.dvd_trans (Nat.pow_dvd_pow 256 below) divides)

theorem byte_of_ones {n k j : Nat} (ones : n % 256 ^ k + 1 = 256 ^ k) (below : j < k) : n / 256 ^ j % 256 = 255 := by
  have low := ones_of_le ones (Nat.le_of_lt below)
  have more := ones_of_le ones below
  -- the ones in `j + 1` bytes are those in `j` bytes and the byte above them
  rw [Nat.pow_succ, Nat.mod_mul, Nat.add_right_comm, low] at more
  have positive : 0 < 256 ^ j := Nat.pow_pos (by decide)
  have scaled : 256 ^ j * (n / 256 ^ j % 256 + 1) = 256 ^ j * 256 := by rw [Nat.mul_add_one, Nat.add_comm, more]
  have := Nat.eq_of_mul_eq_mul_left positive scaled
  omega

/-! ## The bytes that are looked at -/

theorem byteAt_leadingOnes {v : UInt64} (inside : leadingOnes v < 8) : byteAt v (leadingOnes v) ≠ 0xff := by
  unfold leadingOnes at inside ⊢
  cases found : (List.range 8).find? fun i => byteAt v i != 0xff with
  | none =>
    rw [found] at inside
    exact absurd inside (Nat.lt_irrefl 8)
  | some i =>
    have differs := List.find?_some found
    simpa using differs

theorem leadingOnes_eq {v : UInt64} {k : Nat} (few : k ≤ 8) (ones : v.toNat % 256 ^ k + 1 = 256 ^ k)
    (next : v.toNat / 256 ^ k % 256 = 0) : leadingOnes v = k := by
  apply Nat.le_antisymm
  · by_contra above
    have inside := Nat.lt_of_lt_of_le (Nat.not_le.mp above) (leadingOnes_le v)
    have byte := byteAt_toNat v inside
    rw [byteAt_of_lt_leadingOnes (Nat.not_le.mp above), next] at byte
    cases byte
  · by_contra below
    have inside := Nat.lt_of_lt_of_le (Nat.not_le.mp below) few
    refine byteAt_leadingOnes inside (UInt8.toNat_inj.mp ?_)
    rw [byteAt_toNat v inside, byte_of_ones ones (Nat.not_le.mp below)]
    rfl

/-- Ones in the low `k` bytes and a zero byte next are all that the function asks for. -/
theorem toNat_checkAllOneValue {v : UInt64} {k : Nat} (positive : 1 ≤ k) (few : k ≤ 8)
    (ones : v.toNat % 256 ^ k + 1 = 256 ^ k) (next : v.toNat / 256 ^ k % 256 = 0) :
    (checkAllOneValue v).toNat = 2 ^ (8 * k - 1) := by
  have first := leadingOnes_eq few ones next
  unfold checkAllOneValue
  rw [first]
  by_cases whole : k = 8
  · subst whole
    rfl
  · have inside : k < 8 := Nat.lt_of_le_of_ne few whole
    have zero : byteAt v k = 0 := UInt8.toNat_inj.mp ((byteAt_toNat v inside).trans next)
    have taken : ¬ (k = 0 ∨ byteAt v k ≠ 0) := by
      rintro (none | other)
      · omega
      · exact other zero
    simp only [if_neg whole, if_neg taken]
    exact toNat_fieldTop ⟨k, inside⟩ positive

theorem checkAllOneValue_ne_zero {v : UInt64} {k : Nat} (value : (checkAllOneValue v).toNat = 2 ^ (8 * k - 1)) :
    checkAllOneValue v ≠ 0 := by
  intro zero
  rw [zero] at value
  exact absurd value (Nat.ne_of_lt (Nat.pow_pos (by decide)))

/-! ## Which constants are recognised -/

/-- A field of `k` bytes that are all ones. -/
theorem allOnes_spec {n k : Nat} (value : n = 2 ^ (8 * k) - 1) : n + 1 = 256 ^ k := by
  have power : 2 ^ (8 * k) = 256 ^ k := Nat.pow_mul 2 8 k
  have positive : 0 < 256 ^ k := Nat.pow_pos (by decide)
  omega

theorem toNat_checkAllOneValue_allOnes {v : UInt64} {k : Nat} (positive : 1 ≤ k) (few : k ≤ 8)
    (value : v.toNat = 2 ^ (8 * k) - 1) : (checkAllOneValue v).toNat = 2 ^ (8 * k - 1) := by
  have next := allOnes_spec value
  have small : v.toNat < 256 ^ k := by omega
  refine toNat_checkAllOneValue positive few ?_ ?_
  · rw [Nat.mod_eq_of_lt small, next]
  · rw [Nat.div_eq_of_lt small]

/-- The bytes of a mixed constant that the function looks at. -/
theorem mixed_low {n k : Nat} (low : n % 256 ^ (k + 1) + 1 = 256 ^ k) :
    n % 256 ^ k + 1 = 256 ^ k ∧ n / 256 ^ k % 256 = 0 := by
  rw [Nat.pow_succ, Nat.mod_mul] at low
  have zero : n / 256 ^ k % 256 = 0 := by
    by_contra some
    have := Nat.le_mul_of_pos_right (256 ^ k) (Nat.pos_of_ne_zero some)
    omega
  rw [zero] at low
  exact ⟨low, zero⟩

theorem Mixed.taken {v : UInt64} (mixed : Mixed v) : checkAllOneValue v ≠ 0 := by
  obtain ⟨k, positive, low, high⟩ := mixed
  obtain ⟨ones, next⟩ := mixed_low low
  have few : k ≤ 8 := by
    by_contra many
    have := Nat.pow_le_pow_right (show 0 < 256 by decide) (show 8 ≤ k + 1 by omega)
    have small : v.toNat < 256 ^ 8 := v.toNat_lt
    omega
  exact checkAllOneValue_ne_zero (toNat_checkAllOneValue positive few ones next)

theorem Mixed.not_allOnes {v : UInt64} (mixed : Mixed v) (k : Nat) : v.toNat ≠ 2 ^ (8 * k) - 1 := by
  intro value
  obtain ⟨i, positive, low, high⟩ := mixed
  have next := allOnes_spec value
  have above : i + 1 ≤ k := by
    by_contra below
    have := Nat.pow_le_pow_right (show 0 < 256 by decide) (show k ≤ i + 1 by omega)
    omega
  have ones : v.toNat % 256 ^ k + 1 = 256 ^ k := by rw [Nat.mod_eq_of_lt (by omega), next]
  -- then the byte that is zero would be all ones
  have whole := ones_of_le ones above
  have := Nat.pow_lt_pow_right (show 1 < 256 by decide) (Nat.lt_add_one i)
  omega

/-- Without anything above the zero byte, what the function takes for all ones is all ones. -/
theorem allOnes_of_taken {v : UInt64} (pure : ¬ Mixed v) (taken : checkAllOneValue v ≠ 0) :
    ∃ k, 1 ≤ k ∧ k ≤ 8 ∧ v.toNat = 2 ^ (8 * k) - 1 := by
  obtain ⟨k, positive, few, -, ones, next⟩ := checkAllOneValue_spec taken
  have low : v.toNat % 256 ^ (k + 1) = v.toNat % 256 ^ k := by
    rw [Nat.pow_succ, Nat.mod_mul, next, Nat.mul_zero, Nat.add_zero]
  have small : v.toNat < 256 ^ (k + 1) := by
    by_contra large
    exact pure ⟨k, positive, low ▸ ones, Nat.not_lt.mp large⟩
  rw [Nat.mod_eq_of_lt small] at low
  have power : 2 ^ (8 * k) = 256 ^ k := Nat.pow_mul 2 8 k
  exact ⟨k, positive, few, by omega⟩

/-- All-ones constants are told from the others unless something stands above the zero byte. -/
theorem recognised_iff (v : UInt64) : Recognised v ↔ ¬ Mixed v := by
  constructor
  · intro recognised mixed
    obtain ⟨k, -, -, value⟩ := recognised.nonzero.mp mixed.taken
    exact mixed.not_allOnes k value
  · intro pure
    refine ⟨⟨allOnes_of_taken pure, ?_⟩, fun k positive few => toNat_checkAllOneValue_allOnes positive few⟩
    rintro ⟨k, positive, few, value⟩
    exact checkAllOneValue_ne_zero (toNat_checkAllOneValue_allOnes positive few value)

/-- `0x010000ff` is taken for the all-ones byte. -/
theorem not_recognised_0x010000ff : checkAllOneValue 0x010000ff = 0x80 ∧ ¬ Recognised 0x010000ff := by
  refine ⟨by decide, fun recognised => ?_⟩
  obtain ⟨k, -, -, value⟩ := recognised.nonzero.mp (by decide)
  have mixed : Mixed 0x010000ff := ⟨1, by decide, by decide, by decide⟩
  exact mixed.not_allOnes k value

end DevFuzz.Analysis
