import DevFuzz.Stage2.Dictionary
import Mathlib.Data.List.Sort

/-! # Subsets and bit combinations

`powerSet` of `aplib/HWModel.h` gives every subset of the indices once, the small ones first
(`powerSet_enumerates`).  From it `generateBitCombs` makes the combinations of the masks of a
field, up to four masks; for more it takes a fixed selection (`combinations_of_masks`).
-/

namespace DevFuzz.Stage2

open DevFuzz.Lib

/-! ## Subsets -/

/-- The vectors after `powerSet(n, res)`. -/
structure Enumerated (n : Nat) (s : Selection) : Prop where
  subsets : ∀ comb, comb ∈ s.res ↔ comb ≠ [] ∧ comb.Pairwise (· < ·) ∧ ∀ i ∈ comb, i < n
  once : s.res.Nodup
  ordered : s.res.Pairwise fun a b => a.length < b.length ∨ a.length = b.length ∧ a < b
  path : s.path = []

/-- A subset of the indices as a vector. -/
theorem sublist_range_iff {n : Nat} {comb : List Nat} :
    comb.Sublist (List.range' 0 n) ↔ comb.Pairwise (· < ·) ∧ ∀ i ∈ comb, i < n := by
  have ascending : (List.range' 0 n).Pairwise (· < ·) := List.pairwise_lt_range'
  constructor
  · intro sub
    refine ⟨ascending.sublist sub, fun i member => ?_⟩
    have inside := List.mem_range'_1.mp (sub.subset member)
    omega
  · rintro ⟨increasing, below⟩
    have subset : comb ⊆ List.range' 0 n := fun i member => List.mem_range'_1.mpr ⟨Nat.zero_le i, by
      have := below i member
      omega⟩
    have distinct : comb.Nodup := increasing.imp Nat.ne_of_lt
    -- both lists ascend, so that the order in `comb` is the one in the range
    exact List.sublist_of_subperm_of_pairwise (List.subperm_of_subset distinct subset) increasing ascending

theorem powerSet_pairwise (n : Nat) :
    (powerSet n []).res.Pairwise fun a b => a.length < b.length ∨ a.length = b.length ∧ a < b := by
  rw [powerSet_eq, List.nil_append, List.pairwise_flatMap]
  constructor
  · intro k _
    refine (pairwise_choose List.pairwise_lt_range' k).imp_of_mem fun {a b} chosen chosen' less => .inr ⟨?_, less⟩
    rw [(mem_choose.mp chosen).2, (mem_choose.mp chosen').2]
  · -- the sizes go up from round to round
    have sizes : (List.range' 1 n).Pairwise (· < ·) := List.pairwise_lt_range'
    refine sizes.imp fun {k m} less a chosen b chosen' => .inl ?_
    rw [(mem_choose.mp chosen).2, (mem_choose.mp chosen').2]
    exact less

theorem powerSet_enumerates (n : Nat) : Enumerated n (powerSet n []) where
  subsets comb := by rw [mem_powerSet, sublist_range_iff, and_comm]
  once := (powerSet_pairwise n).imp fun {a b} before => by
    rintro rfl
    cases before with
    | inl less => exact Nat.lt_irrefl _ less
    | inr less => exact List.lt_irrefl a less.2
  ordered := powerSet_pairwise n
  path := by rw [powerSet_eq]

/-! ## Combinations -/

/-- The masks joined. -/
def joined (masks : List UInt64) : UInt64 := masks.foldl (· ||| ·) 0

/-- A field with masks. -/
structure MaskedField extends FieldLists where
  masks : bits ≠ []

namespace MaskedField

variable (field : MaskedField)

/-- `bits_combinations` after construction. -/
def combinations : List UInt64 := field.construct.bitsCombinations

structure Combined : Prop where
  zero : 0 ∈ field.combinations
  mask : ∀ mask ∈ field.bits, mask ∈ field.combinations
  all : joined field.bits ∈ field.combinations
  none : ~~~ joined field.bits ∈ field.combinations
  ascending : field.bits.length ≤ 4 → field.combinations.Pairwise (· < ·)
  exact : field.bits.length ≤ 4 → ∀ v, v ∈ field.combinations ↔
    (∃ subset, subset.Sublist field.bits ∧ joined subset = v) ∨ v = ~~~ joined field.bits

theorem combinations_eq : field.combinations = field.members.generateBitCombs.bitsCombinations := rfl

/-- The vector of a selection of indices. -/
theorem combine_eq (comb : List Nat) :
    field.members.combine comb = joined (comb.map fun i => field.bits.getD i 0) := by
  rw [joined, List.foldl_map]
  rfl

/-- The subsets of the masks are what the subsets of the indices select. -/
theorem exists_sublist_iff {P : List UInt64 → Prop} :
    (∃ subset, subset.Sublist field.bits ∧ P subset) ↔
      ∃ comb : List Nat, comb.Sublist (List.range' 0 field.bits.length) ∧ P (comb.map fun i => field.bits.getD i 0) := by
  have whole : (List.range' 0 field.bits.length).map (fun i => field.bits.getD i 0) = field.bits := by
    refine List.ext_getElem (by simp) fun i inside _ => ?_
    simp only [List.length_map, List.length_range'] at inside
    simp [inside]
  constructor
  · rintro ⟨subset, sub, holds⟩
    rw [← whole] at sub
    obtain ⟨comb, chosen, rfl⟩ := List.sublist_map_iff.mp sub
    exact ⟨comb, chosen, holds⟩
  · rintro ⟨comb, sub, holds⟩
    refine ⟨_, ?_, holds⟩
    conv_rhs => rw [← whole]
    exact sub.map _

theorem mem_combinations_of_few (few : field.bits.length ≤ 4) (v : UInt64) :
    v ∈ field.combinations ↔
      (∃ subset, subset.Sublist field.bits ∧ joined subset = v) ∨ v = ~~~ joined field.bits := by
  rw [field.combinations_eq, field.mem_bitsCombinations_of_few field.masks few, exists_sublist_iff]
  simp only [mem_powerSet, field.combine_eq]
  constructor
  · rintro (⟨comb, ⟨sub, -⟩, same⟩ | zero | complement)
    · exact .inl ⟨comb, sub, same⟩
    · exact .inl ⟨[], List.nil_sublist _, zero.symm⟩
    · exact .inr complement
  · rintro (⟨comb, sub, same⟩ | complement)
    · -- the empty subset is not among those of `powerSet`
      cases comb with
      | nil => exact .inr (.inl same.symm)
      | cons i comb => exact .inl ⟨i :: comb, ⟨sub, List.cons_ne_nil i comb⟩, same⟩
    · exact .inr (.inr complement)

theorem combinations_of_masks : field.Combined := by
  by_cases few : field.bits.length ≤ 4
  · have iff := field.mem_combinations_of_few few
    refine ⟨?_, fun mask member => ?_, ?_, ?_, fun _ => ?_, fun _ => iff⟩
    · exact (iff 0).mpr (.inl ⟨[], List.nil_sublist _, rfl⟩)
    · exact (iff mask).mpr (.inl ⟨[mask], List.singleton_sublist.mpr member, UInt64.zero_or⟩)
    · exact (iff _).mpr (.inl ⟨field.bits, List.Sublist.refl _, rfl⟩)
    · exact (iff _).mpr (.inr rfl)
    · rw [combinations_eq, field.bitsCombinations_of_few field.masks few]
      exact field.members.combSet.ascending
  · have list : field.combinations = joined field.bits :: field.bits ++ [0, ~~~ joined field.bits] :=
      field.bitsCombinations_of_many field.masks (Nat.not_le.mp few)
    refine ⟨?_, fun mask member => ?_, ?_, ?_, fun short => absurd short few, fun short => absurd short few⟩
    · simp [list]
    · simp [list, member]
    · simp [list]
    · simp [list]

/-- A status byte with three masks. -/
def statusBits : MaskedField where
  nBytes := 1
  nBytes_pos := by decide
  bits := [0x01, 0x06, 0x80]
  magics := []
  rangeSpecials := []
  masks := by decide

theorem combinations_statusBits :
    statusBits.Combined ∧ statusBits.combinations = [0, 1, 6, 7, 0x80, 0x81, 0x86, 0x87, 0xffffffffffffff78] :=
  ⟨combinations_of_masks statusBits, by decide +kernel⟩

end MaskedField

end DevFuzz.Stage2
