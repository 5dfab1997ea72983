import DevFuzz.Lib.Collections
import DevFuzz.Stage2.HWInput

/-! # The dictionary of a field

The constructor of `HWInput` in `aplib/HWModel.h`: `genDict` puts the values that
the analyser has found for a field, and combinations of the bits it has found,
into the dictionary that `feedData` draws from.
-/

namespace DevFuzz.Stage2

open DevFuzz.Lib

/-! ## Selections of masks -/

/-- The vectors that `selectN` works on. -/
structure Selection where
  res : List (List Nat)
  path : List Nat
  deriving DecidableEq, Repr

namespace Selection

def push (s : Selection) (i : Nat) : Selection := { s with path := s.path ++ [i] }

def pop (s : Selection) : Selection := { s with path := s.path.dropLast }

def record (s : Selection) : Selection := { s with res := s.res ++ [s.path] }

end Selection

/-- The loop of `selectN`, with `left` indices from `i` on to go.  The call inside is written out. -/
def selectLoop (n : Nat) : (left i : Nat) → Selection → Selection
  | 0, _, s => s
  | left + 1, i, s =>
    let called := s.push i
    let returned :=
      if called.path.length = n then called.record
      else if left + called.path.length < n then called
      else selectLoop n left (i + 1) called
    selectLoop n left (i + 1) returned.pop

def selectN (start total : Nat) (s : Selection) (n : Nat) : Selection :=
  if s.path.length = n then s.record
  else if total - start + s.path.length < n then s
  else selectLoop n (total - start) start s

def powerSet (n : Nat) (res : List (List Nat)) : Selection :=
  (List.range' 1 n).foldl (fun s i => selectN 0 n s i) ⟨res, []⟩

theorem selectLoop_succ (n left i : Nat) (s : Selection) :
    selectLoop n (left + 1) i s = selectLoop n left (i + 1) (selectN (i + 1) (i + 1 + left) (s.push i) n).pop := by
  rw [selectLoop, selectN, Nat.add_sub_cancel_left]

/-- What the loop appends: the selections of as many indices as the path lacks. -/
theorem selectLoop_eq {n k : Nat} (left i : Nat) (res : List (List Nat)) {path : List Nat}
    (lacks : path.length + (k + 1) = n) :
    selectLoop n left i ⟨res, path⟩ =
      ⟨res ++ (choose (k + 1) (List.range' i left)).map (path ++ ·), path⟩ := by
  induction left generalizing i res path k with
  | zero => simp [selectLoop, choose]
  | succ left ih =>
    -- the call for `i` appends the selections that start with `i`
    have called : selectN (i + 1) (i + 1 + left) ⟨res, path ++ [i]⟩ n =
        ⟨res ++ (choose k (List.range' (i + 1) left)).map (path ++ [i] ++ ·), path ++ [i]⟩ := by
      cases k with
      | zero => simp [selectN, Selection.record, choose, lacks]
      | succ k =>
        have open_ : ¬ (path ++ [i]).length = n := by
          simp only [List.length_append, List.length_singleton]
          omega
        rw [selectN, if_neg open_]
        split_ifs with few
        · have none : choose (k + 1) (List.range' (i + 1) left) = [] := by
            refine choose_eq_nil ?_
            simp only [List.length_append, List.length_singleton, List.length_range'] at few ⊢
            omega
          simp [none]
        · rw [Nat.add_sub_cancel_left]
          refine ih (i + 1) res ?_
          simp only [List.length_append, List.length_singleton]
          omega
    rw [selectLoop_succ, Selection.push, called, Selection.pop, List.dropLast_concat, ih _ _ lacks,
      List.range'_succ, choose, List.map_append, List.map_map, List.append_assoc]
    simp [Function.comp_def]

/-- `powerSet` appends the selections of one index, of two, and so on. -/
theorem powerSet_eq (n : Nat) (res : List (List Nat)) :
    powerSet n res = ⟨res ++ (List.range' 1 n).flatMap fun k => choose k (List.range' 0 n), []⟩ := by
  have rounds : ∀ (sizes : List Nat) (res : List (List Nat)), (∀ k ∈ sizes, 0 < k ∧ k ≤ n) →
      sizes.foldl (fun s i => selectN 0 n s i) ⟨res, []⟩ =
        ⟨res ++ sizes.flatMap fun k => choose k (List.range' 0 n), []⟩ := by
    intro sizes
    induction sizes with
    | nil => simp
    | cons k sizes ih =>
      intro res bounds
      obtain ⟨⟨positive, small⟩, later⟩ := List.forall_mem_cons.mp bounds
      obtain ⟨k, rfl⟩ := Nat.exists_eq_succ_of_ne_zero (Nat.ne_of_gt positive)
      have round : selectN 0 n ⟨res, []⟩ (k + 1) = ⟨res ++ choose (k + 1) (List.range' 0 n), []⟩ := by
        rw [selectN, if_neg (by simp), if_neg (by simp; omega), selectLoop_eq (k := k) _ _ _ (by simp)]
        simp
      rw [List.foldl_cons, round, ih _ later, List.flatMap_cons, List.append_assoc]
  refine rounds _ _ fun k member => ?_
  have := List.mem_range'_1.mp member
  omega

theorem mem_powerSet {n : Nat} {comb : List Nat} :
    comb ∈ (powerSet n []).res ↔ comb.Sublist (List.range' 0 n) ∧ comb ≠ [] := by
  rw [powerSet_eq, List.nil_append, List.mem_flatMap]
  constructor
  · rintro ⟨k, size, chosen⟩
    obtain ⟨sub, rfl⟩ := mem_choose.mp chosen
    refine ⟨sub, List.ne_nil_of_length_pos ?_⟩
    have := List.mem_range'_1.mp size
    omega
  · rintro ⟨sub, nonempty⟩
    refine ⟨comb.length, List.mem_range'_1.mpr ?_, mem_choose.mpr ⟨sub, rfl⟩⟩
    have short := sub.length_le
    have := List.length_pos_iff.mpr nonempty
    rw [List.length_range'] at short
    omega

/-! ## Bit combinations and the dictionary -/

/-- An `HWInput` with the lists that it is built from. -/
structure RuntimeInput extends HWInput where
  bitsVec : List UInt64
  magicValues : List UInt64
  rangeSpecialVals : List UInt64
  bitsCombSet : OrderedSet UInt64

namespace RuntimeInput

variable (input : RuntimeInput)

def importantBits : UInt64 := input.bitsVec.foldl (· ||| ·) 0

/-- `val` for the masks of a selection -/
def combine (comb : List Nat) : UInt64 := comb.foldl (fun val i => val ||| input.bitsVec.getD i 0) 0

def combSet : OrderedSet UInt64 :=
  let combs := (powerSet input.bitsVec.length []).res
  (combs.map input.combine ++ [0, ~~~ input.importantBits]).foldl OrderedSet.insert input.bitsCombSet

def generateBitCombs : RuntimeInput :=
  if input.bitsVec = [] then input
  else if 4 < input.bitsVec.length then
    { input with bitsCombinations :=
        input.bitsCombinations ++ input.importantBits :: input.bitsVec ++ [0, ~~~ input.importantBits] }
  else
    { input with
      bitsCombSet := input.combSet
      bitsCombinations := input.bitsCombinations ++ input.combSet.elements }

def genDict : RuntimeInput :=
  let input := input.generateBitCombs
  { input with dict := input.dict ++ input.magicValues ++ input.bitsCombinations ++ input.rangeSpecialVals }

theorem generateBitCombs_cases :
    input.bitsVec = [] ∧ input.generateBitCombs = input ∨
      input.bitsVec ≠ [] ∧ 4 < input.bitsVec.length ∧ input.generateBitCombs = { input with bitsCombinations :=
        input.bitsCombinations ++ input.importantBits :: input.bitsVec ++ [0, ~~~ input.importantBits] } ∨
      input.bitsVec ≠ [] ∧ input.bitsVec.length ≤ 4 ∧ input.generateBitCombs = { input with
        bitsCombSet := input.combSet
        bitsCombinations := input.bitsCombinations ++ input.combSet.elements } := by
  unfold generateBitCombs
  split_ifs with none many
  · exact .inl ⟨none, rfl⟩
  · exact .inr (.inl ⟨none, many, rfl⟩)
  · exact .inr (.inr ⟨none, Nat.not_lt.mp many, rfl⟩)

/-- The combinations are made from the masks and leave all other members as they are. -/
theorem generateBitCombs_keeps :
    input.generateBitCombs.bitsVec = input.bitsVec ∧ input.generateBitCombs.dict = input.dict ∧
      input.generateBitCombs.magicValues = input.magicValues ∧
      input.generateBitCombs.rangeSpecialVals = input.rangeSpecialVals := by
  rcases input.generateBitCombs_cases with ⟨-, same⟩ | ⟨-, -, same⟩ | ⟨-, -, same⟩ <;>
    rw [same] <;> exact ⟨rfl, rfl, rfl, rfl⟩

theorem genDict_dict :
    input.genDict.dict =
      input.dict ++ input.magicValues ++ input.generateBitCombs.bitsCombinations ++ input.rangeSpecialVals := by
  obtain ⟨-, dict, magics, ranges⟩ := input.generateBitCombs_keeps
  rw [genDict, dict, magics, ranges]

end RuntimeInput

/-- What the constructor of a field is called with; the probability has a default. -/
structure FieldLists where
  nBytes : Nat
  nBytes_pos : 0 < nBytes
  bits : List UInt64
  magics : List UInt64
  rangeSpecials : List UInt64
  prob : Int := 75

namespace FieldLists

variable (lists : FieldLists)

/-- The members before `genDict`. -/
def members : RuntimeInput where
  nBytes := lists.nBytes
  nBytes_pos := lists.nBytes_pos
  bitsCombinations := []
  dict := []
  useModelProb := lists.prob
  bitsVec := lists.bits
  magicValues := lists.magics
  rangeSpecialVals := lists.rangeSpecials
  bitsCombSet := .empty

/-- `HWInput(off, nbytes, bits, magics, range_specials, prob)` -/
def construct : RuntimeInput := lists.members.genDict

theorem construct_dict :
    lists.construct.dict =
      lists.magics ++ lists.members.generateBitCombs.bitsCombinations ++ lists.rangeSpecials :=
  lists.members.genDict_dict

theorem bitsCombinations_of_few (some : lists.bits ≠ []) (few : lists.bits.length ≤ 4) :
    lists.members.generateBitCombs.bitsCombinations = lists.members.combSet.elements := by
  rw [RuntimeInput.generateBitCombs, if_neg (show ¬ lists.members.bitsVec = [] from some),
    if_neg (show ¬ 4 < lists.members.bitsVec.length from Nat.not_lt.mpr few)]
  rfl

theorem bitsCombinations_of_many (some : lists.bits ≠ []) (many : 4 < lists.bits.length) :
    lists.members.generateBitCombs.bitsCombinations =
      lists.members.importantBits :: lists.bits ++ [0, ~~~ lists.members.importantBits] := by
  rw [RuntimeInput.generateBitCombs, if_neg (show ¬ lists.members.bitsVec = [] from some),
    if_pos (show 4 < lists.members.bitsVec.length from many)]
  rfl

/-- With up to four masks, the combinations are the masks of all selections joined, zero, and the
    complement of all masks. -/
theorem mem_bitsCombinations_of_few (some : lists.bits ≠ []) (few : lists.bits.length ≤ 4) {v : UInt64} :
    v ∈ lists.members.generateBitCombs.bitsCombinations ↔
      (∃ comb ∈ (powerSet lists.bits.length []).res, lists.members.combine comb = v) ∨ v = 0 ∨
        v = ~~~ lists.members.importantBits := by
  rw [lists.bitsCombinations_of_few some few, OrderedSet.mem_elements, RuntimeInput.combSet,
    OrderedSet.mem_foldl_insert]
  simp only [List.mem_append, List.mem_map, List.mem_cons, List.not_mem_nil, or_false]
  exact or_iff_left OrderedSet.not_mem_empty

/-- Zero and every mask are among the bit combinations. -/
theorem mem_bitsCombinations {v : UInt64} (member : v ∈ lists.bits) :
    v ∈ lists.members.generateBitCombs.bitsCombinations ∧ 0 ∈ lists.members.generateBitCombs.bitsCombinations := by
  have some : lists.bits ≠ [] := List.ne_nil_of_mem member
  by_cases few : lists.bits.length ≤ 4
  · rw [mem_bitsCombinations_of_few lists some few, mem_bitsCombinations_of_few lists some few]
    refine ⟨.inl ?_, .inr (.inl rfl)⟩
    -- a mask is the selection of its own index
    obtain ⟨i, inside, rfl⟩ := List.getElem_of_mem member
    refine ⟨[i], mem_powerSet.mpr ⟨?_, by simp⟩, ?_⟩
    · exact List.singleton_sublist.mpr (List.mem_range'_1.mpr (by omega))
    · simp [RuntimeInput.combine, members, inside]
  · rw [lists.bitsCombinations_of_many some (Nat.not_le.mp few)]
    simp [member]

end FieldLists

end DevFuzz.Stage2
