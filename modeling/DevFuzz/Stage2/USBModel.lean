import DevFuzz.Stage2.Dictionary

/-! # Installing the fields of a USB device

`setUSBModel` takes fields whose constructor has filled their dictionary, and calls
`genDict` for each of them once more.  `genDict` only appends: the second call leaves
the dictionary of a field with any value longer than it was, and the combinations of
its bits in it three times where its other values are in it twice (`count_genDict_construct`).
-/

namespace DevFuzz.Stage2

open DevFuzz.Lib

/-- `usb_inputs` after `setUSBModel(usb_mdl)` -/
def setUSBModel (usbMdl : AList fun _ : Int => RuntimeInput) : AList fun _ : Int => RuntimeInput :=
  mapValues RuntimeInput.genDict usbMdl

/-- The map that the generated code passes, with the fields as their constructor leaves them. -/
def usbMdl (fields : AList fun _ : Int => FieldLists) : AList fun _ : Int => RuntimeInput :=
  mapValues FieldLists.construct fields

/-- What the draws of a field are made from. -/
def RuntimeInput.draws (input : RuntimeInput) : List UInt64 × List UInt64 := (input.dict, input.bitsCombinations)

/-- Every field draws from the same sequences after the installation as before. -/
def InstalledAsBuilt (fields : AList fun _ : Int => FieldLists) : Prop :=
  ∀ offset, ((setUSBModel (usbMdl fields)).lookup offset).map RuntimeInput.draws =
    ((usbMdl fields).lookup offset).map RuntimeInput.draws

theorem RuntimeInput.combSet_of_bitsVec {input other : RuntimeInput} (bits : input.bitsVec = other.bitsVec) :
    input.combSet = ((powerSet other.bitsVec.length []).res.map other.combine ++ [0, ~~~ other.importantBits]).foldl
      OrderedSet.insert input.bitsCombSet := by
  have combine : input.combine = other.combine := by
    funext comb
    rw [RuntimeInput.combine, RuntimeInput.combine, bits]
  have important : input.importantBits = other.importantBits := by
    rw [RuntimeInput.importantBits, RuntimeInput.importantBits, bits]
  rw [RuntimeInput.combSet, combine, important, bits]

namespace FieldLists

variable (lists : FieldLists)

/-- The bit combinations that the constructor makes. -/
def combinations : List UInt64 := lists.members.generateBitCombs.bitsCombinations

/-- The analyser has found nothing for the field. -/
def NoValues : Prop := lists.bits = [] ∧ lists.magics = [] ∧ lists.rangeSpecials = []

theorem combinations_eq_nil_iff : lists.combinations = [] ↔ lists.bits = [] := by
  constructor
  · intro none
    cases bits : lists.bits with
    | nil => rfl
    | cons v rest =>
      have member : v ∈ lists.combinations := (lists.mem_bitsCombinations (v := v) (by simp [bits])).1
      rw [none] at member
      cases member
  · intro none
    rw [combinations, RuntimeInput.generateBitCombs, if_pos (show lists.members.bitsVec = [] from none)]
    rfl

/-- The second call makes the same combinations again and puts them behind the first ones. -/
theorem generateBitCombs_construct :
    lists.construct.generateBitCombs.bitsCombinations = lists.combinations ++ lists.combinations := by
  have first : lists.construct.bitsCombinations = lists.combinations := rfl
  have bits : lists.construct.bitsVec = lists.members.bitsVec := lists.members.generateBitCombs_keeps.1
  rw [RuntimeInput.generateBitCombs, bits]
  rcases lists.members.generateBitCombs_cases with ⟨none, made⟩ | ⟨some, many, made⟩ | ⟨some, few, made⟩
  · rw [if_pos none, first, (lists.combinations_eq_nil_iff.mpr none)]
    rfl
  · have important : lists.construct.importantBits = lists.members.importantBits := by
      rw [RuntimeInput.importantBits, bits, RuntimeInput.importantBits]
    have again : lists.combinations =
        lists.members.importantBits :: lists.members.bitsVec ++ [0, ~~~ lists.members.importantBits] := by
      rw [combinations, made]
      rfl
    rw [if_neg some, if_pos many, important]
    dsimp only
    rw [first, List.append_assoc, ← again]
  · -- all combinations are in the set already, so its elements are the same
    have set : lists.construct.bitsCombSet = lists.members.combSet := congrArg RuntimeInput.bitsCombSet made
    have same : lists.construct.combSet = lists.members.combSet := by
      rw [RuntimeInput.combSet_of_bitsVec bits, set]
      exact OrderedSet.foldl_insert_of_forall_mem fun v added => OrderedSet.mem_foldl_insert.mpr (.inl added)
    have again : lists.combinations = lists.members.combSet.elements := by
      rw [combinations, made]
      rfl
    rw [if_neg some, if_neg (Nat.not_lt.mpr few), same]
    dsimp only
    rw [first, ← again]

theorem genDict_construct_dict :
    lists.construct.genDict.dict = lists.construct.dict ++
      (lists.magics ++ (lists.combinations ++ lists.combinations) ++ lists.rangeSpecials) := by
  obtain ⟨-, -, magics, ranges⟩ := lists.members.generateBitCombs_keeps
  have magics : lists.construct.magicValues = lists.magics := magics
  have ranges : lists.construct.rangeSpecialVals = lists.rangeSpecials := ranges
  rw [RuntimeInput.genDict_dict, generateBitCombs_construct, magics, ranges]
  simp only [List.append_assoc]

/-- The other values of the field are in the dictionary twice then, and the combinations of its bits three times. -/
theorem count_genDict_construct (v : UInt64) :
    lists.construct.genDict.dict.count v =
      2 * lists.magics.count v + 3 * lists.combinations.count v + 2 * lists.rangeSpecials.count v := by
  rw [genDict_construct_dict, construct_dict, ← combinations]
  simp only [List.count_append]
  omega

theorem draws_genDict_construct_iff : lists.construct.genDict.draws = lists.construct.draws ↔ lists.NoValues := by
  have combinations : lists.construct.genDict.bitsCombinations = lists.construct.bitsCombinations ↔ lists.bits = [] := by
    rw [← lists.combinations_eq_nil_iff]
    exact (iff_of_eq (congrArg (· = _) lists.generateBitCombs_construct)).trans List.append_right_eq_self
  rw [RuntimeInput.draws, RuntimeInput.draws, Prod.mk.injEq, combinations, genDict_construct_dict, List.append_right_eq_self]
  simp only [List.append_eq_nil_iff, lists.combinations_eq_nil_iff, NoValues]
  tauto

end FieldLists

/-- Installing the fields keeps what they draw from exactly if none of them has a value. -/
theorem installedAsBuilt_iff (fields : AList fun _ : Int => FieldLists) :
    InstalledAsBuilt fields ↔ ∀ offset, ∀ lists ∈ fields.lookup offset, lists.NoValues := by
  refine forall_congr' fun offset => ?_
  rw [setUSBModel, lookup_mapValues, usbMdl, lookup_mapValues]
  cases fields.lookup offset with
  | none => simp
  | some lists => simpa using lists.draws_genDict_construct_iff

/-- A byte with one mask and one value. -/
def statusByte : FieldLists where
  nBytes := 1
  nBytes_pos := Nat.one_pos
  bits := [1]
  magics := [224]
  rangeSpecials := []

theorem not_installedAsBuilt_statusByte :
    ¬ InstalledAsBuilt (AList.singleton 0 statusByte) ∧
      statusByte.construct.dict = [224, 0, 1, 18446744073709551614] ∧
      statusByte.construct.genDict.dict = [224, 0, 1, 18446744073709551614,
        224, 0, 1, 18446744073709551614, 0, 1, 18446744073709551614] := by
  refine ⟨fun kept => ?_, by decide, by decide⟩
  exact absurd (kept 0) (by decide)

end DevFuzz.Stage2
