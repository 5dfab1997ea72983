import DevFuzz.Analysis.Constraints

/-! # Fields that are emitted

`genStage2ModelInitCode` leaves out a field for which nothing has been recorded, that is, one for
which `empty` is true.  It asks before the ranges are turned into values, and what it lets through is
divided by at run time: the size of the dictionary that the emitted lists make.
-/

namespace DevFuzz.Stage2.HWInput

open DevFuzz.Lib DevFuzz.Lib.Logged

variable {ε : Type} {input : HWInput} {mode : Mode} {original : UInt64}

/-- What `feedData` may make of a value. -/
inductive Choice (input : HWInput) (original : UInt64) : UInt64 → Prop where
  | kept : Choice input original original
  | drawn {v : UInt64} (member : v ∈ input.dict) : Choice input original v
  | mixed {c : UInt64} (member : c ∈ input.bitsCombinations) : Choice input original (original ||| c)

theorem returns_pick (some : input.dict ≠ []) (n : Nat) :
    Returns (fun _ => True) (input.pick n : Logged ε Stream UInt64) fun value _ => value ∈ input.dict := by
  rw [pick, dif_pos (List.length_pos_iff.mpr some)]
  exact returns_pure fun _ _ => List.get_mem _ _

theorem returns_modelRand (some : input.dict ≠ []) :
    Returns (fun _ => True) (input.modelRand : Logged ε Stream UInt64) fun value _ => value ∈ input.dict :=
  returns_bind (returns_rand fun _ _ => trivial) fun c => returns_pick some c.val

theorem returns_hybridRand :
    Returns (fun _ => True) (input.hybridRand original : Logged ε Stream UInt64)
      fun value _ => Choice input original value := by
  unfold hybridRand
  split
  · refine returns_bind (returns_rand fun _ _ => trivial) fun c => returns_pure fun _ _ => ?_
    rw [UInt64.or_comm]
    exact .mixed (List.get_mem _ _)
  · exact returns_pure fun _ _ => .kept

theorem returns_yes (prob : Int) : Returns (fun _ => True) (yes prob : Logged ε Stream Bool) fun _ _ => True :=
  returns_bind (returns_rand fun _ _ => trivial) fun _ => returns_pure fun _ _ => trivial

/-- With something to draw from, `feedData` returns in both modes. -/
theorem returns_feedData_choice (some : input.dict ≠ []) :
    Returns (fun _ => True) (input.feedData mode original : Logged ε Stream UInt64)
      fun value _ => Choice input original value := by
  have drawn : ∀ value (_ : Stream), value ∈ input.dict → Choice input original value := fun _ _ => .drawn
  cases mode with
  | indexed => exact (returns_pick some _).weaken drawn
  | random =>
    refine returns_bind (returns_yes input.useModelProb) fun model => ?_
    cases model with
    | true => exact (returns_modelRand some).weaken drawn
    | false =>
      refine returns_bind (returns_yes 50) fun hybrid => ?_
      cases hybrid with
      | true => exact returns_hybridRand
      | false => exact returns_pure fun _ _ => .kept

end DevFuzz.Stage2.HWInput

namespace DevFuzz.Analysis

open DevFuzz.Lib DevFuzz.Lib.Logged DevFuzz.Stage2

/-! ## The record of a field -/

/-- The number of bytes for a size of any sign.  The analyser tells 1, 2, 4 and 8 apart and no other
    sizes, so 3 stands for those that are not a number of bytes. -/
def bytesFor (size : Int) : Nat := if 0 < size then size.toNat else 3

theorem bytesFor_pos (size : Int) : 0 < bytesFor size := by
  unfold bytesFor
  split_ifs <;> omega

/-- `HWInput(off, size)` -/
def HWInput.ofSize (size : Int) : HWInput where
  nBytes := bytesFor size
  nBytes_pos := bytesFor_pos size
  ranges := []
  valueSet := .empty
  bitsSet := .empty
  rangeSpecialVals := .empty

def HWInput.empty (input : HWInput) : Bool :=
  input.bitsSet.elements.isEmpty && input.valueSet.elements.isEmpty && input.ranges.isEmpty

/-- The calls that the analyser makes for a field. -/
inductive Recording where
  | constraint (expr : Expression)
  | value (val : UInt64)
  | range (start stop : Int64)

/-- No result where `genHWInputConstraint` has none. -/
def Recording.record (input : HWInput) : Recording → Option HWInput
  | constraint expr => genHWInputConstraint input expr
  | value val => some (input.insertValue val)
  | range start stop => some (input.insertRanges start stop)

/-- A field that `genStage2ModelInitCode` emits. -/
structure EmittedField where
  size : Int
  history : List Recording
  input : HWInput
  recorded : history.foldlM Recording.record (HWInput.ofSize size) = some input
  emitted : input.empty = false

namespace EmittedField

variable (field : EmittedField)

/-- What the emitted code constructs. -/
def runtime : RuntimeInput := field.input.process.genModelInitCode.construct

/-- No call divides by zero, whatever `rand` returns, and what `feedData` returns is one of the choices. -/
structure Drawable : Prop where
  dict : field.runtime.dict ≠ []
  modelRand : ∀ ε, Returns (fun _ => True) (field.runtime.modelRand : Logged ε Stream UInt64) fun value _ =>
    value ∈ field.runtime.dict
  feedData : ∀ ε mode original, Returns (fun _ => True)
    (field.runtime.feedData mode original : Logged ε Stream UInt64) fun value _ =>
      field.runtime.Choice original value

end EmittedField

/-- Each container of a field puts something into the dictionary. -/
theorem HWInput.dict_ne_nil {input : HWInput} (emitted : input.empty = false) : input.dict ≠ [] := by
  have found : ∃ v, v ∈ input.dict := by
    simp only [HWInput.empty, Bool.and_eq_false_iff, List.isEmpty_eq_false_iff] at emitted
    rcases emitted with (bits | values) | ranges
    · obtain ⟨v, member⟩ := List.exists_mem_of_ne_nil _ bits
      exact ⟨v, (input.mem_dict_of_mem_bitsSet member).1⟩
    · obtain ⟨v, member⟩ := List.exists_mem_of_ne_nil _ values
      exact ⟨v, input.mem_dict.mpr (.inl member)⟩
    · -- a range is five values, its start among them
      obtain ⟨⟨start, stop⟩, member⟩ := List.exists_mem_of_ne_nil _ ranges
      refine ⟨start.toUInt64, input.mem_dict.mpr (.inr (.inr (.inl ?_)))⟩
      exact List.mem_flatMap.mpr ⟨_, member, List.mem_map.mpr ⟨start, by simp [genSpecial], rfl⟩⟩
  obtain ⟨v, member⟩ := found
  exact List.ne_nil_of_mem member

/-- Every field that is emitted has something to draw. -/
theorem EmittedField.drawable (field : EmittedField) : field.Drawable := by
  have some : field.runtime.dict ≠ [] := HWInput.dict_ne_nil field.emitted
  exact ⟨some, fun ε => Stage2.HWInput.returns_modelRand some, fun ε mode original =>
    Stage2.HWInput.returns_feedData_choice some⟩

/-- A field of two bytes that is compared with 7 and with a range. -/
def rangedField : EmittedField where
  size := 2
  history := [.value 7, .range 0x10 0x20]
  input := ((HWInput.ofSize 2).insertValue 7).insertRanges 0x10 0x20
  recorded := rfl
  emitted := by decide

theorem drawable_rangedField : rangedField.Drawable ∧ 7 ∈ rangedField.runtime.dict :=
  ⟨rangedField.drawable, by decide +kernel⟩

end DevFuzz.Analysis
