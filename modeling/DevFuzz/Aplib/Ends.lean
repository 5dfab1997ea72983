import DevFuzz.Aplib.FuzzData

/-! # When a device read ends the process

`ap_get_fuzz_data` asserts under `test_probe` that there is a fuzz file, and what it calls divides by
the size of a dictionary that may be empty.  `Ends` says from the library, the configuration and the
coming results of `rand` when a read does not return; the old contents of `dest` have no part in it.
-/

namespace DevFuzz.Aplib

open DevFuzz.Lib DevFuzz.Lib.Logged DevFuzz.Lib.Bytes DevFuzz.Stage2

/-! ## The overlays -/

section

variable (stage2 : Stage2Device) (file : FuzzFile) (start size : Nat) (aflLen : Int)

/-- A field of a USB transfer has nothing to draw from, somewhere along the loop over `usb_inputs`. -/
def fieldsEnd : List ((_ : Nat) × HWInput) → Stream → Prop
  | [], _ => False
  | entry :: rest, s =>
    -- a field behind the transfer is skipped and leaves `rand` alone
    if size ≤ entry.1 then fieldsEnd rest s
    else entry.2.drawnWith stage2.mode (s 0) = false ∨
      fieldsEnd rest fun n => s (n + entry.2.draws stage2.mode s)

/-- `feedFuzzUSBData` does not return. -/
def usbEnds (s : Stream) : Prop :=
  Stage2Device.copyLen size aflLen < 0 ∨ fieldsEnd stage2 size stage2.usbInputs.entries s

/-- `feedFuzzMMIOData` does not return. -/
def mmioEnds (offset : Int) (s : Stream) : Prop :=
  ∃ hwi, stage2.mmioInputs.lookup offset = some hwi ∧ hwi.drawnWith stage2.mode (s 0) = false

variable {stage2 file start size aflLen}

theorem usbOriginal_returns (file : FuzzFile) (start : Nat) (entry : (_ : Nat) × HWInput) (s : Stream) :
    ∃ original, (Stage2Device.usbOriginal file start size aflLen entry).result s = some (original, s) := by
  unfold Stage2Device.usbOriginal
  split_ifs
  · exact ⟨_, rfl⟩
  · exact ⟨0, rfl⟩

theorem fields_result_eq_none_iff {entries : List ((_ : Nat) × HWInput)} {dest : Memory} {s : Stream} :
    (entries.foldlM (stage2.feedUSBField file start size aflLen) dest).result s = none ↔
      fieldsEnd stage2 size entries s := by
  -- for every stream, since each field leaves another one to the next
  induction entries generalizing dest s with
  | nil => exact iff_of_false (Option.some_ne_none _) id
  | cons entry rest ih =>
    rw [List.foldlM_cons, fieldsEnd]
    by_cases outside : size ≤ entry.1
    · rw [if_pos outside, Stage2Device.feedUSBField, if_pos outside, result_bind_of_some rfl, ih]
    · rw [if_neg outside, Stage2Device.feedUSBField, if_neg outside]
      obtain ⟨original, loaded⟩ := usbOriginal_returns file start entry s
      rw [bind_assoc, result_bind_of_some loaded, bind_assoc]
      rcases entry.2.feedData_apply Access stage2.mode original s with ⟨value, fed, drawn⟩ | ⟨died, failed⟩
      · rw [result_bind_of_some (congrArg Prod.snd fed), result_bind_of_some rfl, ih]
        simp [drawn]
      · rw [result_bind_of_none (congrArg Prod.snd died)]
        simp [failed]

theorem feedFuzzUSBData_result_eq_none_iff {dest : Memory} {s : Stream} :
    (stage2.feedFuzzUSBData file start dest size aflLen).result s = none ↔ usbEnds stage2 size aflLen s := by
  rw [Stage2Device.feedFuzzUSBData, result_bind_of_some rfl, usbEnds]
  split_ifs with negative
  · exact iff_of_true rfl (.inl negative)
  · rw [fields_result_eq_none_iff]
    simp [negative]

theorem feedFuzzMMIOData_result_eq_none_iff {offset : Int} {dest : Memory} {s : Stream} :
    (stage2.feedFuzzMMIOData file start offset dest size).result s = none ↔ mmioEnds stage2 offset s := by
  unfold Stage2Device.feedFuzzMMIOData mmioEnds
  cases stage2.mmioInputs.lookup offset with
  | none => exact iff_of_false (Option.some_ne_none _) (by simp)
  | some hwi =>
    dsimp only
    rw [result_bind_of_some rfl]
    rcases hwi.feedData_apply Access stage2.mode _ s with ⟨value, fed, drawn⟩ | ⟨died, failed⟩
    · rw [result_bind_of_some (congrArg Prod.snd fed)]
      simp [drawn, pure, result]
    · rw [result_bind_of_none (congrArg Prod.snd died)]
      simp [failed]

end

/-! ## A whole read -/

section

variable {δ : Type} (model : DeviceModel δ) (cfg : Config) (lib : Library δ) (moment : Moment) (req : Request)

/-- How much of the file there is behind the wrapped address, as an `int`. -/
def aflLen (file : FuzzFile) : Int := asInt (file.size - req.addr % file.size)

/-- Probing with the model ends the process; `mutated` is the choice that `yes` makes. -/
def probeFuzzEnds (mutated : Bool) (s : Stream) : Prop :=
  mutated = true ∧ lib.file.size ≠ 0 ∧ ∃ stage2,
    lib.stage2.filter Stage2Device.hasUSBModel = some stage2 ∧ usbEnds stage2 req.size (aflLen req lib.file) s

/-- A read from the file ends the process. -/
def fuzzEnds (s : Stream) : Prop :=
  lib.file.size ≠ 0 ∧ ∃ stage2,
    (lib.stage2.filter fun _ => cfg.useStage2 && cfg.modelDelay < lib.delayCounter) = some stage2 ∧
      if stage2.hasUSBModel then usbEnds stage2 req.size (aflLen req lib.file) s
      else mmioEnds stage2 (asInt req.addr) s

/-- A read that the device model has not answered ends the process. -/
def redirectEnds (s : Stream) : Prop :=
  lib.sm ≠ none ∧ lib.sm ≠ some [] ∧
    fuzzEnds cfg ({ lib with delayCounter := lib.delayCounter + 1 }.checkEpoch cfg moment) req s

/-- A device read ends the process. -/
def Ends (s : Stream) : Prop :=
  if cfg.testProbe then
    lib.sm = none ∨ lib.sm = some [] ∨ cfg.modelProbeFuzz = true ∧
      probeFuzzEnds (lib.checkEpoch cfg moment) req (decide (((s 0).val % 100 : Nat) + 1 ≤ cfg.modelMutateProb))
        fun n => s (n + 1)
  else (model.readBar lib.hw req).ret = 0 ∧
    redirectEnds cfg { lib with hw := (model.readBar lib.hw req).device } moment req s

variable {s : Stream} {dest : Memory}

theorem wrapped_lt (nonempty : lib.file.size ≠ 0) : lib.wrapped req < lib.file.size :=
  UInt64.mod_lt _ (UInt64.pos_iff_ne_zero.mpr nonempty)

theorem probeFuzzRead_result_eq_none_iff : (probeFuzzRead model cfg lib moment req dest).result s = none ↔
    probeFuzzEnds lib req (decide (((s 0).val % 100 : Nat) + 1 ≤ cfg.modelMutateProb)) fun n => s (n + 1) := by
  rw [probeFuzzRead, result, HWInput.yes_bind]
  generalize decide (((s 0).val % 100 : Nat) + 1 ≤ cfg.modelMutateProb) = mutated
  by_cases hit : mutated = true ∧ lib.file.size ≠ 0
  · simp only [hit, ne_eq, not_false_eq_true, decide_true, Bool.and_self, if_true, probeFuzzEnds, true_and]
    cases usb : lib.stage2.filter Stage2Device.hasUSBModel with
    | none => exact iff_of_false (Option.some_ne_none _) (by simp)
    | some stage2 =>
      refine (result_bind_pure_eq_none_iff _).trans ?_
      rw [Library.feedUSB, feedFuzzUSBData_result_eq_none_iff]
      simp [aflLen, Library.wrapped]
  · have plain : (mutated && decide (lib.file.size ≠ 0)) = false := by simpa using hit
    simp only [plain, Bool.false_eq_true, if_false]
    exact iff_of_false (Option.some_ne_none _) fun ends => hit ⟨ends.1, ends.2.1⟩

theorem dumbProbeRead_result_ne_none : (dumbProbeRead lib req dest).result s ≠ none := by
  unfold dumbProbeRead
  split_ifs <;> exact Option.some_ne_none _

theorem fuzzRead_result_eq_none_iff :
    (fuzzRead cfg lib moment req dest).result s = none ↔ fuzzEnds cfg lib req s := by
  unfold fuzzRead fuzzEnds
  by_cases empty : lib.file.size = 0
  · simp only [empty, if_true]
    exact iff_of_false (Option.some_ne_none _) fun ends => ends.1 rfl
  · have inside : ¬ lib.file.size ≤ lib.wrapped req := UInt64.not_le.mpr (wrapped_lt lib req empty)
    simp only [empty, inside, if_false, ne_eq, not_false_eq_true, true_and]
    cases active : lib.stage2.filter fun _ => cfg.useStage2 && cfg.modelDelay < lib.delayCounter with
    | some stage2 =>
      refine (result_bind_pure_eq_none_iff _).trans ?_
      simp only [Library.feedStage2, Option.some.injEq, exists_eq_left']
      split_ifs
      · exact feedFuzzUSBData_result_eq_none_iff
      · exact feedFuzzMMIOData_result_eq_none_iff
    | none =>
      dsimp only
      split_ifs <;> exact iff_of_false (Option.some_ne_none _) (by simp)

theorem fillRandom_result_ne_none {size : Nat} : (fillRandom dest size).result s ≠ none := by
  unfold fillRandom
  induction List.range size generalizing dest s with
  | nil => exact Option.some_ne_none _
  | cons i rest ih =>
    rw [List.foldlM_cons, bind_assoc, result_bind_of_some rfl, result_bind_of_some rfl]
    exact ih

theorem redirectedRead_result_eq_none_iff :
    (redirectedRead cfg lib moment req dest).result s = none ↔ redirectEnds cfg lib moment req s := by
  unfold redirectedRead redirectEnds Library.hasFuzzFile
  -- without a proxy the bytes are random, and with an empty path they come over shared memory
  cases sm : lib.sm with
  | none =>
    refine iff_of_false (fun ended => ?_) fun ends => ends.1 rfl
    exact fillRandom_result_ne_none ((result_bind_pure_eq_none_iff _).mp ended)
  | some path =>
    cases path with
    | nil => exact iff_of_false (Option.some_ne_none _) fun ends => ends.2.1 rfl
    | cons first path =>
      simp only [Option.isNone_some, Bool.false_eq_true, if_false]
      rw [result_bind_of_some rfl]
      simpa using fuzzRead_result_eq_none_iff cfg _ moment req

theorem testProbeRead_result_eq_none_iff (probing : cfg.testProbe = true) :
    (testProbeRead model cfg lib moment req dest).result s = none ↔ Ends model cfg lib moment req s := by
  unfold testProbeRead Ends Library.hasFuzzFile
  simp only [probing, if_true]
  cases sm : lib.sm with
  | none => exact iff_of_true rfl (.inl rfl)
  | some path =>
    cases path with
    | nil => exact iff_of_true rfl (.inr (.inl rfl))
    | cons first path =>
      rw [result_bind_of_some rfl]
      by_cases fuzzed : cfg.modelProbeFuzz = true
      · -- the restart of the model leaves the file and stage 2 as they are
        simp [fuzzed, probeFuzzRead_result_eq_none_iff, probeFuzzEnds]
      · simp [fuzzed, dumbProbeRead_result_ne_none]

/-- A read returns or not whatever was in `dest`. -/
theorem apGetFuzzData_result_eq_none_iff :
    (apGetFuzzData model cfg lib moment req dest).result s = none ↔ Ends model cfg lib moment req s := by
  by_cases probing : cfg.testProbe = true
  · rw [apGetFuzzData, if_pos probing, testProbeRead_result_eq_none_iff model cfg lib moment req probing]
  · simp only [apGetFuzzData, Ends, probing, Bool.false_eq_true, if_false]
    split_ifs with answered
    · exact iff_of_false (Option.some_ne_none _) fun ends => answered ends.1
    · rw [redirectedRead_result_eq_none_iff]
      exact (and_iff_right (not_not.mp answered)).symm

end

end DevFuzz.Aplib
