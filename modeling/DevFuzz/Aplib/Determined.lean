import DevFuzz.Aplib.Ends

/-! # What a device read leaves in its destination

`ap_get_fuzz_data` has exits that store nothing to `dest`, or only a part of it.
`apGetFuzzData_determined_iff` says which: the bytes of a read that returns are determined by the
library, the fuzz file and the random numbers exactly when every byte is stored.
-/

namespace DevFuzz.Aplib

open DevFuzz.Lib DevFuzz.Lib.Logged DevFuzz.Lib.Bytes DevFuzz.Stage2

/-! ## The transfers -/

theorem copyInto_eq_overlay (dest : Memory) (start width : Nat) (source : Memory) :
    copyInto dest start width source =
      overlay (fun i => if start ≤ i ∧ i < start + width then some (source (i - start)) else none) dest := by
  funext i
  by_cases inside : start ≤ i ∧ i < start + width <;> simp [copyInto, overlay, inside]

section

variable {s : Stream}

theorem patches_copyInto (start width : Nat) (source : Memory) :
    Patches s (fun dest => (pure (copyInto dest start width source) : Logged Access Stream Memory))
      fun i => start ≤ i ∧ i < start + width := by
  simp only [copyInto_eq_overlay]
  refine (Patches.write _).congr fun i => ?_
  split_ifs with inside <;> simp [inside]

theorem patches_storeLE (start width value : Nat) :
    Patches s (fun dest => (pure (storeLE dest start width value) : Logged Access Stream Memory))
      fun i => start ≤ i ∧ i < start + width :=
  patches_copyInto start width (byteOf value)

theorem patches_copy (file : FuzzFile) (start len : Nat) :
    Patches s (fun dest => file.copy dest start len) fun i => i < len :=
  (Patches.after fun _ _ _ => patches_copyInto 0 len _).congr fun i => by simp

theorem patches_fillRandom (size : Nat) : Patches s (fun dest => fillRandom dest size) fun i => i < size := by
  refine (Patches.foldlM (W := fun j i => i = j) (fun j _ t => ?_) s).congr fun i => by simp
  refine Patches.after fun r u _ => ?_
  have cell : ∀ dest : Memory, Function.update dest j (UInt8.ofNat r.val) =
      overlay (fun i => if i = j then some (UInt8.ofNat r.val) else none) dest := by
    intro dest
    funext i
    by_cases here : i = j
    · subst here
      simp [overlay]
    · simp [overlay, here]
  simp only [cell]
  refine (Patches.write _).congr fun i => ?_
  split_ifs with here <;> simp [here]

theorem patches_feedFuzzMMIOData (stage2 : Stage2Device) (file : FuzzFile) (start : Nat) (offset : Int) (sz : Nat) :
    Patches s (fun dest => stage2.feedFuzzMMIOData file start offset dest sz) fun i => i < sz := by
  unfold Stage2Device.feedFuzzMMIOData
  cases stage2.mmioInputs.lookup offset with
  | none => exact patches_copy file start sz
  | some hwi =>
    exact (Patches.after fun _ _ _ => Patches.after fun _ _ _ => patches_storeLE 0 sz _).congr fun i => by simp

/-- A byte of a USB transfer that comes from the file or from a field. -/
def coversByte (stage2 : Stage2Device) (aflLen : Int) (i : Nat) : Prop :=
  i < aflLen ∨ ∃ entry ∈ stage2.usbInputs.entries, entry.1 ≤ i ∧ i < entry.1 + entry.2.nBytes

theorem patches_feedUSBField (stage2 : Stage2Device) (file : FuzzFile) (start size : Nat) (aflLen : Int)
    (entry : (_ : Nat) × HWInput) :
    Patches s (fun dest => stage2.feedUSBField file start size aflLen dest entry)
      fun i => entry.1 ≤ i ∧ i < size ∧ i < entry.1 + entry.2.nBytes := by
  unfold Stage2Device.feedUSBField
  split_ifs with outside
  · exact Patches.keep.congr fun i => iff_of_false id (by omega)
  · refine (Patches.after fun _ _ _ => Patches.after fun _ _ _ => patches_storeLE _ _ _).congr fun i => ?_
    unfold Stage2Device.fieldSz
    split_ifs <;> omega

theorem patches_feedFuzzUSBData (stage2 : Stage2Device) (file : FuzzFile) (start size : Nat) (aflLen : Int) :
    Patches s (fun dest => stage2.feedFuzzUSBData file start dest size aflLen)
      fun i => i < size ∧ coversByte stage2 aflLen i := by
  refine Patches.after fun _ t _ => ?_
  by_cases negative : Stage2Device.copyLen size aflLen < 0
  · simp only [negative, if_true]
    exact ⟨[], .inl fun _ => rfl⟩
  · simp only [negative, if_false]
    have fields : ∀ u, Patches u (fun dest => stage2.usbInputs.entries.foldlM
        (stage2.feedUSBField file start size aflLen) dest) _ :=
      Patches.foldlM fun entry _ v => patches_feedUSBField stage2 file start size aflLen entry
    refine ((patches_copyInto 0 _ _).bind fields).congr fun i => ?_
    have prefix_ : (0 ≤ i ∧ i < 0 + (Stage2Device.copyLen size aflLen).toNat) ↔ i < size ∧ (i : Int) < aflLen := by
      unfold Stage2Device.copyLen at negative ⊢
      split_ifs at negative ⊢ <;> omega
    rw [prefix_, coversByte]
    constructor
    · rintro (⟨inside, below⟩ | ⟨entry, member, low, inside, high⟩)
      · exact ⟨inside, .inl below⟩
      · exact ⟨inside, .inr ⟨entry, member, low, high⟩⟩
    · rintro ⟨inside, below | ⟨entry, member, low, high⟩⟩
      · exact .inl ⟨inside, below⟩
      · exact .inr ⟨entry, member, low, inside, high⟩

end

/-! ## A whole read -/

section

variable {δ : Type} (model : DeviceModel δ) (cfg : Config) (lib : Library δ) (moment : Moment) (req : Request)

variable {s : Stream}

theorem hasFuzzFile_result {found : Bool} {t : Stream} (returned : lib.hasFuzzFile.result s = some (found, t)) :
    t = s ∧ ∃ path, lib.sm = some path ∧ found = !path.isEmpty := by
  unfold Library.hasFuzzFile at returned
  cases sm : lib.sm with
  | none => simp [sm, die, result] at returned
  | some path =>
    simp only [sm, result, pure, Option.some.injEq, Prod.mk.injEq] at returned
    exact ⟨returned.2.symm, path, rfl, returned.1.symm⟩

theorem yes_result {prob : Int} {hit : Bool} {t : Stream}
    (returned : (yes prob : Logged Access Stream Bool).result s = some (hit, t)) :
    hit = decide (((s 0).val % 100 : Nat) + 1 ≤ prob) := by
  have run : (yes prob : Logged Access Stream Bool).result s =
      some (decide (((s 0).val % 100 : Nat) + 1 ≤ prob), fun n => s (n + 1)) := rfl
  rw [run] at returned
  exact (Prod.ext_iff.mp (Option.some.inj returned)).1.symm

theorem patches_feedUSB (stage2 : Stage2Device) :
    Patches s (lib.feedUSB req stage2) fun i => i < req.size ∧ coversByte stage2 (aflLen req lib.file) i :=
  patches_feedFuzzUSBData stage2 lib.file _ req.size _

/-- Probing with the model stores the byte `i`; `mutated` is the choice that `yes` makes. -/
def probeFuzzDefines (mutated : Bool) (i : Nat) : Prop :=
  mutated = true → lib.file.size ≠ 0 → ∀ stage2,
    lib.stage2.filter Stage2Device.hasUSBModel = some stage2 → coversByte stage2 (aflLen req lib.file) i

theorem patchesWith_probeFuzzRead :
    PatchesWith s (probeFuzzRead model cfg lib moment req) fun i => i < req.size ∧
      probeFuzzDefines lib req (decide (((s 0).val % 100 : Nat) + 1 ≤ cfg.modelMutateProb)) i := by
  refine PatchesWith.after fun mutated t rolled => ?_
  rw [← yes_result rolled]
  by_cases hit : mutated = true ∧ lib.file.size ≠ 0
  · simp only [hit, ne_eq, not_false_eq_true, decide_true, Bool.and_self, if_true, probeFuzzDefines]
    cases usb : lib.stage2.filter Stage2Device.hasUSBModel with
    | none => exact ((patches_copy _ _ _).pair _).congr fun i => by simp
    | some stage2 => exact ((patches_feedUSB _ req stage2).pair _).congr fun i => by simp
  · have plain : (mutated && decide (lib.file.size ≠ 0)) = false := by simpa using hit
    simp only [plain, Bool.false_eq_true, if_false]
    refine ((patches_copyInto 0 req.size _).pair _).congr fun i => ?_
    have stored : probeFuzzDefines lib req mutated i := fun rolled nonempty => absurd ⟨rolled, nonempty⟩ hit
    simp [stored]

theorem patchesWith_dumbProbeRead :
    PatchesWith s (dumbProbeRead lib req) fun i => i < req.size ∧ req.addr < lib.file.size := by
  unfold dumbProbeRead
  by_cases inside : req.addr < lib.file.size
  · have nonempty : lib.file.size ≠ 0 := fun zero => by simp [zero] at inside
    simp only [nonempty, inside, ne_eq, not_false_eq_true, and_self, if_true]
    exact ((patches_copy _ _ _).pair _).congr fun i => by simp
  · simp only [inside, and_false, if_false]
    exact ⟨[], .inr ⟨lib, fun _ => none, s, fun _ => rfl, by simp⟩⟩

/-- A read from the file stores the byte `i`. -/
def fuzzDefines (i : Nat) : Prop :=
  lib.file.size ≠ 0 ∧ ∀ stage2,
    (lib.stage2.filter fun _ => cfg.useStage2 && cfg.modelDelay < lib.delayCounter) = some stage2 →
      stage2.hasUSBModel = true → coversByte stage2 (aflLen req lib.file) i

theorem patchesWith_fuzzRead :
    PatchesWith s (fuzzRead cfg lib moment req) fun i => i < req.size ∧ fuzzDefines cfg lib req i := by
  unfold fuzzRead fuzzDefines
  by_cases empty : lib.file.size = 0
  · simp only [empty, if_true]
    exact ⟨[], .inr ⟨lib, fun _ => none, s, fun _ => rfl, by simp⟩⟩
  · have inside : ¬ lib.file.size ≤ lib.wrapped req := UInt64.not_le.mpr (wrapped_lt lib req empty)
    simp only [empty, inside, if_false]
    cases active : lib.stage2.filter fun _ => cfg.useStage2 && cfg.modelDelay < lib.delayCounter with
    | some stage2 =>
      simp only [Library.feedStage2]
      by_cases usb : stage2.hasUSBModel = true
      · simp only [usb, if_true]
        exact ((patches_feedUSB lib req stage2).pair _).congr fun i => by simp [usb, empty]
      · simp only [usb]
        exact ((patches_feedFuzzMMIOData stage2 _ _ _ _).pair _).congr fun i => by simp [usb, empty]
    | none =>
      dsimp only
      split_ifs
      · exact ((patches_copy _ _ _).pair _).congr fun i => by simp [empty]
      · exact ((patches_copyInto 0 req.size _).pair _).congr fun i => by simp [empty]

/-- A read that the device model has not answered stores the byte `i`. -/
def redirectDefines (i : Nat) : Prop :=
  lib.sm = none ∨ lib.sm = some [] ∨
    fuzzDefines cfg ({ lib with delayCounter := lib.delayCounter + 1 }.checkEpoch cfg moment) req i

theorem patchesWith_redirectedRead :
    PatchesWith s (redirectedRead cfg lib moment req) fun i =>
      i < req.size ∧ redirectDefines cfg lib moment req i := by
  unfold redirectedRead
  cases sm : lib.sm with
  | none =>
    exact ((patches_fillRandom req.size).pair _).congr fun i => by simp [redirectDefines, sm]
  | some path =>
    simp only [Option.isNone_some, Bool.false_eq_true, if_false]
    refine PatchesWith.after fun found t returned => ?_
    obtain ⟨rfl, path', same, rfl⟩ := hasFuzzFile_result lib returned
    obtain rfl : path = path' := Option.some.inj (sm.symm.trans same)
    cases path with
    | nil => exact ((patches_copyInto 0 req.size _).pair _).congr fun i => by simp [redirectDefines, sm]
    | cons first path =>
      exact (patchesWith_fuzzRead cfg _ moment req).congr fun i => by simp [redirectDefines, sm]

/-- A device read stores the byte `i`; `mutated` is the choice that `yes` makes. -/
def Defines (mutated : Bool) (i : Nat) : Prop :=
  if cfg.testProbe then
    if cfg.modelProbeFuzz then probeFuzzDefines (lib.checkEpoch cfg moment) req mutated i
    else req.addr < (lib.checkEpoch cfg moment).file.size
  else ((model.readBar lib.hw req).written i).isSome = true ∨
    redirectDefines cfg { lib with hw := (model.readBar lib.hw req).device } moment req i

theorem patchesWith_testProbeRead (probing : cfg.testProbe = true) :
    PatchesWith s (testProbeRead model cfg lib moment req) fun i => i < req.size ∧
      Defines model cfg lib moment req (decide (((s 0).val % 100 : Nat) + 1 ≤ cfg.modelMutateProb)) i := by
  refine PatchesWith.after fun found t returned => ?_
  obtain ⟨rfl, path, -, rfl⟩ := hasFuzzFile_result lib returned
  cases path with
  | nil => exact PatchesWith.die
  | cons first path =>
    simp only [List.isEmpty_cons, Bool.not_false, Bool.not_true, Bool.false_eq_true, if_false, Defines,
      probing, if_true]
    split_ifs
    · exact (patchesWith_probeFuzzRead model cfg _ moment req).congr fun i => by simp [probeFuzzDefines]
    · exact patchesWith_dumbProbeRead _ req

theorem patchesWith_apGetFuzzData :
    ∃ W, PatchesWith s (apGetFuzzData model cfg lib moment req) W ∧ ∀ i < req.size,
      W i ↔ Defines model cfg lib moment req (decide (((s 0).val % 100 : Nat) + 1 ≤ cfg.modelMutateProb)) i := by
  unfold apGetFuzzData
  by_cases probing : cfg.testProbe = true
  · simp only [probing, if_true]
    exact ⟨_, patchesWith_testProbeRead model cfg lib moment req probing, fun i inside => by simp [inside]⟩
  · simp only [probing, Bool.false_eq_true, if_false, Defines]
    by_cases answered : (model.readBar lib.hw req).ret = 0
    · simp only [answered, ne_eq, not_true_eq_false, if_false]
      refine ⟨_, (patchesWith_redirectedRead cfg _ moment req).onTop _, fun i inside => ?_⟩
      simp [inside]
    · simp only [ne_eq, answered, not_false_eq_true, if_true]
      refine ⟨_, (Patches.write _).pair _, fun i inside => ?_⟩
      simp [model.readBar_fills lib.hw req answered inside]

/-- Two calls that differ in the old contents of `dest` only leave the same bytes in it. -/
def Determined (s : Stream) : Prop :=
  ∀ dest dest' r r' t t', (apGetFuzzData model cfg lib moment req dest).result s = some (r, t) →
    (apGetFuzzData model cfg lib moment req dest').result s = some (r', t') →
      ∀ i, i < req.size → r.2 i = r'.2 i

/-- A read is determined exactly when it ends the process or stores every byte.  The bytes that can
    be missing are: under `test_probe` without a model, those of an address behind the file; without
    `test_probe`, those the device model has not stored when the file is empty; and with a USB model,
    those behind the end of the file that no field covers. -/
theorem apGetFuzzData_determined_iff (req : RegisterRequest) (s : Stream) :
    Determined model cfg lib moment req.toRequest s ↔
      Ends model cfg lib moment req.toRequest s ∨
        ∀ i, i < req.size → Defines model cfg lib moment req.toRequest
          (decide (((s 0).val % 100 : Nat) + 1 ≤ cfg.modelMutateProb)) i := by
  obtain ⟨W, writes, same⟩ := patchesWith_apGetFuzzData model cfg lib moment req.toRequest (s := s)
  have := nontrivial_byte
  refine (writes.determined_iff fun i => i < req.size).trans (or_congr ?_ (forall₂_congr same))
  simp only [apGetFuzzData_result_eq_none_iff, forall_const]

end

/-- A device model past its probe phase: it answers no read. -/
def silentModel : DeviceModel Unit where
  read := fun _ _ _ => ⟨0, (), fun _ => none⟩
  write := fun _ _ _ _ => ()
  restartDevice := fun _ => ()
  redirectR := true
  fills := fun _ _ _ answered => absurd rfl answered

def plainConfig : Config where
  testProbe := false
  modelProbeFuzz := false
  useStage2 := false
  isEnabled := true
  modelMutateProb := 10
  modelResetTime := 3
  modelDelay := 0
  aflEpoch := 9223372036854775807

/-- A file of zero bytes. -/
def zeroFile (size : Fin 9223372036854775808) : FuzzFile where
  data := fun _ => 0
  size := UInt64.ofNat size.val
  size_lt := by
    rw [UInt64.toNat_ofNat_of_lt' (by have := size.isLt; simp only [UInt64.size]; omega)]
    exact size.isLt

/-- A library that is connected to a proxy with a file of the given size. -/
def connectedLibrary (size : Fin 9223372036854775808) : Library Unit where
  hw := ⟨(), []⟩
  stage2 := none
  sm := some ['f']
  file := zeroFile size
  counter := 0
  delayCounter := 0
  qemuCounter := 0
  lastDevRestart := 0
  aflLastEpochEnd := 0

def quietMoment : Moment where
  now := 0
  epochEnd := 0
  path := ['f']
  file := zeroFile 0
  ipc := fun _ => 0
  stack := fun _ => 0

/-- With an empty file, and under `test_probe` behind the end of the file, `dest` is left alone. -/
theorem not_determined_emptyFile :
    ¬ Determined silentModel plainConfig (connectedLibrary 0) quietMoment ⟨0, 4, 0⟩ (fun _ => 0) ∧
      ¬ Determined silentModel { plainConfig with testProbe := true } (connectedLibrary 16) quietMoment
        ⟨16, 4, 0⟩ (fun _ => 0) := by
  constructor
  · intro same
    exact absurd (same (fun _ => 0) (fun _ => 1) _ _ _ _ rfl rfl 0 (by decide)) (by decide)
  · intro same
    exact absurd (same (fun _ => 0) (fun _ => 1) _ _ _ _ rfl rfl 0 (by decide)) (by decide)

end DevFuzz.Aplib
