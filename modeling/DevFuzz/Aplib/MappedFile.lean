import DevFuzz.Aplib.Determined

/-! # Accesses to the mapped fuzz file

The address of a device access is reduced modulo the size of the file, the access
itself is several bytes wide.  For each entry point, `fuzzFile_inBounds_iff` says
for which calls every byte of the mapping that is touched is a byte of the file.
-/

namespace DevFuzz.Aplib

open DevFuzz.Lib DevFuzz.Lib.Logged DevFuzz.Lib.Bytes DevFuzz.Stage2

instance : Nonempty Stream := ⟨fun _ => 0⟩

/-! ## The transfers -/

section

variable {file : FuzzFile} {start len : Nat}

theorem always_copy {dest : Memory} :
    Always Access.InBounds (file.copy dest start len) ↔ Access.InBounds ⟨start, len, file.size.toNat⟩ :=
  always_emit_bind.trans (and_iff_left (always_pure _))

theorem always_feedFuzzMMIOData {stage2 : Stage2Device} {offset : Int} {dest : Memory} :
    Always Access.InBounds (stage2.feedFuzzMMIOData file start offset dest len) ↔
      Access.InBounds ⟨start, len, file.size.toNat⟩ := by
  unfold Stage2Device.feedFuzzMMIOData
  cases stage2.mmioInputs.lookup offset with
  | none => exact always_copy
  | some hwi =>
    have silent : ∀ original, Always Access.InBounds (hwi.feedData stage2.mode original) :=
      fun original => HWInput.sat_feedData.always
    dsimp only [FuzzFile.load, FuzzFile.touch]
    rw [Logged.bind_assoc, always_emit_bind]
    exact and_iff_left (always_bind_pure.mpr (silent _))

/-- The loop over `usb_inputs` goes on behind this field for some random numbers. -/
def usbPasses (stage2 : Stage2Device) (size : Nat) (entry : (_ : Nat) × HWInput) : Bool :=
  size ≤ entry.1 || entry.2.drawable stage2.mode

/-- The bytes that a USB transfer reads are bytes of the file.  A field that cannot be drawn from
    ends the process, and is the last one to be read. -/
def usbFits (stage2 : Stage2Device) (file : FuzzFile) (start size : Nat) (aflLen : Int) : Prop :=
  0 ≤ aflLen ∧ ∀ entry ∈ upTo (usbPasses stage2 size) stage2.usbInputs.entries,
    entry.1 < size → entry.1 < aflLen →
      start + entry.1 + Stage2Device.fieldSz size entry.1 entry.2.nBytes ≤ file.size.toNat

variable {stage2 : Stage2Device} {size : Nat} {aflLen : Int}

theorem fieldSz_pos {entry : (_ : Nat) × HWInput} (inside : entry.1 < size) :
    0 < Stage2Device.fieldSz size entry.1 entry.2.nBytes := by
  have := entry.2.nBytes_pos
  unfold Stage2Device.fieldSz
  split_ifs <;> omega

/-- What is read of the file for one field. -/
def usbAccess (file : FuzzFile) (start size : Nat) (entry : (_ : Nat) × HWInput) : Access :=
  ⟨start + entry.1, Stage2Device.fieldSz size entry.1 entry.2.nBytes, file.size.toNat⟩

theorem usbAccess_inBounds {entry : (_ : Nat) × HWInput} (inside : entry.1 < size) :
    (usbAccess file start size entry).InBounds ↔
      start + entry.1 + Stage2Device.fieldSz size entry.1 entry.2.nBytes ≤ file.size.toNat :=
  Access.inBounds_iff_end_le (fieldSz_pos inside)

theorem usbOriginal_of_lt {entry : (_ : Nat) × HWInput} (behind : entry.1 < aflLen) :
    Stage2Device.usbOriginal file start size aflLen entry =
      file.load (start + entry.1) (Stage2Device.fieldSz size entry.1 entry.2.nBytes) := by
  rw [Stage2Device.usbOriginal, if_pos behind, Nat.mod_eq_of_lt (by omega)]

theorem sat_feedUSBField {P : Access → Prop} {entry : (_ : Nat) × HWInput} {dest : Memory}
    (fits : entry.1 < size → entry.1 < aflLen → P (usbAccess file start size entry)) :
    Sat (fun _ => True) P (stage2.feedUSBField file start size aflLen dest entry)
      fun _ _ => usbPasses stage2 size entry = true ∧ True := by
  unfold Stage2Device.feedUSBField
  split_ifs with outside
  · exact sat_pure fun _ _ => ⟨by simp [usbPasses, outside], trivial⟩
  · have original : Sat (fun _ => True) P (Stage2Device.usbOriginal file start size aflLen entry)
        fun _ _ => True := by
      by_cases behind : entry.1 < aflLen
      · rw [usbOriginal_of_lt behind]
        exact sat_bind (sat_emit (fits (Nat.not_le.mp outside) behind)) fun _ => sat_pure fun _ _ => trivial
      · rw [Stage2Device.usbOriginal, if_neg behind]
        exact sat_pure fun _ _ => trivial
    refine sat_bind original fun _ => sat_bind HWInput.sat_feedData fun _ => sat_pure fun _ drawable => ?_
    exact ⟨by simp [usbPasses, drawable], trivial⟩

theorem returns_usbOriginal {entry : (_ : Nat) × HWInput} {I : Stream → Prop} :
    Returns I (Stage2Device.usbOriginal file start size aflLen entry) fun _ => I := by
  unfold Stage2Device.usbOriginal
  split_ifs
  · exact returns_bind returns_emit fun _ => returns_pure fun _ start => start
  · exact returns_pure fun _ start => start

theorem returns_feedUSBField {entry : (_ : Nat) × HWInput} (passes : usbPasses stage2 size entry = true)
    (dest : Memory) :
    Returns (HWInput.Constant 99) (stage2.feedUSBField file start size aflLen dest entry)
      fun _ => HWInput.Constant 99 := by
  unfold Stage2Device.feedUSBField
  split_ifs with outside
  · exact returns_pure fun _ constant => constant
  · have drawable : entry.2.drawable stage2.mode = true := by simpa [usbPasses, outside] using passes
    exact returns_bind returns_usbOriginal fun _ =>
      returns_bind (HWInput.returns_feedData_constant (HWInput.drawnWith_of_drawable (by decide) drawable))
        fun _ => returns_pure fun _ constant => constant

theorem yields_feedUSBField {entry : (_ : Nat) × HWInput} (inside : entry.1 < size) (behind : entry.1 < aflLen)
    (dest : Memory) :
    Yields (HWInput.Constant 99) (fun e => e = usbAccess file start size entry)
      (stage2.feedUSBField file start size aflLen dest entry) := by
  rw [Stage2Device.feedUSBField, if_neg (Nat.not_le.mpr inside), usbOriginal_of_lt behind]
  exact yields_bind_left (yields_bind_left (yields_emit rfl))

/-- The copy that a USB transfer starts with. -/
def usbCopy (file : FuzzFile) (start size : Nat) (aflLen : Int) : Access :=
  ⟨start, (Stage2Device.copyLen size aflLen % 18446744073709551616).toNat, file.size.toNat⟩

theorem usbCopy_inBounds (small : size < 2147483648) (low : -2147483648 ≤ aflLen)
    (high : start + aflLen ≤ file.size.toNat) : (usbCopy file start size aflLen).InBounds ↔ 0 ≤ aflLen := by
  have bound := file.size_lt
  by_cases negative : aflLen < 0
  · -- the length is `2 ^ 64 + afl_len`, more than any file has
    have len : (Stage2Device.copyLen size aflLen % 18446744073709551616).toNat =
        (18446744073709551616 + aflLen).toNat := by
      unfold Stage2Device.copyLen
      rw [if_neg (by omega)]
      omega
    refine iff_of_false ?_ (by omega)
    rw [Access.inBounds_iff_end_le (by simp only [usbCopy, len]; omega)]
    simp only [usbCopy, len]
    omega
  · refine iff_of_true ?_ (by omega)
    intro i inside
    simp only [usbCopy] at inside ⊢
    unfold Stage2Device.copyLen at inside
    split_ifs at inside <;> omega

/-- The accesses of a USB transfer, when it gets as far as the fields. -/
theorem always_usbAccesses {P : Access → Prop} {dest : Memory} (nonneg : 0 ≤ aflLen) :
    Always P (stage2.feedFuzzUSBData file start dest size aflLen) ↔
      P (usbCopy file start size aflLen) ∧ ∀ entry ∈ upTo (usbPasses stage2 size) stage2.usbInputs.entries,
        entry.1 < size → entry.1 < aflLen → P (usbAccess file start size entry) := by
  unfold Stage2Device.feedFuzzUSBData
  refine always_emit_bind.trans (and_congr_right fun _ => ?_)
  have copies : ¬ Stage2Device.copyLen size aflLen < 0 := by
    unfold Stage2Device.copyLen
    split_ifs <;> omega
  rw [if_neg copies]
  constructor
  · intro always entry reached inside behind
    obtain ⟨_, rfl, fits⟩ := always.of_yields
      (yields_foldlM reached (fun other _ passes => returns_feedUSBField passes)
        (yields_feedUSBField inside behind) _) (s := fun _ => 99) fun _ => rfl
    exact fits
  · intro fits
    refine (sat_foldlM (p := usbPasses stage2 size) (fun entry reached dest => sat_feedUSBField ?_) _).always
    exact fits entry reached

theorem always_feedFuzzUSBData {dest : Memory} (small : size < 2147483648) (low : -2147483648 ≤ aflLen)
    (high : start + aflLen ≤ file.size.toNat) :
    Always Access.InBounds (stage2.feedFuzzUSBData file start dest size aflLen) ↔
      usbFits stage2 file start size aflLen := by
  have copy : (usbCopy file start size aflLen).InBounds ↔ 0 ≤ aflLen := usbCopy_inBounds small low high
  by_cases nonneg : 0 ≤ aflLen
  · rw [always_usbAccesses nonneg, copy, usbFits]
    exact and_congr_right fun _ => forall₄_congr fun entry _ inside _ => usbAccess_inBounds inside
  · refine iff_of_false (fun always => nonneg (copy.mp ?_)) fun fits => nonneg fits.1
    exact (always_emit_bind.mp always).1

end

/-! ## The choices on the way -/

section

variable {α : Type} {P : Access → Prop}

/-- Without a fuzz file, `f false` is what is left. -/
theorem always_hasFuzzFile_bind {δ : Type} {lib : Library δ} {f : Bool → Logged Access Stream α}
    (absent : Always P (f false)) :
    Always P (lib.hasFuzzFile >>= f) ↔ ∀ first path, lib.sm = some (first :: path) → Always P (f true) := by
  unfold Library.hasFuzzFile
  cases lib.sm with
  | none => exact iff_of_true (fun _ _ logged => absurd logged List.not_mem_nil) nofun
  | some path =>
    cases path with
    | nil => exact iff_of_true absent nofun
    | cons first path => exact ⟨fun all _ _ _ => all, fun all => all first path rfl⟩

/-- Both answers of `yes` come, unless the probability rules one out. -/
theorem always_yes_bind {ε : Type} {P : ε → Prop} {prob : Int} {f : Bool → Logged ε Stream α} :
    Always P (yes prob >>= f) ↔ (0 < prob → Always P (f true)) ∧ (prob < 100 → Always P (f false)) := by
  have log : ∀ s : Stream, (yes prob >>= f).log s =
      (f (decide (((s 0).val % 100 : Nat) + 1 ≤ prob))).log fun n => s (n + 1) := fun _ => rfl
  simp only [Always, log]
  constructor
  · intro all
    constructor
    · intro positive s
      have rolled := all fun n => if n = 0 then 0 else s (n - 1)
      have hit : 1 ≤ prob := positive
      simpa [hit] using rolled
    · intro below s
      have rolled := all fun n => if n = 0 then 99 else s (n - 1)
      have missed : ¬ 100 ≤ prob := Int.not_le.mpr below
      simpa [missed] using rolled
  · rintro ⟨hit, missed⟩ s
    by_cases rolled : ((s 0).val % 100 : Nat) + 1 ≤ prob
    · simp only [rolled, decide_true]
      exact hit (by omega) _
    · simp only [rolled, decide_false]
      exact missed (by omega) _

end

/-! ## The entry points -/

/-- The access at the wrapped address does not reach over the end of the file. -/
def wrapFits (file : FuzzFile) (req : Request) : Prop :=
  (req.addr % file.size).toNat + req.size ≤ file.size.toNat

section

variable {δ : Type} (model : DeviceModel δ) (cfg : Config) (lib : Library δ) (moment : Moment)

/-- The stage-2 overlay reads bytes of the file only. -/
def overlayFits (stage2 : Stage2Device) (req : Request) : Prop :=
  if stage2.hasUSBModel then
    usbFits stage2 lib.file (req.addr % lib.file.size).toNat req.size (aflLen req lib.file)
  else wrapFits lib.file req

def probeFuzzFits (req : Request) : Prop :=
  0 < cfg.modelMutateProb → lib.file.size ≠ 0 →
    match lib.stage2.filter Stage2Device.hasUSBModel with
    | some stage2 => overlayFits lib stage2 req
    | none => wrapFits lib.file req

def dumbProbeFits (req : Request) : Prop :=
  req.addr < lib.file.size → req.addr.toNat + req.size ≤ lib.file.size.toNat

def fuzzFits (req : Request) : Prop :=
  lib.file.size ≠ 0 →
    match lib.stage2.filter fun _ => cfg.useStage2 && cfg.modelDelay < lib.delayCounter with
    | some stage2 => overlayFits lib stage2 req
    | none => req.addr + UInt64.ofNat req.size ≤ lib.file.size → wrapFits lib.file req

/-- `ap_get_fuzz_data` reads bytes of the file only. -/
def getFits (req : Request) : Prop :=
  if cfg.testProbe then
    ∀ first path, lib.sm = some (first :: path) →
      if cfg.modelProbeFuzz then probeFuzzFits cfg (lib.checkEpoch cfg moment) req
      else dumbProbeFits (lib.checkEpoch cfg moment) req
  else
    (model.readBar lib.hw req).ret = 0 → ∀ first path, lib.sm = some (first :: path) →
      fuzzFits cfg ({ lib with
        hw := (model.readBar lib.hw req).device
        delayCounter := lib.delayCounter + 1 }.checkEpoch cfg moment) req

/-- `ap_set_fuzz_data` writes bytes of the file only. -/
def setFits (req : Request) : Prop :=
  ∀ first path, lib.sm = some (first :: path) → lib.file.size ≠ 0 → wrapFits lib.file req

/-- `ap_qemu_mmio_read` reads bytes of the file only. -/
def qemuFits (req : Request) : Prop :=
  ∀ first path, lib.sm = some (first :: path) →
    let lib := (lib.nextEpoch cfg moment lib.qemuCounter).2
    lib.file.size ≠ 0 → (model.readBar lib.hw req).ret = 0 → 0 < cfg.modelMutateProb → wrapFits lib.file req

variable {model cfg lib moment} {req : RegisterRequest} {dest : Memory}

theorem wrapFits_iff : Access.InBounds ⟨(lib.wrapped req.toRequest).toNat, req.size, lib.file.size.toNat⟩ ↔
    wrapFits lib.file req.toRequest :=
  Access.inBounds_iff_end_le req.size_pos

theorem always_feedUSB {stage2 : Stage2Device} (nonempty : lib.file.size ≠ 0) :
    Always Access.InBounds (lib.feedUSB req.toRequest stage2 dest) ↔
      usbFits stage2 lib.file (req.addr % lib.file.size).toNat req.size (aflLen req.toRequest lib.file) := by
  have small : req.size < 2147483648 := Nat.lt_of_le_of_lt req.size_le (by decide)
  have low : -2147483648 ≤ aflLen req.toRequest lib.file :=
    BitVec.le_toInt (x := (lib.file.size - req.addr % lib.file.size).toBitVec.setWidth 32)
  have high : (req.addr % lib.file.size).toNat + aflLen req.toRequest lib.file ≤ lib.file.size.toNat := by
    have wrapped : req.addr % lib.file.size < lib.file.size := wrapped_lt lib req.toRequest nonempty
    have behind : aflLen req.toRequest lib.file ≤ (lib.file.size - req.addr % lib.file.size).toNat := asInt_le _
    rw [UInt64.toNat_sub_of_le _ _ (UInt64.le_of_lt wrapped)] at behind
    have := UInt64.lt_iff_toNat_lt.mp wrapped
    omega
  exact always_feedFuzzUSBData small low high

theorem always_feedStage2 {stage2 : Stage2Device} (nonempty : lib.file.size ≠ 0) :
    Always Access.InBounds (lib.feedStage2 req.toRequest stage2 dest) ↔ overlayFits lib stage2 req.toRequest := by
  unfold Library.feedStage2 overlayFits
  by_cases usb : stage2.hasUSBModel = true
  · simp only [usb, if_true]
    exact always_feedUSB nonempty
  · simp only [usb]
    exact always_feedFuzzMMIOData.trans wrapFits_iff

theorem always_probeFuzzRead :
    Always Access.InBounds (probeFuzzRead model cfg lib moment req.toRequest dest) ↔
      probeFuzzFits cfg lib req.toRequest := by
  refine always_yes_bind.trans ?_
  simp only [Bool.false_and, Bool.false_eq_true, if_false, always_pure, implies_true, and_true]
  refine forall_congr' fun _ => ?_
  by_cases empty : lib.file.size = 0
  · simp [empty]
  · simp only [ne_eq, empty, not_false_eq_true, decide_true, Bool.and_self, if_true, forall_const]
    cases usb : lib.stage2.filter Stage2Device.hasUSBModel with
    | none => exact always_bind_pure.trans (always_copy.trans wrapFits_iff)
    | some stage2 =>
      have active : stage2.hasUSBModel = true := (Option.filter_eq_some_iff.mp usb).2
      simp only [overlayFits, active, if_true]
      exact always_bind_pure.trans (always_feedUSB empty)

theorem always_dumbProbeRead :
    Always Access.InBounds (dumbProbeRead lib req.toRequest dest) ↔ dumbProbeFits lib req.toRequest := by
  unfold dumbProbeRead dumbProbeFits
  by_cases inside : req.addr < lib.file.size
  · have nonempty : lib.file.size ≠ 0 := fun zero => by simp [zero] at inside
    simp only [nonempty, inside, ne_eq, not_false_eq_true, and_self, if_true, forall_const]
    exact always_bind_pure.trans (always_copy.trans (Access.inBounds_iff_end_le req.size_pos))
  · simp [inside]

theorem always_fuzzRead :
    Always Access.InBounds (fuzzRead cfg lib moment req.toRequest dest) ↔ fuzzFits cfg lib req.toRequest := by
  unfold fuzzRead fuzzFits
  by_cases empty : lib.file.size = 0
  · simp [empty]
  · have inside : ¬ lib.file.size ≤ lib.wrapped req.toRequest :=
      UInt64.not_le.mpr (wrapped_lt lib req.toRequest empty)
    simp only [empty, inside, if_false, ne_eq, not_false_eq_true, forall_const]
    cases lib.stage2.filter fun _ => cfg.useStage2 && cfg.modelDelay < lib.delayCounter with
    | some stage2 => exact always_bind_pure.trans (always_feedStage2 empty)
    | none =>
      dsimp only
      split_ifs with plain
      · simp only [plain, forall_const]
        exact always_bind_pure.trans (always_copy.trans wrapFits_iff)
      · simp [plain]

theorem always_fillRandom {size : Nat} : Always Access.InBounds (fillRandom dest size) := by
  refine (sat_foldlM (I := fun _ => True) (p := fun _ => true) (fun i _ dest => ?_) dest).always
  exact sat_bind (sat_rand fun _ _ => trivial) fun _ => sat_pure fun _ _ => ⟨rfl, trivial⟩

theorem always_redirectedRead :
    Always Access.InBounds (redirectedRead cfg lib moment req.toRequest dest) ↔
      ∀ first path, lib.sm = some (first :: path) →
        fuzzFits cfg ({ lib with delayCounter := lib.delayCounter + 1 }.checkEpoch cfg moment) req.toRequest := by
  unfold redirectedRead
  split_ifs with disconnected
  · have none : lib.sm = none := Option.isNone_iff_eq_none.mp disconnected
    simpa [none] using always_fillRandom
  · refine (always_hasFuzzFile_bind ?_).trans (forall₃_congr fun _ _ _ => always_fuzzRead)
    exact always_pure _

theorem always_testProbeRead :
    Always Access.InBounds (testProbeRead model cfg lib moment req.toRequest dest) ↔
      ∀ first path, lib.sm = some (first :: path) →
        if cfg.modelProbeFuzz then probeFuzzFits cfg (lib.checkEpoch cfg moment) req.toRequest
        else dumbProbeFits (lib.checkEpoch cfg moment) req.toRequest := by
  refine (always_hasFuzzFile_bind always_die).trans (forall₃_congr fun _ _ _ => ?_)
  simp only [Bool.not_true, Bool.false_eq_true, if_false]
  split_ifs
  · refine always_probeFuzzRead.trans ?_
    simp [probeFuzzFits, overlayFits]
  · exact always_dumbProbeRead

theorem always_apGetFuzzData :
    Always Access.InBounds (apGetFuzzData model cfg lib moment req.toRequest dest) ↔
      getFits model cfg lib moment req.toRequest := by
  unfold apGetFuzzData getFits
  by_cases probing : cfg.testProbe = true
  · simp only [probing, if_true]
    exact always_testProbeRead
  · simp only [probing, Bool.false_eq_true, if_false]
    by_cases answered : (model.readBar lib.hw req.toRequest).ret = 0
    · simp only [answered, ne_eq, not_true_eq_false, if_false, forall_const]
      exact always_redirectedRead
    · simp [answered]

theorem always_apSetFuzzData {data : UInt64} :
    Always Access.InBounds (apSetFuzzData model cfg lib req.toRequest data) ↔ setFits lib req.toRequest := by
  unfold apSetFuzzData setFits
  by_cases disconnected : lib.sm = none
  · simp [disconnected]
  · simp only [Option.isNone_iff_eq_none, disconnected, if_false]
    refine (always_hasFuzzFile_bind ?_).trans (forall₃_congr fun _ _ _ => ?_)
    · exact always_pure _
    by_cases empty : lib.file.size = 0
    · simp [empty]
    · have inside : ¬ lib.file.size ≤ req.addr % lib.file.size :=
        UInt64.not_le.mpr (wrapped_lt lib req.toRequest empty)
      simp only [empty, Library.wrapped, inside, Bool.not_true, Bool.false_eq_true, if_false, ne_eq,
        not_false_eq_true, forall_const]
      exact always_emit_bind.trans ((and_iff_left (always_pure _)).trans wrapFits_iff)

theorem always_apQemuMmioRead :
    Always Access.InBounds (apQemuMmioRead model cfg lib moment req.toRequest dest) ↔
      qemuFits model cfg lib moment req.toRequest := by
  refine (always_hasFuzzFile_bind always_die).trans (forall₃_congr fun _ _ _ => ?_)
  -- the file may be the one of a new epoch; the counter has no influence
  generalize (lib.nextEpoch cfg moment lib.qemuCounter) = epoch
  obtain ⟨counter, lib⟩ := epoch
  simp only [Bool.not_true, Bool.false_eq_true, if_false]
  by_cases empty : lib.file.size = 0
  · simp [empty]
  · by_cases answered : (model.readBar lib.hw req.toRequest).ret = 0
    · simp only [empty, answered, if_false, ne_eq, not_true_eq_false, not_false_eq_true, forall_const]
      refine always_yes_bind.trans ?_
      simp only [Bool.false_eq_true, if_false, always_pure, implies_true, and_true, if_true]
      refine forall_congr' fun _ => ?_
      cases lib.stage2.filter fun _ => cfg.useStage2 with
      | some stage2 => exact always_bind_pure.trans (always_feedFuzzMMIOData.trans wrapFits_iff)
      | none => exact always_bind_pure.trans (always_copy.trans wrapFits_iff)
    · simp [empty, answered]

/-- The accesses of each entry point stay inside the mapped file exactly when the access at the
    wrapped address fits, on the paths that get as far as the file. -/
theorem fuzzFile_inBounds_iff (model : DeviceModel δ) (cfg : Config) (lib : Library δ) (moment : Moment)
    (req : RegisterRequest) (dest : Memory) (data : UInt64) :
    (Always Access.InBounds (apGetFuzzData model cfg lib moment req.toRequest dest) ↔
        getFits model cfg lib moment req.toRequest) ∧
      (Always Access.InBounds (apSetFuzzData model cfg lib req.toRequest data) ↔ setFits lib req.toRequest) ∧
      (Always Access.InBounds (apQemuMmioRead model cfg lib moment req.toRequest dest) ↔
        qemuFits model cfg lib moment req.toRequest) :=
  ⟨always_apGetFuzzData, always_apSetFuzzData, always_apQemuMmioRead⟩

end

/-- A file of one byte, and an access of four bytes: all entry points reach behind the end. -/
theorem not_inBounds_oneByteFile :
    ¬ Always Access.InBounds (apGetFuzzData silentModel { plainConfig with testProbe := true, modelProbeFuzz := true }
        (connectedLibrary 1) quietMoment ⟨0, 4, 0⟩ fun _ => 0) ∧
      ¬ Always Access.InBounds (apSetFuzzData silentModel plainConfig (connectedLibrary 1) ⟨0, 4, 0⟩ 0) ∧
      ¬ Always Access.InBounds (apQemuMmioRead silentModel plainConfig (connectedLibrary 1) quietMoment
        ⟨0, 4, 0⟩ fun _ => 0) := by
  have outside : ¬ Access.InBounds ⟨0, 4, 1⟩ := fun all => absurd (all 3 (by decide)) (by decide)
  refine ⟨fun all => outside ?_, fun all => outside ?_, fun all => outside ?_⟩
  · exact all (fun _ => 0) _ List.mem_cons_self
  · exact all (fun _ => 0) _ List.mem_cons_self
  · exact all (fun _ => 0) _ List.mem_cons_self

end DevFuzz.Aplib
