import DevFuzz.Aplib.MappedFile

/-! # Transfers of any size under probe fuzzing

With `test_probe` and `model_probe_fuzz` set, `ap_get_fuzz_data` first reads the device
model into `probe_mdl_input`, a local of 8 bytes, and then takes the bytes of `dest` from
the fuzz file or from that local.  A register read has at most 8 bytes; a USB transfer has
as many as the guest asks for.

`touches` is the call with the bytes of `dest` and of the local that it reads or writes in
the log, and `keepLog_touches` says that it is the call.  `servedInside_iff` says when the
touched bytes are bytes of the two buffers.
-/

namespace DevFuzz.Aplib

open DevFuzz.Lib DevFuzz.Lib.Logged DevFuzz.Lib.Bytes DevFuzz.Stage2

/-! ## Touched bytes -/

/-- The bytes `start .. start + len` of a buffer. -/
def span (start len : Nat) (i : Nat) : Bool := start ≤ i && i < start + len

theorem span_zero_below {len n : Nat} : (∀ i, span 0 len i = true → i < n) ↔ len ≤ n := by
  simp only [span, Nat.zero_le, decide_true, Bool.true_and, Nat.zero_add, decide_eq_true_eq]
  constructor
  · intro all
    by_contra beyond
    have := all n (Nat.not_le.mp beyond)
    omega
  · intro fits i inside
    omega

/-- A copy from or to the fuzz file, `dest` or `probe_mdl_input`. -/
inductive Touch where
  | file (access : Access)
  | dest (bytes : Nat → Bool)
  | input (bytes : Nat → Bool)

def Touch.file? : Touch → Option Access
  | .file access => some access
  | .dest _ => none
  | .input _ => none

/-- The bytes are bytes of the buffer: `dest` has `size`, `probe_mdl_input` has 8. -/
def Touch.Inside (size : Nat) : Touch → Prop
  | .file _ => True
  | .dest bytes => ∀ i, bytes i = true → i < size
  | .input bytes => ∀ i, bytes i = true → i < 8

theorem Touch.inside_dest (size : Nat) : Touch.Inside size (.dest (span 0 size)) :=
  span_zero_below.mpr (Nat.le_refl size)

/-! ## The overlay of a USB transfer -/

section

variable (stage2 : Stage2Device) (file : FuzzFile) (start : Nat)

/-- `copy_len`, for an `int size` that may be negative. -/
def intCopyLen (size aflLen : Int) : Int := if size < aflLen then size else aflLen

def feedUSBFieldTouches (size : Nat) (aflLen : Int) (dest : Memory) (entry : (_ : Nat) × HWInput) :
    Logged Touch Stream Memory :=
  if size ≤ entry.1 then pure dest else do
    let orig ← mapLog .file (Stage2Device.usbOriginal file start size aflLen entry)
    let modelData ← mapLog .file (entry.2.feedData stage2.mode orig)
    emit (.dest (span entry.1 (Stage2Device.fieldSz size entry.1 entry.2.nBytes)))
    pure (storeLE dest entry.1 (Stage2Device.fieldSz size entry.1 entry.2.nBytes) modelData.toNat)

/-- `feedFuzzUSBData`.  The length of the first copy is `copy_len` as a `size_t`. -/
def feedFuzzUSBTouches (dest : Memory) (size aflLen : Int) : Logged Touch Stream Memory := do
  mapLog .file (file.touch start (intCopyLen size aflLen % 18446744073709551616).toNat)
  emit (.dest (span 0 (intCopyLen size aflLen % 18446744073709551616).toNat))
  if intCopyLen size aflLen < 0 then die else
    stage2.usbInputs.entries.foldlM (feedUSBFieldTouches stage2 file start size.toNat aflLen)
      (copyInto dest 0 (intCopyLen size aflLen).toNat fun i => file.data (start + i))

theorem keepLog_file {α : Type} (x : Logged Access Stream α) : keepLog Touch.file? (mapLog .file x) = x :=
  keepLog_mapLog (f := Touch.file) (g := Touch.file?) (fun _ => rfl) x

theorem keepLog_feedUSBFieldTouches (size : Nat) (aflLen : Int) (dest : Memory) (entry : (_ : Nat) × HWInput) :
    keepLog Touch.file? (feedUSBFieldTouches stage2 file start size aflLen dest entry) =
      stage2.feedUSBField file start size aflLen dest entry := by
  unfold feedUSBFieldTouches Stage2Device.feedUSBField
  split_ifs
  · rfl
  · simp only [keepLog_bind, keepLog_file]
    rfl

theorem keepLog_feedFuzzUSBTouches (size : Nat) (aflLen : Int) (dest : Memory) :
    keepLog Touch.file? (feedFuzzUSBTouches stage2 file start dest size aflLen) =
      stage2.feedFuzzUSBData file start dest size aflLen := by
  unfold feedFuzzUSBTouches Stage2Device.feedFuzzUSBData
  rw [keepLog_bind, keepLog_file]
  refine congrArg _ (funext fun _ => ?_)
  rw [keepLog_emit_bind_of_none rfl]
  show keepLog Touch.file? (if Stage2Device.copyLen size aflLen < 0 then die else _) = _
  split_ifs
  · rfl
  · rw [keepLog_foldlM]
    simp only [keepLog_feedUSBFieldTouches]
    rfl

variable {stage2 file start}

theorem sat_file {α : Type} {size : Nat} (x : Logged Access Stream α) :
    Sat (fun _ => True) (Touch.Inside size) (mapLog .file x) fun _ _ => True :=
  sat_mapLog fun _ _ => ⟨fun _ _ => trivial, fun _ _ _ => trivial⟩

/-- A field is cut off at the end of the transfer. -/
theorem sat_feedUSBFieldTouches {size n : Nat} (within : size ≤ n) (aflLen : Int) (dest : Memory)
    (entry : (_ : Nat) × HWInput) :
    Sat (fun _ => True) (Touch.Inside n) (feedUSBFieldTouches stage2 file start size aflLen dest entry)
      fun _ _ => True := by
  unfold feedUSBFieldTouches
  split_ifs with outside
  · exact sat_pure fun _ _ => trivial
  · have stored : Touch.Inside n (.dest (span entry.1 (Stage2Device.fieldSz size entry.1 entry.2.nBytes))) := by
      intro i inside
      have : i < entry.1 + Stage2Device.fieldSz size entry.1 entry.2.nBytes := by
        simp only [span, Bool.and_eq_true, decide_eq_true_eq] at inside
        exact inside.2
      unfold Stage2Device.fieldSz at this
      split_ifs at this <;> omega
    exact sat_bind (sat_file _) fun _ => sat_bind (sat_file _) fun _ => sat_bind (sat_emit stored) fun _ =>
      sat_pure fun _ _ => trivial

theorem always_feedFuzzUSBTouches {size aflLen : Int} {n : Nat} (within : size.toNat ≤ n) (dest : Memory) :
    Always (Touch.Inside n) (feedFuzzUSBTouches stage2 file start dest size aflLen) ↔
      (intCopyLen size aflLen % 18446744073709551616).toNat ≤ n := by
  have rest : Always (Touch.Inside n) (if intCopyLen size aflLen < 0 then die else
      stage2.usbInputs.entries.foldlM (feedUSBFieldTouches stage2 file start size.toNat aflLen)
        (copyInto dest 0 (intCopyLen size aflLen).toNat fun i => file.data (start + i))) := by
    split_ifs
    · exact always_die
    · refine (sat_foldlM (p := fun _ => true) (fun entry _ dest => ?_) _).always
      exact (sat_feedUSBFieldTouches within aflLen dest entry).weaken (fun _ holds => holds) fun _ _ _ =>
        ⟨rfl, trivial⟩
  unfold feedFuzzUSBTouches
  refine Iff.trans (always_emit_bind (e := Touch.file _)) ?_
  rw [always_emit_bind]
  exact (and_iff_right trivial).trans ((and_iff_left rest).trans span_zero_below)

end

/-! ## The call -/

/-- A call of `ap_get_fuzz_data` with `test_probe` and `model_probe_fuzz` set. -/
structure ProbeFuzzCall (δ : Type) where
  model : DeviceModel δ
  cfg : Config
  testProbe : cfg.testProbe = true
  modelProbeFuzz : cfg.modelProbeFuzz = true
  lib : Library δ
  moment : Moment
  req : Request

namespace ProbeFuzzCall

variable {δ : Type} (call : ProbeFuzzCall δ)

/-- The library when the device model is read. -/
def ready : Library δ :=
  (call.lib.checkEpoch call.cfg call.moment).resetModel call.model call.cfg call.moment
    (secondsSince call.moment.now call.lib.lastDevRestart)

def probed : ModelRead (HWInstance δ) := call.model.readBar call.ready.hw call.req

/-- The library from then on. -/
def served : Library δ := { call.ready with hw := call.probed.device }

/-- `size` as an argument of `feedFuzzUSBData`. -/
def intSize : Int := asInt (UInt64.ofNat call.req.size)

/-- What follows the read of the device model. -/
def fillTouches (mutated : Bool) (dest : Memory) : Logged Touch Stream (Library δ × Memory) :=
  if mutated && call.ready.file.size ≠ 0 then
    match call.ready.stage2.filter Stage2Device.hasUSBModel with
    | some stage2 => do
      let dest ← feedFuzzUSBTouches stage2 call.ready.file (call.ready.wrapped call.req).toNat dest call.intSize
        (aflLen call.req call.ready.file)
      pure (call.served, dest)
    | none => do
      emit (.dest (span 0 call.req.size))
      let dest ← mapLog .file (call.ready.file.copy dest (call.ready.wrapped call.req).toNat call.req.size)
      pure (call.served, dest)
  else do
    emit (.input (span 0 call.req.size))
    emit (.dest (span 0 call.req.size))
    pure (call.served, copyInto dest 0 call.req.size (overlay call.probed.written call.moment.stack))

def touches (dest : Memory) : Logged Touch Stream (Library δ × Memory) :=
  match call.lib.sm with
  | some (_ :: _) => do
    emit (.input fun i => (call.probed.written i).isSome)
    let mutated ← yes call.cfg.modelMutateProb
    call.fillTouches mutated dest
  -- `assert(ap_get_fuzz_file()[0])`
  | some [] => die
  | none => die

/-- Whatever `dest` holds and the random numbers are, only bytes of `dest[0 .. size)` and of
    `probe_mdl_input` are touched. -/
def ServedInside : Prop := ∀ dest, Always (Touch.Inside call.req.size) (call.touches dest)

/-! ### The instrumented call is the call -/

theorem intSize_of_lt (small : call.req.size < 2147483648) : call.intSize = call.req.size := by
  have value : (UInt64.ofNat call.req.size).toNat = call.req.size := UInt64.toNat_ofNat_of_lt (Nat.lt_trans small (by decide))
  rw [intSize, asInt_of_lt (by omega), value]

theorem intSize_le : call.intSize.toNat ≤ call.req.size := by
  have converted := asInt_le (UInt64.ofNat call.req.size)
  have wrapped : (UInt64.ofNat call.req.size).toNat ≤ call.req.size := by
    rw [UInt64.toNat_ofNat']
    exact Nat.mod_le _ _
  unfold intSize
  omega

theorem keepLog_fillTouches (small : call.req.size < 2147483648) (dest : Memory) :
    (do
      let mutated ← yes call.cfg.modelMutateProb
      keepLog Touch.file? (call.fillTouches mutated dest)) =
      probeFuzzRead call.model call.cfg call.ready call.moment call.req dest := by
  unfold probeFuzzRead
  refine congrArg _ (funext fun mutated => ?_)
  unfold fillTouches
  -- both sides make the same choices
  dsimp only
  split_ifs
  · cases call.ready.stage2.filter Stage2Device.hasUSBModel with
    | some stage2 =>
      simp only [call.intSize_of_lt small, keepLog_bind, keepLog_feedFuzzUSBTouches]
      rfl
    | none =>
      dsimp only
      rw [keepLog_emit_bind_of_none rfl, keepLog_bind, keepLog_file]
      rfl
  · rw [keepLog_emit_bind_of_none rfl, keepLog_emit_bind_of_none rfl]
    rfl

/-- Without the touched bytes of `dest` and of the local, `touches` is `apGetFuzzData`. -/
theorem keepLog_touches (small : call.req.size < 2147483648) (dest : Memory) :
    keepLog Touch.file? (call.touches dest) =
      apGetFuzzData call.model call.cfg call.lib call.moment call.req dest := by
  unfold touches apGetFuzzData testProbeRead Library.hasFuzzFile
  simp only [call.testProbe, if_true]
  cases call.lib.sm with
  | none => rfl
  | some path =>
    cases path with
    | nil => rfl
    | cons first path =>
      simp only [call.modelProbeFuzz, if_true]
      rw [keepLog_emit_bind_of_none rfl, keepLog_bind]
      exact call.keepLog_fillTouches small dest

/-! ### Where the bytes lie -/

/-- The first copy of a USB overlay, with a length that has been an `int`, ends in `dest`. -/
def OverlayFits : Prop :=
  ∀ stage2, call.ready.stage2.filter Stage2Device.hasUSBModel = some stage2 →
    (intCopyLen call.intSize (aflLen call.req call.ready.file) % 18446744073709551616).toNat ≤ call.req.size

/-- The conditions under which the copies end in time. -/
structure Fits : Prop where
  /-- the device model stores into the local -/
  input : ∀ i, (call.probed.written i).isSome = true → i < 8
  /-- what it has stored is copied out -/
  output : call.cfg.modelMutateProb < 100 ∨ call.ready.file.size = 0 → call.req.size ≤ 8
  /-- or the data of the fuzzer is -/
  overlay : 0 < call.cfg.modelMutateProb → call.ready.file.size ≠ 0 → call.OverlayFits

theorem always_fillTouches_model (mutated : Bool) (dest : Memory)
    (unmutated : (mutated && decide (call.ready.file.size ≠ 0)) = false) :
    Always (Touch.Inside call.req.size) (call.fillTouches mutated dest) ↔ call.req.size ≤ 8 := by
  rw [fillTouches, unmutated, if_neg Bool.false_ne_true, always_emit_bind, always_emit_bind]
  exact (and_iff_left ⟨Touch.inside_dest _, always_pure _⟩).trans span_zero_below

theorem always_fillTouches_mutated (dest : Memory) (mapped : call.ready.file.size ≠ 0) :
    Always (Touch.Inside call.req.size) (call.fillTouches true dest) ↔ call.OverlayFits := by
  rw [fillTouches, if_pos (by simp [mapped]), OverlayFits]
  cases call.ready.stage2.filter Stage2Device.hasUSBModel with
  | some stage2 =>
    rw [always_bind_pure, always_feedFuzzUSBTouches call.intSize_le]
    exact ⟨fun fits _ _ => fits, fun all => all stage2 rfl⟩
  | none =>
    refine iff_of_true ?_ fun _ absent => by cases absent
    rw [always_emit_bind, always_bind_pure]
    exact ⟨Touch.inside_dest _, (sat_file _).always⟩

/-- Either answer of `yes` takes the bytes from somewhere. -/
theorem always_choice (dest : Memory) :
    Always (Touch.Inside call.req.size) (do
      let mutated ← yes call.cfg.modelMutateProb
      call.fillTouches mutated dest) ↔
      (call.cfg.modelMutateProb < 100 ∨ call.ready.file.size = 0 → call.req.size ≤ 8) ∧
        (0 < call.cfg.modelMutateProb → call.ready.file.size ≠ 0 → call.OverlayFits) := by
  rw [always_yes_bind, call.always_fillTouches_model false dest rfl]
  by_cases mapped : call.ready.file.size = 0
  · rw [call.always_fillTouches_model true dest (by simp [mapped])]
    have either : 0 < call.cfg.modelMutateProb ∨ call.cfg.modelMutateProb < 100 := by omega
    simp only [mapped, or_true, forall_const, ne_eq, not_true_eq_false, false_implies, implies_true, and_true]
    exact ⟨fun fits => either.elim fits.1 fits.2, fun fits => ⟨fun _ => fits, fun _ => fits⟩⟩
  · rw [call.always_fillTouches_mutated dest mapped]
    simp only [mapped, or_false, ne_eq, not_false_eq_true, forall_const]
    exact and_comm

/-- A call under probe fuzzing stays in `dest` and in `probe_mdl_input` exactly when it ends at the assertion
    or its copies fit. -/
theorem servedInside_iff : call.ServedInside ↔ ∀ first path, call.lib.sm = some (first :: path) → call.Fits := by
  have ended : (∀ dest, call.touches dest = die) → call.ServedInside := fun died dest => died dest ▸ always_die
  cases sm : call.lib.sm with
  | none => exact iff_of_true (ended fun _ => by rw [touches, sm]) fun _ _ absent => by cases absent
  | some path =>
    cases path with
    | nil => exact iff_of_true (ended fun _ => by rw [touches, sm]) fun _ _ absent => by cases absent
    | cons first path =>
      have all : call.ServedInside ↔ call.Fits := by
        unfold ServedInside
        simp only [touches, sm, always_emit_bind, call.always_choice, forall_const]
        exact ⟨fun ⟨input, output, overlay⟩ => ⟨input, output, overlay⟩,
          fun fits => ⟨fits.input, fits.output, fits.overlay⟩⟩
      exact all.trans ⟨fun fits _ _ _ => fits, fun fits => fits first path rfl⟩

end ProbeFuzzCall

/-! ## `HWModel_ims_pcu` -/

structure ImsPcu where
  probeLen : Int
  deviceRam : Memory

namespace ImsPcu

/-- Each case of the `switch` copies `size` bytes of `device_ram`. -/
def read (d : ImsPcu) (addr : UInt64) (size : Nat) : ModelRead ImsPcu :=
  ⟨asInt (UInt64.ofNat size), d, fun i => if i < size then some (d.deviceRam ((addr % 1024000).toNat + i)) else none⟩

def write (d : ImsPcu) (data addr : UInt64) (size : Nat) : ImsPcu :=
  if size ∈ [1, 2, 4, 8] then { d with deviceRam := storeLE d.deviceRam (addr % 1024000).toNat size data.toNat } else d

theorem read_written_iff (d : ImsPcu) (addr : UInt64) (size i : Nat) :
    ((d.read addr size).written i).isSome = true ↔ i < size := by
  by_cases inside : i < size <;> simp [read, inside]

/-- `redirectR` is cleared by `NO_REDIRECT_READ`. -/
def model (redirectR : Bool) : DeviceModel ImsPcu where
  read := read
  write := write
  restartDevice d := { d with probeLen := 0 }
  redirectR := redirectR
  fills d addr size _ i := (d.read_written_iff addr size i).mpr

/-- A bulk transfer of one packet of 64 bytes. -/
def bulkRead : ProbeFuzzCall ImsPcu where
  model := model true
  cfg :=
    { testProbe := true, modelProbeFuzz := true, useStage2 := false, isEnabled := true, modelMutateProb := 0
      modelResetTime := 600, modelDelay := 0, aflEpoch := 600 }
  testProbe := rfl
  modelProbeFuzz := rfl
  lib :=
    { hw := ⟨⟨0, fun _ => 0⟩, []⟩, stage2 := none, sm := some ['f'], file := ⟨fun _ => 0, 4096, by decide⟩
      counter := 0, delayCounter := 0, qemuCounter := 0, lastDevRestart := 0, aflLastEpochEnd := 0 }
  moment :=
    { now := 0, epochEnd := 0, path := ['f'], file := ⟨fun _ => 0, 4096, by decide⟩
      ipc := fun _ => 0, stack := fun _ => 0 }
  req := { addr := 0, size := 64, bar := 0 }

/-- The device model stores all 64 bytes at `&probe_mdl_input`. -/
theorem not_servedInside_bulkRead : ¬ bulkRead.ServedInside := by
  intro inside
  have first : Touch.Inside 64 (.input fun i => (bulkRead.probed.written i).isSome) :=
    (always_emit_bind.mp (inside fun _ => 0)).1
  exact absurd (first 8 rfl) (by decide)

end ImsPcu

end DevFuzz.Aplib
