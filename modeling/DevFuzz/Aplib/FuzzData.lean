import DevFuzz.Stage2.Feed

/-! # Device accesses in the proxy library

`ap_get_fuzz_data`, `ap_set_fuzz_data` and `ap_qemu_mmio_read` of
`aplib/aplib.cpp`, which QEMU calls when the guest reads or writes a device
register, with `HWModel::read` and `HWModel::write` below them.

`Library` is what lives on from one call to the next; `Moment` is what a call finds
outside the library: the clock, the proxy it may connect to, an answer over shared
memory, and what stands on its stack.
-/

namespace DevFuzz.Aplib

open DevFuzz.Lib DevFuzz.Lib.Logged DevFuzz.Lib.Bytes DevFuzz.Stage2

/-! ## Requests and device models -/

structure Request where
  addr : UInt64
  size : Nat
  bar : Int

/-- An access to a device register. -/
structure RegisterRequest extends Request where
  size_mem : size ∈ [1, 2, 4, 8]

theorem RegisterRequest.size_pos (req : RegisterRequest) : 0 < req.size := by
  have := req.size_mem
  simp only [List.mem_cons, List.not_mem_nil, or_false] at this
  omega

theorem RegisterRequest.size_le (req : RegisterRequest) : req.size ≤ 8 := by
  have := req.size_mem
  simp only [List.mem_cons, List.not_mem_nil, or_false] at this
  omega

/-- What a `read` of a device model returns and leaves behind. -/
structure ModelRead (δ : Type) where
  ret : Int
  device : δ
  /-- the bytes it has stored to `dest` -/
  written : Nat → Option UInt8

/-- The virtual methods of an `HWModel`, with state `δ`. -/
structure DeviceModel (δ : Type) where
  read : δ → UInt64 → Nat → ModelRead δ
  write : δ → UInt64 → UInt64 → Nat → δ
  restartDevice : δ → δ
  redirectR : Bool
  /-- `read` fills `dest` whenever it returns non-zero -/
  fills : ∀ d addr size, (read d addr size).ret ≠ 0 →
    ∀ i < size, ((read d addr size).written i).isSome = true

/-- The device model and its BARs. -/
structure HWInstance (δ : Type) where
  device : δ
  bars : List Memory

section

variable {δ : Type}

def HWInstance.bar? (hw : HWInstance δ) (bar : Int) : Option Memory :=
  if 0 ≤ bar then hw.bars[bar.toNat]? else none

variable (model : DeviceModel δ) (hw : HWInstance δ) (req : Request)

/-- `HWModel::read` with a BAR. -/
def DeviceModel.readBar : ModelRead (HWInstance δ) :=
  let probed := model.read hw.device req.addr req.size
  let hw := { hw with device := probed.device }
  if probed.ret ≠ 0 then ⟨probed.ret, hw, probed.written⟩
  else if model.redirectR then ⟨0, hw, probed.written⟩
  else match hw.bar? req.bar with
    | some data =>
      ⟨req.size, hw, fun i =>
        if i < req.size then some (data (req.addr.toNat + i)) else probed.written i⟩
    | none => ⟨0, hw, probed.written⟩

/-- `HWModel::write` with a BAR. -/
def DeviceModel.writeBar (data : UInt64) : HWInstance δ :=
  let hw := { hw with device := model.write hw.device data req.addr req.size }
  match hw.bar? req.bar with
  | some bar =>
    { hw with bars := hw.bars.set req.bar.toNat (storeLE bar req.addr.toNat req.size data.toNat) }
  | none => hw

/-- The bytes of a read that returns non-zero are all stored. -/
theorem DeviceModel.readBar_fills (returned : (model.readBar hw req).ret ≠ 0) {i : Nat}
    (inside : i < req.size) : ((model.readBar hw req).written i).isSome = true := by
  by_cases probed : (model.read hw.device req.addr req.size).ret = 0
  · simp only [readBar, probed, ne_eq, not_true_eq_false, if_false] at returned ⊢
    by_cases redirect : model.redirectR = true
    · simp [redirect] at returned
    · simp only [redirect] at returned ⊢
      cases bar : ({ hw with device := (model.read hw.device req.addr req.size).device } : HWInstance δ).bar? req.bar with
      | some data => simp [inside]
      | none => simp [bar] at returned
  · simp only [readBar, ne_eq, probed, not_false_eq_true, if_true]
    exact model.fills hw.device req.addr req.size probed i inside

end

/-! ## The library -/

/-- The knobs that `ap_init` has read. -/
structure Config where
  testProbe : Bool
  modelProbeFuzz : Bool
  useStage2 : Bool
  isEnabled : Bool
  modelMutateProb : Int
  modelResetTime : Int
  modelDelay : UInt64
  aflEpoch : Int

structure Library (δ : Type) where
  hw : HWInstance δ
  stage2 : Option Stage2Device
  /-- `sm->path` when `sm` is set -/
  sm : Option (List Char)
  file : FuzzFile
  /-- the static counters of `ap_get_fuzz_data` -/
  counter : Nat
  delayCounter : UInt64
  /-- the static counter of `ap_qemu_mmio_read` -/
  qemuCounter : Nat
  /-- clock readings, in nanoseconds -/
  lastDevRestart : Nat
  aflLastEpochEnd : Nat

structure Moment where
  /-- `cur_time` -/
  now : Nat
  /-- the clock when the epoch has been ended -/
  epochEnd : Nat
  /-- the path and the file of the proxy that `real_ap_init` connects to -/
  path : List Char
  file : FuzzFile
  /-- `sm->data` when the proxy has answered -/
  ipc : Memory
  /-- the bytes on the stack at a local variable of 8 bytes, before it is assigned -/
  stack : Memory

/-- `duration_cast<seconds>(now - past)` -/
def secondsSince (now past : Nat) : Int := ((now - past) / 1000000000 : Nat)

/-- The bytes at `&zero`. -/
def zeroOnStack (moment : Moment) : Memory := fun i => if i < 8 then 0 else moment.stack i

section

variable {δ : Type} (model : DeviceModel δ) (cfg : Config) (lib : Library δ) (moment : Moment) (req : Request)

def Library.apExit : Library δ := { lib with sm := none }

/-- `ap_init` after the first time: `real_ap_init` unless a proxy is connected. -/
def Library.apInit : Library δ :=
  if cfg.isEnabled && lib.sm.isNone then { lib with sm := some moment.path, file := moment.file } else lib

/-- The test for the end of an epoch, with the counter it uses, and the `ap_init` behind it. -/
def Library.nextEpoch (counter : Nat) : Nat × Library δ :=
  if (counter + 1) % 100 = 0 ∨ cfg.aflEpoch ≤ secondsSince moment.now lib.aflLastEpochEnd then
    (0, { lib.apExit with aflLastEpochEnd := moment.epochEnd }.apInit cfg moment)
  else (counter + 1, lib.apInit cfg moment)

@[simp] theorem Library.apInit_stage2 : (lib.apInit cfg moment).stage2 = lib.stage2 := by
  unfold Library.apInit
  split_ifs <;> rfl

@[simp] theorem Library.nextEpoch_stage2 (counter : Nat) :
    (lib.nextEpoch cfg moment counter).2.stage2 = lib.stage2 := by
  unfold Library.nextEpoch
  split_ifs <;> simp [Library.apExit]

/-- `ap_get_fuzz_file()[0]`, which is zero for an empty path. -/
def Library.hasFuzzFile : Logged Access Stream Bool :=
  match lib.sm with
  | some path => pure (!path.isEmpty)
  | none => die

/-- `for (int i = 0; i < size; i++) dest[i] = rand();` -/
def fillRandom (dest : Memory) (size : Nat) : Logged Access Stream Memory :=
  (List.range size).foldlM (fun dest i => do
    let r ← rand
    pure (Function.update dest i (UInt8.ofNat r.val))) dest

/-- `addr % fuzzdatasize` -/
def Library.wrapped : UInt64 := req.addr % lib.file.size

/-- `feedFuzzUSBData` at `fuzzdata + wrapped_addr`. -/
def Library.feedUSB (stage2 : Stage2Device) (dest : Memory) : Logged Access Stream Memory :=
  stage2.feedFuzzUSBData lib.file (lib.wrapped req).toNat dest req.size
    (asInt (lib.file.size - lib.wrapped req))

/-- `feedFuzzMMIOData` at `fuzzdata + wrapped_addr`. -/
def Library.feedMMIO (stage2 : Stage2Device) (dest : Memory) : Logged Access Stream Memory :=
  stage2.feedFuzzMMIOData lib.file (lib.wrapped req).toNat (asInt req.addr) dest req.size

/-- The stage-2 overlay of a register read. -/
def Library.feedStage2 (stage2 : Stage2Device) (dest : Memory) : Logged Access Stream Memory :=
  if stage2.hasUSBModel then lib.feedUSB req stage2 dest else lib.feedMMIO req stage2 dest

/-! ## `ap_get_fuzz_data` -/

/-- The epoch check of `ap_get_fuzz_data`. -/
def Library.checkEpoch : Library δ :=
  let (counter, lib) := lib.nextEpoch cfg moment lib.counter
  { lib with counter := counter }

@[simp] theorem Library.checkEpoch_stage2 : (lib.checkEpoch cfg moment).stage2 = lib.stage2 :=
  lib.nextEpoch_stage2 cfg moment lib.counter

/-- The restart of the device model that is due every `model_reset_time` seconds. -/
def Library.resetModel (sinceRestart : Int) : Library δ :=
  if cfg.modelResetTime < sinceRestart then
    { lib with
      hw := { lib.hw with device := model.restartDevice lib.hw.device }
      lastDevRestart := moment.now }
  else lib

@[simp] theorem Library.resetModel_stage2 (since : Int) :
    (lib.resetModel model cfg moment since).stage2 = lib.stage2 := by
  unfold Library.resetModel
  split_ifs <;> rfl

@[simp] theorem Library.resetModel_file (since : Int) :
    (lib.resetModel model cfg moment since).file = lib.file := by
  unfold Library.resetModel
  split_ifs <;> rfl

/-- Probing with the model, from the read into `probe_mdl_input` on. -/
def probeFuzzRead (dest : Memory) : Logged Access Stream (Library δ × Memory) := do
  let probed := model.readBar lib.hw req
  let lib := { lib with hw := probed.device }
  let mutated ← yes cfg.modelMutateProb
  if mutated && lib.file.size ≠ 0 then
    match lib.stage2.filter Stage2Device.hasUSBModel with
    | some stage2 => do
      let dest ← lib.feedUSB req stage2 dest
      pure (lib, dest)
    | none => do
      let dest ← lib.file.copy dest (lib.wrapped req).toNat req.size
      pure (lib, dest)
  else
    -- `read` may have stored only a part of `probe_mdl_input`, or nothing
    pure (lib, copyInto dest 0 req.size (overlay probed.written moment.stack))

/-- Probing with the file alone. -/
def dumbProbeRead (dest : Memory) : Logged Access Stream (Library δ × Memory) :=
  if lib.file.size ≠ 0 ∧ req.addr < lib.file.size then do
    let dest ← lib.file.copy dest req.addr.toNat req.size
    pure (lib, dest)
  else pure (lib, dest)

/-- The part under `test_probe`. -/
def testProbeRead (dest : Memory) : Logged Access Stream (Library δ × Memory) := do
  if !(← lib.hasFuzzFile) then die
  else if cfg.modelProbeFuzz then
    let sinceRestart := secondsSince moment.now lib.lastDevRestart
    probeFuzzRead model cfg ((lib.checkEpoch cfg moment).resetModel model cfg moment sinceRestart) moment req dest
  else dumbProbeRead (lib.checkEpoch cfg moment) req dest

/-- The fuzz file as the source of a read, once the epoch has been checked. -/
def fuzzRead (dest : Memory) : Logged Access Stream (Library δ × Memory) :=
  if lib.file.size = 0 then pure (lib, dest)
  else if lib.file.size ≤ lib.wrapped req then pure (lib, dest)
  else match lib.stage2.filter fun _ => cfg.useStage2 && cfg.modelDelay < lib.delayCounter with
    | some stage2 => do
      let dest ← lib.feedStage2 req stage2 dest
      pure (lib, dest)
    | none =>
      if req.addr + UInt64.ofNat req.size ≤ lib.file.size then do
        let dest ← lib.file.copy dest (lib.wrapped req).toNat req.size
        pure (lib, dest)
      else pure (lib, copyInto dest 0 req.size (zeroOnStack moment))

/-- A read that the device model has not answered. -/
def redirectedRead (dest : Memory) : Logged Access Stream (Library δ × Memory) :=
  if lib.sm.isNone then do
    let dest ← fillRandom dest req.size
    pure (lib, dest)
  else do
    if !(← lib.hasFuzzFile) then pure (lib, copyInto dest 0 req.size moment.ipc)
    else fuzzRead cfg ({ lib with delayCounter := lib.delayCounter + 1 }.checkEpoch cfg moment) moment req dest

def apGetFuzzData (dest : Memory) : Logged Access Stream (Library δ × Memory) :=
  if cfg.testProbe then testProbeRead model cfg lib moment req dest
  else
    let probed := model.readBar lib.hw req
    let lib := { lib with hw := probed.device }
    if probed.ret ≠ 0 then pure (lib, overlay probed.written dest)
    else redirectedRead cfg lib moment req (overlay probed.written dest)

/-! ## The other entry points -/

def apSetFuzzData (data : UInt64) : Logged Access Stream (Library δ) := do
  let lib := { lib with
    hw := model.writeBar lib.hw req data
    stage2 := lib.stage2.map fun stage2 =>
      if cfg.useStage2 then stage2.captureDMARegistration (asInt req.addr) data else stage2 }
  if lib.sm.isNone then pure lib
  -- the write goes to the proxy over shared memory
  else if !(← lib.hasFuzzFile) then pure lib
  else if lib.file.size = 0 then pure lib
  else if lib.file.size ≤ lib.wrapped req then pure lib
  else do
    lib.file.touch (lib.wrapped req).toNat req.size
    pure { lib with
      file := { lib.file with
        data := storeLE lib.file.data (lib.wrapped req).toNat req.size data.toNat } }

/-- The result is that of the call: 0 when `dest` holds fuzzed data, -1 otherwise. -/
def apQemuMmioRead (dest : Memory) : Logged Access Stream (Int × Library δ × Memory) := do
  if !(← lib.hasFuzzFile) then die else
    let (counter, lib) := lib.nextEpoch cfg moment lib.qemuCounter
    let lib := { lib with qemuCounter := counter }
    if lib.file.size = 0 then pure (-1, lib, dest) else
      let probed := model.readBar lib.hw req
      let lib := { lib with hw := probed.device }
      let dest := overlay probed.written dest
      if probed.ret ≠ 0 then pure (-1, lib, dest)
      else if ← yes cfg.modelMutateProb then
        match lib.stage2.filter fun _ => cfg.useStage2 with
        | some stage2 => do
          let dest ← lib.feedMMIO req stage2 dest
          pure (0, lib, dest)
        | none => do
          let dest ← lib.file.copy dest (lib.wrapped req).toNat req.size
          pure (0, lib, dest)
      else pure (-1, lib, dest)

end

end DevFuzz.Aplib
