import DevFuzz.Aplib.Determined

/-! # Device registers in the fuzz file

Once the probe is over, the registers of a device are bytes of the fuzz file.
`ap_set_fuzz_data` writes at the address modulo the size of the file; `ap_get_fuzz_data`
reads at the same place, but only for an address inside of the file, and zeros for any
other one.  So an address behind the end of the file can be written and not be
read back, and the write shows at the register that has its place in the file.
-/

namespace DevFuzz.Aplib

open DevFuzz.Lib DevFuzz.Lib.Logged DevFuzz.Lib.Bytes DevFuzz.Stage2

/-! ## Plain fuzzing -/

/-- A proxy with a fuzz file is connected, the epoch does not end with the next read, and no fields are
    laid over what the file holds. -/
structure PlainFuzzing {δ : Type} (cfg : Config) (lib : Library δ) (moment : Moment) : Prop where
  noProbeTest : cfg.testProbe = false
  connected : ∃ c path, lib.sm = some (c :: path)
  hasData : lib.file.size ≠ 0
  sameEpoch : ¬ ((lib.counter + 1) % 100 = 0 ∨ cfg.aflEpoch ≤ secondsSince moment.now lib.aflLastEpochEnd)
  noOverlay : lib.stage2 = none ∨ cfg.useStage2 = false ∨ lib.delayCounter + 1 ≤ cfg.modelDelay

/-- `addr + size <= fuzzdatasize` -/
def Readable (file : FuzzFile) (req : Request) : Prop := req.addr + UInt64.ofNat req.size ≤ file.size

instance (file : FuzzFile) (req : Request) : Decidable (Readable file req) := inferInstanceAs (Decidable (_ ≤ _))

/-- Where an access is in the file. -/
def place (file : FuzzFile) (req : Request) : Nat := (req.addr % file.size).toNat

/-- A byte of a register as it is read. -/
def register (file : FuzzFile) (req : Request) (i : Nat) : UInt8 :=
  if Readable file req then file.data (place file req + i) else 0

section

variable {δ : Type} (model : DeviceModel δ) (cfg : Config) (lib : Library δ) (moment : Moment)

theorem checkEpoch_of_sameEpoch (connected : lib.sm.isSome = true)
    (same : ¬ ((lib.counter + 1) % 100 = 0 ∨ cfg.aflEpoch ≤ secondsSince moment.now lib.aflLastEpochEnd)) :
    lib.checkEpoch cfg moment = { lib with counter := lib.counter + 1 } := by
  have init : lib.apInit cfg moment = lib := by
    cases sm : lib.sm with
    | none => simp [sm] at connected
    | some path => simp [Library.apInit, sm]
  rw [Library.checkEpoch, Library.nextEpoch, if_neg same, init]

theorem result_hasFuzzFile_bind {α : Type} {c : Char} {path : List Char} (sm : lib.sm = some (c :: path))
    (f : Bool → Logged Access Stream α) (s : Stream) : (lib.hasFuzzFile >>= f).result s = (f true).result s := by
  have has : lib.hasFuzzFile = pure true := by
    rw [Library.hasFuzzFile, sm]
    rfl
  rw [has]
  exact result_bind_of_some rfl

theorem fuzzRead_plain (hasData : lib.file.size ≠ 0)
    (noOverlay : lib.stage2.filter (fun _ => cfg.useStage2 && cfg.modelDelay < lib.delayCounter) = none)
    (req : RegisterRequest) (dest : Memory) (s : Stream) :
    ∃ dest', (fuzzRead cfg lib moment req.toRequest dest).result s = some ((lib, dest'), s) ∧
      ∀ i < req.size, dest' i = register lib.file req.toRequest i := by
  have small := req.size_le
  rw [fuzzRead, if_neg hasData, if_neg (UInt64.not_le.mpr (wrapped_lt lib req.toRequest hasData)), noOverlay]
  by_cases readable : Readable lib.file req.toRequest
  · dsimp only
    rw [if_pos (show req.addr + UInt64.ofNat req.size ≤ lib.file.size from readable)]
    refine ⟨_, rfl, fun i inside => ?_⟩
    rw [register, if_pos readable]
    simp [copyInto, inside, place, Library.wrapped]
  · dsimp only
    rw [if_neg (show ¬ req.addr + UInt64.ofNat req.size ≤ lib.file.size from readable)]
    refine ⟨_, rfl, fun i inside => ?_⟩
    rw [register, if_neg readable]
    have onStack : i < 8 := by omega
    simp [copyInto, inside, zeroOnStack, onStack]

variable {cfg lib moment}

/-- A read in plain fuzzing returns the register. -/
theorem apGetFuzzData_plain (plain : PlainFuzzing cfg lib moment) (req : RegisterRequest)
    (unanswered : (model.readBar lib.hw req.toRequest).ret = 0) (dest : Memory) (s : Stream) :
    ∃ lib' dest', (apGetFuzzData model cfg lib moment req.toRequest dest).result s = some ((lib', dest'), s) ∧
      ∀ i < req.size, dest' i = register lib.file req.toRequest i := by
  obtain ⟨c, path, sm⟩ := plain.connected
  -- the library when the file is read
  let counted : Library δ := { lib with
    hw := (model.readBar lib.hw req.toRequest).device
    delayCounter := lib.delayCounter + 1
    counter := lib.counter + 1 }
  have noOverlay : counted.stage2.filter (fun _ => cfg.useStage2 && cfg.modelDelay < counted.delayCounter) = none := by
    rcases plain.noOverlay with none | unused | delayed
    · simp [counted, none]
    · simp [unused]
    · simp [counted, UInt64.not_lt.mpr delayed]
  obtain ⟨dest', result, bytes⟩ := fuzzRead_plain cfg counted moment plain.hasData noOverlay req
    (overlay (model.readBar lib.hw req.toRequest).written dest) s
  refine ⟨counted, dest', ?_, bytes⟩
  rw [← result, apGetFuzzData, if_neg (by simp [plain.noProbeTest])]
  dsimp only
  rw [if_neg (by simp [unanswered]), redirectedRead, if_neg (by simp [sm])]
  have check := checkEpoch_of_sameEpoch cfg
    { lib with hw := (model.readBar lib.hw req.toRequest).device, delayCounter := lib.delayCounter + 1 } moment
    (by simp [sm]) plain.sameEpoch
  rw [check]
  exact result_hasFuzzFile_bind _ (by exact sm) _ s

theorem apSetFuzzData_plain (plain : PlainFuzzing cfg lib moment) (req : Request) (data : UInt64) (s : Stream) :
    ∃ lib', (apSetFuzzData model cfg lib req data).result s = some (lib', s) ∧ PlainFuzzing cfg lib' moment ∧
      lib'.hw = model.writeBar lib.hw req data ∧ lib'.file =
        { lib.file with data := storeLE lib.file.data (place lib.file req) req.size data.toNat } := by
  obtain ⟨c, path, sm⟩ := plain.connected
  let written : Library δ := { lib with
    hw := model.writeBar lib.hw req data
    stage2 := lib.stage2.map fun stage2 =>
      if cfg.useStage2 then stage2.captureDMARegistration (asInt req.addr) data else stage2
    file := { lib.file with data := storeLE lib.file.data (place lib.file req) req.size data.toNat } }
  have noOverlay : written.stage2 = none ∨ cfg.useStage2 = false ∨ written.delayCounter + 1 ≤ cfg.modelDelay :=
    plain.noOverlay.imp_left fun none => by simp [written, none]
  refine ⟨written, ?_, ⟨plain.noProbeTest, ⟨c, path, sm⟩, plain.hasData, plain.sameEpoch, noOverlay⟩, rfl, rfl⟩
  rw [apSetFuzzData]
  dsimp only
  rw [if_neg (by simp [sm])]
  refine (result_hasFuzzFile_bind _ (by exact sm) _ s).trans ?_
  rw [if_neg (by decide), if_neg plain.hasData, if_neg (by exact UInt64.not_le.mpr (wrapped_lt lib req plain.hasData))]
  rfl

end

/-! ## Registers as memory -/

/-- A write and a read in one epoch; the device model answers neither with nor without the write. -/
structure RegisterPair (δ : Type) where
  model : DeviceModel δ
  cfg : Config
  lib : Library δ
  moment : Moment
  write : RegisterRequest
  read : RegisterRequest
  plain : PlainFuzzing cfg lib moment
  unanswered : (model.readBar lib.hw read.toRequest).ret = 0
  stillUnanswered : ∀ data, (model.readBar (model.writeBar lib.hw write.toRequest data) read.toRequest).ret = 0

namespace RegisterPair

variable {δ : Type} (pair : RegisterPair δ)

/-- What the read returns without the write. -/
def readAlone (dest : Memory) (s : Stream) : Option Memory :=
  ((apGetFuzzData pair.model pair.cfg pair.lib pair.moment pair.read.toRequest dest).result s).map fun r => r.1.2

/-- What the read returns after the write. -/
def readAfter (data : UInt64) (dest : Memory) (s : Stream) : Option Memory :=
  ((apSetFuzzData pair.model pair.cfg pair.lib pair.write.toRequest data >>= fun lib =>
    apGetFuzzData pair.model pair.cfg lib pair.moment pair.read.toRequest dest).result s).map fun r => r.1.2

/-- `[a, a+s)` and `[b, b+t)` have no address in common. -/
def Apart : Prop :=
  pair.write.addr.toNat + pair.write.size ≤ pair.read.addr.toNat ∨
    pair.read.addr.toNat + pair.read.size ≤ pair.write.addr.toNat

def Same : Prop := pair.read.addr = pair.write.addr ∧ pair.read.size = pair.write.size

/-- The read sees the write where it is the same register, and nothing of it where it is another one. -/
structure Observes (data : UInt64) (alone after : Memory) : Prop where
  frame : pair.Apart → ∀ i < pair.read.size, after i = alone i
  readBack : pair.Same → ∀ i < pair.read.size, after i = byteOf data.toNat i

/-- Both reads return, and behave like reads of memory, whatever is written. -/
def MemoryLike : Prop :=
  ∀ data dest s, ∃ alone after, pair.readAlone dest s = some alone ∧ pair.readAfter data dest s = some after ∧
    pair.Observes data alone after

/-- The read looks into the file at bytes that the write changes. -/
def Aliased : Prop :=
  Readable pair.lib.file pair.read.toRequest ∧
    place pair.lib.file pair.write.toRequest < place pair.lib.file pair.read.toRequest + pair.read.size ∧
    place pair.lib.file pair.read.toRequest < place pair.lib.file pair.write.toRequest + pair.write.size

/-- The file after the write. -/
def written (data : UInt64) : FuzzFile :=
  { pair.lib.file with
    data := storeLE pair.lib.file.data (place pair.lib.file pair.write.toRequest) pair.write.size data.toNat }

theorem readAlone_eq (dest : Memory) (s : Stream) :
    ∃ alone, pair.readAlone dest s = some alone ∧
      ∀ i < pair.read.size, alone i = register pair.lib.file pair.read.toRequest i := by
  obtain ⟨lib, alone, result, bytes⟩ := apGetFuzzData_plain pair.model pair.plain pair.read pair.unanswered dest s
  exact ⟨alone, by rw [readAlone, result]; rfl, bytes⟩

theorem readAfter_eq (data : UInt64) (dest : Memory) (s : Stream) :
    ∃ after, pair.readAfter data dest s = some after ∧
      ∀ i < pair.read.size, after i = register (pair.written data) pair.read.toRequest i := by
  obtain ⟨mid, set, plain, hw, file⟩ := apSetFuzzData_plain pair.model pair.plain pair.write.toRequest data s
  obtain ⟨lib, after, get, bytes⟩ := apGetFuzzData_plain pair.model plain pair.read
    (hw ▸ pair.stillUnanswered data) dest s
  refine ⟨after, ?_, fun i inside => ?_⟩
  · rw [readAfter, result_bind_of_some set, get]
    rfl
  · rw [bytes i inside, file]
    rfl

/-- The registers before and after the write tell whether it is like one to memory. -/
theorem memoryLike_iff_register :
    pair.MemoryLike ↔ ∀ data, pair.Observes data (register pair.lib.file pair.read.toRequest)
      (register (pair.written data) pair.read.toRequest) := by
  have congr : ∀ data {alone after : Memory},
      (∀ i < pair.read.size, alone i = register pair.lib.file pair.read.toRequest i) →
      (∀ i < pair.read.size, after i = register (pair.written data) pair.read.toRequest i) →
      (pair.Observes data alone after ↔ pair.Observes data (register pair.lib.file pair.read.toRequest)
        (register (pair.written data) pair.read.toRequest)) := by
    intro data alone after first second
    refine ⟨fun observes => ⟨?_, ?_⟩, fun observes => ⟨?_, ?_⟩⟩
    · intro apart i inside
      rw [← first i inside, ← second i inside]
      exact observes.frame apart i inside
    · intro same i inside
      rw [← second i inside]
      exact observes.readBack same i inside
    · intro apart i inside
      rw [first i inside, second i inside]
      exact observes.frame apart i inside
    · intro same i inside
      rw [second i inside]
      exact observes.readBack same i inside
  constructor
  · intro memoryLike data
    obtain ⟨alone, after, result, result', observes⟩ := memoryLike data (fun _ => 0) fun _ => 0
    obtain ⟨alone', first, firstBytes⟩ := pair.readAlone_eq (fun _ => 0) fun _ => 0
    obtain ⟨after', second, secondBytes⟩ := pair.readAfter_eq data (fun _ => 0) fun _ => 0
    obtain rfl := Option.some.inj (first.symm.trans result)
    obtain rfl := Option.some.inj (second.symm.trans result')
    exact (congr data firstBytes secondBytes).mp observes
  · intro observes data dest s
    obtain ⟨alone, first, firstBytes⟩ := pair.readAlone_eq dest s
    obtain ⟨after, second, secondBytes⟩ := pair.readAfter_eq data dest s
    exact ⟨alone, after, first, second, (congr data firstBytes secondBytes).mpr (observes data)⟩

section

variable {pair}

theorem register_written_of_not_readable (unreadable : ¬ Readable pair.lib.file pair.read.toRequest) (data : UInt64)
    (i : Nat) : register (pair.written data) pair.read.toRequest i = 0 :=
  if_neg unreadable

theorem register_of_not_readable (unreadable : ¬ Readable pair.lib.file pair.read.toRequest) (i : Nat) :
    register pair.lib.file pair.read.toRequest i = 0 :=
  if_neg unreadable

theorem register_of_readable (readable : Readable pair.lib.file pair.read.toRequest) (i : Nat) :
    register pair.lib.file pair.read.toRequest i = pair.lib.file.data (place pair.lib.file pair.read.toRequest + i) :=
  if_pos readable

theorem register_written_of_readable (readable : Readable pair.lib.file pair.read.toRequest) (data : UInt64) (i : Nat) :
    register (pair.written data) pair.read.toRequest i =
      storeLE pair.lib.file.data (place pair.lib.file pair.write.toRequest) pair.write.size data.toNat
        (place pair.lib.file pair.read.toRequest + i) :=
  if_pos readable

/-- A byte of a word can be any other than a given one. -/
theorem exists_byteOf_ne {k : Nat} (inside : k < 8) (byte : UInt8) : ∃ data : UInt64, byteOf data.toNat k ≠ byte := by
  by_cases zero : byte = 0
  · refine ⟨18446744073709551615, ?_⟩
    rw [zero]
    interval_cases k <;> decide
  · refine ⟨0, fun same => zero ?_⟩
    rw [← same, byteOf, UInt64.toNat_zero, Nat.zero_div]
    rfl

theorem frame_iff :
    (∀ data, ∀ i < pair.read.size, register (pair.written data) pair.read.toRequest i =
        register pair.lib.file pair.read.toRequest i) ↔ ¬ pair.Aliased := by
  constructor
  · rintro frame ⟨readable, first, second⟩
    -- a byte of the file that both accesses reach
    obtain ⟨i, k, inside, within, same⟩ : ∃ i k, i < pair.read.size ∧ k < pair.write.size ∧
        place pair.lib.file pair.read.toRequest + i = place pair.lib.file pair.write.toRequest + k := by
      rcases Nat.le_total (place pair.lib.file pair.write.toRequest) (place pair.lib.file pair.read.toRequest)
        with le | le
      · exact ⟨0, place pair.lib.file pair.read.toRequest - place pair.lib.file pair.write.toRequest,
          pair.read.size_pos, by omega, by omega⟩
      · exact ⟨place pair.lib.file pair.write.toRequest - place pair.lib.file pair.read.toRequest, 0,
          by omega, pair.write.size_pos, by omega⟩
    have small := pair.write.size_le
    obtain ⟨data, differs⟩ := exists_byteOf_ne (k := k) (by omega)
      (pair.lib.file.data (place pair.lib.file pair.read.toRequest + i))
    have kept := frame data i inside
    rw [register_written_of_readable readable, register_of_readable readable, same,
      storeLE_of_lt _ (by omega) (by omega), Nat.add_sub_cancel_left, ← same] at kept
    exact differs kept
  · intro apart data i inside
    by_cases readable : Readable pair.lib.file pair.read.toRequest
    · rw [register_written_of_readable readable, register_of_readable readable]
      refine if_neg fun hit => apart ⟨readable, ?_, ?_⟩ <;> omega
    · rw [register_written_of_not_readable readable, register_of_not_readable readable]

theorem readBack_iff (same : pair.Same) :
    (∀ data, ∀ i < pair.read.size, register (pair.written data) pair.read.toRequest i = byteOf data.toNat i) ↔
      Readable pair.lib.file pair.read.toRequest := by
  constructor
  · intro readBack
    by_contra unreadable
    have low := readBack 1 0 pair.read.size_pos
    rw [register_written_of_not_readable unreadable] at low
    exact absurd low (by decide)
  · intro readable data i inside
    have here : place pair.lib.file pair.read.toRequest = place pair.lib.file pair.write.toRequest := by
      rw [place, place, same.1]
    have size := same.2
    rw [register_written_of_readable readable, here, storeLE_of_lt _ (by omega) (by omega), Nat.add_sub_cancel_left]

end

/-- Registers behave like memory exactly where a read does not look at the place of another register and a
    register that is read back is inside of the file. -/
theorem memoryLike_iff :
    pair.MemoryLike ↔ (pair.Apart → ¬ pair.Aliased) ∧ (pair.Same → Readable pair.lib.file pair.read.toRequest) := by
  rw [memoryLike_iff_register]
  constructor
  · intro observes
    exact ⟨fun apart => frame_iff.mp fun data => (observes data).frame apart,
      fun same => (readBack_iff same).mp fun data => (observes data).readBack same⟩
  · rintro ⟨frame, readBack⟩ data
    exact ⟨fun apart => frame_iff.mpr (frame apart) data, fun same => (readBack_iff same).mpr (readBack same) data⟩

end RegisterPair

/-! ## A file of sixteen bytes -/

theorem plainFuzzing_connected : PlainFuzzing plainConfig (connectedLibrary 16) quietMoment :=
  ⟨rfl, ⟨_, _, rfl⟩, by decide, by decide, .inl rfl⟩

theorem byte_mem_sizes (addr : UInt64) : (⟨addr, 1, 0⟩ : Request).size ∈ [1, 2, 4, 8] := List.mem_cons_self

def byteAt (addr : UInt64) : RegisterRequest := ⟨⟨addr, 1, 0⟩, byte_mem_sizes addr⟩

theorem smallFile_size : 16 < 9223372036854775808 := by decide

def smallFile (write read : UInt64) : RegisterPair Unit where
  model := silentModel
  cfg := plainConfig
  lib := connectedLibrary ⟨16, smallFile_size⟩
  moment := quietMoment
  write := byteAt write
  read := byteAt read
  plain := plainFuzzing_connected
  unanswered := rfl
  stillUnanswered := fun _ => rfl

/-- A write to register 16 changes register 0, and register 16 itself stays zero. -/
theorem not_memoryLike_smallFile :
    ((smallFile 16 0).Apart ∧ ¬ (smallFile 16 0).MemoryLike) ∧ (smallFile 16 16).Same ∧ ¬ (smallFile 16 16).MemoryLike := by
  refine ⟨⟨.inr (by decide), fun memoryLike => ?_⟩, ⟨rfl, rfl⟩, fun memoryLike => ?_⟩
  · have frame := ((smallFile 16 0).memoryLike_iff_register.mp memoryLike 1).frame (.inr (by decide)) 0 (by decide)
    exact absurd frame (by decide)
  · have readBack := ((smallFile 16 16).memoryLike_iff_register.mp memoryLike 1).readBack ⟨rfl, rfl⟩ 0 (by decide)
    exact absurd readBack (by decide)

end DevFuzz.Aplib
