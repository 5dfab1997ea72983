import DevFuzz.Aplib.USBProbe

/-! # USB models with device memory

`HWModel_ims_pcu` and `HWModel_pegasus_notetaker` keep an array `device_ram` of 1024000 bytes and serve reads and
writes from it.  Only the start of an access is wrapped into the array, and `write` knows four sizes where `read`
copies any.  `isMemory_iff` says at which addresses and for which sizes the array is a memory.
-/

namespace DevFuzz.Aplib

open DevFuzz.Lib.Bytes DevFuzz.Stage2

/-- `addr % sizeof(device_ram)` -/
def ramOffset (addr : UInt64) : Nat := (addr % 1024000).toNat

/-- The bytes that `read` stores to `dest`: each case of the `switch` copies `size` of them. -/
def ramRead (ram : Memory) (addr : UInt64) (size : Nat) : Nat → Option UInt8 :=
  fun i => if i < size then some (ram (ramOffset addr + i)) else none

/-- `device_ram` after `write`. -/
def ramWrite (ram : Memory) (data addr : UInt64) (size : Nat) : Memory :=
  if size ∈ [1, 2, 4, 8] then storeLE ram (ramOffset addr) size data.toNat else ram

structure PegasusNotetaker where
  probeLen : Int
  deviceRam : Memory

namespace PegasusNotetaker

def read (d : PegasusNotetaker) (addr : UInt64) (size : Nat) : ModelRead PegasusNotetaker :=
  ⟨asInt (UInt64.ofNat size), d, ramRead d.deviceRam addr size⟩

def write (d : PegasusNotetaker) (data addr : UInt64) (size : Nat) : PegasusNotetaker :=
  { d with deviceRam := ramWrite d.deviceRam data addr size }

end PegasusNotetaker

/-- A model with device memory. -/
inductive RamModel where
  | imsPcu (d : ImsPcu)
  | pegasusNotetaker (d : PegasusNotetaker)

namespace RamModel

def deviceRam : RamModel → Memory
  | imsPcu d => d.deviceRam
  | pegasusNotetaker d => d.deviceRam

/-- The model with other contents of its memory. -/
def withRam (ram : Memory) : RamModel → RamModel
  | imsPcu d => imsPcu { d with deviceRam := ram }
  | pegasusNotetaker d => pegasusNotetaker { d with deviceRam := ram }

/-- The bytes that the virtual `read` stores to `dest`. -/
def read (addr : UInt64) (size : Nat) : RamModel → Nat → Option UInt8
  | imsPcu d => (d.read addr size).written
  | pegasusNotetaker d => (d.read addr size).written

/-- The virtual `write`. -/
def write (data addr : UInt64) (size : Nat) : RamModel → RamModel
  | imsPcu d => imsPcu (d.write data addr size)
  | pegasusNotetaker d => pegasusNotetaker (d.write data addr size)

@[simp] theorem deviceRam_withRam (ram : Memory) (m : RamModel) : (m.withRam ram).deviceRam = ram := by
  cases m <;> rfl

@[simp] theorem read_eq (addr : UInt64) (size : Nat) (m : RamModel) :
    m.read addr size = ramRead m.deviceRam addr size := by
  cases m <;> rfl

@[simp] theorem deviceRam_write (data addr : UInt64) (size : Nat) (m : RamModel) :
    (m.write data addr size).deviceRam = ramWrite m.deviceRam data addr size := by
  cases m with
  | imsPcu d =>
    simp only [write, deviceRam, ImsPcu.write, ramWrite]
    split_ifs <;> rfl
  | pegasusNotetaker d => rfl

/-- Accesses of `size` bytes at `addr` are those of a memory, whatever it holds and the data are. -/
structure IsMemory (m : RamModel) (addr : UInt64) (size : Nat) : Prop where
  /-- what a read returns depends on bytes of the array only -/
  readInside : ∀ ram j byte,
    (m.withRam (Function.update ram j byte)).read addr size ≠ (m.withRam ram).read addr size → j < 1024000
  /-- a write changes bytes of the array only -/
  writeInside : ∀ ram data j, ((m.withRam ram).write data addr size).deviceRam j ≠ ram j → j < 1024000
  /-- what has been written is read -/
  readBack : ∀ ram data, ((m.withRam ram).write data addr size).read addr size =
    fun i => if i < size then some (byteOf data.toNat i) else none
  /-- and a read of other bytes is what it was before -/
  frame : ∀ ram data addr' size',
    ramOffset addr' + size' ≤ ramOffset addr ∨ ramOffset addr + size ≤ ramOffset addr' →
      ((m.withRam ram).write data addr size).read addr' size' = (m.withRam ram).read addr' size'

end RamModel

/-! ## The two operations -/

section

variable {ram : Memory} {data addr : UInt64} {size : Nat}

theorem ramRead_of_lt {i : Nat} (inside : i < size) : ramRead ram addr size i = some (ram (ramOffset addr + i)) := by
  rw [ramRead, if_pos inside]

/-- A read depends on the bytes from the offset on, as many as are asked for. -/
theorem ramRead_congr {ram' : Memory} (same : ∀ i < size, ram' (ramOffset addr + i) = ram (ramOffset addr + i)) :
    ramRead ram' addr size = ramRead ram addr size := by
  funext i
  by_cases inside : i < size
  · rw [ramRead_of_lt inside, ramRead_of_lt inside, same i inside]
  · simp only [ramRead, if_neg inside]

theorem ramWrite_of_mem (known : size ∈ [1, 2, 4, 8]) :
    ramWrite ram data addr size = storeLE ram (ramOffset addr) size data.toNat := by
  rw [ramWrite, if_pos known]

theorem ramWrite_of_notMem (unknown : size ∉ [1, 2, 4, 8]) : ramWrite ram data addr size = ram := by
  rw [ramWrite, if_neg unknown]

theorem ramWrite_inside (known : size ∈ [1, 2, 4, 8]) {i : Nat} (inside : i < size) :
    ramWrite ram data addr size (ramOffset addr + i) = byteOf data.toNat i := by
  rw [ramWrite_of_mem known, storeLE_of_lt _ (Nat.le_add_right _ _) (Nat.add_lt_add_left inside _),
    Nat.add_sub_cancel_left]

theorem ramWrite_outside {j : Nat} (outside : j < ramOffset addr ∨ ramOffset addr + size ≤ j) :
    ramWrite ram data addr size j = ram j := by
  unfold ramWrite
  split_ifs
  · rw [storeLE, if_neg (by omega)]
  · rfl

/-- All bytes of the largest number are ones. -/
theorem byteOf_ones : ∀ i : Fin 8, byteOf 18446744073709551615 i = 0xff := by decide

theorem size_le_of_mem (known : size ∈ [1, 2, 4, 8]) : 0 < size ∧ size ≤ 8 := by
  simp only [List.mem_cons, List.not_mem_nil, or_false] at known
  omega

end

/-! ## Where the array is a memory -/

namespace RamModel

variable {m : RamModel} {addr : UInt64} {size : Nat}

theorem frame_write (ram : Memory) (data addr' : UInt64) (size' : Nat)
    (apart : ramOffset addr' + size' ≤ ramOffset addr ∨ ramOffset addr + size ≤ ramOffset addr') :
    ((m.withRam ram).write data addr size).read addr' size' = (m.withRam ram).read addr' size' := by
  simp only [read_eq, deviceRam_write, deviceRam_withRam]
  exact ramRead_congr fun i inside => ramWrite_outside (by omega)

/-- A size that `write` ignores is not read back. -/
theorem IsMemory.known (memory : m.IsMemory addr size) (positive : 0 < size) : size ∈ [1, 2, 4, 8] := by
  by_contra unknown
  have back := congrFun (memory.readBack (fun _ => 0) 1) 0
  rw [read_eq, deviceRam_write, deviceRam_withRam, ramWrite_of_notMem unknown, ramRead_of_lt positive, if_pos positive] at back
  exact absurd back (by decide)

/-- The last byte of an access lies in the array. -/
theorem IsMemory.inside (memory : m.IsMemory addr size) (known : size ∈ [1, 2, 4, 8]) :
    ramOffset addr + size ≤ 1024000 := by
  obtain ⟨positive, few⟩ := size_le_of_mem known
  -- ones over a memory of zeros show the last byte that the write comes to
  have last : size - 1 < size := by omega
  have stored : ramWrite (fun _ => 0) 0xffffffffffffffff addr size (ramOffset addr + (size - 1)) = 0xff := by
    rw [ramWrite_inside known last]
    exact byteOf_ones ⟨size - 1, by omega⟩
  have bound := memory.writeInside (fun _ => 0) 0xffffffffffffffff (ramOffset addr + (size - 1)) (by
    rw [deviceRam_write, deviceRam_withRam, stored]
    decide)
  omega

theorem isMemory_zero : m.IsMemory addr 0 where
  readInside ram j byte differs := by
    simp only [read_eq, deviceRam_withRam] at differs
    exact absurd (ramRead_congr fun i inside => by omega) differs
  writeInside ram data j differs := by
    rw [deviceRam_write, deviceRam_withRam, ramWrite_of_notMem (by decide)] at differs
    exact absurd rfl differs
  readBack ram data := by
    rw [read_eq]
    rfl
  frame := frame_write

theorem isMemory_of_inside (known : size ∈ [1, 2, 4, 8]) (inside : ramOffset addr + size ≤ 1024000) :
    m.IsMemory addr size where
  readInside ram j byte differs := by
    simp only [read_eq, deviceRam_withRam] at differs
    by_contra beyond
    refine differs (ramRead_congr fun i below => Function.update_of_ne ?_ _ _)
    omega
  writeInside ram data j differs := by
    rw [deviceRam_write, deviceRam_withRam] at differs
    by_contra beyond
    exact differs (ramWrite_outside (by omega))
  readBack ram data := by
    rw [read_eq, deviceRam_write, deviceRam_withRam]
    funext i
    by_cases below : i < size
    · rw [ramRead_of_lt below, ramWrite_inside known below, if_pos below]
    · simp only [ramRead, if_neg below]
  frame := frame_write

/-- An access is one of a memory exactly if `write` knows its size and it ends inside the array. -/
theorem isMemory_iff (m : RamModel) (addr : UInt64) (size : Nat) :
    m.IsMemory addr size ↔ size = 0 ∨ size ∈ [1, 2, 4, 8] ∧ ramOffset addr + size ≤ 1024000 := by
  constructor
  · intro memory
    cases size with
    | zero => exact .inl rfl
    | succ n =>
      have known := memory.known (Nat.succ_pos n)
      exact .inr ⟨known, memory.inside known⟩
  · rintro (rfl | ⟨known, inside⟩)
    · exact isMemory_zero
    · exact isMemory_of_inside known inside

/-- Two bytes at the last address: the second lies behind the array. -/
theorem not_isMemory_last : ¬ (pegasusNotetaker ⟨0, fun _ => 0⟩).IsMemory 1023999 2 := by
  intro memory
  exact absurd (memory.inside (by decide)) (by decide)

end RamModel

end DevFuzz.Aplib
