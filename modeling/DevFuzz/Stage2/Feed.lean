import DevFuzz.Stage2.DMA
import DevFuzz.Lib.Bytes
import DevFuzz.Lib.Patch
import Mathlib.Data.Finset.Insert

/-! # Register and USB reads

`feedFuzzMMIOData` and `feedFuzzUSBData` of `Stage2HWModel` in `aplib/HWModel.h`:
the bytes of a device read come from the mapped fuzz file, with the value of a
field's dictionary on top.  The events of a run are its accesses to the mapping.
-/

namespace DevFuzz.Stage2

open DevFuzz.Lib DevFuzz.Lib.Logged DevFuzz.Lib.Bytes

/-! ## The mapped file -/

/-- `fuzzdata` and `fuzzdatasize`.  What lies behind the file is part of the model: a read there
    returns some byte.  The size of a file is an `off_t`. -/
structure FuzzFile where
  data : Memory
  size : UInt64
  size_lt : size.toNat < 9223372036854775808

/-- A run of bytes of the mapping that is read or written, and the size of the file at that time. -/
structure Access where
  start : Nat
  len : Nat
  size : Nat
  deriving DecidableEq, Repr

/-- Every byte of the access is a byte of the file. -/
def Access.InBounds (a : Access) : Prop := ∀ i < a.len, a.start + i < a.size

theorem Access.inBounds_iff_end_le {a : Access} (some : 0 < a.len) : a.InBounds ↔ a.start + a.len ≤ a.size := by
  constructor
  · intro all
    have last := all (a.len - 1) (by omega)
    omega
  · intro fits i bound
    omega

def FuzzFile.touch (file : FuzzFile) (start len : Nat) : Logged Access Stream Unit :=
  emit ⟨start, len, file.size.toNat⟩

/-- `memcpy(&orig, fuzzdata + start, len)` with `orig` zero before. -/
def FuzzFile.load (file : FuzzFile) (start len : Nat) : Logged Access Stream UInt64 := do
  file.touch start len
  pure (UInt64.ofNat (loadLE file.data start len))

/-- `memcpy(dest, fuzzdata + start, len)` -/
def FuzzFile.copy (file : FuzzFile) (dest : Memory) (start len : Nat) : Logged Access Stream Memory := do
  file.touch start len
  pure (copyInto dest 0 len fun i => file.data (start + i))

/-- The conversion of a 64-bit value to `int`. -/
def asInt (value : UInt64) : Int := (value.toBitVec.setWidth 32).toInt

theorem asInt_le (value : UInt64) : asInt value ≤ value.toNat := by
  have mod : (value.toBitVec.setWidth 32).toNat ≤ value.toNat := by
    rw [BitVec.toNat_setWidth]
    exact Nat.mod_le _ _
  have := BitVec.toInt_eq_toNat_cond (value.toBitVec.setWidth 32)
  unfold asInt
  split_ifs at this <;> omega

theorem asInt_of_lt {value : UInt64} (small : value.toNat < 2147483648) : asInt value = value.toNat := by
  have low : (value.toBitVec.setWidth 32).toNat = value.toNat := by
    rw [BitVec.toNat_setWidth, UInt64.toNat_toBitVec, Nat.mod_eq_of_lt (by omega)]
  rw [asInt, BitVec.toInt_eq_toNat_of_lt (by omega), low]

/-! ## The model of a device -/

/-- A `Stage2HWModel` with its register and USB fields, in the order of the maps, and what it knows
    of the registers that take DMA addresses. -/
structure Stage2Device extends Stage2HWModel where
  mmioInputs : AList fun _ : Int => HWInput
  usbInputs : AList fun _ : Nat => HWInput
  dmaRegs : AList fun _ : UInt64 => Fin 2147483648
  dmaStarts : Finset UInt64
  level1DmaSet : Bool

namespace Stage2Device

/-- `value & PAGE_MASK` -/
def pageAligned (value : UInt64) : UInt64 := value &&& 0xfffffffffffff000

def captureDMARegistration (stage2 : Stage2Device) (reg : Int) (value : UInt64) : Stage2Device :=
  match stage2.dmaRegs.lookup (UInt64.ofInt reg) with
  | some sz =>
    let sz := if sz = 0 then 4096 else sz
    let stage2 := { stage2 with level1DmaSet := true }
    if pageAligned value ∈ stage2.dmaStarts then stage2 else
      { stage2 with
        dmaStarts := insert (pageAligned value) stage2.dmaStarts
        dmasg := stage2.dmasg ++ [⟨pageAligned value, sz.val, sz.isLt⟩] }
  | none => stage2

variable (stage2 : Stage2Device) (file : FuzzFile) (start : Nat)

def hasUSBModel : Bool := !stage2.usbInputs.entries.isEmpty

/-- `afl_data` is `fuzzdata + start`. -/
def feedFuzzMMIOData (offset : Int) (dst : Memory) (sz : Nat) : Logged Access Stream Memory :=
  match stage2.mmioInputs.lookup offset with
  | some hwi => do
    let orig ← file.load start sz
    let data ← hwi.feedData stage2.mode orig
    pure (storeLE dst 0 sz data.toNat)
  | none => file.copy dst start sz

def fieldSz (size offset nBytes : Nat) : Nat := if size < offset + nBytes then size - offset else nBytes

/-- `orig`, which stays zero for a field behind the data. -/
def usbOriginal (size : Nat) (aflLen : Int) (entry : (_ : Nat) × HWInput) : Logged Access Stream UInt64 :=
  if entry.1 < aflLen then file.load (start + entry.1 % aflLen.toNat) (fieldSz size entry.1 entry.2.nBytes)
  else pure 0

/-- The body of the loop over `usb_inputs`. -/
def feedUSBField (size : Nat) (aflLen : Int) (dest : Memory) (entry : (_ : Nat) × HWInput) :
    Logged Access Stream Memory :=
  if size ≤ entry.1 then pure dest else do
    let orig ← usbOriginal file start size aflLen entry
    let modelData ← entry.2.feedData stage2.mode orig
    pure (storeLE dest entry.1 (fieldSz size entry.1 entry.2.nBytes) modelData.toNat)

def copyLen (size : Nat) (aflLen : Int) : Int := if size < aflLen then size else aflLen

/-- `afl_data` is `fuzzdata + start`.  A negative `copy_len` becomes a `size_t` that no buffer has. -/
def feedFuzzUSBData (dest : Memory) (size : Nat) (aflLen : Int) : Logged Access Stream Memory := do
  file.touch start (copyLen size aflLen % 18446744073709551616).toNat
  if copyLen size aflLen < 0 then die else
    stage2.usbInputs.entries.foldlM (stage2.feedUSBField file start size aflLen)
      (copyInto dest 0 (copyLen size aflLen).toNat fun i => file.data (start + i))

end Stage2Device

end DevFuzz.Stage2
