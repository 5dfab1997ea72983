import DevFuzz.Lib.Strings

/-! # The configuration space of the symbolic device

The port accesses of the S2E plugin (`pex/PeX.cpp`, `pex/PeX.h`, `pex/pcidef.h`): the
guest selects a register of a PCI function with a write to the port 0xcf8 and
accesses it at the ports 0xcfc to 0xcff.  `slotOnPortAccess` sees the writes,
`createExpressionPort` answers the reads.
-/

namespace DevFuzz.PeX

open DevFuzz.Lib.Strings

/-! ## Expressions -/

/-- A value of the guest: a constant or the name of an unknown. -/
inductive Expr (width : Nat) where
  | constant (value : BitVec width)
  | symbolic (name : Text)
  deriving DecidableEq

/-- `getZExtValue` of a constant, and 0 for a symbolic value. -/
def Expr.concrete {width : Nat} : Expr width → BitVec 64
  | .constant value => value.setWidth 64
  | .symbolic _ => 0

inductive Width where
  | byte
  | word
  | dword
  deriving DecidableEq, Repr

def Width.size : Width → Nat
  | .byte => 1
  | .word => 2
  | .dword => 4

def Width.bits (w : Width) : Nat := 8 * w.size

/-! ## The selected register -/

def busAddr (x : BitVec 32) : BitVec 8 := ((x >>> 16) &&& 0xFF).setWidth 8

def devAddr (x : BitVec 32) : BitVec 8 := ((x >>> 11) &&& 0x1F).setWidth 8

def funAddr (x : BitVec 32) : BitVec 8 := ((x >>> 8) &&& 0x03).setWidth 8

/-- The register, counted in units of 32 bits. -/
def regAddr (x : BitVec 32) : Nat := ((x >>> 2) &&& 0x3F).toNat

/-- The BAR that a register holds. -/
def barIndex? (reg : Nat) : Option (Fin 6) :=
  if bar : 0x04 ≤ reg ∧ reg ≤ 0x09 then some ⟨reg - 0x04, by omega⟩ else none

/-! ## The plugin and its state -/

structure BarConfiguration where
  type : BitVec 64
  range : BitVec 64

/-- What `initialize` has read from the configuration file. -/
structure Plugin where
  nBus : BitVec 8
  nDevice : BitVec 8
  nFunction : BitVec 8
  barConfiguration : Fin 6 → BarConfiguration
  regVid : BitVec 32
  regPid : BitVec 32
  regSubVid : BitVec 32
  regSubPid : BitVec 32
  regClass : BitVec 32
  regBhlc : BitVec 32
  useCapability : Bool

/-- `sfpPCIDeviceHeader.reg`.  A register number has six bits; the array is longer. -/
abbrev Header := Nat → BitVec 32

/-- The part of an execution state that the plugin works on. -/
structure State where
  /-- the four bytes of `portIOMem` at 0xcf8 -/
  configAddress : BitVec 32
  header : Header
  pc : BitVec 64

def State.setReg (s : State) (reg : Nat) (value : BitVec 32) : State :=
  { s with header := Function.update s.header reg value }

@[simp] theorem State.setReg_header (s : State) (reg : Nat) (value : BitVec 32) :
    (s.setReg reg value).header = Function.update s.header reg value := rfl

section

variable (p : Plugin) (s : State)

/-- The register that `configAddress` selects. -/
def State.reg : Nat := regAddr s.configAddress

@[simp] theorem State.setReg_reg (reg : Nat) (value : BitVec 32) : (s.setReg reg value).reg = s.reg := rfl

/-- Writes to the capability list, in the order of `pluginInit2`. -/
def capabilities : List (Nat × BitVec 32) :=
  [(0x0D, 0xffffff50), (0x50 / 4, 0x7010), (0x70 / 4, 0x9001), (0x90 / 4, 0xc005), (0xc0 / 4, 0x11),
    (0xc0 / 4 + 1, 0x804)]

/-- What `pluginInit2` stores to the header. -/
def initialRegs : List (Nat × BitVec 32) :=
  (List.finRange 6).map (fun i => (0x04 + i.val, (p.barConfiguration i).type.setWidth 32)) ++
    [(0x00, p.regPid <<< 16 ||| p.regVid),
      (0x01, if p.useCapability then 0x00100000 else 0),
      (0x02, p.regClass), (0x03, p.regBhlc), (0x0A, 0xffffffff),
      (0x0B, p.regSubPid <<< 16 ||| p.regSubVid), (0x0C, 0xffffffff)] ++
    (if p.useCapability then capabilities else [(0x0D, 0xffffffff)]) ++
    [(0x0E, 0xffffffff), (0x0F, 0x000002ff)]

def pluginInit2 : State := (initialRegs p).foldl (fun s store => s.setReg store.1 store.2) s

/-! ## Which device, which BAR -/

def isOurDevice : Bool :=
  busAddr s.configAddress = p.nBus ∧ devAddr s.configAddress = p.nDevice ∧
    (1#32 <<< funAddr s.configAddress) &&& p.nFunction.setWidth 32 ≠ 0

def State.bar (i : Fin 6) : BitVec 32 := s.header (0x04 + i.val)

def getBarLowAddr (i : Fin 6) : BitVec 64 := (s.bar i).setWidth 64 &&& 0xFFFFFFF0

/-- The body of the loops of `fallsIntoPIOBar` and `fallsIntoMMIOBar`, for a BAR of the right type. -/
def barCovers (physAddr : BitVec 64) (i : Fin 6) : Bool :=
  let config := p.barConfiguration i
  let barlo := getBarLowAddr s i
  let barhi := (barlo + ~~~ config.range) &&& 0xFFFFFFF0
  s.bar i ≠ 0xffffffff ∧ s.bar i ≠ 0 ∧ (s.bar i).setWidth 64 ≠ config.type ∧ barlo ≤ physAddr ∧ physAddr ≤ barhi

def fallsIntoPIOBar (physAddr : BitVec 64) : Option (Fin 6) :=
  (List.finRange 6).find? fun i => (p.barConfiguration i).type = 1 && barCovers p s physAddr i

def fallsIntoMMIOBar (physAddr : BitVec 64) : Option (Fin 6) :=
  (List.finRange 6).find? fun i => (p.barConfiguration i).type = 0 && barCovers p s physAddr i

/-! ## Writes -/

def configBAR (i : Fin 6) (value : BitVec 32) : State :=
  if isOurDevice p s then
    s.setReg (0x04 + i.val)
      (if value = 0xffffffff then ((p.barConfiguration i).range &&& ~~~ 1).setWidth 32 else value &&& ~~~ 1)
  else s

/-- What a write leaves in a register that is not a BAR.  The offset of the port is not looked at. -/
def mergeReg (old : BitVec 32) (cvalue : BitVec 64) : Width → BitVec 32
  | .byte => (old &&& 0xffffff00) ||| cvalue.setWidth 32
  | .word => (old &&& 0xffff0000) ||| cvalue.setWidth 32
  | .dword => cvalue.setWidth 32

/-- A write to the ports 0xcfc to 0xcff. -/
def writeData (w : Width) (cvalue : BitVec 64) : State :=
  match barIndex? s.reg with
  | some i => configBAR p s i (cvalue.setWidth 32)
  | none => s.setReg s.reg (mergeReg (s.header s.reg) cvalue w)

/-- Reads are only written to the log. -/
def slotOnPortAccess (port : Expr 16) {w : Width} (value : Expr w.bits) (isWrite : Bool) : State :=
  if !isWrite then s
  else if port.concrete = 0xcf8 then { s with configAddress := value.concrete.setWidth 32 }
  else if 0xcfc ≤ port.concrete ∧ port.concrete ≤ 0xcff then writeData p s w value.concrete
  else s

/-! ## Reads -/

/-- `reg[offset]` of the register as four bytes -/
def getPCIReg8 (regidx offset : Nat) : BitVec 8 := (s.header regidx).extractLsb' (8 * offset) 8

/-- `reg[offset >> 1]` of the register as two words -/
def getPCIReg16 (regidx offset : Nat) : BitVec 16 := (s.header regidx).extractLsb' (16 * (offset >>> 1)) 16

def getPCIReg32 (regidx : Nat) : BitVec 32 := s.header regidx

/-- The code at `concend`. -/
def concreteReg (regidx offset : Nat) : (w : Width) → BitVec w.bits
  | .byte => getPCIReg8 s regidx offset
  | .word => getPCIReg16 s regidx offset
  | .dword => getPCIReg32 s regidx

def pioName (i : Fin 6) (address : BitVec 64) (w : Width) : Text :=
  "pex symdev bar ".toList ++ decimal i.val ++ " pio @ ".toList ++ hexval (address - getBarLowAddr s i).toNat ++
    " size ".toList ++ decimal w.size ++ " pc=".toList ++ hexval s.pc.toNat

/-- `concreteValue` is what the machine has read without the plugin. -/
def createExpressionPort (address : BitVec 64) (w : Width) (concreteValue : BitVec 64) : Expr w.bits :=
  match fallsIntoPIOBar p s address with
  | some i => .symbolic (pioName s i address w)
  | none =>
    if !isOurDevice p s then .constant (concreteValue.setWidth w.bits)
    else if address < 0xcfc ∨ 0xcff < address then .constant (concreteValue.setWidth w.bits)
    else match barIndex? s.reg with
      | some _ => .constant (((s.header s.reg).setWidth 64).setWidth w.bits)
      | none => .constant (concreteReg s s.reg (address - 0xcfc).toNat w)

end

end DevFuzz.PeX
