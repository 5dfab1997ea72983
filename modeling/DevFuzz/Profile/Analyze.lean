import DevFuzz.Lib.Strings

/-! # Registers that take DMA addresses

`analyze` of `tools/profile_dma.py` joins two logs of a profiling run: the register
writes that `ap_set_fuzz_data` prints, and the hypercalls by which the guest kernel
reports its DMA allocations.  A register that is given an address inside of the first
page of an allocation becomes a line of the generated model.

Python's exceptions are `none`.
-/

namespace DevFuzz.Profile

open DevFuzz.Lib.Strings

/-! ## The log of register writes -/

/-- `addr2reg`: a dictionary, with its keys and the sets of registers in the order of insertion. -/
structure Addr2Reg where
  keys : List Int
  regs : Int → List Int

/-- `regs.add(reg)` -/
def insertReg (reg : Int) (regs : List Int) : List Int := if reg ∈ regs then regs else regs ++ [reg]

def Addr2Reg.add (addr2reg : Addr2Reg) (val reg : Int) : Addr2Reg :=
  if val ∈ addr2reg.keys then
    { addr2reg with regs := Function.update addr2reg.regs val (insertReg reg (addr2reg.regs val)) }
  else { keys := addr2reg.keys ++ [val], regs := Function.update addr2reg.regs val [reg] }

/-- The separators of `re.split(r" |=", line)`. -/
def isSeparator (char : Char) : Bool := char == ' ' || char == '='

/-- One line of the log. -/
def wlogLine (addr2reg : Addr2Reg) (line : Text) : Option Addr2Reg :=
  match findFrom "INFO:write".toList (strip line) with
  | none => some addr2reg
  | some line => do
    let arr := line.splitOnP isSeparator
    let reg ← pyInt 16 (← arr[6]?)
    let val ← pyInt 16 (← arr[7]?)
    some (addr2reg.add val reg)

/-! ## The log of hypercalls -/

def isBlank (char : Char) : Bool := char == ' '

/-- One line of the log; `arr` is reversed, so that `arr[-1]` has index 0. -/
def klogLine (dmaaddrs : List (Int × Int)) (line : Text) : Option (List (Int × Int)) :=
  if search "kvm_hypercall: nr".toList (strip line) then do
    let arr := ((strip line).splitOnP isBlank).reverse
    if (← arr[0]?) = "0x0".toList then some dmaaddrs
    else if (← arr[6]?) = "0x1".toList then
      let addr ← pyInt 16 (← arr[0]?)
      let sz ← pyInt 16 (← arr[2]?)
      some (dmaaddrs ++ [(addr, sz)])
    else some dmaaddrs
  else some dmaaddrs

/-! ## The generated code -/

/-- The order in which Python walks through a set of integers. -/
structure SetOrder where
  iterate : List Int → List Int
  perm : ∀ regs, (iterate regs).Perm regs

inductive Setter where
  | setDMAReg
  | setDMATopHalfReg
  | setDMABottomHalfReg
  deriving DecidableEq, Repr

def Setter.name : Setter → Text
  | setDMAReg => "setDMAReg".toList
  | setDMATopHalfReg => "setDMATopHalfReg".toList
  | setDMABottomHalfReg => "setDMABottomHalfReg".toList

/-- A line of the code. -/
structure Statement where
  setter : Setter
  reg : Int
  sz : Int
  deriving DecidableEq, Repr

/-- `hex(value)` -/
def hex (value : Int) : Text := if 0 ≤ value then hexval value.toNat else '-' :: hexval (-value).toNat

def Statement.line (s : Statement) : Text :=
  "model->".toList ++ s.setter.name ++ "(".toList ++ hex s.reg ++ ", ".toList ++ hex s.sz ++ ");".toList

def code (statements : List Statement) : Text := statements.flatMap fun s => s.line ++ ['\n']

/-- The three loops that emit code, over the pairs of an allocation and a key that `hit` selects.
    `all_regs[0]` is the first register of the set. -/
def emitRegs (order : SetOrder) (setter : Setter) (hit : Int → Int → Bool) (addr2reg : Addr2Reg)
    (pairs : List (Int × Int)) : Option (List Statement) :=
  (pairs.flatMap fun pair => (addr2reg.keys.filter (hit pair.1)).map fun key => (key, pair.2)).mapM
    fun found => (order.iterate (addr2reg.regs found.1)).head?.map fun reg => ⟨setter, reg, found.2⟩

def emitDMARegs (order : SetOrder) : Addr2Reg → List (Int × Int) → Option (List Statement) :=
  emitRegs order .setDMAReg fun a k => a ≤ k && k - a < 4096

def emitTopHalfRegs (order : SetOrder) : Addr2Reg → List (Int × Int) → Option (List Statement) :=
  emitRegs order .setDMATopHalfReg fun a k => a == k

def emitBottomHalfRegs (order : SetOrder) : Addr2Reg → List (Int × Int) → Option (List Statement) :=
  emitRegs order .setDMABottomHalfReg fun a k => a == k

def analyze (order : SetOrder) (wlog klog : List Text) : Option Text := do
  let addr2reg ← wlog.foldlM wlogLine ⟨[], fun _ => []⟩
  let dmaaddrs ← klog.foldlM klogLine []
  -- `addr >> 16` and `addr & 0x0000ffff`
  let topHalfs := dmaaddrs.map fun pair => (pair.1 / 65536, pair.2)
  let bottomHalfs := dmaaddrs.map fun pair => (pair.1 % 65536, pair.2)
  let regs ← emitDMARegs order addr2reg dmaaddrs
  let top ← emitTopHalfRegs order addr2reg topHalfs
  let bottom ← emitBottomHalfRegs order addr2reg bottomHalfs
  some (code (regs ++ top ++ bottom))

/-! ## What the logs hold -/

/-- A call of `ap_set_fuzz_data`. -/
structure RegWrite where
  size : UInt64
  bar : Int
  reg : UInt64
  val : UInt64

def signedDecimal : Int → Text
  | .ofNat value => decimal value
  | .negSucc value => '-' :: decimal (value + 1)

/-- What `ap_set_fuzz_data` prints through `INFO`, without the colour codes. -/
def infoLine (size bar reg val : Text) : Text :=
  "INFO:write ".toList ++ size ++ " byte, bar ".toList ++ bar ++ " @ ".toList ++ reg ++ "=".toList ++ val

def RegWrite.info (w : RegWrite) : Text :=
  infoLine (decimal w.size.toNat) (signedDecimal w.bar) (hexval w.reg.toNat) (hexval w.val.toNat)

/-- A line of the console log: a write, behind whatever has been printed on the line before, or
    something else. -/
inductive WLogLine where
  | write (before : Text) (quiet : search "INFO:write".toList before = false) (w : RegWrite)
  | other (text : Text) (quiet : search "INFO:write".toList text = false)

def WLogLine.text : WLogLine → Text
  | write before _ w => before ++ w.info ++ ['\n']
  | other text _ => text

def WLogLine.write? : WLogLine → Option RegWrite
  | write _ _ w => some w
  | other _ _ => none

structure Hypercall where
  nr : UInt64
  a0 : UInt64
  a1 : UInt64
  a2 : UInt64
  a3 : UInt64

/-- What the tracepoint of KVM prints. -/
def traceLine (nr a0 a1 a2 a3 : Text) : Text :=
  "kvm_hypercall: nr ".toList ++ nr ++ " a0 ".toList ++ a0 ++ " a1 ".toList ++ a1 ++ " a2 ".toList ++ a2 ++
    " a3 ".toList ++ a3

def Hypercall.trace (call : Hypercall) : Text :=
  traceLine (hexval call.nr.toNat) (hexval call.a0.toNat) (hexval call.a1.toNat) (hexval call.a2.toNat)
    (hexval call.a3.toNat)

inductive KLogLine where
  | call (before : Text) (hypercall : Hypercall)
  | other (text : Text) (quiet : search "kvm_hypercall: nr".toList text = false)

def KLogLine.text : KLogLine → Text
  | .call before hypercall => before ++ hypercall.trace ++ ['\n']
  | .other text _ => text

/-- The allocation that a hypercall reports: `x86_hyper_call(0, 1, 2, size, addr)`. -/
def Hypercall.allocation? (call : Hypercall) : Option (UInt64 × UInt64) :=
  if call.a0 = 1 ∧ call.a3 ≠ 0 then some (call.a3, call.a2) else none

def KLogLine.allocation? : KLogLine → Option (UInt64 × UInt64)
  | .call _ hypercall => hypercall.allocation?
  | .other _ _ => none

end DevFuzz.Profile
