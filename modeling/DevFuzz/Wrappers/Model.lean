import DevFuzz.Lib.Collections
import DevFuzz.Lib.Search
import Mathlib.Data.List.AList
import Mathlib.Order.Defs.LinearOrder

/-! # Wrappers of register reads

`collectMMIOReadWrappers` of `stage2/src/apstage2.cpp`.  A driver reads its registers
through functions of its own.  Their table `mmioReadWrappers` gives for a function the
base of the region, the offset of the register and the size of the read.  The
offset is one integer: `-c` for a constant `c`, or the index of the parameter that
holds it.  `getOffsetSizeInMMIOReadCall` takes it apart again where a wrapper is
called.
-/

namespace DevFuzz.Wrappers

open DevFuzz.Lib

/-! ## Programs -/

/-- Conversion to the `int` of the source. -/
def toInt (n : Int) : Int := n.bmod 4294967296

/-- An operand, as far as `getParamIndex` looks into it. -/
inductive Value where
  | constantInt (value : UInt64)
  | argument (no : Nat)
  | cast (v : Value)
  | other
  deriving DecidableEq, Repr

structure Call (φ : Type) where
  caller : φ
  args : List Value
  /-- `valueIsReturned` -/
  returned : Bool

/-- The key is the member of a structure that the callee is loaded from, where the source finds one. -/
structure IndirectCall (φ κ : Type) extends Call φ where
  key : Option κ

/-- What `getGEPOffset` gives for a constant offset; the source asserts that it is not `-1`. -/
abbrev GEPOffset := { offset : UInt64 // toInt offset.toNat ≠ -1 }

inductive Pointer where
  | gepIndex (offset : Value)
  | gepConstant (offset : GEPOffset)
  | add (op1 : Value)
  | other

structure IoRead (φ : Type) where
  func : φ
  returned : Bool
  size : Int
  /-- `findMMIOBaseOff` -/
  baseOff : Int
  pointer : Pointer

/-- The parts of a module that the analysis uses. -/
structure Module (φ κ : Type) where
  callIoReads : List (IoRead φ)
  funcCallSites : φ → List (Call φ)
  indirectCalls : List (IndirectCall φ κ)
  func2KMI : φ → List κ

/-! ## Offsets of wrappers -/

def Value.getParamIndex : Value → Int
  | argument no => no
  | cast v => v.getParamIndex
  | constantInt _ | other => -1

/-- The elements of an entry: base, offset parameter and size. -/
structure Wrapper where
  base : Int
  offsetParamId : Int
  size : Int
  deriving DecidableEq, Repr

def Wrapper.toList (w : Wrapper) : List Int := [w.base, w.offsetParamId, w.size]

/-- The offset in the caller: a negative one is a constant, and `-1` is none.  An operand beyond the
    arguments is the called function, which is no argument of the caller. -/
def callerParamId (param : Int) (args : List Value) : Int :=
  if param < 0 then param else (args.getD param.toNat .other).getParamIndex

def Wrapper.inCaller (w : Wrapper) (args : List Value) : Option Wrapper :=
  if callerParamId w.offsetParamId args = -1 then none
  else some { w with offsetParamId := callerParamId w.offsetParamId args }

/-- The offset that `collectMMIOReadInterface` starts with. -/
def Pointer.offsetParam : Pointer → Option Int
  | gepIndex offset => if offset.getParamIndex = -1 then none else some offset.getParamIndex
  | gepConstant offset => some (toInt (-toInt offset.1.toNat))
  | add (.constantInt value) => some (toInt (-toInt value.toNat))
  | add _ | other => none

def IoRead.wrapper? {φ : Type} (r : IoRead φ) : Option Wrapper :=
  r.pointer.offsetParam.map fun param => ⟨if r.baseOff = -1 then 0 else r.baseOff, param, r.size⟩

/-- `getOffsetSizeInMMIOReadCall`: offset and size of the read that a call of a wrapper makes. -/
def getOffsetSizeInMMIOReadCall (args : List Value) : List Int → Option (Int × Int)
  | [base, param, size] =>
    if param < 0 then some (toInt (base + toInt (-param)), size)
    else match args.getD param.toNat .other with
      | .constantInt off => some (toInt (base + off.toNat), size)
      | _ => none
  | _ => none

/-! ## The tables -/

section

variable (φ κ : Type) [LinearOrder φ]

/-- `mmioReadWrappers` and `kmi2Funcs`; the functions of a set are in the order of their addresses. -/
structure Tables where
  mmioReadWrappers : AList fun _ : φ => List Int
  kmi2Funcs : AList fun _ : κ => OrderedSet φ

end

section

variable {φ κ : Type} [LinearOrder φ] [DecidableEq κ]

namespace Tables

def empty : Tables φ κ := ⟨∅, ∅⟩

/-- `mmioReadWrappers[func] = w` -/
def setWrapper (t : Tables φ κ) (func : φ) (w : Wrapper) : Tables φ κ :=
  { t with mmioReadWrappers := t.mmioReadWrappers.insert func w.toList }

/-- `kmi2Funcs[key].insert(func)` -/
def insertFunc (func : φ) (t : Tables φ κ) (key : κ) : Tables φ κ :=
  { t with kmi2Funcs := t.kmi2Funcs.insert key (((t.kmi2Funcs.lookup key).getD .empty).insert func) }

/-- The elements of an entry, which the source takes without a check. -/
def wrapper? (t : Tables φ κ) (func : φ) : Option Wrapper :=
  match t.mmioReadWrappers.lookup func with
  | some [base, param, size] => some ⟨base, param, size⟩
  | _ => none

/-- The read that a call of `func` makes, in `collectMMIOReadSources`. -/
def readSource (t : Tables φ κ) (func : φ) (args : List Value) : Option (Int × Int) :=
  (t.mmioReadWrappers.lookup func).bind (getOffsetSizeInMMIOReadCall args)

end Tables

namespace Module

variable (M : Module φ κ)

/-- `MMIOReadCallGraphBackwardSlicing`: a function enters the tables before its callers. -/
def slicing : Walker φ Wrapper (Tables φ κ) where
  visit func w t := (M.func2KMI func).foldl (Tables.insertFunc func) (t.setWrapper func w)
  next func w := (M.funcCallSites func).filterMap fun call =>
    if call.returned then (w.inCaller call.args).map (call.caller, ·) else none

/-- One call through a function pointer, with one of the functions that it may call. -/
def indirectCallee (call : IndirectCall φ κ) (st : Tables φ κ × OrderedSet φ) (calledFunc : φ) :
    Option (Tables φ κ × OrderedSet φ) :=
  (st.1.wrapper? calledFunc).map fun vec =>
    match vec.inCaller call.args with
    | none => st
    | some w => (st.1.setWrapper call.caller w, st.2.insert call.caller)

def indirectCall (st : Tables φ κ × OrderedSet φ) (call : IndirectCall φ κ) : Option (Tables φ κ × OrderedSet φ) :=
  match call.key.bind st.1.kmi2Funcs.lookup with
  | none => some st
  | some funcs => if call.returned then funcs.elements.foldlM (indirectCallee call) st else some st

def collectIndirectMMIOReadWrappers (t : Tables φ κ) : Option (Tables φ κ × OrderedSet φ) :=
  M.indirectCalls.foldlM indirectCall (t, .empty)

variable [Fintype φ]

/-- The recursion is not deeper than the number of functions. -/
def MMIOReadCallGraphBackwardSlicing (func : φ) (w : Wrapper) (st : List φ × Tables φ κ) :
    Option (List φ × Tables φ κ) :=
  M.slicing.run (Fintype.card φ + 1) (func, w) st

/-- One read of `collectMMIOReadInterface`. -/
def ioRead (st : List φ × Tables φ κ) (r : IoRead φ) : Option (List φ × Tables φ κ) :=
  match if r.returned then r.wrapper? else none with
  | none => some st
  | some w => M.MMIOReadCallGraphBackwardSlicing r.func w st

def collectMMIOReadInterface (t : Tables φ κ) : Option (Tables φ κ) :=
  (M.callIoReads.foldlM M.ioRead ([], t)).map Prod.snd

/-- One of the functions that `collectIndirectMMIOReadWrappers` has found. -/
def indirectWrapper (st : List φ × Tables φ κ) (func : φ) : Option (List φ × Tables φ κ) :=
  (st.2.wrapper? func).bind fun w => M.MMIOReadCallGraphBackwardSlicing func w st

/-- One round of the loop in `collectMMIOReadWrappers`. -/
def round (t : Tables φ κ) : Option (Tables φ κ) :=
  (M.collectIndirectMMIOReadWrappers t).bind fun found =>
    (found.2.elements.foldlM M.indirectWrapper ([], found.1)).map Prod.snd

end Module

/-- The loop ends when neither table has grown. -/
def Tables.sameSizes (s t : Tables φ κ) : Bool :=
  s.mmioReadWrappers.keys.length = t.mmioReadWrappers.keys.length ∧ s.kmi2Funcs.keys.length = t.kmi2Funcs.keys.length

/-- Every round but the last adds a function. -/
def Module.collectMMIOReadWrappers [Fintype φ] (M : Module φ κ) : Option (Tables φ κ) :=
  (M.collectMMIOReadInterface .empty).bind (repeatUntil M.round Tables.sameSizes (Fintype.card φ + 1))

end

end DevFuzz.Wrappers
